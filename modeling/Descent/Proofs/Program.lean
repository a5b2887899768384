import Descent.Objective

/-!
# Programs that succeed

What a successful program has done, for the programs with a state and an error that the methods
are written in. Each `*_ok` lemma takes a success apart, each `*_of_ok` lemma puts one together.

* `bind_ok`, `bind_of_ok`, `bind_congr_of_ok`: a sequence of two programs; `check_bind_ok`: of two
  checks.
* `bind_pure_error_iff`: a program that only passes a result on fails as the one that gives it.
* `liftM_ok`, `liftM_of_ok`: a check made inside a program.
* `tryDot_ok`, `tryRay_ok`, `tryCombine_ok`: the checked vector operations.
* `note_run`, `note?_run`: reports never fail.
* `Succeeds`: a program returns and its result passes a test. For closed programs that can be
  decided.
-/

namespace Descent

section Sequence

variable {ε σ α β : Type} {s s' : σ}

theorem bind_ok {x : EStateM ε σ α} {k : α → EStateM ε σ β} {b : β}
    (h : (x >>= k) s = .ok b s') : ∃ a s₁, x s = .ok a s₁ ∧ k a s₁ = .ok b s' := by
  change EStateM.bind x k s = _ at h
  unfold EStateM.bind at h
  cases hx : x s with
  | ok a s₁ => rw [hx] at h; exact ⟨a, s₁, rfl, h⟩
  | error e s₁ => rw [hx] at h; cases h

theorem bind_of_ok {x : EStateM ε σ α} {k : α → EStateM ε σ β} {a : α}
    (h : x s = .ok a s') : (x >>= k) s = k a s' := by
  change EStateM.bind x k s = _
  unfold EStateM.bind
  rw [h]

/-- Two programs that go on in the same way from all that a program can return. -/
theorem bind_congr_of_ok {x : EStateM ε σ α} {k k' : α → EStateM ε σ β}
    (h : ∀ s a s', x s = .ok a s' → k a = k' a) : x >>= k = x >>= k' := by
  funext s
  change EStateM.bind x k s = EStateM.bind x k' s
  unfold EStateM.bind
  cases hx : x s with
  | ok a s' => simp only [h s a s' hx]
  | error e s' => rfl

/-- Checks one after the other were all passed. -/
theorem check_bind_ok {x : Except ε α} {k : α → Except ε β} {b : β} (h : x >>= k = .ok b) :
    ∃ a, x = .ok a ∧ k a = .ok b := by
  cases x with
  | ok a => exact ⟨a, rfl, h⟩
  | error _ => cases h

theorem pure_ok {a b : α} (h : (pure a : EStateM ε σ α) s = .ok b s') : b = a ∧ s' = s := by
  cases h
  exact ⟨rfl, rfl⟩

/-- A program fails as the one whose result it passes on. -/
theorem bind_pure_error_iff {x : EStateM ε σ α} {F : α → β} {e : ε} :
    (x >>= fun a => pure (F a)) s = .error e s' ↔ x s = .error e s' := by
  change EStateM.bind x _ s = _ ↔ _
  unfold EStateM.bind
  cases x s with
  | ok a s₁ => exact iff_of_false nofun nofun
  | error e₁ s₁ => constructor <;> (intro h; cases h; rfl)

/-- A check that was passed inside a program has left the state alone. -/
theorem liftM_ok {e : Except ε α} {a : α} (h : (liftM e : EStateM ε σ α) s = .ok a s') :
    e = .ok a ∧ s' = s := by
  cases e with
  | ok b => cases h; exact ⟨rfl, rfl⟩
  | error _ => cases h

theorem liftM_of_ok {e : Except ε α} {a : α} (h : e = .ok a) :
    (liftM e : EStateM ε σ α) s = .ok a s := by
  subst h
  rfl

/-- A program has returned, and what it returned passes a test. -/
def Succeeds (test : α → σ → Bool) : EStateM.Result ε σ α → Bool
  | .ok a s => test a s
  | .error _ _ => false

theorem Succeeds.exists_ok {test : α → σ → Bool} {r : EStateM.Result ε σ α}
    (h : Succeeds test r = true) : ∃ a s, r = .ok a s ∧ test a s = true := by
  cases r with
  | ok a s => exact ⟨a, s, rfl, h⟩
  | error _ _ => cases h

end Sequence

/-! ## Checked vector operations -/

section Checks

variable {V S : Type} [Space V S] {v w u : V} {a b : S}

/-- A result that is given only if a check was passed. -/
theorem requireEqual_ok {α : Type} {m n : Nat} {c d : α}
    (h : (do requireEqual m n; return c : Except LengthMismatch α) = .ok d) : m = n ∧ d = c := by
  by_cases hmn : m = n
  · rw [requireEqual_of_eq hmn] at h
    cases h
    exact ⟨hmn, rfl⟩
  · rw [requireEqual_of_ne hmn] at h
    cases h

theorem tryDot_ok (h : Space.tryDot v w = .ok a) :
    Space.dimension v = Space.dimension w ∧ a = Space.dot v w :=
  requireEqual_ok h

theorem tryRay_ok (h : Space.tryRay v w a = .ok u) :
    Space.dimension v = Space.dimension w ∧ u = Space.ray v w a :=
  requireEqual_ok h

theorem tryCombine_ok (h : Space.tryCombine v a w b = .ok u) :
    Space.dimension v = Space.dimension w ∧ u = Space.combine v a w b :=
  requireEqual_ok h

end Checks

/-! ## Reports -/

section Reports

variable {σ V S : Type} (session : Session σ V S)

theorem note_run (e : Event S) :
    note e session = .ok () { session with log := session.log.push e } := rfl

theorem note?_run (e : Option (Event S)) :
    note? e session = .ok () { session with log := session.log ++ e.toArray } := by
  cases e with
  | none => simp [note?, pure, EStateM.pure]
  | some e => simp [note?, note_run]

end Reports

end Descent
