import Descent.Proofs.Program

/-!
# What a run leaves behind

* `Evaluation.point`: what a call of the objective has found at its point.
* `Calls f st es st'`: the calls `es` of `f`, one after the other, take its state from `st` to
  `st'`.
* `Objective.Computes`: an objective whose answers depend on the point alone.
* `Session.Extends`: a session has grown by these calls, and only by them. Its log does not matter.
* `evaluate_ok`: an evaluation extends a session by one call.
* `Recorder.recordAll`: many values recorded, one after the other.
* `contents_ok`: a program that returns what it has recorded.
-/

namespace Descent

variable {σ V S : Type}

/-- The point of a call with the value and the gradient that it gave. -/
def Evaluation.point (e : Evaluation V S) : Point V S where
  x := e.x
  value := e.value
  gradient := e.gradient

/-- The calls `es`, one after the other, take the state of the objective from `st` to `st'`. -/
inductive Calls (f : Objective σ V S) : σ → List (Evaluation V S) → σ → Prop where
  | nil {st : σ} : Calls f st [] st
  | cons {st st₁ st' : σ} {e : Evaluation V S} {es : List (Evaluation V S)}
      (call : (f e.x e.buffer).run st = ((e.value, e.gradient), st₁)) (rest : Calls f st₁ es st') :
      Calls f st (e :: es) st'

theorem Calls.append {f : Objective σ V S} {st st₁ st' : σ} {es es' : List (Evaluation V S)}
    (h : Calls f st es st₁) (h' : Calls f st₁ es' st') : Calls f st (es ++ es') st' := by
  induction h with
  | nil => exact h'
  | cons call _ ih => exact .cons call (ih h')

/-- The value and the gradient depend on the point alone. The objective may still change its
state. -/
def Objective.Computes (f : Objective σ V S) (value : V → S) (gradient : V → V) : Prop :=
  ∀ x buffer st, ((f x buffer).run st).1 = (value x, gradient x)

theorem Calls.computed {f : Objective σ V S} {value : V → S} {gradient : V → V}
    (hf : f.Computes value gradient) {st st' : σ} {es : List (Evaluation V S)}
    (h : Calls f st es st') : ∀ e ∈ es, e.value = value e.x ∧ e.gradient = gradient e.x := by
  induction h with
  | nil => simp
  | @cons st _ _ e _ call _ ih =>
    have hanswer := hf e.x e.buffer st
    rw [call] at hanswer
    exact List.forall_mem_cons.mpr ⟨Prod.mk.inj hanswer, ih⟩

namespace Session

variable {f : Objective σ V S} {a b c : Session σ V S} {es es' : List (Evaluation V S)}

/-- `after` is `before` with the calls `es` of `f` added; the log may be any. -/
structure Extends (f : Objective σ V S) (before : Session σ V S) (es : List (Evaluation V S))
    (after : Session σ V S) : Prop where
  evaluations_eq : after.evaluations.toList = before.evaluations.toList ++ es
  calls : Calls f before.state es after.state

theorem Extends.refl (f : Objective σ V S) (a : Session σ V S) : a.Extends f [] a :=
  ⟨(List.append_nil _).symm, .nil⟩

theorem Extends.trans (h : a.Extends f es b) (h' : b.Extends f es' c) :
    a.Extends f (es ++ es') c :=
  ⟨by rw [h'.evaluations_eq, h.evaluations_eq, List.append_assoc], h.calls.append h'.calls⟩

/-- Reports behind the last call change nothing. -/
theorem Extends.setLog (h : a.Extends f es b) (log : Array (Event S)) :
    a.Extends f es { b with log } :=
  ⟨h.evaluations_eq, h.calls⟩

/-- The calls are what the later session has more. -/
theorem Extends.drop_evaluations (h : a.Extends f es b) :
    b.evaluations.toList.drop a.evaluations.size = es := by
  rw [h.evaluations_eq, ← Array.length_toList, List.drop_left]

end Session

/-- An evaluation is one call, at the given point and with the given buffer. -/
theorem evaluate_ok {f : Objective σ V S} {x buffer : V} {p : Point V S} {s s' : Session σ V S}
    (h : evaluate f x buffer s = .ok p s') :
    ∃ e : Evaluation V S, e.x = x ∧ e.buffer = buffer ∧ e.point = p ∧ s.Extends f [e] s' ∧
      s'.log = s.log := by
  cases h
  exact ⟨⟨x, buffer, _, _⟩, rfl, rfl, rfl, ⟨by simp, .cons rfl .nil⟩, rfl⟩

namespace Recorder

variable {α : Type} (r : Recorder α)

/-- Puts values at the end, in order. -/
def recordAll (l : List α) : Recorder α :=
  r.map (· ++ l.toArray)

@[simp] theorem recordAll_nil : r.recordAll [] = r := by
  cases r <;> simp [recordAll]

@[simp] theorem recordAll_record (a : α) (l : List α) :
    (r.record a).recordAll l = r.recordAll (a :: l) := by
  cases r <;> simp [recordAll]

theorem record_recordAll (l : List α) (a : α) :
    (r.recordAll l).record a = r.recordAll (l ++ [a]) := by
  cases r <;> simp [recordAll]

theorem recordAll_append (l l' : List α) :
    r.recordAll (l ++ l') = (r.recordAll l).recordAll l' := by
  cases r <;> simp [recordAll]

theorem isSome_recordAll (l : List α) : (r.recordAll l).isSome = r.isSome := Option.isSome_map

theorem toList_contents_recordAll (old : Array α) (l : List α) :
    (recordAll (some old) l).contents.toList = old.toList ++ l := by
  simp [recordAll]

/-- What was recorded first stands in front of what is recorded later. -/
theorem prefix_contents_recordAll (old : Array α) (l l' : List α) :
    old.toList ++ l <+: ((recordAll (some old) l).recordAll l').contents.toList := by
  rw [← recordAll_append, toList_contents_recordAll, ← List.append_assoc]
  exact List.prefix_append _ _

end Recorder

/-- A program that returns what it has recorded is one that works with a recorder. -/
theorem contents_ok {ε τ α β : Type} {run : EStateM ε τ (α × Recorder β)} {s s' : τ} {a : α}
    {records : Array β}
    (h : (run >>= fun r => pure (r.1, r.2.contents)) s = .ok (a, records) s') :
    ∃ history, run s = .ok (a, history) s' ∧ records = history.contents := by
  obtain ⟨⟨a', history⟩, s₁, hrun, hpure⟩ := bind_ok h
  obtain ⟨hpair, rfl⟩ := pure_ok hpure
  cases hpair
  exact ⟨history, hrun, rfl⟩

end Descent
