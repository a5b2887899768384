import Descent.Minimizer.FixedRate
import Descent.Minimizer.PolakRibiere
import Descent.Minimizer.SteepestDescent
import Descent.Proofs.Program

/-!
# Loops with a budget

The loops of the minimizers make steps until a test holds or a budget is used up.

* `Loops stop halt step loop`: `loop n` makes at most `n` such steps. `FixedRate.loops`,
  `SteepestDescent.loops` and `PolakRibiere.loops` are the three loops.
* `Loops.commutes`: what commutes with a step, and changes nothing that ends a loop, commutes with
  the loop.
* `Visits`: the states from which a loop makes its steps, those of a step that fails included. What
  the steps preserve holds in all of them (`Visits.invariant`), and from each of them the loop goes
  on (`Visits.resumes`).
* `Loops.shorter`: with a smaller budget a loop does the same, or else it stops at a state from
  which the loop with the larger budget goes on.
-/

namespace Descent

section Programs

variable {ε τ α : Type}

/-- `loop n` makes at most `n` steps. It stops before a step where `stop` holds, and behind a step
that has led to where `halt` holds. -/
structure Loops (stop halt : α → Prop) [DecidablePred stop] [DecidablePred halt]
    (step : α → EStateM ε τ α) (loop : Nat → α → EStateM ε τ α) : Prop where
  zero (s : α) : loop 0 s = pure s
  succ (n : Nat) (s : α) : loop (n + 1) s =
    if stop s then pure s else step s >>= fun t => if halt t then pure t else loop n t

/-- A change of the state that commutes with a step, and that neither test notices, commutes with
the loop. -/
theorem Loops.commutes {stop halt : α → Prop} [DecidablePred stop] [DecidablePred halt]
    {step : α → EStateM ε τ α} {loop : Nat → α → EStateM ε τ α} (h : Loops stop halt step loop)
    (F : α → α) (hstop : ∀ s, stop (F s) ↔ stop s) (hhalt : ∀ s, halt (F s) ↔ halt s)
    (hstep : ∀ s, step (F s) = F <$> step s) (n : Nat) (s : α) :
    loop n (F s) = F <$> loop n s := by
  induction n generalizing s with
  | zero => rw [h.zero, h.zero, map_pure]
  | succ n ih =>
    rw [h.succ, h.succ]
    by_cases hs : stop s
    · rw [if_pos hs, if_pos ((hstop s).mpr hs), map_pure]
    rw [if_neg hs, if_neg (mt (hstop s).mp hs), hstep, bind_map_left, map_bind]
    refine bind_congr fun t => ?_
    by_cases ht : halt t
    · rw [if_pos ht, if_pos ((hhalt t).mpr ht), map_pure]
    · rw [if_neg ht, if_neg (mt (hhalt t).mp ht), ih]

/-- A loop of at most `n` steps from `s` comes to `t`, from where it is to make a step. That step
may fail. -/
inductive Visits (stop halt : α → Prop) (step : α → EStateM ε τ α) :
    Nat → α → τ → α → τ → Prop where
  | here {n : Nat} {s : α} {σ : τ} (go : ¬stop s) : Visits stop halt step (n + 1) s σ s σ
  | later {n : Nat} {s u t : α} {σ σ₁ σ' : τ} (go : ¬stop s) (made : step s σ = .ok u σ₁)
      (on : ¬halt u) (rest : Visits stop halt step n u σ₁ t σ') :
      Visits stop halt step (n + 1) s σ t σ'

/-- What holds at first and is preserved by every step that does not end the loop holds wherever the
loop makes a step. -/
theorem Visits.invariant {stop halt : α → Prop} {step : α → EStateM ε τ α} {P : α → Prop} {n : Nat}
    {s t : α} {σ σ' : τ} (h : Visits stop halt step n s σ t σ') (initial : P s)
    (preserved : ∀ s σ t σ', P s → step s σ = .ok t σ' → ¬halt t → P t) : P t := by
  induction h with
  | here => exact initial
  | later _ made on _ ih => exact ih (preserved _ _ _ _ initial made on)

section Loop

variable {stop halt : α → Prop} [DecidablePred stop] [DecidablePred halt]
  {step : α → EStateM ε τ α} {loop loop' : Nat → α → EStateM ε τ α} {n n' : Nat} {s s' t : α}
  {σ σ' : τ}

/-- From where a loop is to make a step it does what it does from its start. -/
theorem Visits.resumes (h : Loops stop halt step loop)
    (hvisits : Visits stop halt step n s σ t σ') :
    ¬stop t ∧ ∃ k, loop n s σ = loop (k + 1) t σ' := by
  induction hvisits with
  | @here n _ _ go => exact ⟨go, n, rfl⟩
  | later go made on _ ih =>
    obtain ⟨hgo, k, hrest⟩ := ih
    refine ⟨hgo, k, ?_⟩
    rw [h.succ, if_neg go, bind_of_ok made, if_neg on, hrest]

/-- Two loops with the same steps, one of which has returned. With a smaller budget the other one
either ends in the same way, or it makes as many steps as it may and stops where the first one is to
make its next step. A function that counts the steps tells how many that are. -/
theorem Loops.shorter (h : Loops stop halt step loop) (h' : Loops stop halt step loop')
    {count : α → Nat} (hcount : ∀ s σ t σ', step s σ = .ok t σ' → count t = count s + 1)
    (hle : n ≤ n') (hrun : loop' n' s σ = .ok s' σ') :
    ∃ t σ₁, loop n s σ = .ok t σ₁ ∧
      ((count t ≤ count s + n ∧ t = s' ∧ σ₁ = σ') ∨
        (count t = count s + n ∧ Visits stop halt step n' s σ t σ₁)) := by
  induction n generalizing s σ n' with
  | zero =>
    refine ⟨s, σ, by rw [h.zero]; rfl, ?_⟩
    cases n' with
    | zero =>
      rw [h'.zero] at hrun
      obtain ⟨rfl, rfl⟩ := pure_ok hrun
      exact .inl ⟨Nat.le_refl _, rfl, rfl⟩
    | succ k =>
      by_cases hs : stop s
      · rw [h'.succ, if_pos hs] at hrun
        obtain ⟨rfl, rfl⟩ := pure_ok hrun
        exact .inl ⟨Nat.le_refl _, rfl, rfl⟩
      · exact .inr ⟨rfl, .here hs⟩
  | succ n ih =>
    obtain ⟨n', rfl⟩ := Nat.exists_eq_add_of_le' (Nat.one_le_of_lt hle)
    rw [h'.succ] at hrun
    rw [h.succ]
    by_cases hs : stop s
    · rw [if_pos hs] at hrun ⊢
      obtain ⟨rfl, rfl⟩ := pure_ok hrun
      exact ⟨_, _, rfl, .inl ⟨Nat.le_add_right _ _, rfl, rfl⟩⟩
    rw [if_neg hs] at hrun ⊢
    obtain ⟨u, σ₂, hstep, hrest⟩ := bind_ok hrun
    have hmade := hcount _ _ _ _ hstep
    rw [bind_of_ok hstep]
    by_cases hu : halt u
    · rw [if_pos hu] at hrest ⊢
      obtain ⟨rfl, rfl⟩ := pure_ok hrest
      exact ⟨_, _, rfl, .inl ⟨by omega, rfl, rfl⟩⟩
    rw [if_neg hu] at hrest ⊢
    obtain ⟨t, σ₁, hshort, hcase⟩ := ih (Nat.le_of_succ_le_succ hle) hrest
    refine ⟨t, σ₁, hshort, hcase.imp ?_ ?_⟩
    · rintro ⟨hsteps, hsame⟩
      exact ⟨by omega, hsame⟩
    · rintro ⟨hsteps, hvisits⟩
      exact ⟨by omega, .later hs hstep hu hvisits⟩

end Loop

end Programs

/-! ## The minimizers -/

variable {σ V S : Type} [Scalar S] [Space V S] {f : Objective σ V S}

theorem FixedRate.loops (m : FixedRate S) :
    Loops (fun s : State V S => m.stopping.Converged s.current) (fun _ => False) (m.step f)
      (m.iterate f) :=
  ⟨fun _ => rfl, fun _ _ => rfl⟩

/-- The loop also stops behind a search that has failed. -/
theorem SteepestDescent.loops (m : SteepestDescent S) :
    Loops (fun s : State V S => m.stopping.Converged s.current)
      (fun s => (s.lastStep == 0) = true) (m.step f) (m.iterate f) :=
  ⟨fun _ => rfl, fun _ _ => rfl⟩

theorem PolakRibiere.loops (m : PolakRibiere S) :
    Loops (fun s : State V S => m.stopping.Converged s.current) (fun _ => False) (m.step f)
      (m.iterate f) :=
  ⟨fun _ => rfl, fun _ _ => rfl⟩

end Descent
