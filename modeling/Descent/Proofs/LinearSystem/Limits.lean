import Descent.Proofs.LinearSystem.Iterations

/-!
# Where the linear solver stops

For any scalars. An iteration does not know the limit, so where a run stops is a function of how
many iterations it does.

* `limitedTo`: the same solver with another limit.
* `State.after`, `Outcome.state_eq`: the state in which a run ends, from its iterations alone.
* `Outcome.iterations_le`, `Outcome.ended`: a run does not do more iterations than it may, and if it
  does less it has converged or come to a direction without curvature.
* `Outcome.iterations_le_of_ended`: it does not go on from such a state.
* `Outcome.iterations_eq_min`: how many iterations two runs do that differ in their limits.
* `State.entries_prefix`, `Arrives.prefix_record`: the records of fewer iterations are the first of
  those of more.
-/

namespace Descent

namespace ConjugateGradient

variable {S : Type} [Scalar S] {m : ConjugateGradient S} {a : DenseMatrix S} {s s' t : State S}
  {budget steps steps' n N k : Nat}

/-- The same solver with the limit `n`. -/
def limitedTo (m : ConjugateGradient S) (n : Nat) : ConjugateGradient S :=
  { m with limit := some n }

/-- The state after `k` iterations if no more follow: the last one has turned unless the residual is
small enough. -/
def State.after (m : ConjugateGradient S) (a : DenseMatrix S) (s : State S) : Nat → State S
  | 0 => s
  | k + 1 =>
    if m.Converged ((s.head a k).advanced a) then (s.head a k).advanced a else s.head a (k + 1)

theorem State.after_of_unsolved (h : ¬m.Converged (s.head a k)) : s.after m a k = s.head a k := by
  cases k with
  | zero => rfl
  | succ k => exact if_neg h

theorem Outcome.iterations_le (h : Outcome m a s budget steps s') (hzero : s.iterations = 0) :
    s'.iterations ≤ budget := by
  have hcount := State.iterations_head_of_zero (a := a) hzero
  cases h with
  | atOnce => exact hzero ▸ Nat.zero_le budget
  | iterated _ exit =>
    cases exit with
    | exhausted => exact Nat.le_of_eq (hcount budget)
    | @stuck k before =>
      rw [hcount]
      exact Nat.le_of_lt before
    | @solved k before =>
      rw [State.iterations_advanced_head hzero]
      exact before

/-- A run that has iterations left has stopped at a small residual or at a direction without
curvature. -/
theorem Outcome.ended (h : Outcome m a s budget steps s') (hzero : s.iterations = 0)
    (hlt : s'.iterations < budget) :
    (s.head a s'.iterations).Stuck a ∨ m.Converged (s.head a s'.iterations) := by
  have hcount := State.iterations_head_of_zero (a := a) hzero
  cases h with
  | atOnce converged =>
    rw [hzero]
    exact .inr converged
  | iterated _ exit =>
    cases exit with
    | exhausted =>
      rw [hcount] at hlt
      exact absurd hlt (Nat.lt_irrefl _)
    | @stuck k _ _ stuck =>
      rw [hcount]
      exact .inl stuck
    | @solved k _ _ _ converged =>
      rw [State.iterations_advanced_head hzero]
      exact .inr converged

theorem Outcome.state_eq (h : Outcome m a s budget steps s') (hzero : s.iterations = 0) :
    s' = s.after m a s'.iterations := by
  have hcount := State.iterations_head_of_zero (a := a) hzero
  cases h with
  | atOnce =>
    rw [hzero]
    rfl
  | iterated unsolved exit =>
    cases exit with
    | exhausted moves =>
      rw [hcount]
      exact (State.after_of_unsolved (unsolved_of_moves unsolved moves _ (Nat.le_refl _))).symm
    | @stuck k _ moves =>
      rw [hcount]
      exact (State.after_of_unsolved (unsolved_of_moves unsolved moves _ (Nat.le_refl _))).symm
    | @solved k _ _ _ converged =>
      rw [State.iterations_advanced_head hzero]
      exact (if_pos converged).symm

/-- A run does not go on from a head at which it has converged or gets stuck. -/
theorem Outcome.iterations_le_of_ended (h : Outcome m a s budget steps s')
    (hzero : s.iterations = 0) (hend : (s.head a k).Stuck a ∨ m.Converged (s.head a k)) :
    s'.iterations ≤ k := by
  refine Nat.le_of_not_lt fun hmore => ?_
  have harrives := h.arrives hzero
  rcases hend with hstuck | hconv
  · exact harrives.free k hmore hstuck
  · exact harrives.unsolved k hmore hconv

/-- Nor does it go on from where another one has stopped with iterations left. -/
theorem Outcome.iterations_le_of_lt (h : Outcome (m.limitedTo n) a s n steps t)
    (h' : Outcome (m.limitedTo N) a s N steps' s') (hzero : s.iterations = 0)
    (hlt : s'.iterations < N) : t.iterations ≤ s'.iterations :=
  h.iterations_le_of_ended hzero (h'.ended hzero hlt)

/-- The smaller of two limits is used up unless it is enough for the run with the larger one. -/
theorem Outcome.iterations_eq_min (h : Outcome (m.limitedTo n) a s n steps t)
    (h' : Outcome (m.limitedTo N) a s N steps' s') (hle : n ≤ N) (hzero : s.iterations = 0) :
    t.iterations = min n s'.iterations := by
  have hn := h.iterations_le hzero
  have hN := h'.iterations_le hzero
  rcases Nat.lt_or_ge t.iterations n with hlt | hge
  · have hback := h'.iterations_le_of_lt h hzero hlt
    have hforth := h.iterations_le_of_lt h' hzero (by omega)
    omega
  · by_cases hlt : s'.iterations < N
    · have hforth := h.iterations_le_of_lt h' hzero hlt
      omega
    · omega

theorem State.entries_prefix {j : Nat} (h : j ≤ k) : s.entries a j <+: s.entries a k :=
  State.take_entries (a := a) h ▸ List.take_prefix j _

/-- The iterations that a run has done stand in front of its last record. -/
theorem Arrives.prefix_record (h : Arrives m a s k s') {old : Array (SolverRecord S)}
    (hold : s.history = some old) {l : List (SolverRecord S)} (hl : l <+: s.entries a k)
    (step : S) :
    old.toList ++ l <+: (s'.record step).contents.toList := by
  rw [h.record_eq, hold, Recorder.toList_contents_recordAll, List.prefix_append_right_inj]
  exact hl.trans (List.prefix_append _ _)

end ConjugateGradient

end Descent
