import Descent.Proofs.LinearSystem.Limits
import Mathlib.Data.List.Basic

/-!
# What the records of the linear solver tell

For any scalars: the curvature of a direction may be no number, and then the solver goes on. A run
with a history records every iterate with the direction and the step that lead to the next one, and
at last the iterate that it returns, with what direction and step are then left.

* `State.records`: the records of a run that ends in a state.
* `Outcome.x_getElem_records`, `Outcome.getElem_records`: the iterates in them, and the records of
  the iterations.
* `Outcome.lastStep_eq`: the last step is that of the last iteration.
* `Outcome.eq_head`, `Outcome.stopped`: where a run that has not converged stands, and why.
* `run_recorded`: the records of a whole run, and its report.
-/

namespace Descent

namespace ConjugateGradient

variable {S : Type} [Scalar S] {m : ConjugateGradient S} {a : DenseMatrix S} {b x : List S}
  {s s' : State S} {budget steps n j : Nat}

/-- The records of a run from `s` that ends in `s'`. -/
def State.records (a : DenseMatrix S) (s s' : State S) : List (SolverRecord S) :=
  s.entries a s'.iterations ++
    [{ x := s'.x, direction := s'.direction, step := s'.lastStep }]

theorem State.length_records : (s.records a s').length = s'.iterations + 1 := by
  rw [records, List.length_append, length_entries]
  rfl

theorem State.take_records :
    (s.records a s').take s'.iterations = s.entries a s'.iterations :=
  List.take_left' (length_entries _)

theorem State.getElem?_records (hj : j < s'.iterations) :
    (s.records a s')[j]? = some ((s.head a j).entry a) := by
  have hlt : j < (s.entries a s'.iterations).length := by rwa [length_entries]
  rw [records, List.getElem?_append_left hlt, List.getElem?_eq_getElem hlt, getElem_entries]

theorem State.getElem?_records_last : (s.records a s')[s'.iterations]? =
    some { x := s'.x, direction := s'.direction, step := s'.lastStep } := by
  rw [records, List.getElem?_append_right (Nat.le_of_eq (length_entries _)), length_entries,
    Nat.sub_self]
  rfl

section Outcome

variable (h : Outcome m a s budget steps s') (hzero : s.iterations = 0)
include h hzero

theorem Outcome.record_eq : s'.record s'.lastStep = s.history.recordAll (s.records a s') :=
  (h.arrives hzero).record_eq _

/-- The iterates are those at the heads of the iterations. -/
theorem Outcome.x_getElem_records {r : SolverRecord S} (hj : j ≤ s'.iterations)
    (hr : (s.records a s')[j]? = some r) : r.x = (s.head a j).x := by
  rcases Nat.lt_or_eq_of_le hj with hlt | rfl
  · rw [State.getElem?_records hlt] at hr
    cases hr
    rfl
  · rw [State.getElem?_records_last] at hr
    cases hr
    exact (h.arrives hzero).x_eq

/-- The last step is that of the last iteration. -/
theorem Outcome.lastStep_eq {k : Nat} (hk : k + 1 = s'.iterations) :
    s'.lastStep = ((s.head a k).entry a).step := by
  rw [h.state_eq hzero, ← hk, State.after]
  split <;> rfl

theorem Outcome.lastStep_of_none (hnone : s'.iterations = 0) : s'.lastStep = s.lastStep := by
  rw [h.state_eq hzero, hnone, State.after]

/-- A run that has not converged ends at the head of an iteration, with the direction of that. -/
theorem Outcome.eq_head (hopen : ¬m.Converged s') : s' = s.head a s'.iterations := by
  have hstate := h.state_eq hzero
  cases hk : s'.iterations with
  | zero => rwa [hk] at hstate
  | succ k =>
    rw [hk, State.after] at hstate
    by_cases hconv : m.Converged ((s.head a k).advanced a)
    · rw [if_pos hconv] at hstate
      exact absurd (hstate ▸ hconv) hopen
    · rwa [if_neg hconv] at hstate

/-- Then it has used up its iterations, or there was no curvature along that direction. -/
theorem Outcome.stopped (hopen : ¬m.Converged s') :
    s'.iterations = budget ∨ s'.Stuck a := by
  rcases Nat.lt_or_eq_of_le (h.iterations_le hzero) with hlt | heq
  · have hhead := h.eq_head hzero hopen
    rcases h.ended hzero hlt with hstuck | hconv
    · exact .inr (hhead ▸ hstuck)
    · exact absurd (hhead ▸ hconv) hopen
  · exact .inl heq

end Outcome

/-- What a run reports and records, for any square system. It does not do more iterations than it
may, and it has converged if and only if the residual that it reports is small enough. Its records
come behind what the history holds, one for every iteration and one more. The first one holds the
guess. The iterate of each but the last one leads along its direction, by its step, to the iterate
of the next. The last record holds the iterate that is returned, with the step that is reported:
that of the last iteration, or zero if there was none. A run that has not converged has used up its
iterations, or the direction in its last record has no curvature. -/
theorem run_recorded (m : ConjugateGradient S) (ha : a.Square n) (hb : b.length = n)
    (hx : x.length = n) (history : Recorder (SolverRecord S)) (log : Array (SolverEvent S)) :
    ∃ (solution : Solution S) (records : List (SolverRecord S)) (log' : Array (SolverEvent S)),
      m.run a b x history log = .ok (solution, history.recordAll records) log' ∧
      solution.iterations ≤ m.limit.getD n ∧
      (solution.converged = true ↔ solution.residualNorm ≤ m.tolerance) ∧
      records.length = solution.iterations + 1 ∧
      (∃ r, records[0]? = some r ∧ r.x = x) ∧
      (∀ (k : Nat) (r next : SolverRecord S), records[k]? = some r → records[k + 1]? = some next →
        next.x = Space.ray r.x r.direction r.step) ∧
      (solution.iterations = 0 → solution.step = 0) ∧
      (∀ (k : Nat) (r : SolverRecord S), k + 1 = solution.iterations → records[k]? = some r →
        solution.step = r.step) ∧
      ∃ last, records[solution.iterations]? = some last ∧ last.x = solution.x ∧
        last.step = solution.step ∧
        (solution.converged = false → solution.iterations = m.limit.getD n ∨
          (Space.dot last.direction (a.apply last.direction) == 0) = true) := by
  obtain ⟨steps, s', hend, hrun⟩ := run_run (m := m) ha hb hx history log
  rw [hend.record_eq rfl] at hrun
  refine ⟨_, (State.initial a b x history).records a s', _, hrun, hend.iterations_le rfl,
    decide_eq_true_iff, State.length_records, ?_, ?_, ?_, ?_, _, State.getElem?_records_last, rfl,
    rfl, ?_⟩
  · have hlt : 0 < ((State.initial a b x history).records a s').length := by
      rw [State.length_records]
      exact Nat.succ_pos _
    have hr := List.getElem?_eq_getElem hlt
    exact ⟨_, hr, hend.x_getElem_records rfl (Nat.zero_le _) hr⟩
  · intro k r next hr hnext
    have hk : k < s'.iterations := by
      have hlt := (List.getElem?_eq_some_iff.mp hnext).1
      rw [State.length_records] at hlt
      omega
    rw [hend.x_getElem_records rfl hk hnext]
    rw [State.getElem?_records hk] at hr
    cases hr
    rfl
  · exact hend.lastStep_of_none rfl
  · intro k r (hk : k + 1 = s'.iterations) hr
    rw [State.getElem?_records (by omega)] at hr
    cases hr
    exact hend.lastStep_eq rfl hk
  · intro hopen
    exact (hend.stopped rfl (of_decide_eq_false hopen)).imp_right And.right

/-- A matrix that is singular. -/
def singular : DenseMatrix Float where
  columnCount := 2
  rows := [[1, 0], [0, 0]]
  length_of_mem := by simp

/-- The first direction is `1 1`. The second one is mapped to zero, and so the solver stops there
with one of its two iterations left. -/
theorem run_recorded_on_singular :
    ∃ (solution : Solution Float) (r last : SolverRecord Float) (log' : Array (SolverEvent Float)),
      ConjugateGradient.standard.run singular [1, 1] [0, 0] (some #[]) #[] =
        .ok (solution, Recorder.recordAll (some #[]) [r, last]) log' ∧
      solution.iterations = 1 ∧ solution.converged = false ∧
      last.x = Space.ray r.x r.direction r.step ∧ last.x = solution.x ∧ last.step = r.step ∧
      (Space.dot last.direction (singular.apply last.direction) == 0) = true := by
  obtain ⟨solution, records, log', hrun, -, -, hlength, -, hsteps, -, hbefore, last, hlast, hresult,
    hstep, hstopped⟩ := run_recorded (n := 2) .standard (a := singular) (b := [1, 1]) (x := [0, 0])
      ⟨rfl, rfl⟩ rfl rfl (some #[]) #[]
  have htest : Succeeds (fun result _ => result.1.iterations == 1 && !result.1.converged)
      (ConjugateGradient.standard.run singular [1, 1] [0, 0] (some #[]) #[]) = true := by
    decide +kernel
  rw [hrun] at htest
  obtain ⟨hcount, hopen⟩ : solution.iterations = 1 ∧ solution.converged = false := by
    simpa [Succeeds] using htest
  rw [hcount] at hlength hlast hbefore hstopped
  obtain ⟨r, r', rfl⟩ := List.length_eq_two.mp hlength
  cases hlast
  refine ⟨solution, r, last, log', hrun, hcount, hopen, hsteps 0 r last rfl rfl, hresult,
    hstep.trans (hbefore 0 r rfl rfl), ?_⟩
  exact (hstopped hopen).resolve_left (by decide)

end ConjugateGradient

end Descent
