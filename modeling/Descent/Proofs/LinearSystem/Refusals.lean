import Descent.Proofs.LinearSystem.Iterations

/-!
# Refused and solved systems

For any scalars. A system is refused for its shapes, before anything is done, or else it is solved:
then no check of a vector operation fails, in no iteration.

* `Refused a b x e`: why a system is refused. The matrix is looked at first, then the right-hand
  side, then the guess.
* `checkShapes_error_iff`, `run_error_iff`: the solver stops with these errors and no others, and
  leaves the log as it is.
* `AtHead.fits`, `AtHead.step_total`: at the head of every iteration all vectors have the dimension
  of the system, and the iteration returns.
* `solve_total`: the statement for both ways of calling the solver.
-/

namespace Descent

namespace ConjugateGradient

variable {S : Type} {m : ConjugateGradient S} {a : DenseMatrix S} {b x : List S} {e : SolveError}
  {n : Nat}

/-- The reason for which a system is refused. -/
inductive Refused (a : DenseMatrix S) (b x : List S) : SolveError → Prop where
  | matrix (notSquare : a.rowCount ≠ a.columnCount) :
      Refused a b x (.notSquare a.rowCount a.columnCount)
  | rightSide (square : a.rowCount = a.columnCount) (misfit : b.length ≠ a.rowCount) :
      Refused a b x (.dimensionMismatch a.rowCount b.length)
  | guess (square : a.rowCount = a.columnCount) (fits : b.length = a.rowCount)
      (misfit : x.length ≠ a.rowCount) : Refused a b x (.dimensionMismatch a.rowCount x.length)

theorem checkShapes_of_refused (h : Refused a b x e) : checkShapes a b x = .error e := by
  unfold checkShapes
  cases h with
  | matrix notSquare => rw [if_pos notSquare]
  | rightSide square misfit => rw [if_neg (not_not_intro square), if_pos misfit]
  | guess square fits misfit =>
    rw [if_neg (not_not_intro square), if_neg (not_not_intro fits), if_pos misfit]

theorem checkShapes_error_iff : checkShapes a b x = .error e ↔ Refused a b x e := by
  refine ⟨fun h => ?_, checkShapes_of_refused⟩
  unfold checkShapes at h
  split at h
  · rename_i notSquare
    cases h
    exact .matrix notSquare
  rename_i square
  split at h
  · rename_i misfit
    cases h
    exact .rightSide (Decidable.not_not.mp square) misfit
  rename_i fits
  split at h
  · rename_i misfit
    cases h
    exact .guess (Decidable.not_not.mp square) (Decidable.not_not.mp fits) misfit
  · cases h

/-- What is not refused fits. -/
theorem fits_of_not_refused (h : ∀ e, ¬Refused a b x e) :
    a.Square x.length ∧ b.length = x.length := by
  cases hshapes : checkShapes a b x with
  | error e => exact absurd (checkShapes_error_iff.mp hshapes) (h e)
  | ok n =>
    obtain ⟨ha, hb, rfl⟩ := checkShapes_ok hshapes
    exact ⟨ha, hb⟩

variable [Scalar S] {history : Recorder (SolverRecord S)} {log log' : Array (SolverEvent S)}

theorem run_of_refused (h : Refused a b x e) :
    m.run a b x history log = .error e log := by
  unfold run
  rw [checkShapes_of_refused h]
  rfl

/-- The solver refuses a system for its shapes only, and logs nothing then. -/
theorem run_error_iff :
    m.run a b x history log = .error e log' ↔ Refused a b x e ∧ log' = log := by
  constructor
  · intro h
    cases hshapes : checkShapes a b x with
    | error e' =>
      have hrefused := checkShapes_error_iff.mp hshapes
      rw [run_of_refused hrefused] at h
      cases h
      exact ⟨hrefused, rfl⟩
    | ok n =>
      obtain ⟨ha, hb, hx⟩ := checkShapes_ok hshapes
      obtain ⟨steps, s', -, hrun⟩ := run_run (m := m) ha hb hx history log
      rw [hrun] at h
      cases h
  · rintro ⟨hrefused, rfl⟩
    exact run_of_refused hrefused

/-! ## Iterations -/

theorem AtHead.fits {s t : State S} (ha : a.Square n) (hs : s.Fits n) (h : AtHead m a s t) :
    t.Fits n := by
  induction h with
  | first => exact hs
  | next _ moved ih =>
    rw [eq_next_of_step_moved ha ih moved]
    exact ih.next ha

theorem AtHead.step_total {s t : State S} (ha : a.Square n) (hs : s.Fits n) (h : AtHead m a s t)
    (log : Array (SolverEvent S)) : ∃ progress log', m.step a t log = .ok progress log' :=
  ⟨_, _, step_run ha (h.fits ha hs) log⟩

/-- The guess keeps its length while it is improved. -/
theorem Outcome.fits {s s' : State S} {budget steps : Nat} (ha : a.Square n) (hs : s.Fits n)
    (h : Outcome m a s budget steps s') : s'.Fits n :=
  h.invariant hs (fun _ => State.Fits.advanced ha) fun _ => State.Fits.next ha

/-- A system is refused exactly if its matrix is not square or if one of the vectors, the right-hand
side before the guess, does not fit it. A refusal hands back its reason and nothing else: there is
no other guess and there are no other records, and the log is as it was. Every other system is
solved, and the guess keeps its length. From its start on, all vectors of the solver have the
dimension of the system at the head of every iteration, and no check of the iteration fails. -/
theorem solve_total (m : ConjugateGradient S) (a : DenseMatrix S) (b x : List S)
    (old : Array (SolverRecord S)) (log : Array (SolverEvent S)) :
    (∀ e log', m.solve a b x log = .error e log' ↔ Refused a b x e ∧ log' = log) ∧
    (∀ e log', m.solveWithHistory a b x old log = .error e log' ↔ Refused a b x e ∧ log' = log) ∧
    ((∀ e, ¬Refused a b x e) →
      (∃ solution log', m.solve a b x log = .ok solution log' ∧ solution.x.length = x.length) ∧
      (∃ solution records log', m.solveWithHistory a b x old log = .ok (solution, records) log' ∧
        solution.x.length = x.length) ∧
      ∀ history, ∃ s, start a b x history log = .ok s log ∧
        ∀ t, AtHead m a s t → t.Fits x.length ∧
          ∀ log, ∃ progress log', m.step a t log = .ok progress log') := by
  refine ⟨fun e log' => bind_pure_error_iff.trans run_error_iff,
    fun e log' => bind_pure_error_iff.trans run_error_iff, fun h => ?_⟩
  obtain ⟨ha, hb⟩ := fits_of_not_refused h
  have hrun := fun history => run_run (m := m) ha hb rfl history log
  have hfits := fun history => State.initial_fits ha hb (rfl : x.length = x.length) history
  refine ⟨?_, ?_, fun history => ⟨_, start_run ha hb rfl history log, fun t ht => ?_⟩⟩
  · obtain ⟨steps, s', hend, hok⟩ := hrun none
    exact ⟨_, _, bind_of_ok hok, (hend.fits ha (hfits none)).x⟩
  · obtain ⟨steps, s', hend, hok⟩ := hrun (some old)
    exact ⟨_, _, _, bind_of_ok hok, (hend.fits ha (hfits (some old))).x⟩
  · exact ⟨ht.fits ha (hfits history), ht.step_total ha (hfits history)⟩

/-- The matrix with the rows `4 1` and `1 3`. -/
def twoByTwo : DenseMatrix Float where
  columnCount := 2
  rows := [[4, 1], [1, 3]]
  length_of_mem := by simp

/-- A matrix without rows that has three columns. -/
def noRows : DenseMatrix Float where
  columnCount := 3
  rows := []
  length_of_mem := by simp

/-- A system without rows is not square. Of two vectors that do not fit, the right-hand side is
reported. A system that fits is solved. -/
theorem solve_total_of_shapes :
    ConjugateGradient.standard.solve noRows [] [] #[] = .error (.notSquare 0 3) #[] ∧
    ConjugateGradient.standard.solve twoByTwo [1] [1, 1, 1] #[] =
      .error (.dimensionMismatch 2 1) #[] ∧
    ConjugateGradient.standard.solve twoByTwo [1, 2] [1, 1, 1] #[] =
      .error (.dimensionMismatch 2 3) #[] ∧
    ∃ solution log', ConjugateGradient.standard.solve twoByTwo [1, 2] [2, 1] #[] =
      .ok solution log' ∧ solution.x.length = 2 := by
  refine ⟨?_, ?_, ?_, ?_⟩
  · exact ((solve_total .standard noRows [] [] #[] #[]).1 _ _).mpr ⟨.matrix (by decide), rfl⟩
  · exact ((solve_total .standard twoByTwo [1] [1, 1, 1] #[] #[]).1 _ _).mpr
      ⟨.rightSide rfl (by decide), rfl⟩
  · exact ((solve_total .standard twoByTwo [1, 2] [1, 1, 1] #[] #[]).1 _ _).mpr
      ⟨.guess rfl rfl (by decide), rfl⟩
  · obtain ⟨-, -, hsolved⟩ := solve_total .standard twoByTwo [1, 2] [2, 1] #[] #[]
    refine (hsolved fun e h => ?_).1
    cases h with
    | matrix notSquare => exact notSquare rfl
    | rightSide square misfit => exact misfit rfl
    | guess square fits misfit => exact misfit rfl

end ConjugateGradient

end Descent
