import Descent.LinearSystem.ConjugateGradient
import Descent.Proofs.Dimensions
import Descent.Proofs.Traces

/-!
# The iterations of the conjugate gradient method

For any scalars, and for square systems whose vectors fit them.

* `State.Fits`: the shapes for which no check fails.
* `State.advanced`, `State.next`: an iteration as a function, without and with the new direction;
  `State.head a s k` is the state at the head of the `k`-th iteration if none before it has ended
  the run.
* `step_run`, `iterate_run`, `improve_run`: the programs return, and what they return.
* `AtHead`: the states at the heads of a run, as its iterations lead from one to the next.
* `Exit`: how a run ends, and at which of these states.
* `run_run`, `run_ok`: a system is solved if its shapes fit and refused if they do not.
* `Outcome.arrives`: in the end a run has taken as many steps as it reports, with a record of each.
-/

namespace Descent

variable {S : Type}

/-- A check that passes inside the solver does nothing. -/
theorem Solve.lift_of_ok {α : Type} {e : Except LengthMismatch α} {x : α} (h : e = .ok x)
    (log : Array (SolverEvent S)) : (liftM e : Solve S α) log = .ok x log := by
  subst h
  rfl

namespace ConjugateGradient

variable [Scalar S]

namespace State

/-- The state before the first iteration. -/
def initial (a : DenseMatrix S) (b x : List S) (history : Recorder (SolverRecord S)) :
    State S where
  x := x
  residual := Space.ray b (a.apply x) (-1)
  direction := Space.ray b (a.apply x) (-1)
  residualSquared := Space.normSquared (Space.ray b (a.apply x) (-1))
  lastStep := 0
  iterations := 0
  history := history

variable (a : DenseMatrix S) (s : State S)

/-- The curvature `⟨p, A p⟩` of the direction. -/
def curvature : S := Space.dot s.direction (a.apply s.direction)

/-- There is no step along the direction. -/
def Stuck : Prop := s.curvature a ≤ 0 ∧ s.curvature a == 0

instance : Decidable (s.Stuck a) := inferInstanceAs (Decidable (_ ∧ _))

/-- The state after a step, which still has the old direction. -/
def advanced : State S where
  x := Space.ray s.x s.direction (s.residualSquared / s.curvature a)
  residual := Space.ray s.residual (a.apply s.direction) (-(s.residualSquared / s.curvature a))
  direction := s.direction
  residualSquared := Space.normSquared
    (Space.ray s.residual (a.apply s.direction) (-(s.residualSquared / s.curvature a)))
  lastStep := s.residualSquared / s.curvature a
  iterations := s.iterations + 1
  history := s.record (s.residualSquared / s.curvature a)

/-- The state after a step and a turn of the direction. -/
def next : State S :=
  { s.advanced a with
    direction := Space.combine s.direction ((s.advanced a).residualSquared / s.residualSquared)
      (s.advanced a).residual 1 }

/-- The state at the head of the `k`-th iteration from `s`. -/
def head : Nat → State S
  | 0 => s
  | k + 1 => (head k).next a

/-- What an iteration reports. -/
def events : List (SolverEvent S) :=
  (if s.curvature a ≤ 0 then [.nonPositiveCurvature (s.curvature a)] else []) ++
    if s.Stuck a then [] else [.iterated (s.advanced a).iterations (s.advanced a).residualNorm]

/-- All vectors of the state have `n` coordinates. -/
structure Fits (n : Nat) (s : State S) : Prop where
  x : s.x.length = n
  residual : s.residual.length = n
  direction : s.direction.length = n

variable {a s} {n : Nat}

theorem Fits.advanced (ha : a.Square n) (h : s.Fits n) : (s.advanced a).Fits n where
  x := length_ray h.x h.direction _
  residual := length_ray h.residual (ha.length_apply _) _
  direction := h.direction

theorem Fits.next (ha : a.Square n) (h : s.Fits n) : (s.next a).Fits n where
  x := (h.advanced ha).x
  residual := (h.advanced ha).residual
  direction := length_combine h.direction (h.advanced ha).residual _ _

/-- The heads after the first are those from the second state. -/
theorem head_next (k : Nat) : (s.next a).head a k = s.head a (k + 1) := by
  induction k with
  | zero => rfl
  | succ k ih => rw [head, ih]; rfl

theorem iterations_head (k : Nat) : (s.head a k).iterations = s.iterations + k := by
  induction k with
  | zero => rfl
  | succ k ih =>
    show (s.head a k).iterations + 1 = _
    rw [ih, Nat.add_assoc]

theorem iterations_head_of_zero (hzero : s.iterations = 0) (k : Nat) :
    (s.head a k).iterations = k := by
  rw [iterations_head, hzero, Nat.zero_add]

theorem iterations_advanced_head (hzero : s.iterations = 0) (k : Nat) :
    ((s.head a k).advanced a).iterations = k + 1 :=
  congrArg (· + 1) (iterations_head_of_zero hzero k)

end State

/-! ## One iteration -/

variable {m : ConjugateGradient S} {a : DenseMatrix S} {s : State S} {n : Nat}

/-- What an iteration makes of a state. -/
def progress (m : ConjugateGradient S) (a : DenseMatrix S) (s : State S) : Progress S :=
  if s.Stuck a then .stuck
  else if m.Converged (s.advanced a) then .solved (s.advanced a)
  else .moved (s.next a)

omit [Scalar S] in
theorem report_run (e : SolverEvent S) (log : Array (SolverEvent S)) :
    report e log = .ok () (log.push e) := rfl

theorem warn_run (c : S) (log : Array (SolverEvent S)) :
    warn c log = .ok () (log ++ (if c ≤ 0 then [.nonPositiveCurvature c] else []).toArray) := by
  unfold warn
  by_cases hc : c ≤ 0
  · rw [if_pos hc, if_pos hc]
    rfl
  · rw [if_neg hc, if_neg hc]
    rfl

theorem move_run (ha : a.Square n) (hs : s.Fits n) (log : Array (SolverEvent S)) :
    m.move s (a.apply s.direction) (s.curvature a) log =
      .ok (if m.Converged (s.advanced a) then .solved (s.advanced a) else .moved (s.next a))
        (log.push (.iterated (s.advanced a).iterations (s.advanced a).residualNorm)) := by
  have hx : s.x.length = s.direction.length := hs.x.trans hs.direction.symm
  have hr : s.residual.length = (a.apply s.direction).length :=
    hs.residual.trans (ha.length_apply _).symm
  have hd : s.direction.length = (s.advanced a).residual.length :=
    hs.direction.trans (hs.advanced ha).residual.symm
  unfold move
  rw [bind_of_ok (Solve.lift_of_ok (Space.tryRay_of_eq hx _) log),
    bind_of_ok (Solve.lift_of_ok (Space.tryRay_of_eq hr _) log)]
  dsimp only
  rw [bind_of_ok (report_run _ log)]
  -- The state that the program builds is `s.advanced a` by definition, but not word for word.
  by_cases hconv : m.Converged (s.advanced a)
  · rw [if_pos hconv]
    exact congrFun (if_pos hconv) _
  · rw [if_neg hconv]
    refine (congrFun (if_neg hconv) _).trans ?_
    exact bind_of_ok (Solve.lift_of_ok (Space.tryCombine_of_eq hd _ _) _)

theorem step_run (ha : a.Square n) (hs : s.Fits n) (log : Array (SolverEvent S)) :
    m.step a s log = .ok (m.progress a s) (log ++ (s.events a).toArray) := by
  have hc : a.columnCount = s.direction.length := ha.columnCount_eq.trans hs.direction.symm
  have hr : a.rowCount = (Space.origin s.x).length := by
    rw [length_origin, hs.x, ha.rowCount_eq]
  have hd : s.direction.length = (a.apply s.direction).length :=
    hs.direction.trans (ha.length_apply _).symm
  unfold step
  rw [bind_of_ok (Solve.lift_of_ok (a.tryApply_of_eq hc hr) log),
    bind_of_ok (Solve.lift_of_ok (Space.tryDot_of_eq hd) log), bind_of_ok (warn_run _ log)]
  unfold progress State.events
  by_cases hstuck : s.Stuck a
  · rw [if_pos hstuck, if_pos hstuck, List.append_nil]
    exact congrFun (if_pos hstuck) _
  · rw [if_neg hstuck, if_neg hstuck, ← List.append_toArray, ← Array.append_assoc]
    exact (congrFun (if_neg hstuck) _).trans (move_run ha hs _)

/-- The states in which a run from `s` comes to the head of its loop: the first one, and every state
to which an iteration has moved. -/
inductive AtHead (m : ConjugateGradient S) (a : DenseMatrix S) (s : State S) : State S → Prop where
  | first : AtHead m a s s
  | next {t u : State S} {log log' : Array (SolverEvent S)} (head : AtHead m a s t)
      (moved : m.step a t log = .ok (.moved u) log') : AtHead m a s u

/-- An iteration that goes on has moved and turned. -/
theorem eq_next_of_step_moved (ha : a.Square n) (hs : s.Fits n) {t : State S}
    {log log' : Array (SolverEvent S)} (h : m.step a s log = .ok (.moved t) log') :
    t = s.next a := by
  rw [step_run ha hs] at h
  unfold progress at h
  split at h
  · cases h
  split at h
  · cases h
  · cases h
    rfl

/-! ## Whole runs -/

/-- An iteration from the state does not end the run. -/
structure Moves (m : ConjugateGradient S) (a : DenseMatrix S) (s : State S) : Prop where
  free : ¬s.Stuck a
  unsolved : ¬m.Converged (s.advanced a)

/-- How a run of at most `budget` iterations ends: after how many of them, the one that gets stuck
included, and in which state. -/
inductive Exit (m : ConjugateGradient S) (a : DenseMatrix S) (s : State S) (budget : Nat) :
    Nat → State S → Prop where
  /-- The budget is used up. -/
  | exhausted (moves : ∀ j < budget, m.Moves a (s.head a j)) :
      Exit m a s budget budget (s.head a budget)
  /-- The direction of the last iteration has no curvature. -/
  | stuck {k : Nat} (before : k < budget) (moves : ∀ j < k, m.Moves a (s.head a j))
      (stuck : (s.head a k).Stuck a) : Exit m a s budget (k + 1) (s.head a k)
  /-- The residual after the last iteration is small enough. -/
  | solved {k : Nat} (before : k < budget) (moves : ∀ j < k, m.Moves a (s.head a j))
      (free : ¬(s.head a k).Stuck a) (converged : m.Converged ((s.head a k).advanced a)) :
      Exit m a s budget (k + 1) ((s.head a k).advanced a)

theorem moves_succ (h : m.Moves a s) {k : Nat} (hnext : ∀ j < k, m.Moves a ((s.next a).head a j)) :
    ∀ j < k + 1, m.Moves a (s.head a j) := by
  intro j hj
  cases j with
  | zero => exact h
  | succ j =>
    rw [← State.head_next]
    exact hnext j (by omega)

/-- A run that begins with a move goes on from the next state. -/
theorem Exit.after_move {budget steps : Nat} {s' : State S} (h : m.Moves a s)
    (hrest : Exit m a (s.next a) budget steps s') : Exit m a s (budget + 1) (steps + 1) s' := by
  cases hrest with
  | exhausted moves =>
    rw [State.head_next]
    exact .exhausted (moves_succ h moves)
  | stuck before moves stuck =>
    rw [State.head_next] at stuck ⊢
    exact .stuck (by omega) (moves_succ h moves) stuck
  | solved before moves free converged =>
    rw [State.head_next] at free converged ⊢
    exact .solved (by omega) (moves_succ h moves) free converged

/-- What the first `steps` iterations report. -/
def State.reports (a : DenseMatrix S) (s : State S) (steps : Nat) : List (SolverEvent S) :=
  (List.range steps).flatMap fun k => (s.head a k).events a

theorem State.reports_zero : s.reports a 0 = [] := rfl

theorem State.reports_succ (steps : Nat) :
    s.reports a (steps + 1) = s.events a ++ (s.next a).reports a steps := by
  unfold State.reports
  rw [List.range_succ_eq_map, List.flatMap_cons, List.flatMap_map]
  simp only [State.head_next]
  rfl

theorem State.reports_one : s.reports a 1 = s.events a := by
  rw [reports_succ, reports_zero, List.append_nil]

/-- The log of a run that goes on after its first iteration. -/
theorem State.append_reports_succ (log : Array (SolverEvent S)) (steps : Nat) :
    log ++ (s.reports a (steps + 1)).toArray =
      log ++ (s.events a).toArray ++ ((s.next a).reports a steps).toArray := by
  rw [reports_succ, ← List.append_toArray, Array.append_assoc]

theorem iterate_run (ha : a.Square n) (budget : Nat) (hs : s.Fits n) (log : Array (SolverEvent S)) :
    ∃ steps s', m.iterate a budget s log = .ok s' (log ++ (s.reports a steps).toArray) ∧
      Exit m a s budget steps s' := by
  induction budget generalizing s log with
  | zero =>
    refine ⟨0, s, ?_, .exhausted (by simp)⟩
    rw [State.reports_zero, Array.append_empty]
    rfl
  | succ budget ih =>
    unfold iterate
    rw [bind_of_ok (step_run ha hs log)]
    unfold progress
    by_cases hstuck : s.Stuck a
    · rw [if_pos hstuck]
      refine ⟨1, s, ?_, .stuck (Nat.succ_pos budget) (by simp) hstuck⟩
      rw [State.reports_one]
      rfl
    rw [if_neg hstuck]
    by_cases hconv : m.Converged (s.advanced a)
    · rw [if_pos hconv]
      refine ⟨1, s.advanced a, ?_, .solved (Nat.succ_pos budget) (by simp) hstuck hconv⟩
      rw [State.reports_one]
      rfl
    · rw [if_neg hconv]
      obtain ⟨steps, s', hrest, hexit⟩ := ih (hs.next ha) (log ++ (s.events a).toArray)
      refine ⟨steps + 1, s', ?_, hexit.after_move ⟨hstuck, hconv⟩⟩
      rw [State.append_reports_succ]
      exact hrest

/-- How a run ends that may need no iteration at all. -/
inductive Outcome (m : ConjugateGradient S) (a : DenseMatrix S) (s : State S) (budget : Nat) :
    Nat → State S → Prop where
  | atOnce (converged : m.Converged s) : Outcome m a s budget 0 s
  | iterated {steps : Nat} {s' : State S} (unsolved : ¬m.Converged s)
      (exit : Exit m a s budget steps s') : Outcome m a s budget steps s'

/-- What holds at first and is preserved by iterations holds in the end. -/
theorem Outcome.invariant {P : State S → Prop} {budget steps : Nat} {s' : State S}
    (h : Outcome m a s budget steps s') (initial : P s) (advanced : ∀ t, P t → P (t.advanced a))
    (next : ∀ t, P t → P (t.next a)) : P s' := by
  have head : ∀ k, P (s.head a k) := by
    intro k
    induction k with
    | zero => exact initial
    | succ k ih => exact next _ ih
  cases h with
  | atOnce => exact initial
  | iterated _ exit =>
    cases exit with
    | exhausted => exact head budget
    | @stuck k => exact head k
    | @solved k => exact advanced _ (head k)

/-- The record of an iteration from the state. -/
def State.entry (a : DenseMatrix S) (s : State S) : SolverRecord S where
  x := s.x
  direction := s.direction
  step := s.residualSquared / s.curvature a

/-- The records of the first `k` iterations from the state. -/
def State.entries (a : DenseMatrix S) (s : State S) (k : Nat) : List (SolverRecord S) :=
  (List.range k).map fun j => (s.head a j).entry a

theorem State.length_entries (k : Nat) : (s.entries a k).length = k := by
  simp [State.entries]

theorem State.getElem_entries {j k : Nat} (h : j < (s.entries a k).length) :
    (s.entries a k)[j] = (s.head a j).entry a := by
  simp [State.entries]

theorem State.entries_succ (k : Nat) :
    s.entries a (k + 1) = s.entries a k ++ [(s.head a k).entry a] := by
  simp [State.entries, List.range_succ]

theorem State.take_entries {j k : Nat} (h : j ≤ k) :
    (s.entries a k).take j = s.entries a j := by
  rw [State.entries, ← List.map_take, List.take_range, Nat.min_eq_left h, State.entries]

theorem State.history_head (k : Nat) :
    (s.head a k).history = s.history.recordAll (s.entries a k) := by
  induction k with
  | zero => exact (Recorder.recordAll_nil _).symm
  | succ k ih =>
    have hnext : (s.head a (k + 1)).history =
        (s.head a k).history.record ((s.head a k).entry a) := rfl
    rw [hnext, ih, Recorder.record_recordAll, State.entries_succ]

/-- A run stands in `s'` after `k` iterations, each of which has taken its step. The direction of
`s'` may be the old one still. -/
structure Arrives (m : ConjugateGradient S) (a : DenseMatrix S) (s : State S) (k : Nat)
    (s' : State S) : Prop where
  x_eq : s'.x = (s.head a k).x
  residual_eq : s'.residual = (s.head a k).residual
  history_eq : s'.history = s.history.recordAll (s.entries a k)
  free : ∀ j < k, ¬(s.head a j).Stuck a
  unsolved : ∀ j < k, ¬m.Converged (s.head a j)

theorem Arrives.record_eq {k : Nat} {s' : State S} (h : Arrives m a s k s') (step : S) :
    s'.record step = s.history.recordAll
      (s.entries a k ++ [{ x := s'.x, direction := s'.direction, step }]) := by
  unfold State.record
  rw [h.history_eq, Recorder.record_recordAll]

/-- As long as iterations do not end the run, no residual is small enough. -/
theorem unsolved_of_moves (h : ¬m.Converged s) {k : Nat} (hm : ∀ j < k, m.Moves a (s.head a j)) :
    ∀ j ≤ k, ¬m.Converged (s.head a j) := by
  intro j hj
  cases j with
  | zero => exact h
  | succ j => exact (hm j hj).unsolved

/-- The count of iterations is the number of steps that a run has taken. -/
theorem Outcome.arrives {budget steps : Nat} {s' : State S} (h : Outcome m a s budget steps s')
    (hzero : s.iterations = 0) : Arrives m a s s'.iterations s' := by
  have hcount := State.iterations_head_of_zero (a := a) hzero
  cases h with
  | atOnce =>
    rw [hzero]
    exact ⟨rfl, rfl, (Recorder.recordAll_nil _).symm, by simp, by simp⟩
  | iterated unsolved exit =>
    cases exit with
    | exhausted moves =>
      rw [hcount]
      exact ⟨rfl, rfl, State.history_head _, fun j hj => (moves j hj).free,
        fun j hj => unsolved_of_moves unsolved moves j (Nat.le_of_lt hj)⟩
    | stuck _ moves _ =>
      rw [hcount]
      exact ⟨rfl, rfl, State.history_head _, fun j hj => (moves j hj).free,
        fun j hj => unsolved_of_moves unsolved moves j (Nat.le_of_lt hj)⟩
    | @solved k _ moves free _ =>
      -- What the last step has done is not undone by the turn that it lacks.
      rw [State.iterations_advanced_head hzero]
      refine ⟨rfl, rfl, State.history_head (k + 1), fun j hj => ?_, fun j hj =>
        unsolved_of_moves unsolved moves j (Nat.le_of_lt_succ hj)⟩
      rcases Nat.lt_or_eq_of_le (Nat.le_of_lt_succ hj) with hlt | rfl
      · exact (moves j hlt).free
      · exact free

theorem improve_run (ha : a.Square n) (budget : Nat) (hs : s.Fits n) (log : Array (SolverEvent S)) :
    ∃ steps s', m.improve a budget s log = .ok s' (log ++ (s.reports a steps).toArray) ∧
      Outcome m a s budget steps s' := by
  unfold improve
  by_cases hconv : m.Converged s
  · rw [if_pos hconv]
    refine ⟨0, s, ?_, .atOnce hconv⟩
    rw [State.reports_zero, Array.append_empty]
    rfl
  · rw [if_neg hconv]
    obtain ⟨steps, s', hrun, hexit⟩ := iterate_run ha budget hs log
    exact ⟨steps, s', hrun, .iterated hconv hexit⟩

/-- What a run returns that ends in the state. -/
def State.solution (m : ConjugateGradient S) (s : State S) : Solution S where
  x := s.x
  iterations := s.iterations
  residualNorm := s.residualNorm
  step := s.lastStep
  converged := m.Converged s

section Solve

variable {b x : List S} (ha : a.Square n) (hb : b.length = n) (hx : x.length = n)
include ha hb hx

omit [Scalar S] in
theorem checkShapes_of_fit : checkShapes a b x = .ok n := by
  obtain ⟨rfl, hcolumns⟩ := ha
  unfold checkShapes
  rw [if_neg (by simp [hcolumns]), if_neg (by simp [hb]), if_neg (by simp [hx])]

theorem State.initial_fits (history : Recorder (SolverRecord S)) :
    (State.initial a b x history).Fits n :=
  ⟨hx, length_ray hb (ha.length_apply x) _, length_ray hb (ha.length_apply x) _⟩

theorem start_run (history : Recorder (SolverRecord S)) (log : Array (SolverEvent S)) :
    start a b x history log = .ok (.initial a b x history) log := by
  have hr : a.rowCount = (Space.origin x).length := by rw [length_origin, hx, ha.rowCount_eq]
  have hres : b.length = (a.apply x).length := hb.trans (ha.length_apply x).symm
  unfold start
  rw [bind_of_ok (Solve.lift_of_ok (a.tryApply_of_eq (ha.columnCount_eq.trans hx.symm) hr) log),
    bind_of_ok (Solve.lift_of_ok (Space.tryRay_of_eq hres _) log)]
  rfl

/-- A system whose shapes fit is not refused. -/
theorem run_run (history : Recorder (SolverRecord S)) (log : Array (SolverEvent S)) :
    ∃ steps s', Outcome m a (.initial a b x history) (m.limit.getD n) steps s' ∧
      m.run a b x history log = .ok (s'.solution m, s'.record s'.lastStep)
        ((log ++ ((State.initial a b x history).reports a steps).toArray).push
          (.finished (m.Converged s') s'.iterations s'.residualNorm)) := by
  obtain ⟨steps, s', hrun, hend⟩ :=
    improve_run (m := m) ha (m.limit.getD n) (State.initial_fits ha hb hx history) log
  refine ⟨steps, s', hend, ?_⟩
  unfold run
  rw [bind_of_ok (liftM_of_ok (checkShapes_of_fit ha hb hx)),
    bind_of_ok (start_run ha hb hx history log), bind_of_ok hrun]
  rfl

theorem solve_run (log : Array (SolverEvent S)) :
    ∃ steps s', Outcome m a (.initial a b x none) (m.limit.getD n) steps s' ∧
      m.solve a b x log = .ok (s'.solution m)
        ((log ++ ((State.initial a b x none).reports a steps).toArray).push
          (.finished (m.Converged s') s'.iterations s'.residualNorm)) := by
  obtain ⟨steps, s', hend, hrun⟩ := run_run (m := m) ha hb hx none log
  refine ⟨steps, s', hend, ?_⟩
  unfold solve
  rw [bind_of_ok hrun]
  rfl

end Solve

omit [Scalar S] in
/-- A system that is not refused has a square matrix and vectors that fit it. -/
theorem checkShapes_ok {b x : List S} (h : checkShapes a b x = .ok n) :
    a.Square n ∧ b.length = n ∧ x.length = n := by
  unfold checkShapes at h
  split at h
  · cases h
  split at h
  · cases h
  split at h
  · cases h
  cases h
  rename_i hsquare hb hx
  exact ⟨⟨rfl, (Decidable.not_not.mp hsquare).symm⟩, Decidable.not_not.mp hb,
    Decidable.not_not.mp hx⟩

/-- What a run has done that returns. -/
theorem run_ok {b x : List S} {history history' : Recorder (SolverRecord S)}
    {solution : Solution S} {log log' : Array (SolverEvent S)}
    (h : m.run a b x history log = .ok (solution, history') log') :
    ∃ n steps s', a.Square n ∧ b.length = n ∧ x.length = n ∧
      Outcome m a (.initial a b x history) (m.limit.getD n) steps s' ∧
      solution = s'.solution m ∧ history' = s'.record s'.lastStep := by
  obtain ⟨n, log₁, hcheck, -⟩ := bind_ok h
  obtain ⟨hshapes, -⟩ := liftM_ok hcheck
  obtain ⟨ha, hb, hx⟩ := checkShapes_ok hshapes
  obtain ⟨steps, s', hend, hrun⟩ := run_run (m := m) ha hb hx history log
  rw [hrun] at h
  cases h
  exact ⟨n, steps, s', ha, hb, hx, hend, rfl, rfl⟩

end ConjugateGradient

end Descent
