import Descent.LinearSystem.ConjugateGradient
import Descent.Proofs.Loops
import Descent.Proofs.Minimizer.Searches

/-!
# The verdict of a run

Whether a run has converged is asked of the state in which it ends. A program may as well ask each
state once, keep the answer as a flag, go on while it is no, and report the answer that it has kept
in the end. For any scalars and any objective that is the same program, for runs that end in a
failed check too.

* `keeping`: a loop with such a flag. `Loops.keeping_eq`: it makes the steps of the loop without a
  flag, and its flag is the answer of the test at the end, if no step that ends the loop changes
  that.
* `FixedRate.run_keeping`, `SteepestDescent.run_keeping`, `PolakRibiere.run_keeping`: the runs of
  the minimizers with a flag.
* `ConjugateGradient.iterateKeeping`, `ConjugateGradient.run_keeping`: the iterations of the linear
  solver, where it is the residual behind a step that sets the flag.
-/

namespace Descent

section Programs

variable {ε τ α : Type}

/-- The loop with a flag for the answer of `stop`, which is asked again behind every step that does
not end the loop. -/
def keeping (stop halt : α → Prop) [DecidablePred stop] [DecidablePred halt]
    (step : α → EStateM ε τ α) : Nat → Bool → α → EStateM ε τ (α × Bool)
  | 0, stopped, s => pure (s, stopped)
  | n + 1, stopped, s =>
    if stopped then pure (s, stopped)
    else step s >>= fun t =>
      if halt t then pure (t, stopped) else keeping stop halt step n (stop t) t

theorem Loops.keeping_eq {stop halt : α → Prop} [DecidablePred stop] [DecidablePred halt]
    {step : α → EStateM ε τ α} {loop : Nat → α → EStateM ε τ α} (h : Loops stop halt step loop)
    (hhalt : ∀ s σ t σ', ¬stop s → step s σ = .ok t σ' → halt t → ¬stop t) (n : Nat) (s : α) :
    keeping stop halt step n (stop s) s = (fun t => (t, decide (stop t))) <$> loop n s := by
  induction n generalizing s with
  | zero => rw [h.zero, map_pure, keeping]
  | succ n ih =>
    rw [h.succ, keeping]
    by_cases hs : stop s
    · rw [if_pos hs, if_pos (decide_eq_true hs), map_pure]
    rw [if_neg hs, if_neg (mt of_decide_eq_true hs), map_bind]
    refine bind_congr_of_ok fun σ t σ' hstep => ?_
    by_cases ht : halt t
    · rw [if_pos ht, if_pos ht, map_pure, decide_eq_false hs,
        decide_eq_false (hhalt s σ t σ' hs hstep ht)]
    · rw [if_neg ht, if_neg ht, ih]

end Programs

/-! ## Minimizers -/

variable {σ V S : Type} [Scalar S] [Space V S] {f : Objective σ V S}

/-- A minimizer whose loop keeps a flag ends with what the test says of its last point. -/
theorem Stopping.conclude_keeping {T : Type} {stopping : Stopping S} {method : Method}
    {point : T → Point V S} {iterations : T → Nat} {history : T → History V S}
    {loop : Run σ V S T} {kept : Run σ V S (T × Bool)}
    (h : kept = (fun t => (t, decide (stopping.Converged (point t)))) <$> loop) :
    (do let t ← loop
        let minimum ← stopping.conclude method (point t) (iterations t)
        return (minimum, history t)) = do
      let r ← kept
      note (.finished method r.2 (iterations r.1) (point r.1).value)
      return ({ point := point r.1, iterations := iterations r.1, converged := r.2 },
        history r.1) := by
  rw [h, bind_map_left]
  rfl

theorem FixedRate.run_keeping (m : FixedRate S) (x₀ : V) (history : History V S) :
    m.run f x₀ history = do
      let current ← evaluateFirst f x₀
      let r ← keeping (fun s : State V S => m.stopping.Converged s.current) (fun _ => False)
        (m.step f) (m.stopping.budget 100 x₀) (m.stopping.Converged current)
        (m.arrive current 0 history)
      note (.finished .fixedRate r.2 r.1.iterations r.1.current.value)
      return ({ point := r.1.current, iterations := r.1.iterations, converged := r.2 },
        r.1.history) :=
  bind_congr fun current => Stopping.conclude_keeping <|
    m.loops.keeping_eq (fun _ _ _ _ _ _ hhalt => hhalt.elim) _ (m.arrive current 0 history)

/-- A search that has failed leaves the point, at which the gradient is not short enough. -/
theorem SteepestDescent.run_keeping (m : SteepestDescent S) (x₀ : V) (history : History V S) :
    m.run f x₀ history = do
      let current ← evaluateFirst f x₀
      let r ← keeping (fun s : State V S => m.stopping.Converged s.current)
        (fun s => (s.lastStep == 0) = true) (m.step f) (m.stopping.budget 100 x₀)
        (m.stopping.Converged current) (.initial m x₀ current history)
      note (.finished (.searching .steepestDescent) r.2 r.1.iterations r.1.current.value)
      return ({ point := r.1.current, iterations := r.1.iterations, converged := r.2 },
        r.1.history) := by
  refine bind_congr fun current => Stopping.conclude_keeping <|
    m.loops.keeping_eq ?_ _ (State.initial m x₀ current history)
  intro s session t session' hlarge hstep hhalt
  obtain ⟨found, after, log, -, -, rfl⟩ := step_ok hstep
  cases hz : found.step == 0 with
  | true => rwa [if_pos rfl]
  | false =>
    rw [hz, if_neg Bool.false_ne_true] at hhalt
    exact absurd hhalt (ne_true_of_eq_false hz)

theorem PolakRibiere.run_keeping (m : PolakRibiere S) (x₀ : V) (history : History V S) :
    m.run f x₀ history = do
      let current ← evaluateFirst f x₀
      let r ← keeping (fun s : State V S => m.stopping.Converged s.current) (fun _ => False)
        (m.step f) (m.stopping.budget 20 x₀) (m.stopping.Converged current)
        (.initial m current history)
      note (.finished (.searching .conjugateGradient) r.2 r.1.iterations r.1.current.value)
      return ({ point := r.1.current, iterations := r.1.iterations, converged := r.2 },
        r.1.history.record r.1.final) :=
  bind_congr fun current => Stopping.conclude_keeping <|
    m.loops.keeping_eq (fun _ _ _ _ _ _ hhalt => hhalt.elim) _ (State.initial m current history)

/-! ## The linear solver -/

namespace ConjugateGradient

variable {m : ConjugateGradient S} {a : DenseMatrix S}

/-- At most `n` iterations with a flag, which is set where the residual has become small enough. -/
def iterateKeeping (m : ConjugateGradient S) (a : DenseMatrix S) :
    Nat → Bool → State S → Solve S (State S × Bool)
  | 0, solved, s => return (s, solved)
  | n + 1, solved, s =>
    if solved then return (s, solved)
    else do
      match ← m.step a s with
      | .stuck => return (s, solved)
      | .solved s => return (s, true)
      | .moved s => iterateKeeping m a n solved s

/-- The three answers of an iteration that does not fail. Nothing is supposed of the shape of the
matrix or of the lengths of the vectors. -/
theorem step_answers {s : State S} {p : Progress S} {log log' : Array (SolverEvent S)}
    (h : m.step a s log = .ok p log') :
    p = .stuck ∨ (∃ t, m.Converged t ∧ p = .solved t) ∨ ∃ t, ¬m.Converged t ∧ p = .moved t := by
  unfold step at h
  obtain ⟨image, _, -, h⟩ := bind_ok h
  obtain ⟨curvature, _, -, h⟩ := bind_ok h
  obtain ⟨_, _, -, h⟩ := bind_ok h
  split at h
  · exact .inl (pure_ok h).1
  unfold move at h
  obtain ⟨x, _, -, h⟩ := bind_ok h
  obtain ⟨residual, _, -, h⟩ := bind_ok h
  obtain ⟨_, _, -, h⟩ := bind_ok h
  split at h
  · rename_i hconv
    exact .inr (.inl ⟨_, hconv, (pure_ok h).1⟩)
  · rename_i hopen
    obtain ⟨direction, _, -, h⟩ := bind_ok h
    refine .inr (.inr ⟨_, ?_, (pure_ok h).1⟩)
    -- The test does not look at the direction, which is new.
    exact hopen

theorem iterate_keeping (n : Nat) {s : State S} (hopen : ¬m.Converged s) :
    m.iterateKeeping a n false s =
      (fun t => (t, decide (m.Converged t))) <$> m.iterate a n s := by
  induction n generalizing s with
  | zero => rw [iterateKeeping, iterate, map_pure, decide_eq_false hopen]
  | succ n ih =>
    rw [iterateKeeping, iterate, if_neg Bool.false_ne_true, map_bind]
    refine bind_congr_of_ok fun log p log' hstep => ?_
    obtain rfl | ⟨t, hconv, rfl⟩ | ⟨t, hopen', rfl⟩ := step_answers hstep
    · rw [map_pure, decide_eq_false hopen]
    · rw [map_pure, decide_eq_true hconv]
    · exact ih hopen'

theorem improve_keeping (n : Nat) (s : State S) :
    m.iterateKeeping a n (m.Converged s) s =
      (fun t => (t, decide (m.Converged t))) <$> m.improve a n s := by
  unfold improve
  by_cases hconv : m.Converged s
  · rw [if_pos hconv, map_pure, decide_eq_true hconv]
    cases n <;> rfl
  · rw [if_neg hconv, decide_eq_false hconv, iterate_keeping n hconv]

theorem run_keeping (m : ConjugateGradient S) (a : DenseMatrix S) (b x : List S)
    (history : Recorder (SolverRecord S)) :
    m.run a b x history = do
      let n ← checkShapes a b x
      let s ← start a b x history
      let r ← m.iterateKeeping a (m.limit.getD n) (m.Converged s) s
      report (.finished r.2 r.1.iterations r.1.residualNorm)
      return ({ x := r.1.x, iterations := r.1.iterations, residualNorm := r.1.residualNorm,
                step := r.1.lastStep, converged := r.2 }, r.1.record r.1.lastStep) := by
  refine bind_congr fun n => bind_congr fun s => ?_
  rw [improve_keeping, bind_map_left]

end ConjugateGradient

end Descent
