import Descent.Proofs.LinearSystem.Iterations
import Descent.Proofs.Loops
import Descent.Proofs.Minimizer.FixedSteps
import Descent.Proofs.Minimizer.Searches

/-!
# Recording is only watching

A run with a history does what the run without one does, and what it adds to the history does not
depend on what was there before. For any scalars, any objective and all inputs, those that end in a
failed check included.

* `Recorder.behind`: what a recorder holds if the values of another one are given to it.
* `Watches`: a program with a history and the program without it.
* `StrongWolfe.search_within`: a search does not depend on whether its points are recorded.
* `step_behind`, `iterate_behind`, `run_behind` of each method: what stands in the history at first
  can as well be put in front of it in the end.
* `recording_watches`: the statement for all four methods.
-/

namespace Descent

/-! ## Recorders -/

namespace Recorder

variable {α β : Type}

/-- What `r` holds once it was given what `h` holds. It is off if one of them is. -/
def behind (r h : Recorder α) : Recorder α :=
  r.bind fun old => h.map (old ++ ·)

theorem behind_some (old xs : Array α) :
    behind (some old) (some xs) = some (old ++ xs) := rfl

theorem behind_record (r h : Recorder α) (a : α) :
    (r.behind h).record a = r.behind (h.record a) := by
  cases r <;> cases h <;> simp [behind]

/-- `samples`, unless `r` is off. -/
def within (r : Recorder β) (samples : Recorder α) : Recorder α :=
  r.bind fun _ => samples

theorem within_record (r : Recorder β) (samples : Recorder α) (a : α) :
    (within r samples).record a = within r (samples.record a) := by
  cases r <;> rfl

theorem map_behind (r h : Recorder β) (xs : Array α) :
    ((r.behind h).map fun _ => xs) = within r (h.map fun _ => xs) := by
  cases r <;> cases h <;> rfl

end Recorder

/-! ## Programs -/

section Programs

variable {ε τ α β : Type}

/-- `recording` is given the records `old` of earlier runs. It does what `plain` does: as functions
of the state from which they start, both programs return the same or fail alike, and leave the same
state. Behind the old records it puts what it would record without them. -/
structure Watches (plain : EStateM ε τ α) (recording : Array β → EStateM ε τ (α × Array β)) :
    Prop where
  same (old : Array β) : Prod.fst <$> recording old = plain
  appends (old : Array β) : recording old = (fun r => (r.1, old ++ r.2)) <$> recording #[]

/-- Two functions that agree on all that a program can return. -/
theorem map_congr_of_ok {p : EStateM ε τ α} {F G : α → β}
    (h : ∀ s a s', p s = .ok a s' → F a = G a) : F <$> p = G <$> p := by
  rw [map_eq_pure_bind, map_eq_pure_bind]
  exact bind_congr_of_ok fun s a s' hp => congrArg pure (h s a s' hp)

/-- A program with a recorder that only passes records on to it. -/
theorem Watches.of_run {run : Recorder β → EStateM ε τ (α × Recorder β)}
    (hbehind : ∀ r h : Recorder β, run (r.behind h) = (fun x => (x.1, r.behind x.2)) <$> run h)
    (hon : ∀ s x s', run (some #[]) s = .ok x s' → x.2.isSome) :
    Watches (run none >>= fun x => pure x.1)
      (fun old => run (some old) >>= fun x => pure (x.1, x.2.contents)) where
  same old := by
    have hnone : run none = (fun x => (x.1, none)) <$> run (some old) := hbehind none (some old)
    rw [hnone]
    simp only [bind_pure_comp, Functor.map_map]
  appends old := by
    have hsome : run (some old) = (fun x => (x.1, Recorder.behind (some old) x.2)) <$>
        run (some #[]) := by
      have h := hbehind (some old) (some #[])
      rwa [Recorder.behind_some, Array.append_empty] at h
    rw [hsome]
    simp only [bind_pure_comp, Functor.map_map]
    refine map_congr_of_ok fun s x s' hx => ?_
    obtain ⟨new, hnew⟩ := Option.isSome_iff_exists.mp (hon s x s' hx)
    rw [hnew, Recorder.behind_some, Recorder.contents_some, Recorder.contents_some]

end Programs

/-! ## Line searches -/

variable {σ V S : Type} [Scalar S] [Space V S] {f : Objective σ V S}

/-- The search with its points unrecorded if `r` is off. -/
def Search.within {β : Type} (r : Recorder β) (s : Search V S) : Search V S :=
  { s with samples := r.within s.samples }

namespace StrongWolfe

variable {β : Type} (rule : StrongWolfe S) (direction : V) (current : Point V S) (r : Recorder β)

theorem drive_within (start : Slice S) (s : Search V S) :
    rule.drive f direction current start (s.within r) =
      Search.within r <$> rule.drive f direction current start s := by
  induction s using drive.induct rule start with
  | case1 s hp =>
    have hp' : (s.within r).phase.pending rule = none := hp
    rw [drive_of_pending_eq_none hp, drive_of_pending_eq_none hp', map_pure]
  | case2 s a hp ih =>
    have hp' : (s.within r).phase.pending rule = some a := hp
    rw [drive_of_pending hp, drive_of_pending hp', map_bind]
    refine bind_congr fun probed => ?_
    rw [← ih probed.1 probed.2]
    simp only [Search.within, Recorder.within_record]

theorem search_within (next : Point V S) (first : S) (samples : Recorder V) :
    rule.search f direction current next first (r.within samples) =
      Search.within r <$> rule.search f direction current next first samples := by
  unfold search
  rw [map_bind]
  refine bind_congr fun slope => ?_
  have hdrive := rule.drive_within (f := f) direction current r { value := current.value, slope }
    { phase := .initial { value := current.value, slope } first, next, samples }
  refine (congrArg (· >>= _) hdrive).trans ?_
  simp only [bind_map_left, map_bind, map_pure]
  rfl

end StrongWolfe

variable {x₀ : V} {history history' : History V S} {minimum : Minimum V S}
  {session session' : Session σ V S}

/-! ## Descent at a fixed rate -/

namespace FixedRate

variable (m : FixedRate S) (r : Recorder (Record V S))

/-- The state with its history behind what `r` holds. -/
def State.behind (s : State V S) : State V S :=
  { s with history := r.behind s.history }

omit [Scalar S] [Space V S] in
theorem arrive_behind (current : Point V S) (iterations : Nat) (history : History V S) :
    m.arrive current iterations (r.behind history) =
      (m.arrive current iterations history).behind r := by
  simp only [arrive, State.behind, Recorder.behind_record]

theorem step_behind (s : State V S) :
    m.step f (s.behind r) = State.behind r <$> m.step f s := by
  unfold step
  simp only [map_bind, map_pure, ← arrive_behind]
  rfl

theorem iterate_behind (n : Nat) (s : State V S) :
    m.iterate f n (s.behind r) = State.behind r <$> m.iterate f n s :=
  m.loops.commutes (State.behind r) (fun _ => .rfl) (fun _ => .rfl) (m.step_behind r) n s

theorem run_behind (x₀ : V) (history : History V S) :
    m.run f x₀ (r.behind history) = (fun x => (x.1, r.behind x.2)) <$> m.run f x₀ history := by
  unfold run
  simp only [map_bind, map_pure]
  refine bind_congr fun current => ?_
  rw [arrive_behind, iterate_behind, bind_map_left]
  rfl

theorem isSome_history (hon : history.isSome)
    (h : m.run f x₀ history session = .ok (minimum, history') session') : history'.isSome := by
  obtain ⟨first, es, s, session₁, session₂, log, -, -, -, hiter, -, rfl, -⟩ := run_ok h
  rw [hiter.history_eq, Recorder.isSome_recordAll]
  simpa [arrive, Recorder.record] using hon

end FixedRate

/-! ## Steepest descent -/

namespace SteepestDescent

variable (m : SteepestDescent S) (r : Recorder (Record V S))

/-- The state with its history behind what `r` holds. -/
def State.behind (s : State V S) : State V S :=
  { s with history := r.behind s.history }

omit [Space V S] in
theorem State.count_behind (s : State V S) (found : Search V S) :
    (s.behind r).count (found.within r) = (s.count found).behind r := by
  unfold State.count State.behind
  cases r with
  | none => rfl
  | some old => simp only [← Recorder.behind_record]; rfl

omit [Space V S] in
theorem follow_behind (s : State V S) (found : Search V S) :
    (follow (s.behind r) (found.within r) : Run σ V S (State V S)) =
      State.behind r <$> follow s found := by
  unfold follow
  have hstep : (found.within r).step = found.step := rfl
  rw [hstep]
  split
  · rw [map_bind]
    exact bind_congr fun _ => (map_pure _ _).symm
  · rw [map_bind]
    exact bind_congr fun _ => (map_pure _ _).symm

theorem step_behind (s : State V S) :
    m.step f (s.behind r) = State.behind r <$> m.step f s := by
  unfold step
  have hsamples : ((s.behind r).history.map fun _ => (s.behind r).unlisted) =
      r.within (s.history.map fun _ => s.unlisted) := Recorder.map_behind r s.history s.unlisted
  dsimp only
  rw [hsamples, StrongWolfe.search_within, bind_map_left, map_bind]
  refine bind_congr fun found => ?_
  rw [State.count_behind]
  exact follow_behind r (s.count found) found

theorem iterate_behind (n : Nat) (s : State V S) :
    m.iterate f n (s.behind r) = State.behind r <$> m.iterate f n s :=
  m.loops.commutes (State.behind r) (fun _ => .rfl) (fun _ => .rfl) (m.step_behind r) n s

theorem run_behind (x₀ : V) (history : History V S) :
    m.run f x₀ (r.behind history) = (fun x => (x.1, r.behind x.2)) <$> m.run f x₀ history := by
  unfold run
  rw [map_bind]
  refine bind_congr fun current => ?_
  have hiter := m.iterate_behind (f := f) r (m.stopping.budget 100 x₀)
    (.initial m x₀ current history)
  refine (congrArg (· >>= _) hiter).trans ?_
  simp only [bind_map_left, map_bind, map_pure]
  rfl

theorem isSome_history (hon : history.isSome)
    (h : m.run f x₀ history session = .ok (minimum, history') session') : history'.isSome := by
  obtain ⟨first, cs, s, session₁, session₂, log, -, -, -, hiter, -, rfl, -⟩ := run_ok h
  rwa [hiter.history_eq, Recorder.isSome_recordAll]

end SteepestDescent

/-! ## Conjugate gradients -/

namespace PolakRibiere

variable (m : PolakRibiere S) (r : Recorder (Record V S))

/-- The state with its history behind what `r` holds. -/
def State.behind (s : State V S) : State V S :=
  { s with history := r.behind s.history }

omit [Scalar S] [Space V S] in
theorem State.count_behind (s : State V S) (step : S) :
    (s.behind r).count step = (s.count step).behind r := by
  simp only [State.count, State.behind, Recorder.behind_record]

theorem follow_behind (s : State V S) (found : Search V S) :
    (m.follow (s.behind r) found : Run σ V S (State V S)) =
      State.behind r <$> m.follow s found := by
  unfold follow
  split
  · unfold restart
    rw [map_bind]
    exact bind_congr fun _ => (map_pure _ _).symm
  · unfold move
    rw [map_bind]
    exact bind_congr fun _ => (map_pure _ _).symm

theorem step_behind (s : State V S) :
    m.step f (s.behind r) = State.behind r <$> m.step f s := by
  unfold step
  rw [map_bind]
  refine bind_congr fun found => ?_
  rw [State.count_behind, follow_behind, bind_map_left, map_bind]
  refine bind_congr fun s₁ => ?_
  rw [map_bind]
  exact bind_congr fun _ => (map_pure _ _).symm

theorem iterate_behind (n : Nat) (s : State V S) :
    m.iterate f n (s.behind r) = State.behind r <$> m.iterate f n s :=
  m.loops.commutes (State.behind r) (fun _ => .rfl) (fun _ => .rfl) (m.step_behind r) n s

theorem run_behind (x₀ : V) (history : History V S) :
    m.run f x₀ (r.behind history) = (fun x => (x.1, r.behind x.2)) <$> m.run f x₀ history := by
  unfold run
  rw [map_bind]
  refine bind_congr fun current => ?_
  have hiter := m.iterate_behind (f := f) r (m.stopping.budget 20 x₀) (.initial m current history)
  refine (congrArg (· >>= _) hiter).trans ?_
  simp only [bind_map_left, map_bind, map_pure, State.behind, Recorder.behind_record]
  rfl

theorem isSome_history (hon : history.isSome)
    (h : m.run f x₀ history session = .ok (minimum, history') session') : history'.isSome := by
  obtain ⟨first, cs, s, session₁, session₂, log, -, -, -, hiter, -, rfl, -⟩ := run_ok h
  rwa [hiter.history_eq, Recorder.record_recordAll, Recorder.isSome_recordAll]

end PolakRibiere

/-! ## The linear solver -/

namespace ConjugateGradient

variable (m : ConjugateGradient S) (r : Recorder (SolverRecord S)) (a : DenseMatrix S)

/-- The state with its history behind what `r` holds. -/
def State.behind (s : State S) : State S :=
  { s with history := r.behind s.history }

/-- The same progress, to the state with its history behind what `r` holds. -/
def Progress.behind : Progress S → Progress S
  | .stuck => .stuck
  | .solved s => .solved (s.behind r)
  | .moved s => .moved (s.behind r)

omit [Scalar S] in
theorem State.record_behind (s : State S) (step : S) :
    (s.behind r).record step = r.behind (s.record step) :=
  Recorder.behind_record r s.history _

theorem move_behind (s : State S) (image : List S) (curvature : S) :
    m.move (s.behind r) image curvature = Progress.behind r <$> m.move s image curvature := by
  unfold move
  rw [map_bind]
  refine bind_congr fun x => ?_
  rw [map_bind]
  refine bind_congr fun residual => ?_
  dsimp only
  rw [map_bind, State.record_behind]
  refine bind_congr fun _ => ?_
  -- Whether the residual is small enough is not to be seen in the history.
  by_cases hconv : Scalar.sqrt (Space.normSquared residual) ≤ m.tolerance
  · refine (if_pos hconv).trans (.trans ?_ (congrArg (Progress.behind r <$> ·) (if_pos hconv).symm))
    rw [map_pure]
    rfl
  · refine (if_neg hconv).trans (.trans ?_ (congrArg (Progress.behind r <$> ·) (if_neg hconv).symm))
    rw [map_bind]
    refine bind_congr fun direction => ?_
    rw [map_pure]
    rfl

theorem step_behind (s : State S) :
    m.step a (s.behind r) = Progress.behind r <$> m.step a s := by
  unfold step
  rw [map_bind]
  refine bind_congr fun image => ?_
  rw [map_bind]
  refine bind_congr fun curvature => ?_
  rw [map_bind]
  refine bind_congr fun _ => ?_
  split
  · rw [map_pure]
    rfl
  · exact m.move_behind r s image curvature

theorem iterate_behind (n : Nat) (s : State S) :
    m.iterate a n (s.behind r) = State.behind r <$> m.iterate a n s := by
  induction n generalizing s with
  | zero => exact (map_pure _ _).symm
  | succ n ih =>
    unfold iterate
    rw [step_behind, bind_map_left, map_bind]
    refine bind_congr fun progress => ?_
    cases progress with
    | stuck => exact (map_pure _ _).symm
    | solved t => exact (map_pure _ _).symm
    | moved t => exact ih t

theorem improve_behind (n : Nat) (s : State S) :
    m.improve a n (s.behind r) = State.behind r <$> m.improve a n s := by
  unfold improve
  by_cases hconv : m.Converged s
  · have hconv' : m.Converged (s.behind r) := hconv
    rw [if_pos hconv, if_pos hconv', map_pure]
  · have hconv' : ¬m.Converged (s.behind r) := hconv
    rw [if_neg hconv, if_neg hconv', iterate_behind]

theorem start_behind (b x : List S) (history : Recorder (SolverRecord S)) :
    start a b x (r.behind history) = State.behind r <$> start a b x history := by
  unfold start
  rw [map_bind]
  refine bind_congr fun image => ?_
  rw [map_bind]
  exact bind_congr fun residual => (map_pure _ _).symm

theorem run_behind (b x : List S) (history : Recorder (SolverRecord S)) :
    m.run a b x (r.behind history) = (fun y => (y.1, r.behind y.2)) <$> m.run a b x history := by
  unfold run
  rw [map_bind]
  refine bind_congr fun n => ?_
  rw [start_behind, bind_map_left, map_bind]
  refine bind_congr fun s => ?_
  rw [improve_behind, bind_map_left, map_bind]
  refine bind_congr fun t => ?_
  dsimp only
  rw [map_bind]
  refine bind_congr fun _ => ?_
  rw [map_pure, State.record_behind]
  rfl

theorem isSome_history {b x : List S} {history history' : Recorder (SolverRecord S)}
    {solution : Solution S} {log log' : Array (SolverEvent S)} (hon : history.isSome)
    (h : m.run a b x history log = .ok (solution, history') log') : history'.isSome := by
  obtain ⟨n, steps, s', -, -, -, hend, -, rfl⟩ := run_ok h
  rwa [(hend.arrives rfl).record_eq, Recorder.isSome_recordAll]

end ConjugateGradient

/-! ## All four methods -/

/-- A run with a history, whatever it holds at first, does what the run without one does. From every
session both return the same or stop at the same failed check, and leave the same session, that is:
the same calls of the objective, at the same points and with the same buffers, the same state of the
objective and the same log. What is put behind the old records does not depend on them. The linear
solver, which improves the same `x`, refuses the same systems and logs the same, is also only
watched. -/
theorem recording_watches (f : Objective σ V S) (x₀ : V) :
    (∀ m : FixedRate S, Watches (m.minimize f x₀) (m.minimizeWithHistory f x₀)) ∧
    (∀ m : SteepestDescent S, Watches (m.minimize f x₀) (m.minimizeWithHistory f x₀)) ∧
    (∀ m : PolakRibiere S, Watches (m.minimize f x₀) (m.minimizeWithHistory f x₀)) ∧
    ∀ (m : ConjugateGradient S) (a : DenseMatrix S) (b x : List S),
      Watches (m.solve a b x) (m.solveWithHistory a b x) :=
  ⟨fun m => .of_run (fun r => m.run_behind r x₀) fun _ _ _ => m.isSome_history rfl,
    fun m => .of_run (fun r => m.run_behind r x₀) fun _ _ _ => m.isSome_history rfl,
    fun m => .of_run (fun r => m.run_behind r x₀) fun _ _ _ => m.isSome_history rfl,
    fun m a b x => .of_run (fun r => m.run_behind r a b x) fun _ _ _ => m.isSome_history a rfl⟩

end Descent
