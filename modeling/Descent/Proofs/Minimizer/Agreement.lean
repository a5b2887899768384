import Descent.Proofs.Embedding
import Descent.Proofs.Minimizer.Totality
import Descent.Proofs.StrongWolfe.Existence

/-!
# Minimizers on the line and on vectors with one coordinate

* `FixedRate.run_carries`, `SteepestDescent.run_carries`, `PolakRibiere.run_carries`: a map that
  keeps dimensions, operations and norms takes a run in the one space to the run in the other.
* `SameRuns`: the two runs of a minimizer, without a history and with one, return in both spaces and
  agree.
* `line_agrees_with_vectors`: so they do on the line and on the vectors with one coordinate.
-/

namespace Descent

variable {σ V W S : Type} {φ : V → W}

section Runs

variable [Scalar S] [Space V S] [Space W S] {f : Objective σ V S} {F : Objective σ W S}
  (hφ : Embeds φ) (hF : f.Lifts φ F)
include hφ

/-! ## When a minimizer stops -/

theorem Stopping.converged_map (stopping : Stopping S) (p : Point V S) :
    stopping.Converged (p.map φ) ↔ stopping.Converged p := by
  unfold Converged
  rw [show (p.map φ).gradient = φ p.gradient from rfl, hφ.norm]

omit [Scalar S] in
theorem Stopping.budget_map (stopping : Stopping S) (perDimension : Nat) (x₀ : V) :
    stopping.budget perDimension (φ x₀) = stopping.budget perDimension x₀ := by
  unfold budget
  rw [hφ.dimension]

theorem Stopping.conclude_carries (stopping : Stopping S) (method : Method) (p : Point V S)
    (iterations : Nat) :
    Carries (Session.map φ) (Minimum.map φ)
      (stopping.conclude method p iterations : Run σ V S (Minimum V S))
      (stopping.conclude method (p.map φ) iterations) := by
  unfold conclude
  simp only [stopping.converged_map hφ]
  exact .bind (note_carries _) fun _ => .pure _ _ _

/-! ## Descent at a fixed rate -/

namespace FixedRate

variable (m : FixedRate S)

/-- The state at the image of its point. -/
def State.map (φ : V → W) (s : State V S) : State W S where
  current := s.current.map φ
  iterations := s.iterations
  history := s.history.mapAll (Record.map φ)

omit hφ [Scalar S] [Space V S] [Space W S] in
theorem arrive_map (current : Point V S) (iterations : Nat) (history : History V S) :
    m.arrive (current.map φ) iterations (history.mapAll (Record.map φ)) =
      (m.arrive current iterations history).map φ := by
  simp only [arrive, State.map, ← Recorder.record_mapAll, Record.map_of_no_samples]

include hF in
theorem step_carries (s : State V S) :
    Carries (Session.map φ) (State.map φ) (m.step f s) (m.step F (s.map φ)) := by
  unfold step
  have hray : Space.tryRay (s.map φ).current.x (s.map φ).current.gradient (-m.rate) =
      φ <$> Space.tryRay s.current.x s.current.gradient (-m.rate) := hφ.tryRay _ _ _
  rw [hray]
  refine .bind (.check _ φ _) fun x => ?_
  refine .bind (evaluate_carries hF x s.current.gradient) fun current => ?_
  refine .bind (note_carries _) fun _ => ?_
  rw [show (s.map φ).history = s.history.mapAll (Record.map φ) from rfl, arrive_map]
  exact .pure _ _ _

include hF in
theorem run_carries (x₀ : V) (history : History V S) :
    Carries (Session.map φ)
      (fun r => (r.1.map φ, r.2.mapAll (Record.map φ)))
      (m.run f x₀ history) (m.run F (φ x₀) (history.mapAll (Record.map φ))) := by
  unfold run
  refine .bind (evaluate_carries hF x₀ x₀) fun current => ?_
  rw [arrive_map, m.stopping.budget_map hφ]
  refine .bind (m.loops.carries m.loops (fun s => m.stopping.converged_map hφ s.current)
    (fun _ => .rfl) (m.step_carries hφ hF) _ _) fun s => ?_
  exact .bind (m.stopping.conclude_carries hφ .fixedRate s.current s.iterations) fun minimum =>
    .pure _ _ _

end FixedRate

/-! ## Steepest descent -/

namespace SteepestDescent

variable (m : SteepestDescent S)

/-- The state at the images of its points. -/
def State.map (φ : V → W) (s : State V S) : State W S where
  current := s.current.map φ
  spare := s.spare.map φ
  lastStep := s.lastStep
  iterations := s.iterations
  unlisted := s.unlisted.map φ
  history := s.history.mapAll (Record.map φ)

omit hφ [Space V S] [Space W S] in
theorem State.count_map (s : State V S) (found : Search V S) :
    (s.map φ).count (found.map φ) = (s.count found).map φ := by
  simp only [count, map, ← Recorder.record_mapAll, Record.map, Search.map, Recorder.contents_mapAll,
    Array.map_empty]
  rfl

omit hφ [Space V S] [Space W S] in
theorem follow_carries (s : State V S) (found : Search V S) :
    Carries (Session.map φ) (State.map φ) (follow s found : Run σ V S (State V S))
      (follow (s.map φ) (found.map φ)) := by
  unfold follow
  exact .ite .rfl (.bind (note_carries _) fun _ => .pure _ _ _)
    (.bind (note_carries _) fun _ => .pure _ _ _)

include hF in
theorem step_carries (s : State V S) :
    Carries (Session.map φ) (State.map φ) (m.step f s) (m.step F (s.map φ)) := by
  unfold step
  have hdirection : Space.scale (s.map φ).current.gradient (-1) =
      φ (Space.scale s.current.gradient (-1)) := hφ.scale _ _
  have hsamples : ((s.map φ).history.map fun _ => (s.map φ).unlisted) =
      Recorder.mapAll φ (s.history.map fun _ => s.unlisted) := by
    unfold State.map
    cases s.history <;> rfl
  dsimp only
  rw [hdirection, hsamples]
  refine .bind (m.lineSearch.search_carries hφ hF _ s.current s.spare s.lastStep _) fun found => ?_
  rw [State.count_map]
  exact follow_carries _ found

include hF in
theorem run_carries (x₀ : V) (history : History V S) :
    Carries (Session.map φ)
      (fun r => (r.1.map φ, r.2.mapAll (Record.map φ)))
      (m.run f x₀ history) (m.run F (φ x₀) (history.mapAll (Record.map φ))) := by
  unfold run
  refine .bind (evaluate_carries hF x₀ x₀) fun current => ?_
  have hinitial : State.initial m (φ x₀) (current.map φ)
      (history.mapAll (Record.map φ)) =
      (State.initial m x₀ current history).map φ := by
    simp [State.initial, State.map]
  have hiterate := m.loops.carries (G := State.map φ) m.loops
    (fun s => m.stopping.converged_map hφ s.current) (fun _ => .rfl)
    (m.step_carries hφ hF) (m.stopping.budget 100 x₀) (State.initial m x₀ current history)
  rw [← hinitial] at hiterate
  rw [m.stopping.budget_map hφ]
  refine .bind hiterate fun s => ?_
  exact .bind (m.stopping.conclude_carries hφ _ s.current s.iterations) fun minimum => .pure _ _ _

end SteepestDescent

/-! ## Conjugate gradients -/

namespace PolakRibiere

variable (m : PolakRibiere S)

/-- The state at the images of its vectors. -/
def State.map (φ : V → W) (s : State V S) : State W S where
  current := s.current.map φ
  spare := s.spare.map φ
  direction := φ s.direction
  nextStep := s.nextStep
  lastStep := s.lastStep
  iterations := s.iterations
  history := s.history.mapAll (Record.map φ)

omit hφ [Scalar S] [Space V S] [Space W S] in
theorem State.count_map (s : State V S) (step : S) :
    (s.map φ).count step = (s.count step).map φ := by
  simp only [count, map, ← Recorder.record_mapAll, Record.map_of_no_samples]

theorem turn_map (direction old new : V) :
    turn (φ direction) (φ old) (φ new) = φ <$> turn direction old new := by
  unfold turn
  rw [hφ.tryRay, bind_map_left, map_bind]
  refine bind_congr fun change => ?_
  rw [hφ.tryDot, bind_map_left, map_bind]
  refine bind_congr fun overlap => ?_
  have hsquared : Space.normSquared (φ old) = Space.normSquared old := hφ.dot rfl
  rw [hsquared]
  exact hφ.tryCombine _ _ _ _

theorem follow_carries (s : State V S) (found : Search V S) :
    Carries (Session.map φ) (State.map φ) (m.follow s found : Run σ V S (State V S))
      (m.follow (s.map φ) (found.map φ)) := by
  unfold follow
  refine .ite .rfl ?_ ?_
  · unfold restart
    refine .bind (note_carries _) fun _ => ?_
    have hdirection : Space.scale (s.map φ).current.gradient (-1) =
        φ (Space.scale s.current.gradient (-1)) := hφ.scale _ _
    rw [hdirection]
    exact .pure _ _ _
  · unfold move
    have hturn : turn (s.map φ).direction (s.map φ).current.gradient (found.map φ).next.gradient =
        φ <$> turn s.direction s.current.gradient found.next.gradient := turn_map hφ _ _ _
    rw [hturn]
    exact .bind (.check _ φ _) fun direction => .pure _ _ _

include hF in
theorem step_carries (s : State V S) :
    Carries (Session.map φ) (State.map φ) (m.step f s) (m.step F (s.map φ)) := by
  unfold step
  refine .bind (m.lineSearch.search_carries hφ hF s.direction s.current s.spare s.nextStep none)
    fun found => ?_
  have hcount : (s.map φ).count (found.map φ).step = (s.count found.step).map φ :=
    State.count_map s found.step
  rw [hcount]
  refine .bind (m.follow_carries hφ (s.count found.step) found) fun s₁ => ?_
  exact .bind (note_carries _) fun _ => .pure _ _ _

include hF in
theorem run_carries (x₀ : V) (history : History V S) :
    Carries (Session.map φ)
      (fun r => (r.1.map φ, r.2.mapAll (Record.map φ)))
      (m.run f x₀ history) (m.run F (φ x₀) (history.mapAll (Record.map φ))) := by
  unfold run
  refine .bind (evaluate_carries hF x₀ x₀) fun current => ?_
  have hinitial : State.initial m (current.map φ)
      (history.mapAll (Record.map φ)) = (State.initial m current history).map φ := by
    have hdirection : Space.scale (current.map φ).gradient (-1) =
      φ (Space.scale current.gradient (-1)) := hφ.scale _ _
    simp only [State.initial, State.map, hdirection]
  have hiterate := m.loops.carries (G := State.map φ) m.loops
    (fun s => m.stopping.converged_map hφ s.current) (fun _ => .rfl)
    (m.step_carries hφ hF) (m.stopping.budget 20 x₀) (State.initial m current history)
  rw [← hinitial] at hiterate
  rw [m.stopping.budget_map hφ]
  refine .bind hiterate fun s => ?_
  refine .bind (m.stopping.conclude_carries hφ _ s.current s.iterations) fun minimum => ?_
  have hhistory : Recorder.record (s.map φ).history
      { point := (s.map φ).current, step := (s.map φ).lastStep, samples := #[] } =
      (s.history.record { point := s.current, step := s.lastStep, samples := #[] }).mapAll
        (Record.map φ) := by
    rw [← Recorder.record_mapAll, Record.map_of_no_samples]
    rfl
  rw [hhistory]
  exact .pure _ _ _

end PolakRibiere

end Runs

/-! ## Results and histories -/

section Outcomes

variable {plain : Run σ V S (Minimum V S)} {plain' : Run σ W S (Minimum W S)}
  {recording : Array (Record V S) → Run σ V S (Minimum V S × Array (Record V S))}
  {recording' : Array (Record W S) → Run σ W S (Minimum W S × Array (Record W S))}
  {run : History V S → Run σ V S (Minimum V S × History V S)}
  {run' : History W S → Run σ W S (Minimum W S × History W S)}

/-- The two runs of a minimizer, without a history and with one, return in the one space and in the
other. All that they return and leave behind in the other space is the image of what they return and
leave behind in the one. -/
structure SameRuns (φ : V → W) (plain : Run σ V S (Minimum V S))
    (recording : Array (Record V S) → Run σ V S (Minimum V S × Array (Record V S)))
    (plain' : Run σ W S (Minimum W S))
    (recording' : Array (Record W S) → Run σ W S (Minimum W S × Array (Record W S))) : Prop where
  plain : Corresponds (Session.map φ) (Minimum.map φ) plain plain'
  recording (old : Array (Record V S)) :
    Corresponds (Session.map φ) (fun r => (r.1.map φ, r.2.map (Record.map φ))) (recording old)
      (recording' (old.map (Record.map φ)))

/-- Runs that work with a recorder. -/
theorem SameRuns.of_run
    (h : ∀ history, Carries (Session.map φ) (fun r => (r.1.map φ, r.2.mapAll (Record.map φ)))
      (run history) (run' (history.mapAll (Record.map φ))))
    (htotal : ∀ history session, ∃ minimum history' session',
      run history session = .ok (minimum, history') session') :
    SameRuns φ (run none >>= fun r => pure r.1)
      (fun old => run (some old) >>= fun r => pure (r.1, r.2.contents))
      (run' none >>= fun r => pure r.1)
      (fun old => run' (some old) >>= fun r => pure (r.1, r.2.contents)) where
  plain := by
    refine Carries.corresponds (.bind (h none) fun r => .pure _ _ r.1) fun session => ?_
    obtain ⟨minimum, history', session', hrun⟩ := htotal none session
    exact ⟨minimum, session', bind_of_ok hrun⟩
  recording old := by
    refine Carries.corresponds (.bind (h (some old)) fun r => ?_) fun session => ?_
    · rw [Recorder.contents_mapAll]
      exact .pure _ _ (r.1, r.2.contents)
    · obtain ⟨minimum, history', session', hrun⟩ := htotal (some old) session
      exact ⟨(minimum, history'.contents), session', bind_of_ok hrun⟩

end Outcomes

/-! ## The line -/

theorem embeds_singleton : Embeds (List.singleton : ℝ → List ℝ) :=
  ExactSpace.embeds_toList

/-- On the line no check can fail. -/
theorem line_answers {S : Type} [Scalar S] (f : Objective σ S S) : f.Answers 1 fun _ => True :=
  fun _ _ _ _ _ => ⟨rfl, trivial⟩

/-- The line is the space of the vectors with one coordinate. An objective on these vectors that
applies one on the line to the coordinate of the point and that of the buffer is searched and
minimized as that one is: with the same steps, results, records, calls and reports, whatever the
start and the parameters are. -/
theorem line_agrees_with_vectors {f : Objective σ ℝ ℝ} {F : Objective σ (List ℝ) ℝ}
    (hF : f.Lifts List.singleton F) :
    (∀ (rule : StrongWolfe ℝ) (direction : ℝ) (current next : Point ℝ ℝ) (first : ℝ)
      (samples : Recorder ℝ),
      Corresponds (Session.map List.singleton) (Search.map List.singleton)
        (rule.search f direction current next first samples)
        (rule.search F [direction] (current.map List.singleton) (next.map List.singleton) first
          (samples.mapAll List.singleton))) ∧
    (∀ (m : PolakRibiere ℝ) (x₀ : ℝ), SameRuns List.singleton (m.minimize f x₀)
      (m.minimizeWithHistory f x₀) (m.minimize F [x₀]) (m.minimizeWithHistory F [x₀])) ∧
    (∀ (m : FixedRate ℝ) (x₀ : ℝ), SameRuns List.singleton (m.minimize f x₀)
      (m.minimizeWithHistory f x₀) (m.minimize F [x₀]) (m.minimizeWithHistory F [x₀])) ∧
    ∀ (m : SteepestDescent ℝ) (x₀ : ℝ), SameRuns List.singleton (m.minimize f x₀)
      (m.minimizeWithHistory f x₀) (m.minimize F [x₀]) (m.minimizeWithHistory F [x₀]) := by
  have hf := line_answers f
  refine ⟨?_, ?_, ?_, ?_⟩
  · intro rule direction current next first samples
    exact (rule.search_carries embeds_singleton hF direction current next first samples).corresponds
      fun session => StrongWolfe.search_total hf rfl rfl rule rfl next trivial first samples session
  · intro m x₀
    exact .of_run (m.run_carries embeds_singleton hF x₀) fun history session =>
      m.run_total hf rfl trivial history session
  · intro m x₀
    exact .of_run (m.run_carries embeds_singleton hF x₀) fun history session =>
      m.run_total hf rfl trivial history session
  · intro m x₀
    exact .of_run (m.run_carries embeds_singleton hF x₀) fun history session =>
      m.run_total hf rfl trivial history session

/-- The square of the coordinate, which counts its calls. -/
noncomputable def squareOfCoordinate : Objective ℕ (List ℝ) ℝ := fun x _ => do
  modify (· + 1)
  return (x.headD 0 * x.headD 0, [x.headD 0 + x.headD 0])

theorem square_lifts : square.Lifts List.singleton squareOfCoordinate :=
  fun _ _ => rfl

/-- From the height `1` in the square the first trial ends a search, on the line and for the vector
with that coordinate. Descent from that vector ends at a vector with one coordinate. -/
theorem line_agrees_with_vectors_on_square :
    square.Lifts List.singleton squareOfCoordinate ∧
    (∃ found session',
      coarse.search squareOfCoordinate [-1] ((squareField.point 1).map List.singleton)
        ((squareField.point 1).map List.singleton) 1 none { state := 0 } = .ok found session' ∧
      found.phase = .accepted 1) ∧
    ∃ minimum session' x,
      (SteepestDescent.mk coarse 1 { tolerance := 0, limit := some 3 }).minimize squareOfCoordinate
        [1] { state := 0 } = .ok minimum session' ∧
      minimum.point.x = [x] := by
  obtain ⟨hsearch, -, -, hdescent⟩ := line_agrees_with_vectors square_lifts
  refine ⟨square_lifts, ?_, ?_⟩
  · obtain ⟨found, session', hline, hvector⟩ :=
      hsearch coarse (-1) (squareField.point 1) (squareField.point 1) 1 none { state := 0 }
    rw [Session.map_start] at hvector
    refine ⟨_, _, hvector, ?_⟩
    have hdim : Space.dimension (-1 : ℝ) = Space.dimension (1 : ℝ) := rfl
    have hexplored : ∃ found' session'',
        coarse.search square (-1) (squareField.point 1) (squareField.point 1) 1 none
          { state := 0 } = .ok found' session'' ∧
        found'.phase = (coarse.explore squareField 1 (-1) 1).2 :=
      StrongWolfe.search_explored square_computes (fun _ _ => rfl) hdim _ none { state := 0 }
    obtain ⟨found', session'', hrun, hphase⟩ := hexplored
    have hsame : found = found' := by
      rw [hline] at hrun
      cases hrun
      rfl
    have haccepts : coarse.explore squareField 1 (-1) 1 =
        ([squareField.trial 1 (-1) 1], .accepted 1) := by
      apply StrongWolfe.explore_of_accepts (by decide)
      · norm_num [sufficientDecrease_iff, coarse, squareField, ScalarField.trial,
          ScalarField.point, Point.slice]
      · norm_num [flatEnough_iff, coarse, squareField, ScalarField.trial, ScalarField.point,
          Point.slice]
    rw [haccepts] at hphase
    rw [hsame]
    exact hphase
  · obtain ⟨minimum, session', -, hvector⟩ :=
      (hdescent ⟨coarse, 1, { tolerance := 0, limit := some 3 }⟩ 1).plain { state := 0 }
    rw [Session.map_start] at hvector
    exact ⟨_, _, minimum.point.x, hvector, rfl⟩

end Descent
