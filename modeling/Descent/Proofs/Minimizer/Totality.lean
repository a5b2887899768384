import Descent.Proofs.Minimizer.FixedSteps
import Descent.Proofs.Minimizer.Searches

/-!
# Runs that return

For any scalars, and for an objective that answers with gradients of the dimension of the start
(`Objective.Answers`). Then no check of a run fails, whatever its budgets are.

* `Point.Fits`: a point from which a search can start and whose gradient can be its buffer.
* `SearchCall.Made.fits`: a search that has found a step leaves such a point.
* `FixedRate.run_total`, `SteepestDescent.run_total`, `PolakRibiere.run_total`: runs return.
  `run_iterates` also shows the searches of such a run.
-/

namespace Descent

variable {σ V S : Type} [Scalar S] [Space V S] {f : Objective σ V S} {n : Nat} {good : V → Prop}

/-- The vectors of the point have dimension `n`, and its gradient can be a buffer. -/
structure Point.Fits (n : Nat) (good : V → Prop) (p : Point V S) : Prop where
  dimension_x : Space.dimension p.x = n
  dimension_gradient : Space.dimension p.gradient = n
  buffer : good p.gradient

omit [Scalar S] in
/-- The answer to a single call. -/
theorem Calls.answer {e : Evaluation V S} {st st' : σ} (h : Calls f st [e] st')
    (hf : f.Answers n good) (hx : Space.dimension e.x = n) (hb : good e.buffer) :
    Space.dimension e.gradient = n ∧ good e.gradient := by
  cases h with
  | cons call rest =>
    have hanswer := hf e.x e.buffer st hx hb
    rwa [call] at hanswer

/-! ## Searches -/

section Searches

variable [SizedSpace V S] {rule : StrongWolfe S}

omit [Scalar S] in
theorem Probe.Along.dimension_eq {x direction : V} {q : Probe V S} (h : q.Along x direction) :
    Space.dimension q.evaluation.x = Space.dimension x := by
  rw [h.x_eq]
  exact SizedSpace.dimension_ray h.dimension_x _

/-- Every probe of a search leaves a buffer for the next one. -/
theorem StrongWolfe.Driven.buffer {direction : V} {current : Point V S} {start : Slice S}
    {s s' : Search V S} {session session' : Session σ V S} {qs : List (Probe V S)}
    (h : Driven rule f direction current start s session qs s' session') (hf : f.Answers n good)
    (hx : Space.dimension current.x = n) (hs : good s.next.gradient) : good s'.next.gradient := by
  induction h with
  | stop => exact hs
  | next _ buffer along call _ _ ih =>
    apply ih
    exact (call.calls.answer hf (along.dimension_eq.trans hx) (buffer ▸ hs)).2

variable {c : SearchCall σ V S}

theorem SearchCall.Made.buffer (h : c.Made rule f) (hf : f.Answers n good)
    (hx : Space.dimension c.current.x = n) (hs : good c.spare.gradient) :
    good c.found.next.gradient := by
  obtain ⟨qs, middle, hd, -, -⟩ := h.driven
  exact hd.buffer hf hx hs

theorem SearchCall.Made.fits (h : c.Made rule f) (hf : f.Answers n good)
    (hx : Space.dimension c.current.x = n) (hs : good c.spare.gradient) (hstep : c.Succeeded) :
    c.found.next.Fits n good := by
  obtain ⟨q, hq, -⟩ := h.accepted hstep
  have hbuffer := h.buffer hf hx hs
  rw [hq.next_eq] at hbuffer ⊢
  exact ⟨hq.along.dimension_eq.trans hx,
    hq.along.dimension_gradient.trans (hq.along.dimension_x.symm.trans hx), hbuffer⟩

end Searches

omit [Scalar S] in
theorem evaluateFirst_total {x₀ : V} (hf : f.Answers n good) (hx : Space.dimension x₀ = n)
    (hg : good x₀) (session : Session σ V S) :
    ∃ p session', evaluateFirst f x₀ session = .ok p session' ∧ p.Fits n good := by
  obtain ⟨p, session', hrun, hdim, hgood⟩ := evaluate_total hf hx hg session
  obtain ⟨e, rfl, -, rfl, -⟩ := evaluate_ok hrun
  exact ⟨_, session', hrun, hx, hdim, hgood⟩

theorem Stopping.conclude_run (stopping : Stopping S) (method : Method) (p : Point V S)
    (iterations : Nat) (session : Session σ V S) :
    ∃ log, stopping.conclude method p iterations session =
      .ok { point := p, iterations, converged := stopping.Converged p } { session with log } :=
  ⟨_, rfl⟩

/-! ## Descent at a fixed rate -/

namespace FixedRate

variable [SizedSpace V S] {m : FixedRate S} {s : State V S}

theorem step_total (hf : f.Answers n good) (hs : s.current.Fits n good) (session : Session σ V S) :
    ∃ s' session', m.step f s session = .ok s' session' ∧ s'.current.Fits n good := by
  have hray := hs.dimension_x.trans hs.dimension_gradient.symm
  have hx := (SizedSpace.dimension_ray hray (-m.rate)).trans hs.dimension_x
  obtain ⟨p, session₁, heval, hdim, hgood⟩ := evaluate_total hf hx hs.buffer session
  obtain ⟨e, hex, -, rfl, -⟩ := evaluate_ok heval
  unfold step
  rw [bind_of_ok (liftM_of_ok (Space.tryRay_of_eq hray _)), bind_of_ok heval,
    bind_of_ok (note_run _ _)]
  exact ⟨_, _, rfl, (congrArg Space.dimension hex).trans hx, hdim, hgood⟩

theorem iterate_total (hf : f.Answers n good) (k : Nat) (hs : s.current.Fits n good)
    (session : Session σ V S) : ∃ s' session', m.iterate f k s session = .ok s' session' := by
  induction k generalizing s session with
  | zero => exact ⟨s, session, rfl⟩
  | succ k ih =>
    unfold iterate
    by_cases hconv : m.stopping.Converged s.current
    · rw [if_pos hconv]
      exact ⟨s, session, rfl⟩
    rw [if_neg hconv]
    obtain ⟨s₁, session₁, hstep, hs₁⟩ := step_total (m := m) hf hs session
    rw [bind_of_ok hstep]
    exact ih hs₁ session₁

theorem run_total (m : FixedRate S) (hf : f.Answers n good) {x₀ : V}
    (hx : Space.dimension x₀ = n) (hg : good x₀) (history : History V S)
    (session : Session σ V S) :
    ∃ minimum history' session', m.run f x₀ history session = .ok (minimum, history') session' := by
  obtain ⟨p, session₁, hfirst, hp⟩ := evaluateFirst_total hf hx hg session
  obtain ⟨s, session₂, hiter⟩ := iterate_total (m := m) (s := m.arrive p 0 history) hf
    (m.stopping.budget 100 x₀) hp session₁
  obtain ⟨log, hend⟩ := m.stopping.conclude_run .fixedRate s.current s.iterations session₂
  refine ⟨{ point := s.current, iterations := s.iterations,
            converged := m.stopping.Converged s.current }, s.history, { session₂ with log }, ?_⟩
  unfold run
  rw [bind_of_ok hfirst, bind_of_ok hiter]
  exact bind_of_ok hend

end FixedRate

/-! ## Steepest descent -/

namespace SteepestDescent

variable {m : SteepestDescent S} {s : State V S} {session : Session σ V S}

/-- An iteration returns if its search does. -/
theorem step_run {found : Search V S} {after : Session σ V S}
    (h : (s.call session found after).Made m.lineSearch f) :
    ∃ log, m.step f s session =
      .ok (if found.step == 0 then s.count found else s.moved found) { after with log } := by
  have hsearch : m.lineSearch.search f (Space.scale s.current.gradient (-1)) s.current s.spare
      s.lastStep (s.history.map fun _ => s.unlisted) session = .ok found after := h
  unfold step
  rw [bind_of_ok hsearch]
  unfold follow
  cases found.step == 0 with
  | true => exact ⟨_, rfl⟩
  | false => exact ⟨_, rfl⟩

variable [SizedSpace V S]

theorem iterate_total (hf : f.Answers n good) (k : Nat) (hs : s.current.Fits n good)
    (hb : good s.spare.gradient) (session : Session σ V S) :
    ∃ s' session', m.iterate f k s session = .ok s' session' := by
  induction k generalizing s session with
  | zero => exact ⟨s, session, rfl⟩
  | succ k ih =>
    unfold iterate
    by_cases hconv : m.stopping.Converged s.current
    · rw [if_pos hconv]
      exact ⟨s, session, rfl⟩
    rw [if_neg hconv]
    have hdirection : Space.dimension (Space.scale s.current.gradient (-1)) = n :=
      (SizedSpace.dimension_scale _ _).trans hs.dimension_gradient
    obtain ⟨found, after, hsearch⟩ := StrongWolfe.search_total hf hs.dimension_x hdirection
      m.lineSearch hs.dimension_gradient s.spare hb s.lastStep
      (s.history.map fun _ => s.unlisted) session
    have hmade : (s.call session found after).Made m.lineSearch f := hsearch
    obtain ⟨log, hstep⟩ := step_run hmade
    rw [bind_of_ok hstep]
    cases hz : found.step == 0 with
    | true =>
      have hlast : ((s.count found).lastStep == 0) = true := hz
      rw [if_pos rfl, if_pos hlast]
      exact ⟨_, _, rfl⟩
    | false =>
      have hlast : ¬((s.moved found).lastStep == 0) = true := ne_true_of_eq_false hz
      rw [if_neg Bool.false_ne_true, if_neg hlast]
      exact ih (hmade.fits hf hs.dimension_x hb hz) hs.buffer _

/-- A run returns, and shows the loop between its start and its end. -/
theorem run_iterates (m : SteepestDescent S) (hf : f.Answers n good) {x₀ : V}
    (hx : Space.dimension x₀ = n) (hg : good x₀) (history : History V S)
    (session : Session σ V S) :
    ∃ p session₁ cs s session₂ session', evaluateFirst f x₀ session = .ok p session₁ ∧
      Iterates m f (m.stopping.budget 100 x₀) (.initial m x₀ p history) session₁ cs s session₂ ∧
      m.run f x₀ history session =
        .ok ({ point := s.current, iterations := cs.length,
               converged := m.stopping.Converged s.current }, history.recordAll (cs.map record))
          session' := by
  obtain ⟨p, session₁, hfirst, hp⟩ := evaluateFirst_total hf hx hg session
  obtain ⟨s, session₂, hiter⟩ := iterate_total (m := m) (s := .initial m x₀ p history) hf
    (m.stopping.budget 100 x₀) hp hp.buffer session₁
  obtain ⟨cs, hcs⟩ := iterate_ok hiter
  obtain ⟨log, hend⟩ :=
    m.stopping.conclude_run (.searching .steepestDescent) s.current s.iterations session₂
  have hlength : cs.length = s.iterations := (hcs.iterations_eq.trans (Nat.zero_add _)).symm
  have hhistory : history.recordAll (cs.map record) = s.history := hcs.history_eq.symm
  refine ⟨p, session₁, cs, s, session₂, { session₂ with log }, hfirst, hcs, ?_⟩
  unfold run
  rw [bind_of_ok hfirst, hlength, hhistory]
  exact (bind_of_ok hiter).trans (bind_of_ok hend)

theorem run_total (m : SteepestDescent S) (hf : f.Answers n good) {x₀ : V}
    (hx : Space.dimension x₀ = n) (hg : good x₀) (history : History V S)
    (session : Session σ V S) :
    ∃ minimum history' session', m.run f x₀ history session = .ok (minimum, history') session' := by
  obtain ⟨p, session₁, cs, s, session₂, session', -, -, hrun⟩ :=
    m.run_iterates hf hx hg history session
  exact ⟨_, _, _, hrun⟩

end SteepestDescent

/-! ## Conjugate gradients -/

namespace PolakRibiere

variable {m : PolakRibiere S} {s s' : State V S} {session session' : Session σ V S}

/-- How much of the old direction the new one keeps after a move from the gradient `old` to the
gradient `new`: `⟨new - old, new⟩ / ⟨old, old⟩`, or zero where that is not positive. -/
def beta (old new : V) : S :=
  Scalar.positivePart (Space.dot (Space.ray new old (-1)) new / Space.dot old old)

/-- A quotient that is no number keeps nothing of the old direction, as a negative one does. -/
theorem beta_of_not_le {old new : V}
    (h : ¬(0 : S) ≤ Space.dot (Space.ray new old (-1)) new / Space.dot old old) :
    beta old new = 0 :=
  Scalar.positivePart_of_not_le h

-- The quotient of two zeros.
example : (beta (0 : Float) 0 == 0) = true := by decide +kernel

/-- All vectors of the state have dimension `n`, and both gradients can be buffers. -/
structure State.Fits (n : Nat) (good : V → Prop) (s : State V S) : Prop where
  current : s.current.Fits n good
  dimension_direction : Space.dimension s.direction = n
  spare_buffer : good s.spare.gradient

/-- An iteration whose search fails returns. -/
theorem step_run_of_failed {found : Search V S} {after : Session σ V S}
    (h : (s.call session found after).Made m.lineSearch f) (hz : (found.step == 0) = true) :
    ∃ log, m.step f s session = .ok (s.restarted m.firstStep found) { after with log } := by
  have hsearch : m.lineSearch.search f s.direction s.current s.spare s.nextStep none session =
    .ok found after := h
  unfold step
  rw [bind_of_ok hsearch]
  unfold follow
  rw [if_pos hz]
  exact ⟨_, rfl⟩

/-- An iteration whose search finds a step returns if the direction can be turned. -/
theorem step_run_of_succeeded {found : Search V S} {after : Session σ V S} {direction : V}
    (h : (s.call session found after).Made m.lineSearch f) (hz : (found.step == 0) = false)
    (hturn : turn s.direction s.current.gradient found.next.gradient = .ok direction) :
    ∃ log, m.step f s session = .ok (s.moved found direction) { after with log } := by
  have hsearch : m.lineSearch.search f s.direction s.current s.spare s.nextStep none session =
    .ok found after := h
  unfold step
  rw [bind_of_ok hsearch]
  unfold follow
  rw [if_neg (ne_true_of_eq_false hz)]
  have hmove : move (s.count found.step) found after = .ok (s.moved found direction) after :=
    bind_of_ok (liftM_of_ok hturn)
  rw [bind_of_ok hmove]
  exact ⟨_, rfl⟩

variable [SizedSpace V S]

theorem turn_of_dimension {direction old new : V} (hd : Space.dimension direction = n)
    (ho : Space.dimension old = n) (hn : Space.dimension new = n) :
    turn direction old new = .ok (Space.combine direction (beta old new) new (-1)) := by
  have hchange : Space.dimension (Space.ray new old (-1)) = Space.dimension new :=
    SizedSpace.dimension_ray (hn.trans ho.symm) _
  unfold turn
  rw [Space.tryRay_of_eq (hn.trans ho.symm)]
  change (Space.tryDot _ _ >>= fun _ => _) = _
  rw [Space.tryDot_of_eq hchange]
  exact Space.tryCombine_of_eq (hd.trans hn.symm) _ _

theorem step_total (hf : f.Answers n good) (hs : s.Fits n good) (session : Session σ V S) :
    ∃ s' session', m.step f s session = .ok s' session' ∧ s'.Fits n good := by
  have hx := hs.current.dimension_x
  have hg := hs.current.dimension_gradient
  obtain ⟨found, after, hsearch⟩ := StrongWolfe.search_total hf hx hs.dimension_direction
    m.lineSearch hg s.spare hs.spare_buffer s.nextStep none session
  have hmade : (s.call session found after).Made m.lineSearch f := hsearch
  cases hz : found.step == 0 with
  | true =>
    obtain ⟨log, hstep⟩ := step_run_of_failed hmade hz
    exact ⟨_, _, hstep, hs.current, (SizedSpace.dimension_scale _ _).trans hg,
      hmade.buffer hf hx hs.spare_buffer⟩
  | false =>
    have hfits := hmade.fits hf hx hs.spare_buffer hz
    have hturn := turn_of_dimension hs.dimension_direction hg hfits.dimension_gradient
    obtain ⟨log, hstep⟩ := step_run_of_succeeded hmade hz hturn
    refine ⟨_, _, hstep, hfits, ?_, hs.current.buffer⟩
    exact (SizedSpace.dimension_combine
      (hs.dimension_direction.trans hfits.dimension_gradient.symm) _ _).trans
      hs.dimension_direction

theorem iterate_total (hf : f.Answers n good) (k : Nat) (hs : s.Fits n good)
    (session : Session σ V S) : ∃ s' session', m.iterate f k s session = .ok s' session' := by
  induction k generalizing s session with
  | zero => exact ⟨s, session, rfl⟩
  | succ k ih =>
    unfold iterate
    by_cases hconv : m.stopping.Converged s.current
    · rw [if_pos hconv]
      exact ⟨s, session, rfl⟩
    rw [if_neg hconv]
    obtain ⟨s₁, session₁, hstep, hs₁⟩ := step_total (m := m) hf hs session
    rw [bind_of_ok hstep]
    exact ih hs₁ session₁

theorem State.initial_fits {p : Point V S} (hp : p.Fits n good) (history : History V S) :
    (State.initial m p history).Fits n good :=
  ⟨hp, (SizedSpace.dimension_scale _ _).trans hp.dimension_gradient, hp.buffer⟩

/-- A run returns, and shows the loop between its start and its end. -/
theorem run_iterates (m : PolakRibiere S) (hf : f.Answers n good) {x₀ : V}
    (hx : Space.dimension x₀ = n) (hg : good x₀) (history : History V S)
    (session : Session σ V S) :
    ∃ p session₁ cs s session₂ session', evaluateFirst f x₀ session = .ok p session₁ ∧
      Iterates m f (m.stopping.budget 20 x₀) (.initial m p history) session₁ cs s session₂ ∧
      m.run f x₀ history session =
        .ok ({ point := s.current, iterations := cs.length,
               converged := m.stopping.Converged s.current },
             history.recordAll (cs.map record ++ [s.final])) session' := by
  obtain ⟨p, session₁, hfirst, hp⟩ := evaluateFirst_total hf hx hg session
  obtain ⟨s, session₂, hiter⟩ := iterate_total (m := m) hf (m.stopping.budget 20 x₀)
    (State.initial_fits hp history) session₁
  obtain ⟨cs, hcs⟩ := iterate_ok hiter
  obtain ⟨log, hend⟩ :=
    m.stopping.conclude_run (.searching .conjugateGradient) s.current s.iterations session₂
  have hlength : cs.length = s.iterations := (hcs.iterations_eq.trans (Nat.zero_add _)).symm
  have hhistory : history.recordAll (cs.map record) = s.history := hcs.history_eq.symm
  refine ⟨p, session₁, cs, s, session₂, { session₂ with log }, hfirst, hcs, ?_⟩
  unfold run
  rw [bind_of_ok hfirst, hlength, ← Recorder.record_recordAll, hhistory]
  exact (bind_of_ok hiter).trans (bind_of_ok hend)

theorem run_total (m : PolakRibiere S) (hf : f.Answers n good) {x₀ : V}
    (hx : Space.dimension x₀ = n) (hg : good x₀) (history : History V S)
    (session : Session σ V S) :
    ∃ minimum history' session', m.run f x₀ history session = .ok (minimum, history') session' := by
  obtain ⟨p, session₁, cs, s, session₂, session', -, -, hrun⟩ :=
    m.run_iterates hf hx hg history session
  exact ⟨_, _, _, hrun⟩

end PolakRibiere

end Descent
