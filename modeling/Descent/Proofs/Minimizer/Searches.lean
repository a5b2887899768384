import Descent.Minimizer.PolakRibiere
import Descent.Minimizer.SteepestDescent
import Descent.Proofs.StrongWolfe.Acceptance

/-!
# The searches of a run

The two methods with a line search differ in the directions and in the first steps of their
searches, and in what they do after a search that has failed. Between two searches both do the same.

* `SearchCall σ V S`: a line search of a run, with all that went in and came out. It has
  `Succeeded` if it has found a step, and `Accepted` it if the step satisfies both conditions.
* `Journey`: searches one after the other, each from the point that the one before has led to.
* `Minimum.path`: the points that a run records and returns.
* `SteepestDescent.Iterates`, `PolakRibiere.Iterates`: the loops of the two methods as relations,
  one constructor for every way through an iteration. `SteepestDescent.iterate_ok` and
  `PolakRibiere.iterate_ok` find them in a run.
* `Iterates.journey`, `Iterates.history_eq`: the searches of such a loop are a journey, and every
  search is recorded with the point that it started from.
* `SteepestDescent.run_ok`, `PolakRibiere.run_ok`: a run evaluates its start, iterates and reports.
-/

namespace Descent

variable {σ V S : Type} [Scalar S]

/-- A line search of a run: how it was called, the sessions before and after it, and what it has
found. -/
structure SearchCall (σ V S : Type) where
  direction : V
  current : Point V S
  spare : Point V S
  first : S
  samples : Recorder V
  before : Session σ V S
  found : Search V S
  after : Session σ V S

namespace SearchCall

variable {rule : StrongWolfe S} {f : Objective σ V S} {c : SearchCall σ V S}

/-- The search has found a step. -/
def Succeeded (c : SearchCall σ V S) : Prop := (c.found.step == 0) = false

/-- The search has ended with a step that satisfies both conditions. -/
def Accepted (c : SearchCall σ V S) : Prop := ∃ a, c.found.phase = .accepted a

omit [Scalar S] in
/-- Of all other searches there is something to report. -/
theorem accepted_iff : c.Accepted ↔ c.found.phase.closing = none :=
  Phase.closing_eq_none.symm

instance (c : SearchCall σ V S) : Decidable c.Accepted :=
  decidable_of_iff _ accepted_iff.symm

/-- The calls of the objective that the search has made. -/
def evaluations (c : SearchCall σ V S) : List (Evaluation V S) :=
  c.after.evaluations.toList.drop c.before.evaluations.size

/-- The point where a run stands after the search. -/
def arrival (c : SearchCall σ V S) : Point V S :=
  if c.found.step == 0 then c.current else c.found.next

theorem arrival_of_succeeded (h : c.Succeeded) : c.arrival = c.found.next := by
  unfold arrival
  rw [h]
  rfl

theorem arrival_of_failed (h : (c.found.step == 0) = true) : c.arrival = c.current :=
  if_pos h

variable [Space V S]

/-- The search was really made. -/
def Made (rule : StrongWolfe S) (f : Objective σ V S) (c : SearchCall σ V S) : Prop :=
  rule.search f c.direction c.current c.spare c.first c.samples c.before = .ok c.found c.after

/-- The calls of a search are those of its probes. -/
theorem Made.driven (h : c.Made rule f) :
    ∃ qs middle,
      StrongWolfe.Driven rule f c.direction c.current (c.current.slice c.direction)
        { phase := .initial (c.current.slice c.direction) c.first, next := c.spare,
          samples := c.samples } c.before qs c.found middle ∧
      c.evaluations = qs.map (·.evaluation) ∧
      c.before.Extends f (qs.map (·.evaluation)) c.after := by
  obtain ⟨qs, middle, -, hd, ha⟩ := StrongWolfe.search_ok h
  have hext : c.before.Extends f (qs.map (·.evaluation)) c.after := by
    rw [ha]; exact hd.calls.setLog _
  exact ⟨qs, middle, hd, hext.drop_evaluations, hext⟩

theorem Made.calls (h : c.Made rule f) : c.before.Extends f c.evaluations c.after := by
  obtain ⟨qs, -, -, he, hext⟩ := h.driven
  rwa [he]

/-- The search has made the probe `q` and taken its step. -/
structure StandsAt (c : SearchCall σ V S) (q : Probe V S) : Prop where
  along : q.Along c.current.x c.direction
  mem : q.evaluation ∈ c.evaluations
  step_eq : c.found.step = q.trial.step
  next_eq : c.found.next = q.point

/-- A search that has found a step stands at a probe that decreases the value enough. -/
theorem Made.accepted (h : c.Made rule f) (hs : c.Succeeded) :
    ∃ q, c.StandsAt q ∧ rule.SufficientDecrease (c.current.slice c.direction) q.trial := by
  obtain ⟨qs, middle, hd, he, -⟩ := h.driven
  obtain ⟨ts, t, hts, hstep, hdec, -⟩ := hd.reaches.recounts.last_trial hd.stopped hs
  obtain ⟨q, hq, rfl, hnext⟩ := hd.last_probe hts
  exact ⟨q, ⟨hd.along q hq, he ▸ List.mem_map_of_mem hq, hstep, hnext⟩, hdec⟩

/-- A search that has accepted its step stands at a probe that satisfies both conditions. -/
theorem Made.flat (h : c.Made rule f) (ha : c.Accepted) :
    ∃ q, c.StandsAt q ∧ rule.FlatEnough (c.current.slice c.direction) q.trial := by
  obtain ⟨qs, middle, hd, he, -⟩ := h.driven
  obtain ⟨a, ha⟩ := ha
  have hrecounts := hd.reaches.recounts
  rw [ha] at hrecounts
  obtain ⟨ts, t, hts, rfl, -, hflat⟩ := hrecounts
  obtain ⟨q, hq, rfl, hnext⟩ := hd.last_probe hts
  have hstep : c.found.step = q.trial.step := congrArg Phase.step ha
  exact ⟨q, ⟨hd.along q hq, he ▸ List.mem_map_of_mem hq, hstep, hnext⟩, hflat⟩

/-- A search that has found a step, but not accepted it, has used up its doublings. It stands at a
probe from which it would have gone on downhill. -/
theorem Made.exhausted (h : c.Made rule f) (hs : c.Succeeded) (hn : ¬c.Accepted) :
    ∃ q, c.StandsAt q ∧ rule.Downhill (c.current.slice c.direction) q.trial := by
  obtain ⟨qs, middle, hd, he, -⟩ := h.driven
  have hrecounts := hd.reaches.recounts
  have hstop := hd.stopped
  have hstep : (c.found.phase.step == 0) = false := hs
  cases hphase : c.found.phase with
  | bracketing count next last lastValue =>
    rw [hphase] at hrecounts hstop hstep
    obtain ⟨ts, t, hts, hlast, -, hun⟩ := hrecounts.exhausted hstop hstep
    have hdown : rule.Downhill (c.current.slice c.direction) t := hun.downhill t (by simp [hts])
    obtain ⟨q, hq, rfl, hnext⟩ := hd.last_probe hts
    have hstep : c.found.step = q.trial.step := (congrArg Phase.step hphase).trans hlast
    exact ⟨q, ⟨hd.along q hq, he ▸ List.mem_map_of_mem hq, hstep, hnext⟩, hdown⟩
  | zooming count b =>
    rw [hphase, Phase.step, Scalar.zero_beq_zero] at hstep
    cases hstep
  | accepted a => exact absurd ⟨a, hphase⟩ hn

end SearchCall

variable [Space V S]

/-- Searches one after the other, from a point and a session to another point and session. Each
starts at the point that the one before has led to; between them there are only reports. -/
inductive Journey (rule : StrongWolfe S) (f : Objective σ V S) :
    Point V S → Session σ V S → List (SearchCall σ V S) → Point V S → Session σ V S → Prop where
  | nil {p : Point V S} {session : Session σ V S} : Journey rule f p session [] p session
  | cons {c : SearchCall σ V S} {cs : List (SearchCall σ V S)} {p' : Point V S}
      {session' : Session σ V S} {log : Array (Event S)} (made : c.Made rule f)
      (rest : Journey rule f c.arrival { c.after with log } cs p' session') :
      Journey rule f c.current c.before (c :: cs) p' session'

namespace Journey

variable {rule : StrongWolfe S} {f : Objective σ V S} {p p' : Point V S}
  {session session' : Session σ V S} {cs : List (SearchCall σ V S)}

theorem cons_of_arrival {c : SearchCall σ V S} {log : Array (Event S)} (made : c.Made rule f)
    (arrival : c.arrival = p) (rest : Journey rule f p { c.after with log } cs p' session') :
    Journey rule f c.current c.before (c :: cs) p' session' := by
  subst arrival
  exact .cons made rest

theorem made (h : Journey rule f p session cs p' session') : ∀ c ∈ cs, c.Made rule f := by
  induction h with
  | nil => simp
  | cons made _ ih => exact List.forall_mem_cons.mpr ⟨made, ih⟩

theorem calls (h : Journey rule f p session cs p' session') :
    session.Extends f (cs.flatMap (·.evaluations)) session' := by
  induction h with
  | nil => exact .refl f _
  | cons made _ ih => exact (made.calls.setLog _).trans ih

/-- The points from which the searches start and the last point are the first point and the points
to which the searches lead. -/
theorem path_eq (h : Journey rule f p session cs p' session') :
    cs.map (·.current) ++ [p'] = p :: cs.map (·.arrival) := by
  induction h with
  | nil => rfl
  | cons _ _ ih => rw [List.map_cons, List.cons_append, ih, List.map_cons]

/-- Every point on a journey is the first one or was found by a search of the journey. -/
theorem points (h : Journey rule f p session cs p' session') :
    ∀ q ∈ p' :: cs.map (·.current), q = p ∨ ∃ c ∈ cs, c.Succeeded ∧ q = c.found.next := by
  induction h with
  | nil => simp
  | @cons c cs p' session' log made rest ih =>
    intro q hq
    -- What the rest of the journey calls its first point is `c.arrival`.
    have hrest : q = c.current ∨ q ∈ p' :: cs.map (·.current) := by
      simp only [List.map_cons, List.mem_cons] at hq ⊢
      exact or_left_comm.mp hq
    rcases hrest with hq | hq
    · exact .inl hq
    rcases ih q hq with rfl | ⟨c', hc', hs, hn⟩
    · cases hz : c.found.step == 0 with
      | true => exact .inl (SearchCall.arrival_of_failed hz)
      | false => exact .inr ⟨c, by simp, hz, SearchCall.arrival_of_succeeded hz⟩
    · exact .inr ⟨c', List.mem_cons_of_mem _ hc', hs, hn⟩

end Journey

/-- The points that a run goes through: those that it records, and its result. -/
def Minimum.path {S : Type} (minimum : Minimum V S) (records : List (Record V S)) :
    List (Point V S) :=
  records.map (·.point) ++ [minimum.point]

/-- A recorded point lies on the path of the run. -/
theorem Minimum.getElem?_path {V S : Type} (minimum : Minimum V S) {records : List (Record V S)}
    {k : Nat} {r : Record V S} (h : records[k]? = some r) :
    (minimum.path records)[k]? = some r.point := by
  have hk : k < (records.map (·.point)).length := by
    rw [List.length_map]
    exact (List.getElem?_eq_some_iff.mp h).1
  rw [path, List.getElem?_append_left hk, List.getElem?_map, h, Option.map_some]

/-! ## Steepest descent -/

namespace SteepestDescent

variable {m : SteepestDescent S} {f : Objective σ V S} {s s' : State V S}
  {session session' : Session σ V S} {n : Nat} {cs : List (SearchCall σ V S)}

/-- The search of an iteration, once it is known what it finds. -/
def State.call (s : State V S) (session : Session σ V S) (found : Search V S)
    (after : Session σ V S) : SearchCall σ V S where
  direction := Space.scale s.current.gradient (-1)
  current := s.current
  spare := s.spare
  first := s.lastStep
  samples := s.history.map fun _ => s.unlisted
  before := session
  found
  after

/-- The state after a search that has found a step. -/
def State.moved (s : State V S) (found : Search V S) : State V S :=
  { s.count found with current := found.next, spare := s.current }

/-- The record of an iteration. -/
def record (c : SearchCall σ V S) : Record V S where
  point := c.current
  step := c.found.step
  samples := c.found.samples.contents

theorem step_ok (h : m.step f s session = .ok s' session') :
    ∃ found after log, (s.call session found after).Made m.lineSearch f ∧
      session' = { after with log } ∧
      s' = if found.step == 0 then s.count found else s.moved found := by
  unfold step at h
  obtain ⟨found, after, hmade, hfollow⟩ := bind_ok h
  unfold follow at hfollow
  refine ⟨found, after, session'.log, hmade, ?_⟩
  split at hfollow
  · rename_i hz
    rw [bind_of_ok (note_run _ _)] at hfollow
    obtain ⟨rfl, rfl⟩ := pure_ok hfollow
    exact ⟨rfl, (if_pos hz).symm⟩
  · rename_i hz
    rw [bind_of_ok (note_run _ _)] at hfollow
    obtain ⟨rfl, rfl⟩ := pure_ok hfollow
    exact ⟨rfl, (if_neg hz).symm⟩

/-- At most `n` iterations, with the searches that they make. -/
inductive Iterates (m : SteepestDescent S) (f : Objective σ V S) : Nat → State V S →
    Session σ V S → List (SearchCall σ V S) → State V S → Session σ V S → Prop where
  | exhausted {s : State V S} {session : Session σ V S} : Iterates m f 0 s session [] s session
  | converged {n : Nat} {s : State V S} {session : Session σ V S}
      (small : m.stopping.Converged s.current) : Iterates m f (n + 1) s session [] s session
  | failed {n : Nat} {s : State V S} {session after : Session σ V S} {found : Search V S}
      {log : Array (Event S)} (large : ¬m.stopping.Converged s.current)
      (made : (s.call session found after).Made m.lineSearch f)
      (zero : (found.step == 0) = true) :
      Iterates m f (n + 1) s session [s.call session found after] (s.count found)
        { after with log }
  | moved {n : Nat} {s s' : State V S} {session after session' : Session σ V S}
      {found : Search V S} {log : Array (Event S)} {cs : List (SearchCall σ V S)}
      (large : ¬m.stopping.Converged s.current)
      (made : (s.call session found after).Made m.lineSearch f)
      (nonzero : (found.step == 0) = false)
      (rest : Iterates m f n (s.moved found) { after with log } cs s' session') :
      Iterates m f (n + 1) s session (s.call session found after :: cs) s' session'

theorem iterate_ok (h : m.iterate f n s session = .ok s' session') :
    ∃ cs, Iterates m f n s session cs s' session' := by
  induction n generalizing s session with
  | zero =>
    obtain ⟨rfl, rfl⟩ := pure_ok h
    exact ⟨[], .exhausted⟩
  | succ n ih =>
    unfold iterate at h
    split at h
    · rename_i hsmall
      obtain ⟨rfl, rfl⟩ := pure_ok h
      exact ⟨[], .converged hsmall⟩
    · rename_i hlarge
      obtain ⟨s₁, session₁, hstep, hrest⟩ := bind_ok h
      obtain ⟨found, after, log, hmade, rfl, rfl⟩ := step_ok hstep
      cases hz : found.step == 0 with
      | true =>
        have hlast : ((s.count found).lastStep == 0) = true := hz
        rw [if_pos hz, if_pos hlast] at hrest
        obtain ⟨rfl, rfl⟩ := pure_ok hrest
        exact ⟨_, .failed hlarge hmade hz⟩
      | false =>
        have hlast : ¬((s.moved found).lastStep == 0) = true := ne_true_of_eq_false hz
        rw [if_neg (ne_true_of_eq_false hz), if_neg hlast] at hrest
        obtain ⟨cs, hcs⟩ := ih hrest
        exact ⟨_, .moved hlarge hmade hz hcs⟩

theorem Iterates.journey (h : Iterates m f n s session cs s' session') :
    Journey m.lineSearch f s.current session cs s'.current session' := by
  induction h with
  | exhausted => exact .nil
  | converged => exact .nil
  | failed _ made zero => exact .cons_of_arrival made (SearchCall.arrival_of_failed zero) .nil
  | moved _ made nonzero _ ih =>
    exact .cons_of_arrival made (SearchCall.arrival_of_succeeded nonzero) ih

theorem Iterates.history_eq (h : Iterates m f n s session cs s' session') :
    s'.history = s.history.recordAll (cs.map record) := by
  induction h with
  | exhausted => simp
  | converged => simp
  | failed =>
    exact (Recorder.recordAll_nil _).symm.trans (Recorder.recordAll_record _ _ _)
  | moved _ _ _ _ ih => rw [ih]; simp [State.moved, State.count, State.call, record]

theorem Iterates.iterations_eq (h : Iterates m f n s session cs s' session') :
    s'.iterations = s.iterations + cs.length := by
  induction h with
  | exhausted => rfl
  | converged => rfl
  | failed => rfl
  | moved _ _ _ _ ih =>
    rw [ih, List.length_cons]
    simp only [State.moved, State.count]
    omega

/-- Every search goes against a gradient that is not short enough. -/
theorem Iterates.against (h : Iterates m f n s session cs s' session') :
    ∀ c ∈ cs, c.direction = Space.scale c.current.gradient (-1) ∧
      ¬m.stopping.Converged c.current := by
  induction h with
  | exhausted => simp
  | converged => simp
  | failed large => exact List.forall_mem_singleton.mpr ⟨rfl, large⟩
  | moved large _ _ _ ih => exact List.forall_mem_cons.mpr ⟨⟨rfl, large⟩, ih⟩

/-- The state before the first iteration. -/
def State.initial (m : SteepestDescent S) (x₀ : V) (p : Point V S) (history : History V S) :
    State V S where
  current := p
  spare := p
  lastStep := m.firstStep
  iterations := 0
  unlisted := #[x₀]
  history

theorem run_ok {x₀ : V} {history history' : History V S} {minimum : Minimum V S}
    (h : m.run f x₀ history session = .ok (minimum, history') session') :
    ∃ first cs s session₁ session₂ log, first.x = x₀ ∧ first.buffer = x₀ ∧
      session.Extends f [first] session₁ ∧
      Iterates m f (m.stopping.budget 100 x₀) (.initial m x₀ first.point history) session₁ cs s
        session₂ ∧
      session' = { session₂ with log } ∧ history' = s.history ∧
      minimum = { point := s.current, iterations := s.iterations,
                  converged := m.stopping.Converged s.current } := by
  unfold run at h
  obtain ⟨p, session₁, heval, h₁⟩ := bind_ok h
  obtain ⟨first, hx, hb, rfl, hext, -⟩ := evaluate_ok heval
  obtain ⟨s, session₂, hiter, h₂⟩ := bind_ok h₁
  obtain ⟨cs, hcs⟩ := iterate_ok hiter
  obtain ⟨minimum, session₃, hend, h₃⟩ := bind_ok h₂
  obtain ⟨hpair, rfl⟩ := pure_ok h₃
  cases hpair
  cases hend
  exact ⟨first, cs, s, session₁, session₂, _, hx, hb, hext, hcs, rfl, rfl, rfl⟩

end SteepestDescent

/-! ## Conjugate gradients -/

namespace PolakRibiere

variable {m : PolakRibiere S} {f : Objective σ V S} {s s' : State V S}
  {session session' : Session σ V S} {n : Nat} {cs : List (SearchCall σ V S)}

/-- The search of an iteration, once it is known what it finds. -/
def State.call (s : State V S) (session : Session σ V S) (found : Search V S)
    (after : Session σ V S) : SearchCall σ V S where
  direction := s.direction
  current := s.current
  spare := s.spare
  first := s.nextStep
  samples := none
  before := session
  found
  after

/-- The state after a search that has failed. -/
def State.restarted (s : State V S) (firstStep : S) (found : Search V S) : State V S :=
  { s.count found.step with
    spare := found.next
    direction := Space.scale s.current.gradient (-1)
    nextStep := firstStep }

/-- The state after a search that has found a step, with the direction of the next search. -/
def State.moved (s : State V S) (found : Search V S) (direction : V) : State V S :=
  { s.count found.step with
    current := found.next
    spare := s.current
    direction
    nextStep := found.step }

/-- The record of an iteration. -/
def record (c : SearchCall σ V S) : Record V S where
  point := c.current
  step := c.found.step
  samples := #[]

theorem step_ok (h : m.step f s session = .ok s' session') :
    ∃ found after log, (s.call session found after).Made m.lineSearch f ∧
      session' = { after with log } ∧
      ((found.step == 0) = true ∧ s' = s.restarted m.firstStep found ∨
        (found.step == 0) = false ∧ ∃ direction,
          turn s.direction s.current.gradient found.next.gradient = .ok direction ∧
          s' = s.moved found direction) := by
  unfold step at h
  obtain ⟨found, after, hmade, hrest⟩ := bind_ok h
  obtain ⟨s₁, after₁, hfollow, hnote⟩ := bind_ok hrest
  rw [bind_of_ok (note_run _ _)] at hnote
  obtain ⟨rfl, rfl⟩ := pure_ok hnote
  unfold follow at hfollow
  split at hfollow
  · rename_i hz
    unfold restart at hfollow
    rw [bind_of_ok (note_run _ _)] at hfollow
    obtain ⟨rfl, rfl⟩ := pure_ok hfollow
    exact ⟨found, _, _, hmade, rfl, .inl ⟨hz, rfl⟩⟩
  · rename_i hz
    unfold move at hfollow
    obtain ⟨direction, after₂, hlift, hpure⟩ := bind_ok hfollow
    obtain ⟨hturn, rfl⟩ := liftM_ok hlift
    obtain ⟨rfl, rfl⟩ := pure_ok hpure
    exact ⟨found, _, _, hmade, rfl, .inr ⟨eq_false_of_ne_true hz, direction, hturn, rfl⟩⟩

/-- At most `n` iterations, with the searches that they make. -/
inductive Iterates (m : PolakRibiere S) (f : Objective σ V S) : Nat → State V S →
    Session σ V S → List (SearchCall σ V S) → State V S → Session σ V S → Prop where
  | exhausted {s : State V S} {session : Session σ V S} : Iterates m f 0 s session [] s session
  | converged {n : Nat} {s : State V S} {session : Session σ V S}
      (small : m.stopping.Converged s.current) : Iterates m f (n + 1) s session [] s session
  | restarted {n : Nat} {s s' : State V S} {session after session' : Session σ V S}
      {found : Search V S} {log : Array (Event S)} {cs : List (SearchCall σ V S)}
      (large : ¬m.stopping.Converged s.current)
      (made : (s.call session found after).Made m.lineSearch f)
      (zero : (found.step == 0) = true)
      (rest : Iterates m f n (s.restarted m.firstStep found) { after with log } cs s' session') :
      Iterates m f (n + 1) s session (s.call session found after :: cs) s' session'
  | moved {n : Nat} {s s' : State V S} {session after session' : Session σ V S}
      {found : Search V S} {direction : V} {log : Array (Event S)} {cs : List (SearchCall σ V S)}
      (large : ¬m.stopping.Converged s.current)
      (made : (s.call session found after).Made m.lineSearch f)
      (nonzero : (found.step == 0) = false)
      (turned : turn s.direction s.current.gradient found.next.gradient = .ok direction)
      (rest : Iterates m f n (s.moved found direction) { after with log } cs s' session') :
      Iterates m f (n + 1) s session (s.call session found after :: cs) s' session'

theorem iterate_ok (h : m.iterate f n s session = .ok s' session') :
    ∃ cs, Iterates m f n s session cs s' session' := by
  induction n generalizing s session with
  | zero =>
    obtain ⟨rfl, rfl⟩ := pure_ok h
    exact ⟨[], .exhausted⟩
  | succ n ih =>
    unfold iterate at h
    split at h
    · rename_i hsmall
      obtain ⟨rfl, rfl⟩ := pure_ok h
      exact ⟨[], .converged hsmall⟩
    · rename_i hlarge
      obtain ⟨s₁, session₁, hstep, hrest⟩ := bind_ok h
      obtain ⟨cs, hcs⟩ := ih hrest
      obtain ⟨found, after, log, hmade, rfl, ⟨hz, rfl⟩ | ⟨hz, direction, hturn, rfl⟩⟩ :=
        step_ok hstep
      · exact ⟨_, .restarted hlarge hmade hz hcs⟩
      · exact ⟨_, .moved hlarge hmade hz hturn hcs⟩

theorem Iterates.journey (h : Iterates m f n s session cs s' session') :
    Journey m.lineSearch f s.current session cs s'.current session' := by
  induction h with
  | exhausted => exact .nil
  | converged => exact .nil
  | restarted _ made zero _ ih =>
    exact .cons_of_arrival made (SearchCall.arrival_of_failed zero) ih
  | moved _ made nonzero _ _ ih =>
    exact .cons_of_arrival made (SearchCall.arrival_of_succeeded nonzero) ih

theorem Iterates.history_eq (h : Iterates m f n s session cs s' session') :
    s'.history = s.history.recordAll (cs.map record) := by
  induction h with
  | exhausted => simp
  | converged => simp
  | restarted _ _ _ _ ih => rw [ih]; simp [State.restarted, State.count, State.call, record]
  | moved _ _ _ _ _ ih => rw [ih]; simp [State.moved, State.count, State.call, record]

theorem Iterates.iterations_eq (h : Iterates m f n s session cs s' session') :
    s'.iterations = s.iterations + cs.length := by
  induction h with
  | exhausted => rfl
  | converged => rfl
  | restarted _ _ _ _ ih =>
    rw [ih, List.length_cons]
    simp only [State.restarted, State.count]
    omega
  | moved _ _ _ _ _ ih =>
    rw [ih, List.length_cons]
    simp only [State.moved, State.count]
    omega

/-- Every search starts where the gradient is not short enough. -/
theorem Iterates.large (h : Iterates m f n s session cs s' session') :
    ∀ c ∈ cs, ¬m.stopping.Converged c.current := by
  induction h with
  | exhausted => simp
  | converged => simp
  | restarted large _ _ _ ih => exact List.forall_mem_cons.mpr ⟨large, ih⟩
  | moved large _ _ _ _ ih => exact List.forall_mem_cons.mpr ⟨large, ih⟩

/-- The state before the first iteration. -/
def State.initial (m : PolakRibiere S) (p : Point V S) (history : History V S) : State V S where
  current := p
  spare := p
  direction := Space.scale p.gradient (-1)
  nextStep := m.firstStep
  lastStep := 0
  iterations := 0
  history

/-- The record of the state in which a run ends. -/
def State.final (s : State V S) : Record V S where
  point := s.current
  step := s.lastStep
  samples := #[]

theorem run_ok {x₀ : V} {history history' : History V S} {minimum : Minimum V S}
    (h : m.run f x₀ history session = .ok (minimum, history') session') :
    ∃ first cs s session₁ session₂ log, first.x = x₀ ∧ first.buffer = x₀ ∧
      session.Extends f [first] session₁ ∧
      Iterates m f (m.stopping.budget 20 x₀) (.initial m first.point history) session₁ cs s
        session₂ ∧
      session' = { session₂ with log } ∧ history' = s.history.record s.final ∧
      minimum = { point := s.current, iterations := s.iterations,
                  converged := m.stopping.Converged s.current } := by
  unfold run at h
  obtain ⟨p, session₁, heval, h₁⟩ := bind_ok h
  obtain ⟨first, hx, hb, rfl, hext, -⟩ := evaluate_ok heval
  obtain ⟨s, session₂, hiter, h₂⟩ := bind_ok h₁
  obtain ⟨cs, hcs⟩ := iterate_ok hiter
  obtain ⟨minimum, session₃, hend, h₃⟩ := bind_ok h₂
  obtain ⟨hpair, rfl⟩ := pure_ok h₃
  cases hpair
  cases hend
  exact ⟨first, cs, s, session₁, session₂, _, hx, hb, hext, hcs, rfl, rfl, rfl⟩

end PolakRibiere

end Descent
