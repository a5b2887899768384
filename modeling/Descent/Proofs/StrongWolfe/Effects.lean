import Descent.Proofs.StrongWolfe.Underway

/-!
# What a line search leaves behind

For any scalars, and for an objective of which nothing is known.

* `Phase.Reaches.length_add_remaining_le`: every trial uses up some of the budgets.
* `Phase.Counts`: how many trials a phase has behind it.
* `Phase.Reaches.bisects_all`: a search that accepts no step between the ends of a bracket uses up
  its bisections.
* `StrongWolfe.Leaves`: what a search has done, by its probes: to the session, to the samples and to
  the point that it was given to overwrite.
* `StrongWolfe.ClosesAt`: the trial with which a search goes over from doubling to bisecting.
* `StrongWolfe.search_effects`: the statement for searches that return.
-/

namespace Descent

variable {σ V S : Type} [Scalar S]

/-! ## Numbers of trials -/

namespace Phase

variable {rule : StrongWolfe S} {start : Slice S} {first : S} {t : Trial S} {ts : List (Trial S)}
  {phase phase' : Phase S} {b : Bracket S}

theorem Reaches.length_add_remaining_le (h : Reaches rule start phase ts phase') :
    ts.length + phase'.remaining rule ≤ phase.remaining rule := by
  induction h with
  | refl => simp
  | @step phase _ t _ pending _ ih =>
    have hless : (phase.advance rule start t).remaining rule < phase.remaining rule :=
      remaining_advance pending t
    rw [List.length_cons]
    omega

/-- How many trials a phase has behind it. Each of the first `k` was at a doubled step if the `k`-th
of them has closed a bracket. -/
def Counts (rule : StrongWolfe S) (ts : List (Trial S)) : Phase S → Prop
  | bracketing count _ _ _ => ts.length = count
  | zooming count _ => ∃ k, 1 ≤ k ∧ k ≤ rule.doublings ∧ ts.length = k + count
  | accepted _ => True

theorem Counts.move (h : phase.Counts rule ts) (hm : Move rule start t phase phase') :
    phase'.Counts rule (ts ++ [t]) := by
  have hlength : (ts ++ [t]).length = ts.length + 1 := by simp
  -- A trial that bisects comes after the same number of doubled steps.
  have hbisect : ∀ {count b b'}, phase = zooming count b →
      (zooming (count + 1) b').Counts rule (ts ++ [t]) := by
    rintro count b b' rfl
    obtain ⟨k, hpos, hle, hk⟩ := h
    exact ⟨k, hpos, hle, by omega⟩
  cases hm with
  | @overshoot count _ _ budget _ =>
    have hcount : ts.length = count := h
    exact ⟨count + 1, by omega, budget, by omega⟩
  | @turn count _ _ budget _ _ _ _ =>
    have hcount : ts.length = count := h
    exact ⟨count + 1, by omega, budget, by omega⟩
  | double => exact hlength.trans (congrArg (· + 1) h)
  | acceptDoubled => trivial
  | acceptBisected => trivial
  | shrink => exact hbisect rfl
  | lower => exact hbisect rfl
  | flip => exact hbisect rfl

theorem Reaches.counts (h : Reaches rule start (initial start first) ts phase) :
    phase.Counts rule ts :=
  h.invariant (P := fun ts phase => phase.Counts rule ts) rfl fun _ _ _ _ hp hm => hp.move hm

/-- From a new bracket on every trial is a bisection, until a step is accepted. -/
theorem Reaches.bisects (h : Reaches rule start (zooming 0 b) ts phase) :
    (∃ b', phase = zooming ts.length b') ∨ ∃ a, phase = accepted a := by
  refine h.invariant
    (P := fun ts phase => (∃ b', phase = zooming ts.length b') ∨ ∃ a, phase = accepted a)
    (.inl ⟨b, rfl⟩) fun past t phase phase' hp hm => ?_
  rw [List.length_append, List.length_singleton]
  rcases hp with ⟨b, rfl⟩ | ⟨a, rfl⟩
  · cases hm with
    | shrink => exact .inl ⟨_, rfl⟩
    | acceptBisected => exact .inr ⟨_, rfl⟩
    | lower => exact .inl ⟨_, rfl⟩
    | flip => exact .inl ⟨_, rfl⟩
  · cases hm

/-- A search that accepts no step in its bracket makes all its bisections. -/
theorem Reaches.bisects_all (h : Reaches rule start (zooming 0 b) ts phase)
    (hstop : phase.pending rule = none) (hnone : ∀ a, phase ≠ accepted a) :
    ts.length = rule.bisections ∧ ∃ b', phase = zooming rule.bisections b' := by
  obtain ⟨b', rfl⟩ := h.bisects.resolve_right fun ⟨a, ha⟩ => hnone a ha
  have hle := h.length_add_remaining_le
  have hge := pending_zooming_eq_none.mp hstop
  simp only [remaining] at hle
  have hlength : ts.length = rule.bisections := by omega
  exact ⟨hlength, b', by rw [hlength]⟩

/-- A search makes a trial if it may double its step at all. -/
theorem Reaches.nil_iff (h : Reaches rule start (initial start first) ts phase)
    (hstop : phase.pending rule = none) : ts = [] ↔ rule.doublings = 0 := by
  constructor
  · rintro rfl
    rw [h.eq_of_nil, initial, pending_bracketing_eq_none] at hstop
    exact Nat.le_zero.mp hstop
  · intro hzero
    cases h with
    | refl => rfl
    | step pending _ =>
      obtain ⟨hlt, -⟩ := pending_bracketing.mp pending
      omega

end Phase

/-! ## Whole searches -/

variable [Space V S]

namespace StrongWolfe

variable {rule : StrongWolfe S} {f : Objective σ V S} {direction : V} {current next : Point V S}
  {start : Slice S} {first : S} {samples : Recorder V} {s s' found : Search V S}
  {session session' : Session σ V S} {qs : List (Probe V S)}

/-- Every probe is given the gradient that the one before has left in the buffer. -/
theorem Driven.buffers_eq (h : Driven rule f direction current start s session qs s' session') :
    qs.map (·.evaluation.buffer) ++ [s'.next.gradient] =
      s.next.gradient :: qs.map (·.evaluation.gradient) := by
  induction h with
  | stop => rfl
  | next _ buffer _ _ _ _ ih =>
    rw [List.map_cons, List.cons_append, ih, List.map_cons, buffer]
    rfl

/-- A search along `direction` from `current` has ended as `found`, and what it has done is to make
the probes `qs`. It overwrites the point `next` and adds to the samples. -/
structure Leaves (rule : StrongWolfe S) (f : Objective σ V S) (direction : V)
    (current next : Point V S) (first : S) (samples : Recorder V) (session : Session σ V S)
    (qs : List (Probe V S)) (found : Search V S) (session' : Session σ V S) : Prop where
  /-- The trials are those that the search has to make, up to its end. -/
  reaches : Phase.Reaches rule (current.slice direction)
    (.initial (current.slice direction) first) (qs.map (·.trial)) found.phase
  stopped : found.phase.pending rule = none
  /-- Each of them is at its step along the direction. -/
  along : ∀ q ∈ qs, q.Along current.x direction
  /-- The objective was called for them, in order, and not otherwise. -/
  calls : session.Extends f (qs.map (·.evaluation)) session'
  /-- The buffer of a call holds the gradient of the call before, and that of `next` at first. -/
  buffers_eq : qs.map (·.evaluation.buffer) ++ [found.next.gradient] =
    next.gradient :: qs.map (·.evaluation.gradient)
  next_eq : found.next = (qs.getLast?.map Probe.point).getD next
  samples_eq : found.samples = samples.recordAll (qs.map (·.evaluation.x))
  log_eq : session'.log.toList = session.log.toList ++
    (qs.map fun q => .trial q.trial) ++ found.phase.closing.toList

theorem Driven.leaves (h : Driven rule f direction current (current.slice direction)
      { phase := .initial (current.slice direction) first, next, samples } session qs found
      session') :
    rule.Leaves f direction current next first samples session qs found
      { session' with log := session'.log ++ found.phase.closing.toArray } where
  reaches := h.reaches
  stopped := h.stopped
  along := h.along
  calls := h.calls.setLog _
  buffers_eq := h.buffers_eq
  next_eq := h.next_eq
  samples_eq := h.samples_eq
  log_eq := by rw [Array.toList_append, h.log_eq, Option.toList_toArray]

theorem search_leaves
    (h : rule.search f direction current next first samples session = .ok found session') :
    ∃ qs, rule.Leaves f direction current next first samples session qs found session' := by
  obtain ⟨qs, middle, -, hd, rfl⟩ := search_ok h
  exact ⟨qs, hd.leaves⟩

/-- The number of probes is that of the calls. -/
theorem Leaves.length_eq {ps : List (Probe V S)}
    (h : rule.Leaves f direction current next first samples session qs found session')
    (h' : rule.Leaves f direction current next first samples session ps found session') :
    qs.length = ps.length := by
  have hcalls := h.calls.drop_evaluations.symm.trans h'.calls.drop_evaluations
  simpa using congrArg List.length hcalls

/-- The search closes a bracket with its trial `k`, counted from one: it has made so many trials
when it is to bisect for the first time. -/
def ClosesAt (rule : StrongWolfe S) (f : Objective σ V S) (direction : V)
    (current next : Point V S) (first : S) (samples : Recorder V) (session : Session σ V S)
    (k : Nat) : Prop :=
  ∃ ps s middle b, rule.UnderWay f direction current next first samples session ps s middle ∧
    ps.length = k ∧ s.phase = .zooming 0 b

/-- What a search that returns has done. It has read the direction and the point from which it
starts, and made probes along the one from the other. It has called the objective for these probes
only, each time with the gradient that was left by the call before. The samples are the old ones
with the points of the calls behind them, and the point that it was given to overwrite is that of
the last call. There is such a call if the search may double its step at all. Otherwise that point
is what it was and the search ends with the step zero. The calls are not more than the doublings and
the bisections together. A search that closes a bracket with its trial `k` and accepts no step has
made `k` calls before, which is not more than it may double its step, and a call for each of its
bisections after that. It ends with the step zero. -/
theorem search_effects
    (h : rule.search f direction current next first samples session = .ok found session') :
    ∃ qs, rule.Leaves f direction current next first samples session qs found session' ∧
      (0 < rule.doublings → ∃ past last, qs = past ++ [last] ∧ found.next = last.point) ∧
      (rule.doublings = 0 → qs = [] ∧ found.next = next ∧ found.step = 0) ∧
      qs.length ≤ rule.doublings + rule.bisections ∧
      ∀ k, rule.ClosesAt f direction current next first samples session k →
        (∀ a, found.phase ≠ .accepted a) →
          1 ≤ k ∧ k ≤ rule.doublings ∧ qs.length = k + rule.bisections ∧ found.step = 0 := by
  obtain ⟨qs, hqs⟩ := search_leaves h
  have hnil : qs = [] ↔ rule.doublings = 0 :=
    List.map_eq_nil_iff.symm.trans (hqs.reaches.nil_iff hqs.stopped)
  refine ⟨qs, hqs, fun hpos => ?_, fun hzero => ?_, ?_, ?_⟩
  · have hne : qs ≠ [] := mt hnil.mp hpos.ne'
    refine ⟨qs.dropLast, qs.getLast hne, (List.dropLast_append_getLast hne).symm, ?_⟩
    rw [hqs.next_eq, List.getLast?_eq_some_getLast hne]
    rfl
  · obtain rfl := hnil.mpr hzero
    have hphase := hqs.reaches.eq_of_nil
    exact ⟨rfl, hqs.next_eq, congrArg Phase.step hphase⟩
  · have hle := hqs.reaches.length_add_remaining_le
    simp only [List.length_map, Phase.initial, Phase.remaining] at hle
    omega
  · rintro k ⟨ps, s, middle, b, hs, rfl, hphase⟩ hnone
    obtain ⟨rest, last, hrest, hstop, rfl⟩ := hs.rest h
    have hall := ((Comes.append hs hrest).driven hstop).leaves
    have hcounts := hs.reaches.counts
    have hreaches := hrest.reaches
    rw [hphase] at hcounts hreaches
    obtain ⟨k, hpos, hle, hk⟩ := hcounts
    obtain ⟨hbisections, b', hfound⟩ := hreaches.bisects_all hstop hnone
    rw [List.length_map] at hk hbisections
    refine ⟨by omega, by omega, ?_, congrArg Phase.step hfound⟩
    rw [hqs.length_eq hall, List.length_append, hbisections]

end StrongWolfe

/-- The probe of the first step up the ramp. -/
def rampProbe : Probe Float Float where
  trial := { step := 1, value := -(0 + -1 * 1), slope := -1 * -1 }
  evaluation := { x := 0 + -1 * 1, buffer := -1, value := -(0 + -1 * 1), gradient := -1 }

/-- Up the ramp that step closes a bracket. -/
theorem ramp_closesAt_one :
    StrongWolfe.standard.ClosesAt ramp (-1) rampStart rampStart 1 (some #[7]) { state := 0 } 1 := by
  have hhigh : ¬StrongWolfe.standard.SufficientDecrease (rampStart.slice (-1)) rampProbe.trial := by
    decide +kernel
  refine ⟨[rampProbe], _, _, { low := 0, high := 1, lowValue := 0 },
    .probed (Phase.pending_bracketing.mpr ⟨by decide, rfl⟩) rfl rfl .here, rfl, ?_⟩
  simp only [Phase.initial, Phase.advance, hhigh]
  rfl

/-- Up the ramp a search makes this trial and all its bisections, and finds nothing. -/
theorem search_effects_on_ramp :
    ∃ found session',
      StrongWolfe.standard.search ramp (-1) rampStart rampStart 1 (some #[7]) { state := 0 } =
        .ok found session' ∧
      found.step = 0 ∧
      ∃ (past : List (Probe Float Float)) (last : Probe Float Float),
        past.length = 16 ∧ found.next = last.point ∧
        session'.evaluations.toList = (past ++ [last]).map (·.evaluation) ∧
        found.samples = some (#[7] ++ ((past ++ [last]).map (·.evaluation.x)).toArray) := by
  have hrun : Succeeds (fun found _ => found.phase.closing.isSome)
      (StrongWolfe.standard.search ramp (-1) rampStart rampStart 1 (some #[7]) { state := 0 }) =
        true := by
    decide +kernel
  obtain ⟨found, session', h, htest⟩ := Succeeds.exists_ok hrun
  have hnone : ∀ a, found.phase ≠ .accepted a := by
    intro a ha
    rw [ha] at htest
    cases htest
  obtain ⟨qs, hqs, hlast, -, -, hcloses⟩ := StrongWolfe.search_effects h
  obtain ⟨-, -, hlength, hstep⟩ := hcloses 1 ramp_closesAt_one hnone
  obtain ⟨past, last, rfl, hnext⟩ := hlast (by decide)
  refine ⟨found, session', h, hstep, past, last, ?_, hnext, ?_, hqs.samples_eq⟩
  · have hbudget : (StrongWolfe.standard : StrongWolfe Float).bisections = 16 := rfl
    rw [List.length_append, List.length_singleton] at hlength
    omega
  · simpa using hqs.calls.evaluations_eq

end Descent
