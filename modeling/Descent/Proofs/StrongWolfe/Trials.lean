import Descent.Proofs.Dimensions
import Descent.Proofs.Traces
import Descent.StrongWolfe.Search

/-!
# The trials of a line search

* `Phase.Reaches rule start phase ts phase'`: the trials `ts`, each at the step that is pending,
  take a search from `phase` to `phase'`.
* `Phase.Move`: all that one trial can do to a phase (`Phase.move_advance`). What every move
  preserves holds in all phases that are reached (`Phase.Reaches.invariant`).
* `Probe V S`: a trial and the call of the objective behind it; `Probe.Along` says that the two
  belong together.
* `StrongWolfe.Driven`: the run of a search as a relation, one constructor for each trial.
  `StrongWolfe.drive_ok` and `StrongWolfe.search_ok` find it in a search that has returned.
* `Driven.reaches`, `Driven.calls`, `Driven.log_eq`, `Driven.next_eq`, `Driven.samples_eq`: what a
  whole run has done to the phase, the objective, the log, the point and the samples.
* `StrongWolfe.search_total`: a search returns if all vectors have one dimension.
-/

namespace Descent

variable {σ V S : Type} [Scalar S]

/-! ## Phases -/

/-- A trial after which the step is to be doubled: it decreases the value enough, and its slope is
neither flat enough nor rising. -/
structure StrongWolfe.Downhill (rule : StrongWolfe S) (start : Slice S) (t : Trial S) : Prop where
  decrease : rule.SufficientDecrease start t
  steep : ¬rule.FlatEnough start t
  falling : ¬0 ≤ t.slope

namespace Phase

variable {rule : StrongWolfe S} {start : Slice S} {phase phase' : Phase S} {ts : List (Trial S)}

/-- The trials `ts` take a search from one phase to another. The search need not be over then. -/
inductive Reaches (rule : StrongWolfe S) (start : Slice S) :
    Phase S → List (Trial S) → Phase S → Prop where
  | refl {phase : Phase S} : Reaches rule start phase [] phase
  | step {phase phase' : Phase S} {t : Trial S} {ts : List (Trial S)}
      (pending : phase.pending rule = some t.step)
      (rest : Reaches rule start (phase.advance rule start t) ts phase') :
      Reaches rule start phase (t :: ts) phase'

theorem Reaches.eq_of_nil (h : Reaches rule start phase [] phase') : phase' = phase := by
  cases h
  rfl

theorem pending_bracketing {count : Nat} {next last lastValue a : S} :
    (bracketing count next last lastValue).pending rule = some a ↔
      count < rule.doublings ∧ next = a := by
  simp [pending]

theorem pending_zooming {count : Nat} {b : Bracket S} {a : S} :
    (zooming count b).pending rule = some a ↔ count < rule.bisections ∧ b.midpoint = a := by
  simp [pending]

theorem pending_bracketing_eq_none {count : Nat} {next last lastValue : S} :
    (bracketing count next last lastValue).pending rule = none ↔ rule.doublings ≤ count := by
  simp [pending]

theorem pending_zooming_eq_none {count : Nat} {b : Bracket S} :
    (zooming count b).pending rule = none ↔ rule.bisections ≤ count := by
  simp [pending]

omit [Scalar S] in
/-- There is something to report of a search unless it has accepted a step. -/
theorem closing_eq_none : phase.closing = none ↔ ∃ a, phase = accepted a := by
  cases phase <;> simp [closing]

/-- What a trial can do to the phase of a search. -/
inductive Move (rule : StrongWolfe S) (start : Slice S) (t : Trial S) :
    Phase S → Phase S → Prop where
  /-- A trial that is too high closes a bracket as its high end. -/
  | overshoot {count : Nat} {last lastValue : S} (budget : count < rule.doublings)
      (high : ¬rule.SufficientDecrease start t ∨ 0 < count ∧ lastValue ≤ t.value) :
      Move rule start t (bracketing count t.step last lastValue)
        (zooming 0 { low := last, high := t.step, lowValue := lastValue })
  /-- A trial while the step is doubled satisfies both conditions. -/
  | acceptDoubled {count : Nat} {last lastValue : S} (budget : count < rule.doublings)
      (decrease : rule.SufficientDecrease start t) (flat : rule.FlatEnough start t) :
      Move rule start t (bracketing count t.step last lastValue) (accepted t.step)
  /-- A trial with a rising slope closes a bracket as its low end. -/
  | turn {count : Nat} {last lastValue : S} (budget : count < rule.doublings)
      (decrease : rule.SufficientDecrease start t) (below : 0 < count → ¬lastValue ≤ t.value)
      (steep : ¬rule.FlatEnough start t) (rising : 0 ≤ t.slope) :
      Move rule start t (bracketing count t.step last lastValue)
        (zooming 0 { low := t.step, high := last, lowValue := t.value })
  /-- A trial that leads on downhill doubles the step. -/
  | double {count : Nat} {last lastValue : S} (budget : count < rule.doublings)
      (downhill : rule.Downhill start t) (below : 0 < count → ¬lastValue ≤ t.value) :
      Move rule start t (bracketing count t.step last lastValue)
        (bracketing (count + 1) (t.step + t.step) t.step t.value)
  /-- A trial that is too high replaces the high end. -/
  | shrink {count : Nat} {b : Bracket S} (budget : count < rule.bisections)
      (middle : t.step = b.midpoint)
      (high : ¬rule.SufficientDecrease start t ∨ b.lowValue ≤ t.value) :
      Move rule start t (zooming count b) (zooming (count + 1) { b with high := t.step })
  /-- A trial inside a bracket satisfies both conditions. -/
  | acceptBisected {count : Nat} {b : Bracket S} (budget : count < rule.bisections)
      (middle : t.step = b.midpoint) (decrease : rule.SufficientDecrease start t)
      (flat : rule.FlatEnough start t) :
      Move rule start t (zooming count b) (accepted t.step)
  /-- A trial becomes the low end, from which the slope points to the high end. -/
  | lower {count : Nat} {b : Bracket S} (budget : count < rule.bisections)
      (middle : t.step = b.midpoint) (decrease : rule.SufficientDecrease start t)
      (below : ¬b.lowValue ≤ t.value) (steep : ¬rule.FlatEnough start t)
      (ahead : ¬0 ≤ t.slope * (b.high - b.low)) :
      Move rule start t (zooming count b)
        (zooming (count + 1) { low := t.step, high := b.high, lowValue := t.value })
  /-- A trial becomes the low end, and the old low end the high one. -/
  | flip {count : Nat} {b : Bracket S} (budget : count < rule.bisections)
      (middle : t.step = b.midpoint) (decrease : rule.SufficientDecrease start t)
      (below : ¬b.lowValue ≤ t.value) (steep : ¬rule.FlatEnough start t)
      (behind : 0 ≤ t.slope * (b.high - b.low)) :
      Move rule start t (zooming count b)
        (zooming (count + 1) { low := t.step, high := b.low, lowValue := t.value })

/-- Every trial at the pending step is one of these moves. -/
theorem move_advance {t : Trial S} (h : phase.pending rule = some t.step) :
    Move rule start t phase (phase.advance rule start t) := by
  cases phase with
  | bracketing count next last lastValue =>
    obtain ⟨hc, rfl⟩ := pending_bracketing.mp h
    by_cases hhigh : ¬rule.SufficientDecrease start t ∨ (0 < count ∧ lastValue ≤ t.value)
    · simp only [advance, if_pos hhigh]
      exact .overshoot hc hhigh
    · simp only [advance, if_neg hhigh]
      obtain ⟨hdec, hbelow⟩ := not_or.mp hhigh
      have hdec := Decidable.not_not.mp hdec
      have hbelow := not_and.mp hbelow
      by_cases hflat : rule.FlatEnough start t
      · rw [if_pos hflat]; exact .acceptDoubled hc hdec hflat
      rw [if_neg hflat]
      by_cases hrise : 0 ≤ t.slope
      · rw [if_pos hrise]; exact .turn hc hdec hbelow hflat hrise
      · rw [if_neg hrise]; exact .double hc ⟨hdec, hflat, hrise⟩ hbelow
  | zooming count b =>
    obtain ⟨hc, hm⟩ := pending_zooming.mp h
    by_cases hhigh : ¬rule.SufficientDecrease start t ∨ b.lowValue ≤ t.value
    · simp only [advance, if_pos hhigh]
      exact .shrink hc hm.symm hhigh
    · simp only [advance, if_neg hhigh]
      obtain ⟨hdec, hbelow⟩ := not_or.mp hhigh
      have hdec := Decidable.not_not.mp hdec
      by_cases hflat : rule.FlatEnough start t
      · rw [if_pos hflat]; exact .acceptBisected hc hm.symm hdec hflat
      rw [if_neg hflat]
      by_cases hside : 0 ≤ t.slope * (b.high - b.low)
      · rw [if_pos hside]; exact .flip hc hm.symm hdec hbelow hflat hside
      · rw [if_neg hside]; exact .lower hc hm.symm hdec hbelow hflat hside
  | accepted step => cases h

/-- Every move is made by a trial at the pending step. -/
theorem Move.pending {t : Trial S} (h : Move rule start t phase phase') :
    phase.pending rule = some t.step := by
  cases h with
  | overshoot budget _ => exact pending_bracketing.mpr ⟨budget, rfl⟩
  | acceptDoubled budget _ _ => exact pending_bracketing.mpr ⟨budget, rfl⟩
  | turn budget _ _ _ _ => exact pending_bracketing.mpr ⟨budget, rfl⟩
  | double budget _ _ => exact pending_bracketing.mpr ⟨budget, rfl⟩
  | shrink budget middle _ => exact pending_zooming.mpr ⟨budget, middle.symm⟩
  | acceptBisected budget middle _ _ => exact pending_zooming.mpr ⟨budget, middle.symm⟩
  | lower budget middle _ _ _ _ => exact pending_zooming.mpr ⟨budget, middle.symm⟩
  | flip budget middle _ _ _ _ => exact pending_zooming.mpr ⟨budget, middle.symm⟩

/-- What holds at first and is preserved by every move holds in the end. The trials made so far may
be part of it. -/
theorem Reaches.invariant {P : List (Trial S) → Phase S → Prop}
    (h : Reaches rule start phase ts phase') (initial : P [] phase)
    (step : ∀ past t phase phase', P past phase → Move rule start t phase phase' →
      P (past ++ [t]) phase') : P ts phase' := by
  -- The trials made before the ones of `h` vary along the induction.
  have go : ∀ past, P past phase → P (past ++ ts) phase' := by
    clear initial
    induction h with
    | refl => intro past hp; rw [List.append_nil]; exact hp
    | step pending _ ih =>
      intro past hp
      rw [List.append_cons]
      exact ih _ (step _ _ _ _ hp (move_advance pending))
  exact go [] initial

end Phase

/-! ## Probes -/

/-- A trial and the call of the objective behind it. -/
structure Probe (V S : Type) where
  trial : Trial S
  evaluation : Evaluation V S

namespace Probe

variable [Space V S]

/-- The point at which the objective was called, with its answers. -/
def point (q : Probe V S) : Point V S := q.evaluation.point

/-- The objective was called at the step along `direction` from `x`, its value is the value of the
trial, and its gradient has the slope of the trial along `direction`. -/
structure Along (x direction : V) (q : Probe V S) : Prop where
  x_eq : q.evaluation.x = Space.ray x direction q.trial.step
  value_eq : q.trial.value = q.evaluation.value
  slope_eq : q.trial.slope = Space.dot q.evaluation.gradient direction
  dimension_x : Space.dimension x = Space.dimension direction
  dimension_gradient : Space.dimension q.evaluation.gradient = Space.dimension direction

end Probe

variable [Space V S]

/-- The slice of the objective along `direction`, at a point. -/
def Point.slice (p : Point V S) (direction : V) : Slice S where
  value := p.value
  slope := Space.dot p.gradient direction

omit [Scalar S] in
theorem probe_ok {f : Objective σ V S} {direction : V} {current next : Point V S} {a : S}
    {buffer : V} {t : Trial S} {s s' : Session σ V S}
    (h : probe f direction current a buffer s = .ok (t, next) s') :
    ∃ q : Probe V S, q.trial = t ∧ q.point = next ∧ t.step = a ∧ q.evaluation.buffer = buffer ∧
      q.Along current.x direction ∧ s.Extends f [q.evaluation] s' ∧
      s'.log = s.log.push (.trial t) := by
  unfold probe at h
  obtain ⟨x, s₁, hray, h₁⟩ := bind_ok h
  obtain ⟨hx, rfl⟩ := liftM_ok hray
  obtain ⟨hdx, rfl⟩ := tryRay_ok hx
  obtain ⟨p, s₂, he, h₂⟩ := bind_ok h₁
  obtain ⟨e, hex, heb, rfl, hext, hlog⟩ := evaluate_ok he
  obtain ⟨slope, s₃, hdot, h₃⟩ := bind_ok h₂
  obtain ⟨hs, rfl⟩ := liftM_ok hdot
  obtain ⟨hdg, rfl⟩ := tryDot_ok hs
  rw [bind_of_ok (note_run _ _)] at h₃
  cases h₃
  refine ⟨⟨_, e⟩, rfl, rfl, rfl, heb, ⟨hex, rfl, rfl, hdx, hdg⟩, hext.setLog _, ?_⟩
  rw [hlog]

/-! ## Whole searches -/

namespace StrongWolfe

variable {rule : StrongWolfe S} {f : Objective σ V S} {direction : V}
  {current next : Point V S} {start : Slice S} {first : S} {samples : Recorder V}
  {s s' found : Search V S} {session session' : Session σ V S} {qs : List (Probe V S)}

/-- A search makes the probes `qs` until no step is pending. -/
inductive Driven (rule : StrongWolfe S) (f : Objective σ V S) (direction : V)
    (current : Point V S) (start : Slice S) :
    Search V S → Session σ V S → List (Probe V S) → Search V S → Session σ V S → Prop where
  | stop {s : Search V S} {session : Session σ V S} (pending : s.phase.pending rule = none) :
      Driven rule f direction current start s session [] s session
  | next {s s' : Search V S} {session session₁ session' : Session σ V S} {q : Probe V S}
      {qs : List (Probe V S)} (pending : s.phase.pending rule = some q.trial.step)
      (buffer : q.evaluation.buffer = s.next.gradient) (along : q.Along current.x direction)
      (call : session.Extends f [q.evaluation] session₁)
      (log : session₁.log = session.log.push (.trial q.trial))
      (rest : Driven rule f direction current start
        { phase := s.phase.advance rule start q.trial, next := q.point,
          samples := s.samples.record q.evaluation.x } session₁ qs s' session') :
      Driven rule f direction current start s session (q :: qs) s' session'

theorem drive_of_pending_eq_none (h : s.phase.pending rule = none) :
    rule.drive f direction current start s = pure s := by
  rw [drive]
  split
  · rfl
  · rename_i hp; rw [h] at hp; cases hp

theorem drive_of_pending {a : S} (h : s.phase.pending rule = some a) :
    rule.drive f direction current start s =
      probe f direction current a s.next.gradient >>= fun (t, next) =>
        rule.drive f direction current start
          { phase := s.phase.advance rule start t, next, samples := s.samples.record next.x } := by
  rw [drive]
  split
  · rename_i hp; rw [h] at hp; cases hp
  · rename_i hp; rw [h] at hp; cases hp; rfl

theorem drive_ok (h : rule.drive f direction current start s session = .ok s' session') :
    ∃ qs, Driven rule f direction current start s session qs s' session' := by
  induction s using drive.induct rule start generalizing session with
  | case1 s hp =>
    rw [drive_of_pending_eq_none hp] at h
    obtain ⟨rfl, rfl⟩ := pure_ok h
    exact ⟨[], .stop hp⟩
  | case2 s a hp ih =>
    rw [drive_of_pending hp] at h
    obtain ⟨⟨t, next⟩, session₁, hq, hrest⟩ := bind_ok h
    obtain ⟨q, rfl, rfl, rfl, hb, ha, hc, hl⟩ := probe_ok hq
    obtain ⟨qs, hqs⟩ := ih _ _ hrest
    exact ⟨q :: qs, .next hp hb ha hc hl hqs⟩

namespace Driven

variable (h : Driven rule f direction current start s session qs s' session')
include h

theorem reaches : Phase.Reaches rule start s.phase (qs.map (·.trial)) s'.phase := by
  induction h with
  | stop => exact .refl
  | next pending _ _ _ _ _ ih => exact .step pending ih

theorem stopped : s'.phase.pending rule = none := by
  induction h with
  | stop pending => exact pending
  | next _ _ _ _ _ _ ih => exact ih

theorem along : ∀ q ∈ qs, q.Along current.x direction := by
  induction h with
  | stop => simp
  | next _ _ along _ _ _ ih => exact List.forall_mem_cons.mpr ⟨along, ih⟩

theorem calls : session.Extends f (qs.map (·.evaluation)) session' := by
  induction h with
  | stop => exact .refl f _
  | next _ _ _ call _ _ ih => exact call.trans ih

theorem log_eq : session'.log.toList = session.log.toList ++ qs.map fun q => .trial q.trial := by
  induction h with
  | stop => simp
  | next _ _ _ _ log _ ih => rw [ih, log]; simp

/-- The point of a search is that of its last probe. -/
theorem next_eq : s'.next = (qs.getLast?.map Probe.point).getD s.next := by
  induction h with
  | stop => rfl
  | next _ _ _ _ _ _ ih => rw [ih, List.getLast?_cons]; cases List.getLast? _ <;> rfl

/-- Every probe of a search is sampled. -/
theorem samples_eq : s'.samples = s.samples.recordAll (qs.map (·.evaluation.x)) := by
  induction h with
  | stop => exact (Recorder.recordAll_nil _).symm
  | next _ _ _ _ _ _ ih => rw [ih, Recorder.recordAll_record, List.map_cons]

/-- A search ends at the point of its last trial. -/
theorem last_probe {ts : List (Trial S)} {t : Trial S} (hts : qs.map (·.trial) = ts ++ [t]) :
    ∃ q ∈ qs, q.trial = t ∧ s'.next = q.point := by
  obtain ⟨past, rest, rfl, rfl, hlast⟩ := List.map_eq_append_iff.mp hts
  obtain ⟨q, rfl, rfl⟩ := List.map_eq_singleton_iff.mp hlast
  refine ⟨q, by simp, rfl, ?_⟩
  rw [h.next_eq, List.getLast?_append]
  rfl

end Driven

/-- A search returns what its trials lead to, with a report if they have not led to an accepted
step. -/
theorem search_ok_iff :
    rule.search f direction current next first samples session = .ok found session' ↔
      Space.dimension current.gradient = Space.dimension direction ∧
      ∃ middle,
        rule.drive f direction current (current.slice direction)
          { phase := .initial (current.slice direction) first, next, samples } session =
            .ok found middle ∧
        session' = { middle with log := middle.log ++ found.phase.closing.toArray } := by
  unfold search
  constructor
  · intro h
    obtain ⟨slope, s₁, hdot, h₁⟩ := bind_ok h
    obtain ⟨hs, rfl⟩ := liftM_ok hdot
    obtain ⟨hdim, rfl⟩ := tryDot_ok hs
    obtain ⟨s', middle, hdrive, h₂⟩ := bind_ok h₁
    rw [bind_of_ok (note?_run _ _)] at h₂
    obtain ⟨rfl, rfl⟩ := pure_ok h₂
    exact ⟨hdim, middle, hdrive, rfl⟩
  · rintro ⟨hdim, middle, hdrive, rfl⟩
    rw [bind_of_ok (liftM_of_ok (Space.tryDot_of_eq hdim))]
    exact (bind_of_ok hdrive).trans (bind_of_ok (note?_run _ _))

theorem search_ok (h : rule.search f direction current next first samples session =
      .ok found session') :
    ∃ qs middle, Space.dimension current.gradient = Space.dimension direction ∧
      Driven rule f direction current (current.slice direction)
        { phase := .initial (current.slice direction) first, next, samples } session qs found
        middle ∧
      session' = { middle with log := middle.log ++ found.phase.closing.toArray } := by
  obtain ⟨hdim, middle, hdrive, hsession⟩ := search_ok_iff.mp h
  obtain ⟨qs, hqs⟩ := drive_ok hdrive
  exact ⟨qs, middle, hdim, hqs, hsession⟩

end StrongWolfe

/-! ## Searches that return -/

section Total

variable [SizedSpace V S] {f : Objective σ V S} {n : Nat} {good : V → Prop} {direction : V}
  {current : Point V S} (hf : f.Answers n good) (hx : Space.dimension current.x = n)
  (hd : Space.dimension direction = n)
include hf hx hd

omit [Scalar S] in
theorem probe_total {buffer : V} (hb : good buffer) (a : S) (s : Session σ V S) :
    ∃ t next s', probe f direction current a buffer s = .ok (t, next) s' ∧ good next.gradient := by
  have hxd := hx.trans hd.symm
  obtain ⟨p, s₁, heval, hdim, hgood⟩ :=
    evaluate_total hf ((SizedSpace.dimension_ray hxd a).trans hx) hb s
  unfold probe
  rw [bind_of_ok (liftM_of_ok (Space.tryRay_of_eq hxd a)), bind_of_ok heval,
    bind_of_ok (liftM_of_ok (Space.tryDot_of_eq (hdim.trans hd.symm)))]
  exact ⟨_, _, _, rfl, hgood⟩

namespace StrongWolfe

theorem drive_total (rule : StrongWolfe S) (start : Slice S) (s : Search V S)
    (hs : good s.next.gradient) (session : Session σ V S) :
    ∃ s' session', rule.drive f direction current start s session = .ok s' session' := by
  induction s using drive.induct rule start generalizing session with
  | case1 s hp => exact ⟨s, session, by rw [drive_of_pending_eq_none hp]; rfl⟩
  | case2 s a hp ih =>
    obtain ⟨t, next, session₁, hprobe, hgood⟩ := probe_total hf hx hd hs a session
    rw [drive_of_pending hp, bind_of_ok hprobe]
    exact ih t next hgood session₁

/-- A line search returns if the vectors that it is given have one dimension and the objective
keeps it. -/
theorem search_total (rule : StrongWolfe S) (hg : Space.dimension current.gradient = n)
    (next : Point V S) (hnext : good next.gradient) (first : S) (samples : Recorder V)
    (session : Session σ V S) :
    ∃ found session',
      rule.search f direction current next first samples session = .ok found session' := by
  obtain ⟨found, session₁, hdrive⟩ := drive_total hf hx hd rule (current.slice direction)
    { phase := .initial (current.slice direction) first, next, samples } hnext session
  exact ⟨found, _, search_ok_iff.mpr ⟨hg.trans hd.symm, session₁, hdrive, rfl⟩⟩

end StrongWolfe

end Total

end Descent
