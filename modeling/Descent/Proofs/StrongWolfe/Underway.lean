import Descent.Proofs.StrongWolfe.Existence

/-!
# Searches under way

What holds in the middle of a line search, whether it goes on from there, stops or fails at a check.

* `StrongWolfe.Comes`: the probes that take a search from one state to another.
  `StrongWolfe.UnderWay`: the states to which a search comes, with the probes made before.
* `Comes.drive_eq`, `Comes.append`: from such a state the search goes on. `UnderWay.rest` is what a
  search that returns has done from there.
* `StrongWolfe.search_underWay`: the state in which a search ends is one of them.
* `StrongWolfe.zoom_straddles`: in exact arithmetic, every bracket of a search downhill is backed by
  its trials.
-/

namespace Descent

variable {σ V S : Type} [Scalar S] [Space V S]

namespace StrongWolfe

/-- The probes `qs` take a search from `s` to `s'`, where it may go on, stop or fail. -/
inductive Comes (rule : StrongWolfe S) (f : Objective σ V S) (direction : V) (current : Point V S)
    (start : Slice S) :
    Search V S → Session σ V S → List (Probe V S) → Search V S → Session σ V S → Prop where
  | here {s : Search V S} {session : Session σ V S} :
      Comes rule f direction current start s session [] s session
  | probed {s s' : Search V S} {session session₁ session' : Session σ V S} {q : Probe V S}
      {qs : List (Probe V S)} (pending : s.phase.pending rule = some q.trial.step)
      (buffer : q.evaluation.buffer = s.next.gradient)
      (made : probe f direction current q.trial.step s.next.gradient session =
        .ok (q.trial, q.point) session₁)
      (rest : Comes rule f direction current start
        { phase := s.phase.advance rule start q.trial, next := q.point,
          samples := s.samples.record q.point.x } session₁ qs s' session') :
      Comes rule f direction current start s session (q :: qs) s' session'

/-- A search along `direction` from `current` that tries `first` before all other steps has made the
probes `qs` and is at `s`. -/
def UnderWay (rule : StrongWolfe S) (f : Objective σ V S) (direction : V)
    (current next : Point V S) (first : S) (samples : Recorder V) (session : Session σ V S)
    (qs : List (Probe V S)) (s : Search V S) (session' : Session σ V S) : Prop :=
  rule.Comes f direction current (current.slice direction)
    { phase := .initial (current.slice direction) first, next, samples } session qs s session'

variable {rule : StrongWolfe S} {f : Objective σ V S} {direction : V}
  {current next : Point V S} {start : Slice S} {first : S} {samples : Recorder V}
  {s s' found : Search V S} {session session' : Session σ V S} {qs : List (Probe V S)}

omit [Scalar S] in
/-- A probe is known by its trial, its point and its buffer. -/
theorem probe_along {q : Probe V S} {a : S} {buffer : V}
    (buffer_eq : q.evaluation.buffer = buffer)
    (h : probe f direction current a buffer session = .ok (q.trial, q.point) session') :
    q.Along current.x direction ∧ session.Extends f [q.evaluation] session' ∧
      session'.log = session.log.push (.trial q.trial) := by
  obtain ⟨q', htrial, hpoint, -, hbuffer, halong, hcall, hlog⟩ := probe_ok h
  have hsame : q' = q := by
    obtain ⟨t, x, b, value, gradient⟩ := q
    obtain ⟨t', x', b', value', gradient'⟩ := q'
    cases htrial
    cases hpoint
    cases buffer_eq
    cases hbuffer
    rfl
  subst hsame
  exact ⟨halong, hcall, hlog⟩

namespace Comes

variable (h : rule.Comes f direction current start s session qs s' session')
include h

theorem reaches : Phase.Reaches rule start s.phase (qs.map (·.trial)) s'.phase := by
  induction h with
  | here => exact .refl
  | probed pending _ _ _ ih => exact .step pending ih

theorem along : ∀ q ∈ qs, q.Along current.x direction := by
  induction h with
  | here => simp
  | probed _ buffer made _ ih =>
    exact List.forall_mem_cons.mpr ⟨(probe_along buffer made).1, ih⟩

theorem calls : session.Extends f (qs.map (·.evaluation)) session' := by
  induction h with
  | here => exact .refl f _
  | probed _ buffer made _ ih => exact (probe_along buffer made).2.1.trans ih

/-- From every state to which a search comes it goes on as it does from its start. -/
theorem drive_eq : rule.drive f direction current start s session =
    rule.drive f direction current start s' session' := by
  induction h with
  | here => rfl
  | probed pending _ made _ ih =>
    rw [drive_of_pending pending, bind_of_ok made]
    exact ih

theorem append {s'' : Search V S} {session'' : Session σ V S} {ps : List (Probe V S)}
    (h' : rule.Comes f direction current start s' session' ps s'' session'') :
    rule.Comes f direction current start s session (qs ++ ps) s'' session'' := by
  induction h with
  | here => exact h'
  | probed pending buffer made _ ih => exact .probed pending buffer made (ih h')

/-- A search that has come to its end has been driven there. -/
theorem driven (hstop : s'.phase.pending rule = none) :
    rule.Driven f direction current start s session qs s' session' := by
  induction h with
  | here => exact .stop hstop
  | probed pending buffer made _ ih =>
    obtain ⟨halong, hcall, hlog⟩ := probe_along buffer made
    exact .next pending buffer halong hcall hlog (ih hstop)

end Comes

theorem drive_comes (h : rule.drive f direction current start s session = .ok s' session') :
    ∃ qs, rule.Comes f direction current start s session qs s' session' ∧
      s'.phase.pending rule = none := by
  induction s using drive.induct rule start generalizing session with
  | case1 s hp =>
    rw [drive_of_pending_eq_none hp] at h
    obtain ⟨rfl, rfl⟩ := pure_ok h
    exact ⟨[], .here, hp⟩
  | case2 s a hp ih =>
    rw [drive_of_pending hp] at h
    obtain ⟨⟨t, next⟩, session₁, hq, hrest⟩ := bind_ok h
    obtain ⟨q, rfl, rfl, rfl, hb, -⟩ := probe_ok hq
    obtain ⟨qs, hqs, hstop⟩ := ih _ _ hrest
    exact ⟨q :: qs, .probed hp hb hq hqs, hstop⟩

/-- A search that is under way in a state that it does not leave returns what that state holds. -/
theorem UnderWay.search_eq
    (h : rule.UnderWay f direction current next first samples session qs s session')
    (hstop : s.phase.pending rule = none)
    (hdim : Space.dimension current.gradient = Space.dimension direction) :
    rule.search f direction current next first samples session =
      .ok s { session' with log := session'.log ++ s.phase.closing.toArray } := by
  refine search_ok_iff.mpr ⟨hdim, session', ?_, rfl⟩
  rw [Comes.drive_eq h, drive_of_pending_eq_none hstop]
  rfl

/-- A search that returns has gone on to its end from every state in which it was under way. -/
theorem UnderWay.rest
    (h : rule.UnderWay f direction current next first samples session qs s session')
    {after : Session σ V S}
    (hsearch : rule.search f direction current next first samples session = .ok found after) :
    ∃ ps middle, rule.Comes f direction current (current.slice direction) s session' ps found
        middle ∧ found.phase.pending rule = none ∧
      after = { middle with log := middle.log ++ found.phase.closing.toArray } := by
  obtain ⟨-, middle, hdrive, hafter⟩ := search_ok_iff.mp hsearch
  rw [Comes.drive_eq h] at hdrive
  obtain ⟨ps, hps, hstop⟩ := drive_comes hdrive
  exact ⟨ps, middle, hps, hstop, hafter⟩

/-- A search that returns ends where it is under way and no step is pending. -/
theorem search_underWay (h : rule.search f direction current next first samples session =
      .ok found session') :
    ∃ qs middle, rule.UnderWay f direction current next first samples session qs found middle ∧
      found.phase.pending rule = none ∧ session.Extends f (qs.map (·.evaluation)) session' := by
  obtain ⟨-, middle, hdrive, rfl⟩ := search_ok_iff.mp h
  obtain ⟨qs, hqs, hstop⟩ := drive_comes hdrive
  exact ⟨qs, middle, hqs, hstop, hqs.calls.setLog _⟩

end StrongWolfe

/-! ## Brackets -/

/-- Wherever a search downhill with a positive first step is bisecting, its bracket is backed by the
trials that it has made: by calls of the objective at the steps along the direction, with the values
and the slopes that these calls gave, the start standing for the step zero. The low end is a step
that decreases the value enough and has a lowest value among all such steps, which is the value that
the bracket keeps. The slope there points to the high end, and the high end is a step that does not
decrease the value enough or is not below the low end. The objective may be any. -/
theorem StrongWolfe.zoom_straddles {σ V : Type} [Space V ℝ] {rule : StrongWolfe ℝ}
    {f : Objective σ V ℝ} {direction : V} {current next : Point V ℝ} {first : ℝ}
    {samples : Recorder V} {session session' : Session σ V ℝ} {qs : List (Probe V ℝ)}
    {s : Search V ℝ} {count : ℕ} {b : Bracket ℝ}
    (hslope : Space.dot current.gradient direction < 0) (hfirst : 0 < first) (hc₁ : 0 < rule.c₁)
    (hc₂ : 0 ≤ rule.c₂)
    (h : rule.UnderWay f direction current next first samples session qs s session')
    (hs : s.phase = .zooming count b) :
    (∀ q ∈ qs, q.Along current.x direction) ∧
    session.Extends f (qs.map (·.evaluation)) session' ∧
    ∃ low high, Straddles rule (current.slice direction) (qs.map (·.trial)) b low high := by
  have hsound := h.reaches.sound hc₁.le hc₂ hslope hfirst
  rw [hs] at hsound
  exact ⟨h.along, h.calls, hsound⟩

/-- The probe of a step to the left from the height `1` in the square. -/
noncomputable def squareProbe (a buffer : ℝ) : Probe ℝ ℝ where
  trial := squareField.trial 1 (-1) a
  evaluation := {
    x := 1 + -1 * a
    buffer
    value := squareField.value (1 + -1 * a)
    gradient := squareField.gradient (1 + -1 * a) }

/-- A search from there with a first step beyond the other side closes a bracket, and its first
bisection turns the bracket around. -/
theorem square_underWay :
    ∃ s session', coarse.UnderWay square (-1) (squareField.point 1) (squareField.point 1) 3.5 none
        { state := 0 }
        [squareProbe 3.5 (1 + 1), squareProbe 1.75 (1 + -1 * 3.5 + (1 + -1 * 3.5))] s session' ∧
      s.phase = .zooming 1 { low := 1.75, high := 0, lowValue := 0.5625 } := by
  have hover : (Phase.initial ((squareField.point 1).slice (-1)) 3.5).advance coarse
      ((squareField.point 1).slice (-1)) (squareField.trial 1 (-1) 3.5) =
        .zooming 0 { low := 0, high := 3.5, lowValue := (1 : ℝ) * 1 } := by
    have hhigh : ¬coarse.SufficientDecrease ((squareField.point 1).slice (-1))
        (squareField.trial 1 (-1) 3.5) := by
      norm_num [sufficientDecrease_iff, coarse, squareField, ScalarField.trial, ScalarField.point,
        Point.slice]
    simp only [Phase.initial, Phase.advance, hhigh]
    simp [ScalarField.trial, Point.slice, ScalarField.point, squareField]
  have hflip : (Phase.zooming 0 { low := 0, high := (3.5 : ℝ), lowValue := 1 * 1 }).advance coarse
      ((squareField.point 1).slice (-1)) (squareField.trial 1 (-1) 1.75) =
        .zooming 1 { low := 1.75, high := 0, lowValue := 0.5625 } := by
    have hdecrease : coarse.SufficientDecrease ((squareField.point 1).slice (-1))
        (squareField.trial 1 (-1) 1.75) := by
      norm_num [sufficientDecrease_iff, coarse, squareField, ScalarField.trial, ScalarField.point,
        Point.slice]
    have hsteep : ¬coarse.FlatEnough ((squareField.point 1).slice (-1))
        (squareField.trial 1 (-1) 1.75) := by
      norm_num [flatEnough_iff, coarse, squareField, ScalarField.trial, ScalarField.point,
        Point.slice]
    simp only [Phase.advance, hdecrease, hsteep]
    norm_num [ScalarField.trial, squareField]
  have hmiddle : (Phase.zooming 0 { low := 0, high := (3.5 : ℝ), lowValue := 1 * 1 }).pending
      coarse = some 1.75 :=
    Phase.pending_zooming.mpr ⟨by decide, by rw [midpoint_eq]; norm_num⟩
  refine ⟨_, _, .probed (Phase.pending_bracketing.mpr ⟨by decide, rfl⟩) rfl rfl
    (.probed ?_ rfl rfl .here), ?_⟩
  · exact (congrArg (Phase.pending coarse) hover).trans hmiddle
  · exact (congrArg (Phase.advance coarse _ · _) hover).trans hflip

/-- There the low end is the second trial, on the other side, and the high end is the start. -/
theorem zoom_straddles_in_square :
    ∃ (qs : List (Probe ℝ ℝ)) (s : Search ℝ ℝ) (session' : Session ℕ ℝ ℝ) (b : Bracket ℝ)
      (low high : Trial ℝ),
      coarse.UnderWay square (-1) (squareField.point 1) (squareField.point 1) 3.5 none
        { state := 0 } qs s session' ∧
      s.phase = .zooming 1 b ∧
      Straddles coarse ((squareField.point 1).slice (-1)) (qs.map (·.trial)) b low high ∧
      low.step = 1.75 ∧ high.step = 0 := by
  obtain ⟨s, session', hs, hphase⟩ := square_underWay
  have hslope : Space.dot (squareField.point 1).gradient (-1) < 0 := by
    norm_num [ScalarField.point, squareField]
  obtain ⟨-, -, low, high, hb⟩ := StrongWolfe.zoom_straddles hslope (by norm_num)
    (by norm_num [coarse]) (by norm_num [coarse]) hs hphase
  exact ⟨_, s, session', _, low, high, hs, hphase, hb, hb.low_step, hb.high_step⟩

end Descent
