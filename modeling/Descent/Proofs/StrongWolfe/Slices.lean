import Descent.Proofs.StrongWolfe.Acceptance

/-!
# Searches along known slices

For any scalars, and for a function whose values and gradients depend on the point alone. A search
along a slice of such a function needs no state and no buffers.

* `ScalarField V S`: a function with its gradient. `ScalarField.point` and `ScalarField.trial` are
  what an evaluation finds at a point and a trial at a step.
* `Phase.explore`: the trials of a search whose slice is known, and the phase in which it ends.
  Every run of the phases along that slice is this one (`Phase.Reaches.explore_eq`).
* `StrongWolfe.explore`: a whole search, from a point of the function along a direction.
* `StrongWolfe.Driven.explored`, `StrongWolfe.search_explored`: the searches that call an objective
  make these trials, whatever its state and the buffers are.
-/

namespace Descent

variable {σ V S : Type}

/-- A function of the point alone, with its gradient. -/
structure ScalarField (V S : Type) where
  value : V → S
  gradient : V → V

namespace ScalarField

variable (F : ScalarField V S)

/-- The point with the value and the gradient there. -/
def point (x : V) : Point V S where
  x
  value := F.value x
  gradient := F.gradient x

/-- The trial of the step `a` along a direction from `x`. -/
def trial [Space V S] (x direction : V) (a : S) : Trial S where
  step := a
  value := F.value (Space.ray x direction a)
  slope := Space.dot (F.gradient (Space.ray x direction a)) direction

end ScalarField

variable {F : ScalarField V S} {f : Objective σ V S}

/-- Every call has found a point of the function. -/
theorem Calls.points (hf : f.Computes F.value F.gradient) {st st' : σ}
    {es : List (Evaluation V S)} (h : Calls f st es st') : ∀ e ∈ es, e.point = F.point e.x := by
  intro e he
  obtain ⟨hvalue, hgradient⟩ := h.computed hf e he
  simp only [Evaluation.point, ScalarField.point, hvalue, hgradient]

theorem evaluateFirst_point (hf : f.Computes F.value F.gradient) {x₀ : V} {p : Point V S}
    {session session₁ : Session σ V S} (h : evaluateFirst f x₀ session = .ok p session₁) :
    p = F.point x₀ := by
  obtain ⟨e, rfl, -, rfl, hcall, -⟩ := evaluate_ok h
  exact hcall.calls.points hf e List.mem_cons_self

/-- If the gradients have the dimension of the points, the objective answers with them. -/
theorem Objective.Computes.answers [Space V S] (hf : f.Computes F.value F.gradient) {n : Nat}
    (hkeep : ∀ x, Space.dimension x = n → Space.dimension (F.gradient x) = n) :
    f.Answers n fun _ => True := by
  intro x buffer st hx _
  rw [hf x buffer st]
  exact ⟨hkeep x hx, trivial⟩

theorem Probe.Along.trial_eq [Space V S] {x direction : V} {q : Probe V S}
    (h : q.Along x direction) (he : q.evaluation.point = F.point q.evaluation.x) :
    q.trial = F.trial x direction q.trial.step := by
  have hvalue : q.trial.value = F.value q.evaluation.x := h.value_eq.trans (congrArg Point.value he)
  have hgradient : q.evaluation.gradient = F.gradient q.evaluation.x := congrArg Point.gradient he
  have hslope := h.slope_eq
  rw [hgradient, h.x_eq] at hslope
  rw [h.x_eq] at hvalue
  rw [ScalarField.trial, ← hvalue, ← hslope]

variable [Scalar S]

/-! ## Phases -/

namespace Phase

variable {rule : StrongWolfe S} {start : Slice S} {trial : S → Trial S} {phase phase' : Phase S}
  {ts : List (Trial S)}

/-- The trials of a search from the phase and the phase in which it ends, if `trial` is what is
found at each step. -/
def explore (rule : StrongWolfe S) (start : Slice S) (trial : S → Trial S) (phase : Phase S) :
    List (Trial S) × Phase S :=
  match _h : phase.pending rule with
  | none => ([], phase)
  | some a =>
    let rest := explore rule start trial (phase.advance rule start (trial a))
    (trial a :: rest.1, rest.2)
termination_by phase.remaining rule
decreasing_by exact remaining_advance _h (trial a)

theorem explore_of_pending_eq_none (h : phase.pending rule = none) :
    phase.explore rule start trial = ([], phase) := by
  rw [explore]
  split
  · rfl
  · rename_i hp; rw [h] at hp; cases hp

theorem explore_of_pending {a : S} (h : phase.pending rule = some a) :
    phase.explore rule start trial =
      (trial a :: ((phase.advance rule start (trial a)).explore rule start trial).1,
        ((phase.advance rule start (trial a)).explore rule start trial).2) := by
  rw [explore]
  split
  · rename_i hp; rw [h] at hp; cases hp
  · rename_i hp; rw [h] at hp; cases hp; rfl

/-- A search is determined by what it finds. -/
theorem Reaches.explore_eq (h : Reaches rule start phase ts phase')
    (hstop : phase'.pending rule = none) (hts : ∀ t ∈ ts, t = trial t.step) :
    phase.explore rule start trial = (ts, phase') := by
  induction h with
  | refl => exact explore_of_pending_eq_none hstop
  | step pending _ ih =>
    obtain ⟨ht, hrest⟩ := List.forall_mem_cons.mp hts
    rw [explore_of_pending pending, ← ht, ih hstop hrest]

end Phase

/-! ## Whole searches -/

namespace StrongWolfe

variable [Space V S]

/-- The trials of a search along a direction from `x` that tries `first` before all others, and the
phase in which it ends. -/
def explore (rule : StrongWolfe S) (F : ScalarField V S) (x direction : V) (first : S) :
    List (Trial S) × Phase S :=
  (Phase.initial ((F.point x).slice direction) first).explore rule ((F.point x).slice direction)
    (F.trial x direction)

variable {rule : StrongWolfe S} {x direction : V} {first : S}

/-- A search ends with its first trial if that satisfies both conditions. -/
theorem explore_of_accepts (hbudget : 0 < rule.doublings)
    (hdecrease : rule.SufficientDecrease ((F.point x).slice direction) (F.trial x direction first))
    (hflat : rule.FlatEnough ((F.point x).slice direction) (F.trial x direction first)) :
    rule.explore F x direction first = ([F.trial x direction first], .accepted first) := by
  have hpending : (Phase.initial ((F.point x).slice direction) first).pending rule = some first :=
    Phase.pending_bracketing.mpr ⟨hbudget, rfl⟩
  have hadvance : (Phase.initial ((F.point x).slice direction) first).advance rule
      ((F.point x).slice direction) (F.trial x direction first) = .accepted first := by
    simp only [Phase.initial, Phase.advance, hdecrease, hflat]
    simp [ScalarField.trial]
  rw [explore, Phase.explore_of_pending hpending, hadvance, Phase.explore_of_pending_eq_none rfl]

/-- A search with a single doubling ends with its first trial if that leads on downhill. -/
theorem explore_of_downhill (hbudget : rule.doublings = 1)
    (hdown : rule.Downhill ((F.point x).slice direction) (F.trial x direction first)) :
    rule.explore F x direction first = ([F.trial x direction first],
      .bracketing 1 (first + first) first (F.trial x direction first).value) := by
  have hpending : (Phase.initial ((F.point x).slice direction) first).pending rule = some first :=
    Phase.pending_bracketing.mpr ⟨by omega, rfl⟩
  have hadvance : (Phase.initial ((F.point x).slice direction) first).advance rule
      ((F.point x).slice direction) (F.trial x direction first) =
        .bracketing 1 (first + first) first (F.trial x direction first).value := by
    simp only [Phase.initial, Phase.advance, hdown.decrease, hdown.steep, hdown.falling]
    simp [ScalarField.trial]
  rw [explore, Phase.explore_of_pending hpending, hadvance,
    Phase.explore_of_pending_eq_none (Phase.pending_bracketing_eq_none.mpr hbudget.le)]

/-- A search without bisections fails if its first trial does not decrease the value enough. -/
theorem explore_of_overshoot (hbudget : 0 < rule.doublings) (hbisections : rule.bisections = 0)
    (hover : ¬rule.SufficientDecrease ((F.point x).slice direction) (F.trial x direction first)) :
    rule.explore F x direction first = ([F.trial x direction first],
      .zooming 0 { low := 0, high := first, lowValue := F.value x }) := by
  have hpending : (Phase.initial ((F.point x).slice direction) first).pending rule = some first :=
    Phase.pending_bracketing.mpr ⟨hbudget, rfl⟩
  have hadvance : (Phase.initial ((F.point x).slice direction) first).advance rule
      ((F.point x).slice direction) (F.trial x direction first) =
        .zooming 0 { low := 0, high := first, lowValue := F.value x } :=
    if_pos (.inl hover)
  rw [explore, Phase.explore_of_pending hpending, hadvance,
    Phase.explore_of_pending_eq_none (Phase.pending_zooming_eq_none.mpr hbisections.le)]

/-- What a search finds by calls of an objective. -/
theorem Driven.explored {s s' : Search V S} {start : Slice S} {session session' : Session σ V S}
    {qs : List (Probe V S)} (hf : f.Computes F.value F.gradient)
    (h : Driven rule f direction (F.point x) start s session qs s' session') :
    s.phase.explore rule start (F.trial x direction) = (qs.map (·.trial), s'.phase) ∧
      qs.map Probe.point =
        (qs.map (·.trial)).map fun t => F.point (Space.ray x direction t.step) := by
  have hpoint : ∀ q ∈ qs, q.evaluation.point = F.point q.evaluation.x := fun q hq =>
    h.calls.calls.points hf q.evaluation (List.mem_map_of_mem hq)
  constructor
  · apply h.reaches.explore_eq h.stopped
    intro t ht
    obtain ⟨q, hq, rfl⟩ := List.mem_map.mp ht
    exact (h.along q hq).trial_eq (hpoint q hq)
  · rw [List.map_map]
    apply List.map_congr_left
    intro q hq
    exact (hpoint q hq).trans (congrArg F.point (h.along q hq).x_eq)

/-- A search along vectors of one dimension returns and ends like the one without buffers. -/
theorem search_explored [SizedSpace V S] (hf : f.Computes F.value F.gradient)
    (hkeep : ∀ y, Space.dimension y = Space.dimension x →
      Space.dimension (F.gradient y) = Space.dimension x)
    (hd : Space.dimension direction = Space.dimension x) (next : Point V S)
    (samples : Recorder V) (session : Session σ V S) :
    ∃ found session', rule.search f direction (F.point x) next first samples session =
      .ok found session' ∧ found.phase = (rule.explore F x direction first).2 := by
  have hx : Space.dimension (F.point x).x = Space.dimension x := rfl
  obtain ⟨found, session', hrun⟩ := search_total (hf.answers hkeep) hx hd rule (hkeep x rfl) next
    trivial first samples session
  obtain ⟨qs, middle, -, hdriven, -⟩ := search_ok hrun
  exact ⟨found, session', hrun, (congrArg Prod.snd (hdriven.explored hf).1).symm⟩

end StrongWolfe

end Descent
