import Descent.Proofs.Euclidean
import Descent.Proofs.StrongWolfe.Underway

/-!
# The steps that a line search tries

In exact arithmetic, for an objective of which nothing is known.

* `Phase.Refines`: what a trial does to the steps that a search knows: they are doubled, close a
  bracket, or halve it.
* `Phase.Spread`: where the steps of a search lie. Doubled steps lie behind the next one, and no
  step lies inside a bracket. Every trial is at a new step (`Phase.Spread.fresh`) and preserves that
  (`Phase.Spread.move`).
* `ExactSpace.ray_injective`: different steps along a direction other than zero lead to different
  points.
* `StrongWolfe.bracket_geometry`: the statement for whole searches. No point is evaluated twice.
-/

namespace Descent

namespace Phase

variable {rule : StrongWolfe ℝ} {start : Slice ℝ} {first : ℝ} {as : List ℝ} {t : Trial ℝ}
  {ts : List (Trial ℝ)} {phase phase' : Phase ℝ}

/-- What a trial at the step `a` does to the steps of a search that has begun with `first`. -/
inductive Refines (first : ℝ) : Phase ℝ → ℝ → Phase ℝ → Prop where
  /-- Trial `k` is at `2ᵏ first`, and the next one is to be at the double of it. -/
  | doubled {k : ℕ} {a next last lastValue value : ℝ} (step : a = 2 ^ k * first)
      (double : next = 2 ^ (k + 1) * first) :
      Refines first (bracketing k a last lastValue) a (bracketing (k + 1) next a value)
  /-- A bracket between the step of trial `k` and the step before. -/
  | closed {k : ℕ} {a last lastValue : ℝ} {b : Bracket ℝ} (step : a = 2 ^ k * first)
      (ends : b.low = stepBefore first k ∧ b.high = a ∨ b.low = a ∧ b.high = stepBefore first k) :
      Refines first (bracketing k a last lastValue) a (zooming 0 b)
  /-- The trial is in the middle of a bracket, and the next bracket is a half of it. -/
  | halved {j : ℕ} {a : ℝ} {b b' : Bracket ℝ} (middle : a = b.midpoint) (halves : Halves b b') :
      Refines first (zooming j b) a (zooming (j + 1) b')
  | acceptedDoubled {k : ℕ} {a last lastValue : ℝ} (step : a = 2 ^ k * first) :
      Refines first (bracketing k a last lastValue) a (accepted a)
  | acceptedMiddle {j : ℕ} {a : ℝ} {b : Bracket ℝ} (middle : a = b.midpoint) :
      Refines first (zooming j b) a (accepted a)

/-- Where the steps `as` lie that a search has tried. While steps are doubled the next one is beyond
all of them. A bracket that was closed by trial `k` and bisected `j` times has the `2ʲ`-th part of
its first width, and none of the steps lies inside it. -/
inductive Spread (first : ℝ) (as : List ℝ) : Phase ℝ → Prop where
  | doubling {k : ℕ} {next last lastValue : ℝ} (length : as.length = k)
      (next_eq : next = 2 ^ k * first) (last_eq : last = stepBefore first k)
      (behind : ∀ a ∈ as, a ≤ last) : Spread first as (bracketing k next last lastValue)
  | bisecting {k j : ℕ} {b : Bracket ℝ} (length : as.length = k + 1 + j)
      (width : |b.high - b.low| = (2 ^ k * first - stepBefore first k) / 2 ^ j)
      (outside : ∀ a ∈ as, a ∉ Set.uIoo b.low b.high) : Spread first as (zooming j b)
  | done {a : ℝ} : Spread first as (accepted a)

theorem spread_initial (start : Slice ℝ) (first : ℝ) : (initial start first).Spread first [] :=
  .doubling rfl (by simp) rfl (by simp)

/-! ## The steps of a bracket -/

/-- Nothing new lies inside a half of a bracket. -/
theorem Halves.uIoo_subset {b b' : Bracket ℝ} (h : Halves b b') :
    Set.uIoo b'.low b'.high ⊆ Set.uIoo b.low b.high :=
  Set.uIoo_subset_Ioo h.low_mem h.high_mem

theorem midpoint_mem_uIoo {b : Bracket ℝ} (h : b.high ≠ b.low) :
    b.midpoint ∈ Set.uIoo b.low b.high := by
  rw [midpoint_eq]
  rcases h.lt_or_gt with h | h
  · exact Set.mem_uIoo_of_gt (by linarith) (by linarith)
  · exact Set.mem_uIoo_of_lt (by linarith) (by linarith)

/-- The middle of a bracket is an end of the next one. -/
theorem Move.notMem_uIoo {count count' : ℕ} {b b' : Bracket ℝ}
    (hm : Move rule start t (zooming count b) (zooming count' b')) :
    t.step = b.midpoint ∧ t.step ∉ Set.uIoo b'.low b'.high := by
  cases hm with
  | shrink _ middle _ => exact ⟨middle, Set.right_notMem_uIoo⟩
  | lower _ middle _ _ _ _ => exact ⟨middle, Set.left_notMem_uIoo⟩
  | flip _ middle _ _ _ _ => exact ⟨middle, Set.left_notMem_uIoo⟩

/-- A bracket never closes up. -/
theorem Spread.high_ne_low {j : ℕ} {b : Bracket ℝ} (hf : 0 < first)
    (h : (zooming j b).Spread first as) : b.high ≠ b.low := by
  cases h with
  | @bisecting k _ _ length width outside =>
    have hlt := stepBefore_lt hf k
    have hpos : 0 < (2 ^ k * first - stepBefore first k) / 2 ^ j := by
      apply div_pos <;> [linarith; positivity]
    rw [← width] at hpos
    exact sub_ne_zero.mp (abs_pos.mp hpos)

/-- A new bracket with the steps behind one of its ends. -/
theorem Spread.close {k : ℕ} {a last : ℝ} {b : Bracket ℝ} (hf : 0 < first)
    (length : as.length = k) (step : a = 2 ^ k * first) (last_eq : last = stepBefore first k)
    (behind : ∀ c ∈ as, c ≤ last) (ends : b.low = last ∧ b.high = a ∨ b.low = a ∧ b.high = last) :
    (zooming 0 b).Spread first (as ++ [a]) := by
  have hlt : last < a := by
    rw [step, last_eq]
    exact stepBefore_lt hf k
  have hopen : Set.uIoo b.low b.high = Set.Ioo last a := by
    rcases ends with ⟨hlow, hhigh⟩ | ⟨hlow, hhigh⟩
    · rw [hlow, hhigh, Set.uIoo_of_lt hlt]
    · rw [hlow, hhigh, Set.uIoo_of_gt hlt]
  have hwidth : |b.high - b.low| = a - last := by
    rcases ends with ⟨hlow, hhigh⟩ | ⟨hlow, hhigh⟩
    · rw [hlow, hhigh, abs_of_pos (by linarith)]
    · rw [hlow, hhigh, abs_of_neg (by linarith), neg_sub]
  refine .bisecting (k := k) (by simp [length]) ?_ ?_
  · rw [hwidth, step, last_eq, pow_zero, div_one]
  · intro c hc
    rw [hopen]
    rcases List.mem_append.mp hc with hc | hc
    · exact fun h => (behind c hc).not_gt h.1
    · obtain rfl := List.mem_singleton.mp hc
      exact fun h => lt_irrefl c h.2

theorem Spread.halve {j j' : ℕ} {b b' : Bracket ℝ} (h : (zooming j b).Spread first as)
    (hm : Move rule start t (zooming j b) (zooming j' b')) :
    (zooming j' b').Spread first (as ++ [t.step]) := by
  obtain ⟨rfl, hhalves⟩ := hm.halves
  obtain ⟨-, hend⟩ := hm.notMem_uIoo
  cases h with
  | @bisecting k _ _ length width outside =>
    refine .bisecting (k := k) (by simp [length]; omega) ?_ ?_
    · have hw := hhalves.width
      rw [width] at hw
      rw [pow_succ, ← div_div, ← hw, mul_div_cancel_right₀ _ two_ne_zero]
    · intro c hc
      rcases List.mem_append.mp hc with hc | hc
      · exact fun h => outside c hc (hhalves.uIoo_subset h)
      · exact List.mem_singleton.mp hc ▸ hend

/-! ## One trial -/

theorem Spread.refines (h : phase.Spread first as) (hm : Move rule start t phase phase') :
    phase.Refines first t.step phase' := by
  cases hm with
  | overshoot =>
    cases h with
    | doubling _ next_eq last_eq _ => exact .closed next_eq (.inl ⟨last_eq, rfl⟩)
  | acceptDoubled =>
    cases h with
    | doubling _ next_eq _ _ => exact .acceptedDoubled next_eq
  | turn =>
    cases h with
    | doubling _ next_eq last_eq _ => exact .closed next_eq (.inr ⟨rfl, last_eq⟩)
  | double =>
    cases h with
    | doubling _ next_eq _ _ => exact .doubled next_eq (by rw [next_eq, pow_succ]; ring)
  | shrink budget middle high =>
    exact .halved middle (Move.shrink budget middle high).halves.2
  | acceptBisected _ middle _ _ => exact .acceptedMiddle middle
  | lower budget middle decrease below steep ahead =>
    exact .halved middle (Move.lower budget middle decrease below steep ahead).halves.2
  | flip budget middle decrease below steep behind =>
    exact .halved middle (Move.flip budget middle decrease below steep behind).halves.2

/-- A trial is at a step that was not tried before. -/
theorem Spread.fresh (hf : 0 < first) (h : phase.Spread first as)
    (hm : Move rule start t phase phase') : t.step ∉ as := by
  have hzoom : ∀ {j b}, phase = zooming j b → t.step = b.midpoint → t.step ∉ as := by
    rintro j b rfl middle hmem
    have hne := h.high_ne_low hf
    cases h with
    | bisecting length width outside =>
      exact outside _ hmem (middle ▸ midpoint_mem_uIoo hne)
  have hdouble : ∀ {k last lastValue}, phase = bracketing k t.step last lastValue →
      t.step ∉ as := by
    rintro k last lastValue rfl hmem
    cases h with
    | doubling length next_eq last_eq behind =>
      have hlt := stepBefore_lt hf k
      have hle := behind _ hmem
      rw [next_eq, last_eq] at hle
      exact hle.not_gt hlt
  cases hm with
  | overshoot => exact hdouble rfl
  | acceptDoubled => exact hdouble rfl
  | turn => exact hdouble rfl
  | double => exact hdouble rfl
  | shrink _ middle _ => exact hzoom rfl middle
  | acceptBisected _ middle _ _ => exact hzoom rfl middle
  | lower _ middle _ _ _ _ => exact hzoom rfl middle
  | flip _ middle _ _ _ _ => exact hzoom rfl middle

theorem Spread.move (hf : 0 < first) (h : phase.Spread first as)
    (hm : Move rule start t phase phase') : phase'.Spread first (as ++ [t.step]) := by
  cases hm with
  | overshoot =>
    cases h with
    | doubling length next_eq last_eq behind =>
      exact Spread.close hf length next_eq last_eq behind (.inl ⟨rfl, rfl⟩)
  | acceptDoubled => exact .done
  | turn =>
    cases h with
    | doubling length next_eq last_eq behind =>
      exact Spread.close hf length next_eq last_eq behind (.inr ⟨rfl, rfl⟩)
  | @double k _ _ _ _ _ =>
    cases h with
    | doubling length next_eq last_eq behind =>
      refine .doubling (by simp [length]) (by rw [next_eq, pow_succ]; ring) next_eq ?_
      have hlt := stepBefore_lt hf k
      rw [← next_eq, ← last_eq] at hlt
      intro a ha
      rcases List.mem_append.mp ha with ha | ha
      · exact (behind a ha).trans hlt.le
      · exact (List.mem_singleton.mp ha).le
  | shrink budget middle high => exact h.halve (.shrink budget middle high)
  | acceptBisected => exact .done
  | lower budget middle decrease below steep ahead =>
    exact h.halve (.lower budget middle decrease below steep ahead)
  | flip budget middle decrease below steep behind =>
    exact h.halve (.flip budget middle decrease below steep behind)

theorem Reaches.spread (hf : 0 < first) (h : Reaches rule start (initial start first) ts phase) :
    (ts.map (·.step)).Nodup ∧ phase.Spread first (ts.map (·.step)) := by
  refine h.invariant
    (P := fun ts phase => (ts.map (·.step)).Nodup ∧ phase.Spread first (ts.map (·.step)))
    ⟨List.nodup_nil, spread_initial start first⟩ fun past t phase phase' hp hm => ?_
  obtain ⟨hnodup, hspread⟩ := hp
  have hfresh := hspread.fresh hf hm
  rw [List.map_append, List.map_singleton]
  refine ⟨List.nodup_append.mpr ⟨hnodup, List.nodup_singleton _, ?_⟩, hspread.move hf hm⟩
  rintro a ha b hb rfl
  exact hfresh (List.mem_singleton.mp hb ▸ ha)

end Phase

/-! ## Points -/

namespace ExactSpace

variable {V : Type} [Space V ℝ] [Coordinatized V ℝ] [ExactSpace V] {v w : V}

/-- Along a direction other than zero different steps lead to different points. -/
theorem ray_injective (hdim : Space.dimension v = Space.dimension w) (hw : w ≠ Space.origin w) :
    Function.Injective (Space.ray v w : ℝ → V) := by
  intro a b hab
  have hne : euclidean (Space.dimension w) w ≠ 0 := by
    intro h0
    rw [← euclidean_origin rfl] at h0
    exact hw (euclidean_injective rfl (SizedSpace.dimension_origin w) h0)
  have heq := congrArg (euclidean (Space.dimension w)) hab
  rw [euclidean_ray hdim rfl, euclidean_ray hdim rfl] at heq
  exact smul_left_injective ℝ hne (add_left_cancel heq)

end ExactSpace

/-- Probes at different steps along such a direction are calls at different points. -/
theorem nodup_points {V : Type} [Space V ℝ] [Coordinatized V ℝ] [ExactSpace V] {x direction : V}
    {qs : List (Probe V ℝ)} (halong : ∀ q ∈ qs, q.Along x direction)
    (hsteps : (qs.map fun q => q.trial.step).Nodup) (hd : direction ≠ Space.origin direction) :
    (qs.map fun q => q.evaluation.x).Nodup := by
  refine List.Nodup.map_on (fun p hp q hq hx => ?_) hsteps.of_map
  have hp' := halong p hp
  rw [hp'.x_eq, (halong q hq).x_eq] at hx
  exact List.inj_on_of_nodup_map hsteps hp hq (ExactSpace.ray_injective hp'.dimension_x hd hx)

/-! ## Whole searches -/

/-- The geometry of a search that begins with a positive step. Trial `k` is at `2ᵏ first` while
steps are doubled. A bracket that trial `k` closes has that step and the one before as its ends.
Every trial after that is in the middle of the current bracket, and the next bracket lies in it and
is half as wide, so that `j` bisections leave the `2ʲ`-th part of the first width. No step is tried
twice, and along a direction other than zero no point is evaluated twice. This holds wherever the
search is under way, hence in the end. The objective may be any. -/
theorem StrongWolfe.bracket_geometry {σ V : Type} [Space V ℝ] [Coordinatized V ℝ] [ExactSpace V]
    {first : ℝ} (hfirst : 0 < first) (rule : StrongWolfe ℝ) (f : Objective σ V ℝ) (direction : V)
    (current next : Point V ℝ) (samples : Recorder V) (session : Session σ V ℝ) :
    (∀ qs s session', rule.UnderWay f direction current next first samples session qs s session' →
      s.phase.Spread first (qs.map fun q => q.trial.step) ∧
      (qs.map fun q => q.trial.step).Nodup ∧
      (direction ≠ Space.origin direction → (qs.map fun q => q.evaluation.x).Nodup) ∧
      ∀ q s' session'', rule.Comes f direction current (current.slice direction) s session' [q] s'
        session'' → s.phase.Refines first q.trial.step s'.phase) ∧
    ∀ found session',
      rule.search f direction current next first samples session = .ok found session' →
        direction ≠ Space.origin direction →
          ((session'.evaluations.toList.drop session.evaluations.size).map (·.x)).Nodup := by
  have hsteps : ∀ qs s session',
      rule.UnderWay f direction current next first samples session qs s session' →
        (qs.map fun q => q.trial.step).Nodup ∧
          s.phase.Spread first (qs.map fun q => q.trial.step) := by
    intro qs s session' h
    have hspread := h.reaches.spread hfirst
    rwa [List.map_map] at hspread
  constructor
  · intro qs s session' h
    obtain ⟨hnodup, hspread⟩ := hsteps qs s session' h
    refine ⟨hspread, hnodup, nodup_points h.along hnodup, ?_⟩
    intro q s' session'' hnext
    cases hnext with
    | probed pending _ _ rest =>
      cases rest
      exact hspread.refines (Phase.move_advance pending)
  · intro found session' h hd
    obtain ⟨qs, middle, hqs, -, hcalls⟩ := search_underWay h
    rw [hcalls.drop_evaluations, List.map_map]
    exact nodup_points hqs.along (hsteps qs found middle hqs).1 hd

/-- A search from the height `1` in the square: the first bracket reaches from `0` to `3.5`, and is
bisected at `1.75`. -/
theorem bracket_geometry_in_square :
    (0 : ℝ) < 3.5 ∧
    (∃ (qs : List (Probe ℝ ℝ)) (s : Search ℝ ℝ) (session' : Session ℕ ℝ ℝ),
      coarse.UnderWay square (-1) (squareField.point 1) (squareField.point 1) 3.5 none
        { state := 0 } qs s session' ∧
      s.phase.Spread 3.5 [3.5, 1.75] ∧ (qs.map fun q => q.evaluation.x).Nodup) ∧
    ∃ (found : Search ℝ ℝ) (session' : Session ℕ ℝ ℝ),
      coarse.search square (-1) (squareField.point 1) (squareField.point 1) 3.5 none
        { state := 0 } = .ok found session' ∧
      (session'.evaluations.toList.map (·.x)).Nodup := by
  have hfirst : (0 : ℝ) < 3.5 := by norm_num
  obtain ⟨hunderway, hsearch⟩ := StrongWolfe.bracket_geometry hfirst coarse square (-1 : ℝ)
    (squareField.point 1) (squareField.point 1) none { state := 0 }
  have hd : (-1 : ℝ) ≠ Space.origin (-1 : ℝ) := by
    show (-1 : ℝ) ≠ 0
    norm_num
  refine ⟨hfirst, ?_, ?_⟩
  · obtain ⟨s, session', hs, -⟩ := square_underWay
    obtain ⟨hspread, -, hpoints, -⟩ := hunderway _ s session' hs
    exact ⟨_, s, session', hs, hspread, hpoints hd⟩
  · have hanswers : square.Answers 1 fun _ => True := fun _ _ _ _ _ => ⟨rfl, trivial⟩
    have hdim : Space.dimension (-1 : ℝ) = 1 := rfl
    obtain ⟨found, session', hrun⟩ := StrongWolfe.search_total hanswers
      (show Space.dimension (squareField.point 1).x = 1 from rfl) hdim coarse rfl
      (squareField.point 1) trivial (3.5 : ℝ) none { state := 0 }
    refine ⟨found, session', hrun, ?_⟩
    simpa using hsearch found session' hrun hd

end Descent
