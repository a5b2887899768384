import Descent.Proofs.Minimizer.Decrease
import Descent.Proofs.Minimizer.Recurrence

/-!
# Where the directions of conjugate gradients point

In exact arithmetic, for an objective of which nothing is known.

* `SearchCall.slope`: the slope at the start of a search. The search goes downhill if it is
  negative.
* `PolakRibiere.Link`: how a search is called after another one. All searches of a loop are linked
  (`PolakRibiere.Iterates.links`).
* `PolakRibiere.slope_turned`: the slope after a move, which is not always negative.
* `PolakRibiere.Steady`: the slope is that of the negative gradient, up to a part of it. Searches
  that end gently (`SearchCall.Gentle`) preserve that.
* `PolakRibiere.SlopeLaw`: what the searches of a run so far say about the slope of the next one.
  It holds of all searches of a run (`PolakRibiere.search_slopes`).
* `PolakRibiere.search_uphill_in_square`: a run of which a search goes uphill.
-/

namespace Descent

open Space (dimension dot scale ray combine)

variable {σ V S : Type}

/-! ## One search after another -/

section Links

variable [Scalar S] [Space V S]

/-- The slope along the direction at the start of the search. -/
def SearchCall.slope (c : SearchCall σ V S) : S := dot c.current.gradient c.direction

namespace PolakRibiere

variable {m : PolakRibiere S} {f : Objective σ V S} {s s' : State V S}
  {session session' : Session σ V S} {n : Nat} {cs past rest : List (SearchCall σ V S)}
  {b c : SearchCall σ V S}

/-- The direction of the search after `b`. -/
def turned (b : SearchCall σ V S) : V :=
  if b.found.step == 0 then scale b.current.gradient (-1)
  else combine b.direction (beta b.current.gradient b.found.next.gradient)
    b.found.next.gradient (-1)

theorem turned_of_succeeded (h : b.Succeeded) :
    turned b = combine b.direction (beta b.current.gradient b.found.next.gradient)
      b.found.next.gradient (-1) :=
  if_neg (ne_true_of_eq_false h)

theorem turned_of_failed (h : (b.found.step == 0) = true) :
    turned b = scale b.current.gradient (-1) :=
  if_pos h

/-- The search `c` is called where `b` has led to. -/
structure Link (b c : SearchCall σ V S) : Prop where
  current_eq : c.current = b.arrival
  direction_eq : c.direction = turned b

/-- The first search is called as the state says, and every other one as the search before it. -/
structure Links (current : Point V S) (direction : V) (cs : List (SearchCall σ V S)) : Prop where
  head : ∀ c ∈ cs.head?, c.current = current ∧ c.direction = direction
  chain : cs.IsChain Link

theorem Links.cons {current : Point V S} {direction : V} (arrival : c.arrival = current)
    (turn : turned c = direction) (h : Links current direction cs) :
    Links c.current c.direction (c :: cs) := by
  subst arrival turn
  have hfirst : ∀ d ∈ cs.head?, Link c d := fun d hd =>
    let ⟨current_eq, direction_eq⟩ := h.head d hd
    { current_eq, direction_eq }
  exact ⟨by simp, List.isChain_cons.mpr ⟨hfirst, h.chain⟩⟩

theorem Iterates.links (h : Iterates m f n s session cs s' session') :
    Links s.current s.direction cs := by
  induction h with
  | exhausted => exact ⟨by simp, .nil⟩
  | converged => exact ⟨by simp, .nil⟩
  | @restarted _ s _ session after _ found _ _ _ _ zero _ ih =>
    have hfailed : ((s.call session found after).found.step == 0) = true := zero
    exact .cons (SearchCall.arrival_of_failed hfailed) (turned_of_failed hfailed) ih
  | @moved _ s _ session after _ found _ _ _ _ _ nonzero turned _ ih =>
    have hsucceeded : (s.call session found after).Succeeded := nonzero
    exact .cons (SearchCall.arrival_of_succeeded hsucceeded)
      ((turned_of_succeeded hsucceeded).trans (turn_ok turned).symm) ih

/-- Every search but the first is linked to the one before it. -/
theorem Links.link {current : Point V S} {direction : V}
    (h : Links current direction (past ++ c :: rest)) : ∀ b ∈ past.getLast?, Link b c :=
  fun b hb => (List.isChain_append.mp h.chain).2.2 b hb c (by simp)

/-- No search comes before, or the last one has failed. -/
def Restarts (past : List (SearchCall σ V S)) : Prop := ∀ b ∈ past.getLast?, ¬b.Succeeded

/-- At every new beginning the direction is the negative gradient. -/
theorem Links.direction_restart {p : Point V S}
    (h : Links p (scale p.gradient (-1)) (past ++ c :: rest)) (hpast : Restarts past) :
    c.direction = scale c.current.gradient (-1) := by
  rcases List.eq_nil_or_concat past with rfl | ⟨before, b, rfl⟩
  · obtain ⟨hcurrent, hdirection⟩ := h.head c (by simp)
    rw [hdirection, hcurrent]
  · rw [List.concat_eq_append] at h hpast
    have hfailed := eq_true_of_ne_false (hpast b (by simp))
    have hlink := h.link b (by simp)
    rw [hlink.direction_eq, turned_of_failed hfailed, hlink.current_eq,
      SearchCall.arrival_of_failed hfailed]

end PolakRibiere

end Links

/-! ## Slopes -/

section Slopes

variable [Space V ℝ] {rule : StrongWolfe ℝ} {f : Objective σ V ℝ}

namespace SearchCall

variable {b : SearchCall σ V ℝ}

theorem Made.dimension_gradient (h : b.Made rule f) :
    dimension b.current.gradient = dimension b.direction := by
  obtain ⟨-, -, hdim, -, -⟩ := StrongWolfe.search_ok h
  exact hdim

theorem Made.dimension_next (h : b.Made rule f) (hs : b.Succeeded) :
    dimension b.found.next.gradient = dimension b.direction := by
  obtain ⟨q, hq, -⟩ := h.accepted hs
  rw [hq.next_eq]
  exact hq.along.dimension_gradient

/-- Where a step was accepted, the slope along the old direction is flat. -/
theorem Made.exit_flat (h : b.Made rule f) (ha : b.Accepted) :
    |dot b.found.next.gradient b.direction| ≤ -rule.c₂ * b.slope := by
  obtain ⟨q, hq, hflat⟩ := h.flat ha
  rw [hq.next_eq]
  exact hq.along.slope_eq ▸ flatEnough_iff.mp hflat

/-- Where the doublings were used up, the old direction leads on downhill. -/
theorem Made.exit_falling (h : b.Made rule f) (hs : b.Succeeded) (hn : ¬b.Accepted) :
    dot b.found.next.gradient b.direction < 0 := by
  obtain ⟨q, hq, hdown⟩ := h.exhausted hs hn
  rw [hq.next_eq]
  exact hq.along.slope_eq ▸ not_le.mp hdown.falling

/-- The search has ended with an accepted step, and the gradient has turned by a right angle at
most. -/
structure Gentle (b : SearchCall σ V ℝ) : Prop where
  succeeded : b.Succeeded
  accepted : b.Accepted
  acute : 0 ≤ dot b.current.gradient b.found.next.gradient

end SearchCall

variable [Coordinatized V ℝ] [ExactSpace V]

namespace PolakRibiere

variable {m : PolakRibiere ℝ} {b c : SearchCall σ V ℝ} {past rest : List (SearchCall σ V ℝ)}

omit [Coordinatized V ℝ] [ExactSpace V] in
theorem beta_nonneg (old new : V) : (0 : ℝ) ≤ beta old new := by
  rw [beta, positivePart_eq_max]
  exact le_max_right _ _

/-- While the gradient turns by a right angle at most, the new direction keeps of the old one at
most what the gradients' lengths allow. -/
theorem beta_le {old new : V} (hdim : dimension old = dimension new) (hold : 0 < dot old old)
    (hacute : 0 ≤ dot old new) : beta old new ≤ dot new new / dot old old := by
  have hnew := ExactSpace.dot_self_nonneg new
  rw [beta, positivePart_eq_max, ExactSpace.dot_ray hdim rfl]
  refine max_le ?_ (by positivity)
  gcongr
  linarith

/-- The slope after a move: what is kept of the old direction may lead uphill. -/
theorem slope_turned (hb : b.Made rule f) (hs : b.Succeeded) (h : Link b c) :
    c.slope = beta b.current.gradient c.current.gradient * dot c.current.gradient b.direction -
      dot c.current.gradient c.current.gradient := by
  have hcurrent := h.current_eq.trans (SearchCall.arrival_of_succeeded hs)
  rw [SearchCall.slope, h.direction_eq, turned_of_succeeded hs, hcurrent,
    ExactSpace.dot_combine (hb.dimension_next hs).symm rfl]
  ring

/-- A search against the gradient goes downhill. -/
theorem slope_fresh (h : c.direction = scale c.current.gradient (-1)) :
    c.slope = -dot c.current.gradient c.current.gradient := by
  rw [SearchCall.slope, h, ExactSpace.dot_scale rfl, neg_one_mul]

/-! ## Gentle searches -/

/-- The slope is that of the negative gradient, up to the part `κ / (1 - κ)` of it. -/
def Steady (κ : ℝ) (c : SearchCall σ V ℝ) : Prop :=
  (1 - κ) * |c.slope + dot c.current.gradient c.current.gradient| ≤
    κ * dot c.current.gradient c.current.gradient

omit [ExactSpace V] [Coordinatized V ℝ] in
theorem Steady.slope_le {κ : ℝ} (h : Steady κ c) (hκ : κ < 1) :
    c.slope ≤ -((1 - 2 * κ) / (1 - κ)) * dot c.current.gradient c.current.gradient := by
  have hpos : 0 < 1 - κ := sub_pos.mpr hκ
  have hle : c.slope + dot c.current.gradient c.current.gradient ≤
      κ * dot c.current.gradient c.current.gradient / (1 - κ) :=
    (le_abs_self _).trans ((le_div_iff₀' hpos).mpr h)
  calc c.slope ≤ κ * dot c.current.gradient c.current.gradient / (1 - κ) -
        dot c.current.gradient c.current.gradient := le_sub_right_of_add_le hle
    _ = -((1 - 2 * κ) / (1 - κ)) * dot c.current.gradient c.current.gradient := by
        field_simp
        ring

omit [ExactSpace V] [Coordinatized V ℝ] in
theorem Steady.of_fresh {κ : ℝ} (hκ : 0 ≤ κ)
    (h : c.slope = -dot c.current.gradient c.current.gradient)
    (hpos : 0 ≤ dot c.current.gradient c.current.gradient) : Steady κ c := by
  rw [Steady, h, neg_add_cancel, abs_zero, mul_zero]
  exact mul_nonneg hκ hpos

/-- After a gentle search the slope is steady if it was before: of the old direction the new one
keeps so little, and along the old one the slope has become so flat. -/
theorem Steady.next (h : Steady rule.c₂ b) (hb : b.Made rule f) (hgentle : b.Gentle)
    (hpos : 0 < dot b.current.gradient b.current.gradient) (hlink : Link b c)
    (hκ : 0 ≤ rule.c₂) (hκ' : rule.c₂ < 1) : Steady rule.c₂ c := by
  have hcurrent := hlink.current_eq.trans (SearchCall.arrival_of_succeeded hgentle.succeeded)
  have hflat := hb.exit_flat hgentle.accepted
  have hbeta := beta_le (hb.dimension_gradient.trans (hb.dimension_next hgentle.succeeded).symm)
    hpos hgentle.acute
  rw [← hcurrent] at hflat hbeta
  have hnonneg : (0 : ℝ) ≤ beta b.current.gradient c.current.gradient := beta_nonneg _ _
  -- The slope of `b` is not much steeper than the negative gradient.
  have hsteep : (1 - rule.c₂) * -b.slope ≤ dot b.current.gradient b.current.gradient := by
    have habs := neg_abs_le (b.slope + dot b.current.gradient b.current.gradient)
    have h' : (1 - rule.c₂) * |b.slope + dot b.current.gradient b.current.gradient| ≤
      rule.c₂ * dot b.current.gradient b.current.gradient := h
    nlinarith
  rw [Steady, slope_turned hb hgentle.succeeded hlink, sub_add_cancel, abs_mul,
    abs_of_nonneg hnonneg]
  calc (1 - rule.c₂) * (beta b.current.gradient c.current.gradient *
        |dot c.current.gradient b.direction|)
      ≤ (1 - rule.c₂) * (beta b.current.gradient c.current.gradient *
          (-rule.c₂ * b.slope)) := by gcongr
    _ = beta b.current.gradient c.current.gradient * rule.c₂ *
          ((1 - rule.c₂) * -b.slope) := by ring
    _ ≤ beta b.current.gradient c.current.gradient * rule.c₂ *
          dot b.current.gradient b.current.gradient := by gcongr
    _ ≤ dot c.current.gradient c.current.gradient / dot b.current.gradient b.current.gradient *
          rule.c₂ * dot b.current.gradient b.current.gradient := by gcongr
    _ = rule.c₂ * dot c.current.gradient c.current.gradient := by field_simp

/-- Gentle searches lead from a steady search to a steady search. -/
theorem Steady.chain {recent : List (SearchCall σ V ℝ)} (hκ : 0 ≤ rule.c₂) (hκ' : rule.c₂ < 1)
    (hchain : (recent ++ [c]).IsChain Link) (hmade : ∀ b ∈ recent, b.Made rule f)
    (hgentle : ∀ b ∈ recent, b.Gentle)
    (hpos : ∀ b ∈ recent, 0 < dot b.current.gradient b.current.gradient)
    (hhead : ∀ d ∈ (recent ++ [c]).head?, Steady rule.c₂ d) : Steady rule.c₂ c := by
  induction recent with
  | nil => exact hhead c (by simp)
  | cons b recent ih =>
    obtain ⟨hb, hrest⟩ := List.isChain_cons.mp hchain
    refine ih hrest (fun d hd => hmade d (.tail b hd)) (fun d hd => hgentle d (.tail b hd))
      (fun d hd => hpos d (.tail b hd)) fun d hd => ?_
    exact (hhead b (by simp)).next (hmade b (by simp)) (hgentle b (by simp)) (hpos b (by simp))
      (hb d hd) hκ hκ'

/-! ## Whole runs -/

/-- All searches since the last new beginning were gentle. -/
def GentleSince (past : List (SearchCall σ V ℝ)) : Prop :=
  ∃ fresh recent, past = fresh ++ recent ∧ Restarts fresh ∧ ∀ b ∈ recent, b.Gentle

/-- What the searches `past` of a run say about the slope at the start of the next search `c`. -/
structure SlopeLaw (κ : ℝ) (past : List (SearchCall σ V ℝ)) (c : SearchCall σ V ℝ) : Prop where
  gradient_pos : 0 < dot c.current.gradient c.current.gradient
  /-- At first and after a failed search the direction is the negative gradient. -/
  restart : Restarts past → c.direction = scale c.current.gradient (-1) ∧
    c.slope = -dot c.current.gradient c.current.gradient
  /-- After a move the slope has two parts, of which the first may be positive. -/
  turn : ∀ b ∈ past.getLast?, b.Succeeded →
    c.slope = beta b.current.gradient c.current.gradient * dot c.current.gradient b.direction -
      dot c.current.gradient c.current.gradient
  /-- The direction goes downhill if the old one would have gone on downhill, as it would if no
  bracket was found. -/
  falling : ∀ b ∈ past.getLast?, b.Succeeded →
    ¬b.Accepted ∨ dot c.current.gradient b.direction ≤ 0 → c.slope < 0
  /-- While all searches are gentle, the direction keeps a fixed part of the negative gradient. -/
  gentle : GentleSince past →
    c.slope ≤ -((1 - 2 * κ) / (1 - κ)) * dot c.current.gradient c.current.gradient

theorem slopeLaw {p : Point V ℝ} (hκ : 0 ≤ rule.c₂) (hκ' : rule.c₂ < 1)
    (hlinks : Links p (scale p.gradient (-1)) (past ++ c :: rest))
    (hmade : ∀ b ∈ past ++ c :: rest, b.Made rule f)
    (hpos : ∀ b ∈ past ++ c :: rest, 0 < dot b.current.gradient b.current.gradient) :
    SlopeLaw rule.c₂ past c := by
  have hmem : ∀ b ∈ past.getLast?, b ∈ past ++ c :: rest := fun b hb =>
    List.mem_append_left _ (List.mem_of_getLast? hb)
  have hturn : ∀ b ∈ past.getLast?, b.Succeeded →
      c.slope = beta b.current.gradient c.current.gradient * dot c.current.gradient b.direction -
        dot c.current.gradient c.current.gradient := fun b hb hs =>
    slope_turned (hmade b (hmem b hb)) hs (hlinks.link b hb)
  constructor
  · exact hpos c (by simp)
  · intro hfresh
    have hdirection := hlinks.direction_restart hfresh
    exact ⟨hdirection, slope_fresh hdirection⟩
  · exact hturn
  · intro b hb hs hcase
    have hcurrent := (hlinks.link b hb).current_eq.trans (SearchCall.arrival_of_succeeded hs)
    have hexit : dot c.current.gradient b.direction ≤ 0 := by
      rcases hcase with hn | hle
      · rw [hcurrent]
        exact ((hmade b (hmem b hb)).exit_falling hs hn).le
      · exact hle
    have hkept : beta b.current.gradient c.current.gradient *
        dot c.current.gradient b.direction ≤ 0 :=
      mul_nonpos_of_nonneg_of_nonpos (beta_nonneg _ _) hexit
    rw [hturn b hb hs]
    linarith [hpos c (by simp)]
  · rintro ⟨fresh, recent, rfl, hfresh, hgentle⟩
    refine Steady.slope_le ?_ hκ'
    have hrun : fresh ++ recent ++ c :: rest = fresh ++ (recent ++ [c] ++ rest) := by simp
    rw [hrun] at hlinks hmade hpos
    have hchain : (recent ++ [c]).IsChain Link :=
      (List.isChain_append.mp (List.isChain_append.mp hlinks.chain).2.1).1
    refine Steady.chain hκ hκ' hchain (fun b hb => hmade b (by simp [hb])) hgentle
      (fun b hb => hpos b (by simp [hb])) fun d hd => ?_
    -- The first of these searches begins anew.
    obtain ⟨later, hlater⟩ := List.head?_eq_some_iff.mp hd
    rw [hlater, List.cons_append] at hlinks hpos
    exact .of_fresh hκ (slope_fresh (hlinks.direction_restart hfresh)) (hpos d (by simp)).le

/-- A run returns, and the slope at the start of every search follows from the searches before.
If `c₂` is less than a half, the search goes downhill as long as all searches since the last new
beginning were gentle. -/
theorem search_slopes {good : V → Prop} {x₀ : V} (hf : f.Answers (dimension x₀) good)
    (hg : good x₀) (htol : 0 ≤ m.stopping.tolerance) (hc₂ : 0 ≤ m.lineSearch.c₂)
    (hc₂' : m.lineSearch.c₂ < 1 / 2) (history : History V ℝ) (session : Session σ V ℝ) :
    ∃ p session₁ cs s session₂ session',
      evaluateFirst f x₀ session = .ok p session₁ ∧
      Iterates m f (m.stopping.budget 20 x₀) (.initial m p history) session₁ cs s session₂ ∧
      m.run f x₀ history session =
        .ok ({ point := s.current, iterations := cs.length,
               converged := m.stopping.Converged s.current },
             history.recordAll (cs.map record ++ [s.final])) session' ∧
      ∀ past c rest, cs = past ++ c :: rest →
        SlopeLaw m.lineSearch.c₂ past c ∧ (GentleSince past → c.slope < 0) := by
  obtain ⟨p, session₁, cs, s, session₂, session', hstart, hcs, hrun⟩ :=
    m.run_iterates hf rfl hg history session
  refine ⟨p, session₁, cs, s, session₂, session', hstart, hcs, hrun, ?_⟩
  rintro past c rest rfl
  have hpos : ∀ b ∈ past ++ c :: rest, 0 < dot b.current.gradient b.current.gradient := fun b hb =>
    Stopping.dot_gradient_pos htol (hcs.large b hb)
  have hlaw : SlopeLaw m.lineSearch.c₂ past c :=
    slopeLaw hc₂ (by linarith) hcs.links hcs.journey.made hpos
  refine ⟨hlaw, fun hgentle => (hlaw.gentle hgentle).trans_lt ?_⟩
  have hpart : 0 < (1 - 2 * m.lineSearch.c₂) / (1 - m.lineSearch.c₂) :=
    div_pos (by linarith) (by linarith)
  rw [neg_mul]
  exact neg_neg_of_pos (mul_pos hpart hlaw.gradient_pos)

end PolakRibiere

end Slopes

/-! ## Searches in the square -/

namespace PolakRibiere

/-- Two iterations at most, with `c₂` less than a half. -/
noncomputable def twoSearches (firstStep : ℝ) : PolakRibiere ℝ where
  lineSearch := { c₁ := 0.125, c₂ := 0.375, doublings := 10, bisections := 4 }
  firstStep
  stopping := { tolerance := 0.0009765625, limit := some 2 }

variable {a : ℝ}

/-- From the height `1` in the square a step near one half, to the point `1 - 2 a`, is accepted. -/
theorem search_from_one (hlow : 0.3125 ≤ a) (hhigh : a ≤ 0.6875) :
    (((twoSearches a).stages squareField 1 0).search (twoSearches a) squareField).2 =
      .accepted a := by
  -- The direction is `-2`, so the trial of the step `a` is made at `1 - 2 a`.
  refine congrArg Prod.snd (StrongWolfe.explore_of_accepts (Nat.succ_pos 9) ?_ ?_)
  · rw [sufficientDecrease_iff]
    show (1 + (1 + 1) * -1 * a) * (1 + (1 + 1) * -1 * a) ≤
      1 * 1 + 0.125 * a * ((1 + 1) * ((1 + 1) * -1))
    nlinarith
  · rw [flatEnough_iff]
    show |(1 + (1 + 1) * -1 * a + (1 + (1 + 1) * -1 * a)) * ((1 + 1) * -1)| ≤
      -0.375 * ((1 + 1) * ((1 + 1) * -1))
    rw [abs_le]
    constructor <;> linarith

/-- The stage after that step. -/
theorem stage_from_one (hlow : 0.3125 ≤ a) (hhigh : a ≤ 0.6875) :
    (twoSearches a).stages squareField 1 1 =
      ((twoSearches a).stages squareField 1 0).move squareField a := by
  have hstep : ((twoSearches a).stages squareField 1 0).step (twoSearches a) squareField = a :=
    congrArg Phase.step (search_from_one hlow hhigh)
  exact Stage.next_of_step hstep (beq_eq_false_iff_ne.mpr (by linarith))

/-- A run with such a first step makes two searches. -/
theorem run_from_one (hlow : 0.3125 ≤ a) (hhigh : a ≤ 0.6875) (hne : 0.01 ≤ |a - 0.5|)
    {s : State ℝ ℝ} {session session' : Session ℕ ℝ ℝ} {cs : List (SearchCall ℕ ℝ ℝ)}
    (h : Iterates (twoSearches a) square 2 (.initial (twoSearches a) (squareField.point 1) none)
      session cs s session') :
    ∃ b c, cs = [b, c] ∧ CallIsAt (twoSearches a) squareField 1 0 b ∧
      CallIsAt (twoSearches a) squareField 1 1 c := by
  have hlarge : ∀ k < 2,
      ¬(twoSearches a).stopping.Converged ((twoSearches a).pointAt squareField 1 k) := by
    intro k hk
    interval_cases k
    · show ¬|(1 : ℝ) + 1| ≤ 0.0009765625
      norm_num
    · rw [pointAt, stage_from_one hlow hhigh]
      show ¬|1 + (1 + 1) * -1 * a + (1 + (1 + 1) * -1 * a)| ≤ 0.0009765625
      rw [show 1 + (1 + 1) * -1 * a + (1 + (1 + 1) * -1 * a) = -4 * (a - 0.5) by ring, abs_mul]
      norm_num
      linarith
  have hlength := (h.follow square_computes State.initial_isAt).stopsAt.eq_budget hlarge
  obtain ⟨b, c, rfl⟩ := List.length_eq_two.mp hlength
  exact ⟨b, c, rfl, h.call_isAt square_computes State.initial_isAt (k := 0) (i := 0) rfl,
    h.call_isAt square_computes State.initial_isAt (k := 0) (i := 1) rfl⟩

theorem square_answers : square.Answers (dimension (1 : ℝ)) fun _ => True :=
  square_computes.answers fun _ _ => rfl

/-- A step to `1/4` turns the gradient by no angle at all, and the next search goes downhill. -/
theorem search_slopes_in_square :
    ∃ p session₁ b c s session₂ session',
      evaluateFirst square 1 { state := 0 } = .ok p session₁ ∧
      Iterates (twoSearches 0.375) square 2 (.initial (twoSearches 0.375) p none) session₁ [b, c] s
        session₂ ∧
      (twoSearches 0.375).run square 1 none { state := 0 } =
        .ok ({ point := s.current, iterations := 2,
               converged := (twoSearches 0.375).stopping.Converged s.current }, none) session' ∧
      b.Gentle ∧ c.slope < 0 := by
  have htol : 0 ≤ (twoSearches 0.375).stopping.tolerance := by norm_num [twoSearches]
  have hc₂ : 0 ≤ (twoSearches 0.375).lineSearch.c₂ := by norm_num [twoSearches]
  have hc₂' : (twoSearches 0.375).lineSearch.c₂ < 1 / 2 := by norm_num [twoSearches]
  have hlow : (0.3125 : ℝ) ≤ 0.375 := by norm_num
  have hhigh : (0.375 : ℝ) ≤ 0.6875 := by norm_num
  obtain ⟨p, session₁, cs, s, session₂, session', hstart, hcs, hrun, hlaw⟩ :=
    search_slopes square_answers trivial htol hc₂ hc₂' none { state := 0 }
  obtain rfl : p = squareField.point 1 := evaluateFirst_point square_computes hstart
  obtain ⟨b, c, rfl, hb, hc⟩ := run_from_one hlow hhigh (by norm_num) hcs
  have hphase := hb.phase_eq.trans (search_from_one hlow hhigh)
  have hsucceeded : b.Succeeded :=
    SearchCall.succeeded_iff.mpr (by rw [Search.step, hphase]; norm_num [Phase.step])
  have hlink : Link b c := (List.isChain_cons_cons.mp hcs.links.chain).1
  have hnext : b.found.next = (twoSearches 0.375).pointAt squareField 1 1 := by
    rw [← hc.current_eq, hlink.current_eq, SearchCall.arrival_of_succeeded hsucceeded]
  have hgentle : b.Gentle := by
    refine ⟨hsucceeded, ⟨0.375, hphase⟩, ?_⟩
    rw [hb.current_eq, hnext, pointAt, pointAt, stage_from_one hlow hhigh]
    show (0 : ℝ) ≤ (1 + 1) *
      (1 + (1 + 1) * -1 * 0.375 + (1 + (1 + 1) * -1 * 0.375))
    norm_num
  refine ⟨_, session₁, b, c, s, session₂, session', hstart, hcs, hrun, hgentle, ?_⟩
  exact (hlaw [b] c [] rfl).2 ⟨[], [b], rfl, by simp [Restarts], by simpa using hgentle⟩

/-- A step to `-1/4` turns the gradient around. The slope there is flat enough along the old
direction, but the next direction keeps so much of it that the next search goes uphill. -/
theorem search_uphill_in_square :
    square.Computes squareField.value squareField.gradient ∧
    0 < (twoSearches 0.625).firstStep ∧ 0 ≤ (twoSearches 0.625).stopping.tolerance ∧
    0 < (twoSearches 0.625).lineSearch.c₁ ∧
    (twoSearches 0.625).lineSearch.c₁ < (twoSearches 0.625).lineSearch.c₂ ∧
    (twoSearches 0.625).lineSearch.c₂ < 1 / 2 ∧
    ∃ p session₁ cs s session₂ session',
      evaluateFirst square 1 { state := 0 } = .ok p session₁ ∧
      Iterates (twoSearches 0.625) square ((twoSearches 0.625).stopping.budget 20 (1 : ℝ))
        (.initial (twoSearches 0.625) p none) session₁ cs s session₂ ∧
      (twoSearches 0.625).run square 1 none { state := 0 } =
        .ok ({ point := s.current, iterations := cs.length,
               converged := (twoSearches 0.625).stopping.Converged s.current }, none) session' ∧
      ∃ c ∈ cs, 0 < dot c.current.gradient c.direction := by
  have hlow : (0.3125 : ℝ) ≤ 0.625 := by norm_num
  have hhigh : (0.625 : ℝ) ≤ 0.6875 := by norm_num
  refine ⟨square_computes, by norm_num [twoSearches], by norm_num [twoSearches],
    by norm_num [twoSearches], by norm_num [twoSearches], by norm_num [twoSearches], ?_⟩
  obtain ⟨p, session₁, cs, s, session₂, session', hstart, hcs, hrun⟩ :=
    (twoSearches 0.625).run_iterates square_answers rfl trivial none { state := 0 }
  refine ⟨p, session₁, cs, s, session₂, session', hstart, hcs, hrun, ?_⟩
  obtain rfl : p = squareField.point 1 := evaluateFirst_point square_computes hstart
  obtain ⟨b, c, rfl, -, hc⟩ := run_from_one hlow hhigh (by norm_num) hcs
  refine ⟨c, by simp, ?_⟩
  rw [hc.current_eq, hc.direction_eq, pointAt, stage_from_one hlow hhigh]
  set x : ℝ := 1 + (1 + 1) * -1 * 0.625 with hx
  show 0 < (x + x) * ((1 + 1) * -1 *
    Scalar.positivePart ((x + x + (1 + 1) * -1) * (x + x) / ((1 + 1) * (1 + 1))) + (x + x) * -1)
  rw [positivePart_eq_max, hx]
  norm_num

end PolakRibiere

end Descent
