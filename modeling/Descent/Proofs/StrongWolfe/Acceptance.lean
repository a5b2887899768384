import Descent.Proofs.StrongWolfe.Trials
import Descent.Space.Line
import Mathlib.Data.List.Chain

/-!
# The steps that a line search takes

For any scalars, since only the comparisons that the search makes itself are used.

* `StrongWolfe.Unbracketed`: trials at doubled steps, all downhill and each below the one before.
* `Phase.Recounts`: what a phase says about the trials made so far; every trial preserves it
  (`Phase.Recounts.move`).
* `StrongWolfe.last_trial_of_step_ne_zero`: a search that takes a step other than zero takes the
  step of its last trial. The trial satisfies both conditions, or it satisfies the first and all
  doublings were used without a bracket.
-/

namespace Descent

variable {σ V S : Type} [Scalar S]

namespace StrongWolfe

variable (rule : StrongWolfe S) (start : Slice S)

/-- Trials that close no bracket: the first is at `first`, each other one at twice the step of the
one before and not at or above its value, and all of them are downhill. -/
structure Unbracketed (first : S) (ts : List (Trial S)) : Prop where
  head_step : ∀ t ∈ ts.head?, t.step = first
  chain : ts.IsChain fun t u => u.step = t.step + t.step ∧ ¬t.value ≤ u.value
  downhill : ∀ t ∈ ts, rule.Downhill start t

theorem Unbracketed.nil (first : S) : rule.Unbracketed start first [] where
  head_step := by simp
  chain := .nil
  downhill := by simp

theorem Unbracketed.concat {rule : StrongWolfe S} {start : Slice S} {first : S}
    {ts : List (Trial S)} {u : Trial S} (h : rule.Unbracketed start first ts)
    (head : ts = [] → u.step = first)
    (link : ∀ t ∈ ts.getLast?, u.step = t.step + t.step ∧ ¬t.value ≤ u.value)
    (hu : rule.Downhill start u) : rule.Unbracketed start first (ts ++ [u]) where
  head_step := by
    cases ts with
    | nil => simpa using head rfl
    | cons t ts => simpa using h.head_step
  chain := List.isChain_append.mpr ⟨h.chain, .singleton u, by simpa using link⟩
  downhill := by
    intro t ht
    rcases List.mem_append.mp ht with ht | ht
    · exact h.downhill t ht
    · rw [List.mem_singleton.mp ht]; exact hu

end StrongWolfe

/-! ## What a phase says about its trials -/

namespace Phase

variable {rule : StrongWolfe S} {start : Slice S} {first : S} {ts : List (Trial S)}
  {phase phase' : Phase S}

/-- While steps are doubled, the phase knows the last trial, or the start if there was none. The
step of an accepted phase is that of the last trial, which satisfies both conditions. -/
def Recounts (rule : StrongWolfe S) (start : Slice S) (first : S) (ts : List (Trial S)) :
    Phase S → Prop
  | bracketing count next last lastValue =>
    ts.length = count ∧ count ≤ rule.doublings ∧ rule.Unbracketed start first ts ∧
      (ts = [] → next = first ∧ last = 0 ∧ lastValue = start.value) ∧
      ∀ t ∈ ts.getLast?, next = t.step + t.step ∧ last = t.step ∧ lastValue = t.value
  | zooming _ _ => True
  | accepted step => ∃ past t, ts = past ++ [t] ∧ t.step = step ∧
      rule.SufficientDecrease start t ∧ rule.FlatEnough start t

theorem recounts_initial (rule : StrongWolfe S) (start : Slice S) (first : S) :
    (initial start first).Recounts rule start first [] :=
  ⟨rfl, Nat.zero_le _, .nil rule start first, fun _ => ⟨rfl, rfl, rfl⟩, by simp⟩

theorem Recounts.move {t : Trial S} (h : phase.Recounts rule start first ts)
    (hm : Move rule start t phase phase') : phase'.Recounts rule start first (ts ++ [t]) := by
  cases hm with
  | acceptDoubled _ decrease flat => exact ⟨ts, t, rfl, rfl, decrease, flat⟩
  | acceptBisected _ _ decrease flat => exact ⟨ts, t, rfl, rfl, decrease, flat⟩
  | @double count last lastValue budget downhill below =>
    obtain ⟨hlen, -, hun, hnil, hlast⟩ := h
    refine ⟨by simp [hlen], budget, hun.concat (fun h0 => (hnil h0).1) ?_ downhill, by simp,
      by simp⟩
    intro u hu
    obtain ⟨hnext, -, hvalue⟩ := hlast u hu
    have hpos : 0 < count := by
      rw [← hlen]; exact List.length_pos_of_mem (List.mem_of_getLast? hu)
    exact ⟨hnext, hvalue ▸ below hpos⟩
  | overshoot => trivial
  | turn => trivial
  | shrink => trivial
  | lower => trivial
  | flip => trivial

theorem Reaches.recounts (h : Reaches rule start (initial start first) ts phase) :
    phase.Recounts rule start first ts :=
  h.invariant (recounts_initial rule start first) fun _ _ _ _ hr hm => hr.move hm

/-- A search that takes the last of its doubled steps has used up all doublings, and no trial has
closed a bracket. -/
theorem Recounts.exhausted {count : Nat} {next last lastValue : S}
    (h : (bracketing count next last lastValue).Recounts rule start first ts)
    (hstop : (bracketing count next last lastValue).pending rule = none)
    (hstep : (last == 0) = false) :
    ∃ past t, ts = past ++ [t] ∧ last = t.step ∧ ts.length = rule.doublings ∧
      rule.Unbracketed start first ts := by
  obtain ⟨hlen, hle, hun, hnil, hlast⟩ := h
  have hcount : count = rule.doublings :=
    Nat.le_antisymm hle (pending_bracketing_eq_none.mp hstop)
  rcases List.eq_nil_or_concat ts with rfl | ⟨past, t, rfl⟩
  · obtain ⟨-, rfl, -⟩ := hnil rfl
    rw [Scalar.zero_beq_zero] at hstep
    cases hstep
  · rw [List.concat_eq_append] at *
    exact ⟨past, t, rfl, (hlast t (by simp)).2.1, hlen.trans hcount, hun⟩

/-- A search that ends with a step other than zero has made a trial, takes the step of the last
one, and takes it for its conditions or for want of a bracket. -/
theorem Recounts.last_trial (h : phase.Recounts rule start first ts)
    (hstop : phase.pending rule = none) (hstep : (phase.step == 0) = false) :
    ∃ past t, ts = past ++ [t] ∧ phase.step = t.step ∧ rule.SufficientDecrease start t ∧
      (rule.FlatEnough start t ∨ ts.length = rule.doublings ∧ rule.Unbracketed start first ts) := by
  cases phase with
  | bracketing count next last lastValue =>
    obtain ⟨past, t, rfl, hlast, hlen, hun⟩ := h.exhausted hstop hstep
    exact ⟨past, t, rfl, hlast, (hun.downhill t (by simp)).decrease, .inr ⟨hlen, hun⟩⟩
  | zooming count b =>
    rw [step, Scalar.zero_beq_zero] at hstep
    cases hstep
  | accepted a =>
    obtain ⟨past, t, rfl, rfl, hdec, hflat⟩ := h
    exact ⟨past, t, rfl, rfl, hdec, .inl hflat⟩

end Phase

/-! ## Whole searches -/

variable [Space V S]

/-- A search that returns a step other than zero has probed the direction at least once. It returns
the step of the last probe and leaves the point of its evaluation. That probe decreases the value
enough, and either its slope is flat enough as well, or all doublings were used and no probe closed
a bracket. -/
theorem StrongWolfe.last_trial_of_step_ne_zero {rule : StrongWolfe S} {f : Objective σ V S}
    {direction : V} {current next : Point V S} {first : S} {samples : Recorder V}
    {found : Search V S} {session session' : Session σ V S}
    (h : rule.search f direction current next first samples session = .ok found session')
    (hstep : (found.step == 0) = false) :
    ∃ (past : List (Probe V S)) (last : Probe V S),
      (∀ q ∈ past ++ [last], q.Along current.x direction) ∧
      session.Extends f ((past ++ [last]).map (·.evaluation)) session' ∧
      session'.log.toList = session.log.toList ++
        ((past ++ [last]).map fun q => .trial q.trial) ++ found.phase.closing.toList ∧
      found.step = last.trial.step ∧ found.next = last.evaluation.point ∧
      rule.SufficientDecrease (current.slice direction) last.trial ∧
      (rule.FlatEnough (current.slice direction) last.trial ∨
        (past ++ [last]).length = rule.doublings ∧
        rule.Unbracketed (current.slice direction) first ((past ++ [last]).map (·.trial))) := by
  obtain ⟨qs, middle, -, hd, rfl⟩ := search_ok h
  obtain ⟨ts, t, hts, ht, hdec, hend⟩ := hd.reaches.recounts.last_trial hd.stopped hstep
  obtain ⟨past, rest, rfl, rfl, hlast⟩ := List.map_eq_append_iff.mp hts
  obtain ⟨last, rfl, rfl⟩ := List.map_eq_singleton_iff.mp hlast
  refine ⟨past, last, hd.along, hd.calls.setLog _, ?_, ht, ?_, hdec, ?_⟩
  · rw [Array.toList_append, hd.log_eq, Option.toList_toArray]
  · rw [hd.next_eq, List.getLast?_append]
    rfl
  · rwa [List.length_map] at hend

/-- The objective `-x`, which counts its calls. -/
def ramp : Objective Nat Float Float := fun x _ => do
  modify (· + 1)
  return (-x, -1)

/-- The start of the ramp. -/
def rampStart : Point Float Float where
  x := 0
  value := 0
  gradient := -1

/-- On the ramp no bracket is found and the last of ten doublings is taken. -/
theorem last_trial_on_ramp :
    ∃ found session',
      StrongWolfe.standard.search ramp 1 rampStart rampStart 1 none { state := 0 } =
        .ok found session' ∧
      (found.step == 0) = false ∧ session'.state = 10 ∧
      ∃ (past : List (Probe Float Float)) (last : Probe Float Float),
        found.step = last.trial.step ∧ found.next = last.evaluation.point ∧
        (StrongWolfe.standard.FlatEnough (rampStart.slice 1) last.trial ∨
          (past ++ [last]).length = 10 ∧
          StrongWolfe.standard.Unbracketed (rampStart.slice 1) 1
            ((past ++ [last]).map (·.trial))) := by
  have hrun : Succeeds (fun found session' => !(found.step == 0) && session'.state == 10)
      (StrongWolfe.standard.search ramp 1 rampStart rampStart 1 none { state := 0 }) = true := by
    decide +kernel
  obtain ⟨found, session', h, htest⟩ := Succeeds.exists_ok hrun
  obtain ⟨hstep, hcalls⟩ : (found.step == 0) = false ∧ session'.state = 10 := by
    simpa using htest
  obtain ⟨past, last, -, -, -, hlast, hnext, -, hend⟩ :=
    StrongWolfe.last_trial_of_step_ne_zero h hstep
  exact ⟨found, session', h, hstep, hcalls, past, last, hlast, hnext, hend⟩

end Descent
