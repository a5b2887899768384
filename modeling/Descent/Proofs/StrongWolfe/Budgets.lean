import Descent.Proofs.StrongWolfe.Effects

/-!
# Smaller budgets only cut a line search short

For any scalars, and for an objective of which nothing is known.

* `StrongWolfe.Shortens`: a rule has the constants of another and budgets that are not larger.
* `Comes.longer`: with larger budgets a search comes wherever it came with smaller ones.
* `Comes.shorter`: with smaller budgets it stops somewhere on the way to where it came.
* `StrongWolfe.search_shortened`: the statement for whole searches.
-/

namespace Descent

variable {σ V S : Type} [Scalar S]

namespace StrongWolfe

/-- The rule `short` has the constants of `long`, and its budgets are not larger. -/
structure Shortens (short long : StrongWolfe S) : Prop where
  c₁_eq : short.c₁ = long.c₁
  c₂_eq : short.c₂ = long.c₂
  doublings_le : short.doublings ≤ long.doublings
  bisections_le : short.bisections ≤ long.bisections

namespace Shortens

variable {short long : StrongWolfe S} {start : Slice S} {phase : Phase S} {a : S}

/-- A trial leads on to the same phase. -/
theorem advance_eq (h : short.Shortens long) (phase : Phase S) (t : Trial S) :
    phase.advance short start t = phase.advance long start t := by
  obtain ⟨c₁, c₂, doublings, bisections⟩ := short
  obtain ⟨rfl, rfl, -, -⟩ := h
  cases phase <;> rfl

/-- What the smaller budgets allow the larger ones allow. -/
theorem pending (h : short.Shortens long) (hp : phase.pending short = some a) :
    phase.pending long = some a := by
  cases phase with
  | bracketing count next last lastValue =>
    obtain ⟨hcount, hnext⟩ := Phase.pending_bracketing.mp hp
    exact Phase.pending_bracketing.mpr ⟨hcount.trans_le h.doublings_le, hnext⟩
  | zooming count b =>
    obtain ⟨hcount, hmiddle⟩ := Phase.pending_zooming.mp hp
    exact Phase.pending_zooming.mpr ⟨hcount.trans_le h.bisections_le, hmiddle⟩
  | accepted step => cases hp

/-- Where the larger budgets allow no trial the smaller ones allow none. -/
theorem pending_eq_none (h : short.Shortens long) (hp : phase.pending long = none) :
    phase.pending short = none := by
  cases hshort : phase.pending short with
  | none => rfl
  | some a =>
    rw [h.pending hshort] at hp
    cases hp

end Shortens

/-! ## Searches under way -/

variable [Space V S] {short long : StrongWolfe S} {f : Objective σ V S} {direction : V}
  {current next : Point V S} {start : Slice S} {first : S} {samples : Recorder V}
  {s s' : Search V S} {session session' : Session σ V S} {qs : List (Probe V S)}

/-- With larger budgets a search comes wherever it came with smaller ones, by the same probes. -/
theorem Comes.longer (h : short.Comes f direction current start s session qs s' session')
    (hr : short.Shortens long) : long.Comes f direction current start s session qs s' session' := by
  induction h with
  | here => exact .here
  | probed pending buffer made _ ih =>
    rw [hr.advance_eq] at ih
    exact .probed (hr.pending pending) buffer made ih

/-- On the way to where a search has ended it stops with smaller budgets. -/
theorem Comes.shorter (h : long.Comes f direction current start s session qs s' session')
    (hr : short.Shortens long) (hstop : s'.phase.pending long = none) :
    ∃ ps middle session₁, short.Comes f direction current start s session ps middle session₁ ∧
      middle.phase.pending short = none ∧ ps <+: qs := by
  induction h with
  | @here s session => exact ⟨[], s, session, .here, hr.pending_eq_none hstop, List.prefix_rfl⟩
  | @probed s _ session _ _ q qs pending buffer made _ ih =>
    cases hshort : s.phase.pending short with
    | none => exact ⟨[], s, session, .here, hshort, List.nil_prefix⟩
    | some a =>
      -- The budgets still allow the trial, so both searches make it.
      have hsame : a = q.trial.step := Option.some.inj ((hr.pending hshort).symm.trans pending)
      obtain ⟨ps, middle, session₁, hps, hend, hfirst⟩ := ih hstop
      rw [← hr.advance_eq] at hps
      exact ⟨q :: ps, middle, session₁, .probed (hsame ▸ hshort) buffer made hps, hend,
        (List.prefix_cons_inj q).mpr hfirst⟩

/-! ## Whole searches -/

/-- Budgets only truncate. Two searches from the same state with the same arguments differ in their
budgets. Wherever the one with the smaller budgets comes, the other comes by the same probes. If the
other returns then so does the one with the smaller budgets, and its probes, with their steps and
their evaluations, are first of those of the other. What it returns with an accepted step the other
returns, after the same evaluations. -/
theorem search_shortened (hr : short.Shortens long) :
    (∀ qs s session', short.UnderWay f direction current next first samples session qs s session' →
      long.UnderWay f direction current next first samples session qs s session') ∧
    (∀ found' session', long.search f direction current next first samples session =
        .ok found' session' →
      ∃ found session₁ ps qs,
        short.search f direction current next first samples session = .ok found session₁ ∧
        short.Leaves f direction current next first samples session ps found session₁ ∧
        long.Leaves f direction current next first samples session qs found' session' ∧
        ps <+: qs) ∧
    ∀ found session' a, short.search f direction current next first samples session =
        .ok found session' →
      found.phase = .accepted a →
      long.search f direction current next first samples session = .ok found session' := by
  refine ⟨fun qs s session' h => Comes.longer h hr, ?_, ?_⟩
  · intro found' session' h
    obtain ⟨hdim, middle, hdrive, rfl⟩ := search_ok_iff.mp h
    obtain ⟨qs, hqs, hstop⟩ := drive_comes hdrive
    obtain ⟨ps, found, session₁, hps, hend, hfirst⟩ := hqs.shorter hr hstop
    exact ⟨found, _, ps, qs, UnderWay.search_eq hps hend hdim, (hps.driven hend).leaves,
      (hqs.driven hstop).leaves, hfirst⟩
  · intro found session' a h haccepted
    obtain ⟨hdim, middle, hdrive, rfl⟩ := search_ok_iff.mp h
    obtain ⟨qs, hqs, -⟩ := drive_comes hdrive
    have hstop : found.phase.pending long = none := by
      rw [haccepted]
      rfl
    exact UnderWay.search_eq (hqs.longer hr) hstop hdim

end StrongWolfe

/-- The parabola with its lowest point at `3`, which counts its calls. -/
def shifted : Objective Nat Float Float := fun x _ => do
  modify (· + 1)
  return ((x - 3) * (x - 3), 2 * (x - 3))

/-- The point from which it falls to the right. -/
def shiftedStart : Point Float Float where
  x := 0
  value := 9
  gradient := -6

/-- The standard search with one doubling and one bisection. -/
def oneBisection : StrongWolfe Float :=
  { StrongWolfe.standard with doublings := 1, bisections := 1 }

/-- The standard search without any bisections. -/
def noBisections : StrongWolfe Float :=
  { StrongWolfe.standard with bisections := 0 }

/-- The standard search from there accepts its first bisection. With no budgets beyond that it does
the same, and without any bisections it makes the first of its two trials. -/
theorem search_shortened_on_shifted :
    ∃ found session' cut session₁,
      StrongWolfe.standard.search shifted 6 shiftedStart shiftedStart 1 none { state := 0 } =
        .ok found session' ∧
      oneBisection.search shifted 6 shiftedStart shiftedStart 1 none { state := 0 } =
        .ok found session' ∧
      noBisections.search shifted 6 shiftedStart shiftedStart 1 none { state := 0 } =
        .ok cut session₁ ∧
      session'.state = 2 ∧ session₁.evaluations.toList <+: session'.evaluations.toList := by
  have hrun : Succeeds (fun found session' => found.phase.closing.isNone && session'.state == 2)
      (oneBisection.search shifted 6 shiftedStart shiftedStart 1 none { state := 0 }) = true := by
    decide +kernel
  obtain ⟨found, session', h, htest⟩ := Succeeds.exists_ok hrun
  obtain ⟨hclosing, hcalls⟩ : found.phase.closing = none ∧ session'.state = 2 := by
    simpa using htest
  obtain ⟨a, ha⟩ := Phase.closing_eq_none.mp hclosing
  have hone : oneBisection.Shortens .standard := ⟨rfl, rfl, by decide, by decide⟩
  have hlong := (StrongWolfe.search_shortened hone).2.2 found session' a h ha
  have hnone : noBisections.Shortens .standard := ⟨rfl, rfl, by decide, by decide⟩
  obtain ⟨cut, session₁, ps, qs, hshort, hps, hqs, hfirst⟩ :=
    (StrongWolfe.search_shortened hnone).2.1 found session' hlong
  refine ⟨found, session', cut, session₁, hlong, h, hshort, hcalls, ?_⟩
  rw [hps.calls.evaluations_eq, hqs.calls.evaluations_eq]
  exact (List.prefix_append_right_inj _).mpr (hfirst.map _)

end Descent
