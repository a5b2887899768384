import Descent.Proofs.Loops
import Descent.Proofs.Minimizer.Decrease
import Descent.Proofs.Minimizer.Recurrence

/-!
# The step zero is that of a failed search

In exact arithmetic, for an objective of which nothing is known. A run may stop in the middle of a
search, at a failed check: what is said here holds of all searches that a run begins and of all
steps that they come to try.

* `Phase.Within`: a phase has not used more than its budgets. Every trial preserves that.
* `Phase.Scaled.step_eq_zero_iff`: the step in which a search ends is zero if and only if it could
  make no trial or has bisected in vain.
* `StrongWolfe.Tries`: the steps that a search comes to try.
* `StrongWolfe.Signals`: the step of a search tells whether it has failed. Every search that begins
  with a positive step does so (`StrongWolfe.signals`).
* `SteepestDescent.SearchesFrom`, `PolakRibiere.SearchesFrom`: the states from which a run begins a
  search.
* `zero_means_failure`: the statement for both methods. In the square, a run comes to a search
  behind one that has failed (`PolakRibiere.unbisected_searches_again`), and another to a search
  behind a move (`SteepestDescent.quartered_searches_again`).
-/

namespace Descent

/-! ## Phases -/

namespace Phase

section Budgets

variable {S : Type} [Scalar S] {rule : StrongWolfe S} {start : Slice S} {first : S} {t : Trial S}
  {ts : List (Trial S)} {phase phase' : Phase S}

/-- The budgets are not overdrawn. A search that has left its first phase could make a trial. -/
def Within (rule : StrongWolfe S) : Phase S → Prop
  | bracketing count _ _ _ => count ≤ rule.doublings
  | zooming count _ => 0 < rule.doublings ∧ count ≤ rule.bisections
  | accepted _ => 0 < rule.doublings

theorem Within.move (h : phase.Within rule) (hm : Move rule start t phase phase') :
    phase'.Within rule := by
  cases hm with
  | overshoot budget _ => exact ⟨Nat.zero_lt_of_lt budget, Nat.zero_le _⟩
  | acceptDoubled budget _ _ => exact Nat.zero_lt_of_lt budget
  | turn budget _ _ _ _ => exact ⟨Nat.zero_lt_of_lt budget, Nat.zero_le _⟩
  | double budget _ _ => exact budget
  | shrink budget _ _ => exact ⟨h.1, budget⟩
  | acceptBisected _ _ _ _ => exact h.1
  | lower budget _ _ _ _ _ => exact ⟨h.1, budget⟩
  | flip budget _ _ _ _ _ => exact ⟨h.1, budget⟩

theorem Reaches.within (h : Reaches rule start (initial start first) ts phase) :
    phase.Within rule :=
  h.invariant (P := fun _ phase => phase.Within rule) (Nat.zero_le _)
    fun _ _ _ _ hp hm => hp.move hm

end Budgets

variable {rule : StrongWolfe ℝ} {first : ℝ} {phase : Phase ℝ}

theorem stepBefore_eq_zero_iff (hf : 0 < first) {k : ℕ} : stepBefore first k = 0 ↔ k = 0 := by
  cases k with
  | zero => exact iff_of_true rfl rfl
  | succ k =>
    have hpos : 0 < 2 ^ k * first := by positivity
    exact iff_of_false hpos.ne' k.succ_ne_zero

/-- A search ends in the step zero if it could make no trial, or if it has found a bracket and used
up its bisections, and not otherwise. -/
theorem Scaled.step_eq_zero_iff (hf : 0 < first) (h : phase.Scaled rule first)
    (hw : phase.Within rule) (hstop : phase.pending rule = none) :
    phase.step = 0 ↔ rule.doublings = 0 ∨ ∃ b, phase = zooming rule.bisections b := by
  cases phase with
  | bracketing count next last lastValue =>
    obtain ⟨-, rfl⟩ := h
    have hcount : count = rule.doublings := hw.antisymm (pending_bracketing_eq_none.mp hstop)
    rw [← hcount]
    exact (stepBefore_eq_zero_iff hf).trans ⟨.inl, fun h => h.resolve_right (by simp)⟩
  | zooming count b =>
    have hcount : count = rule.bisections := hw.2.antisymm (pending_zooming_eq_none.mp hstop)
    exact iff_of_true rfl (.inr ⟨b, by rw [hcount]⟩)
  | accepted step =>
    have hpos : 0 < step := h
    have hbudget : 0 < rule.doublings := hw
    exact iff_of_false hpos.ne' (not_or.mpr ⟨hbudget.ne', by simp⟩)

end Phase

/-! ## Searches -/

namespace StrongWolfe

variable {σ V S : Type} [Scalar S] [Space V S]

/-- A search under way comes to try the step `a`. The trials before it have been made; the trial of
`a` itself may fail. -/
inductive Tries (rule : StrongWolfe S) (f : Objective σ V S) (direction : V) (current : Point V S)
    (start : Slice S) : Search V S → Session σ V S → S → Prop where
  | now {s : Search V S} {session : Session σ V S} {a : S}
      (pending : s.phase.pending rule = some a) :
      Tries rule f direction current start s session a
  | later {s : Search V S} {session session₁ : Session σ V S} {a b : S} {t : Trial S}
      {next : Point V S} (pending : s.phase.pending rule = some b)
      (made : probe f direction current b s.next.gradient session = .ok (t, next) session₁)
      (rest : Tries rule f direction current start
        { phase := s.phase.advance rule start t, next, samples := s.samples.record next.x }
        session₁ a) :
      Tries rule f direction current start s session a

/-- A step that a search comes to try is pending in a phase that it reaches. -/
theorem Tries.reaches {rule : StrongWolfe S} {f : Objective σ V S} {direction : V}
    {current : Point V S} {start : Slice S} {s : Search V S} {session : Session σ V S} {a : S}
    (h : Tries rule f direction current start s session a) :
    ∃ ts phase, Phase.Reaches rule start s.phase ts phase ∧ phase.pending rule = some a := by
  induction h with
  | now pending => exact ⟨[], _, .refl, pending⟩
  | later pending made _ ih =>
    obtain ⟨q, rfl, -, rfl, -⟩ := probe_ok made
    obtain ⟨ts, phase, hreaches, hpending⟩ := ih
    exact ⟨_, phase, .step pending hreaches, hpending⟩

end StrongWolfe

variable {σ V : Type} [Space V ℝ]

/-- A search that begins with a positive step, tries positive steps only, and whose own step is zero
if and only if it has failed: it could make no trial, or it has found a bracket and used up its
bisections without accepting a step. -/
structure StrongWolfe.Signals (rule : StrongWolfe ℝ) (f : Objective σ V ℝ) (direction : V)
    (current next : Point V ℝ) (first : ℝ) (samples : Recorder V) (session : Session σ V ℝ) :
    Prop where
  first_pos : 0 < first
  trial_pos : ∀ a, rule.Tries f direction current (current.slice direction)
    { phase := .initial (current.slice direction) first, next, samples } session a → 0 < a
  step_nonneg : ∀ found session',
    rule.search f direction current next first samples session = .ok found session' →
      0 ≤ found.step
  step_eq_zero_iff : ∀ found session',
    rule.search f direction current next first samples session = .ok found session' →
      (found.step = 0 ↔ rule.doublings = 0 ∨ ∃ b, found.phase = .zooming rule.bisections b)
  step_pos_of_accepted : ∀ found session' a,
    rule.search f direction current next first samples session = .ok found session' →
      found.phase = .accepted a → 0 < found.step

theorem StrongWolfe.signals (rule : StrongWolfe ℝ) (f : Objective σ V ℝ) (direction : V)
    (current next : Point V ℝ) {first : ℝ} (hf : 0 < first) (samples : Recorder V)
    (session : Session σ V ℝ) :
    rule.Signals f direction current next first samples session where
  first_pos := hf
  trial_pos a h := by
    obtain ⟨ts, phase, hreaches, hpending⟩ := h.reaches
    exact (hreaches.scaled hf).pending_pos hf hpending
  step_nonneg found session' h := by
    obtain ⟨qs, middle, -, hd, -⟩ := search_ok h
    exact (hd.reaches.scaled hf).step_nonneg hf
  step_eq_zero_iff found session' h := by
    obtain ⟨qs, middle, -, hd, -⟩ := search_ok h
    exact (hd.reaches.scaled hf).step_eq_zero_iff hf hd.reaches.within hd.stopped
  step_pos_of_accepted found session' a h ha := by
    obtain ⟨qs, middle, -, hd, -⟩ := search_ok h
    have hscaled := hd.reaches.scaled hf
    rw [ha] at hscaled
    have hstep : found.step = a := congrArg Phase.step ha
    rw [hstep]
    exact hscaled

/-- A search that has not failed has found a positive step. -/
theorem StrongWolfe.Signals.step_pos {rule : StrongWolfe ℝ} {f : Objective σ V ℝ} {direction : V}
    {current next : Point V ℝ} {first : ℝ} {samples : Recorder V} {session session' : Session σ V ℝ}
    {found : Search V ℝ} (h : rule.Signals f direction current next first samples session)
    (hfound : rule.search f direction current next first samples session = .ok found session')
    (hstep : ¬(found.step == 0) = true) : 0 < found.step :=
  (h.step_nonneg found session' hfound).lt_of_ne' (mt beq_iff_eq.mpr hstep)

/-! ## Runs -/

variable {f : Objective σ V ℝ} {x₀ : V} {history : History V ℝ} {session before : Session σ V ℝ}

namespace SteepestDescent

variable {m : SteepestDescent ℝ} {s s' : State V ℝ} {session' : Session σ V ℝ}

/-- A run from `x₀` comes to the state `s` and begins a search there, in the session `before`. -/
def SearchesFrom (m : SteepestDescent ℝ) (f : Objective σ V ℝ) (x₀ : V) (history : History V ℝ)
    (session : Session σ V ℝ) (s : State V ℝ) (before : Session σ V ℝ) : Prop :=
  ∃ p session₁, evaluateFirst f x₀ session = .ok p session₁ ∧
    Visits (fun s => m.stopping.Converged s.current) (fun s => (s.lastStep == 0) = true) (m.step f)
      (m.stopping.budget 100 x₀) (.initial m x₀ p history) session₁ s before

/-- After a search that has not failed, the next one begins with its step. -/
theorem step_lastStep_pos (hs : 0 < s.lastStep) (h : m.step f s session = .ok s' session')
    (hgo : ¬(s'.lastStep == 0) = true) : 0 < s'.lastStep := by
  obtain ⟨found, after, log, hmade, rfl, rfl⟩ := step_ok h
  have hlast :
      (if found.step == 0 then s.count found else s.moved found).lastStep = found.step := by
    split <;> rfl
  rw [hlast] at hgo ⊢
  exact (m.lineSearch.signals f _ _ _ hs _ _).step_pos hmade hgo

theorem SearchesFrom.lastStep_pos (h : m.SearchesFrom f x₀ history session s before)
    (hfirst : 0 < m.firstStep) : 0 < s.lastStep := by
  obtain ⟨p, session₁, -, hvisits⟩ := h
  exact hvisits.invariant (P := fun s => 0 < s.lastStep) hfirst
    fun _ _ _ _ hs hstep hgo => step_lastStep_pos hs hstep hgo

end SteepestDescent

namespace PolakRibiere

variable {m : PolakRibiere ℝ} {s s' : State V ℝ} {session' : Session σ V ℝ}

/-- A run from `x₀` comes to the state `s` and begins a search there, in the session `before`. -/
def SearchesFrom (m : PolakRibiere ℝ) (f : Objective σ V ℝ) (x₀ : V) (history : History V ℝ)
    (session : Session σ V ℝ) (s : State V ℝ) (before : Session σ V ℝ) : Prop :=
  ∃ p session₁, evaluateFirst f x₀ session = .ok p session₁ ∧
    Visits (fun s => m.stopping.Converged s.current) (fun _ => False) (m.step f)
      (m.stopping.budget 20 x₀) (.initial m p history) session₁ s before

/-- The next search begins with the step of the last one, or with the first step if that has
failed. -/
theorem step_nextStep_pos (hfirst : 0 < m.firstStep) (hs : 0 < s.nextStep)
    (h : m.step f s session = .ok s' session') : 0 < s'.nextStep := by
  obtain ⟨found, after, log, hmade, rfl, ⟨-, rfl⟩ | ⟨hstep, direction, -, rfl⟩⟩ := step_ok h
  · exact hfirst
  · exact (m.lineSearch.signals f _ _ _ hs _ _).step_pos hmade (ne_true_of_eq_false hstep)

theorem SearchesFrom.nextStep_pos (h : m.SearchesFrom f x₀ history session s before)
    (hfirst : 0 < m.firstStep) : 0 < s.nextStep := by
  obtain ⟨p, session₁, -, hvisits⟩ := h
  exact hvisits.invariant (P := fun s => 0 < s.nextStep) hfirst
    fun _ _ _ _ hs hstep _ => step_nextStep_pos hfirst hs hstep

end PolakRibiere

/-- In a run whose first step is positive, all searches begin with a positive step, whether they
come after a move, a failed search or none, and whether or not the run returns. They try positive
steps only, the steps that they find are not negative, and zero is found by exactly those that have
failed: by all of them if no trial may be made, and else by those that have found a bracket and used
up its bisections. -/
theorem zero_means_failure (f : Objective σ V ℝ) (x₀ : V) (history : History V ℝ)
    (session : Session σ V ℝ) :
    (∀ m : PolakRibiere ℝ, 0 < m.firstStep →
      ∀ s before, m.SearchesFrom f x₀ history session s before →
        m.lineSearch.Signals f s.direction s.current s.spare s.nextStep none before) ∧
    ∀ m : SteepestDescent ℝ, 0 < m.firstStep →
      ∀ s before, m.SearchesFrom f x₀ history session s before →
        m.lineSearch.Signals f (Space.scale s.current.gradient (-1)) s.current s.spare s.lastStep
          (s.history.map fun _ => s.unlisted) before :=
  ⟨fun m hfirst _ _ h => m.lineSearch.signals f _ _ _ (h.nextStep_pos hfirst) _ _,
    fun m hfirst _ _ h => m.lineSearch.signals f _ _ _ (h.lastStep_pos hfirst) _ _⟩

/-! ## Searches behind others -/

/-- Three iterations at most, whose searches may double a step, but not bisect. -/
noncomputable def PolakRibiere.unbisected : PolakRibiere ℝ where
  lineSearch := { coarse with bisections := 0 }
  firstStep := 1
  stopping := { tolerance := 0, limit := some 3 }

/-- From the height `1` in the square the first step leads to the same height on the other side, and
the search fails. The next one begins at the same point. -/
theorem PolakRibiere.unbisected_searches_again :
    ∃ s before, unbisected.SearchesFrom square 1 none { state := 0 } s before ∧
      s.iterations = 1 ∧ s.lastStep = 0 ∧ s.current = squareField.point 1 := by
  obtain ⟨session₁, hfirst⟩ : ∃ session₁, evaluateFirst square 1 { state := 0 } =
      .ok (squareField.point 1) session₁ := ⟨_, rfl⟩
  have hlarge : ¬unbisected.stopping.Converged (squareField.point 1) := by
    show ¬|(1 : ℝ) + 1| ≤ 0
    norm_num
  obtain ⟨found, after, hmade, hphase⟩ : ∃ found after,
      ((State.initial unbisected (squareField.point 1) none).call session₁ found after).Made
        unbisected.lineSearch square ∧
      found.phase = (unbisected.lineSearch.explore squareField 1 ((1 + 1) * -1) 1).2 :=
    StrongWolfe.search_explored square_computes (fun _ _ => rfl) (by rfl) _ none session₁
  have hzero : (found.step == 0) = true := by
    rw [Search.step, hphase, StrongWolfe.explore_of_overshoot (Nat.succ_pos 3) rfl ?_]
    · exact beq_self_eq_true (0 : ℝ)
    · rw [sufficientDecrease_iff]
      norm_num [unbisected, coarse, squareField, ScalarField.point, ScalarField.trial, Point.slice]
  obtain ⟨log, hstep⟩ := step_run_of_failed hmade hzero
  exact ⟨_, _, ⟨_, session₁, hfirst, .later hlarge hstep id (.here hlarge)⟩, rfl,
    beq_iff_eq.mp hzero, rfl⟩

/-- Three iterations at most, with searches from a quarter on. -/
noncomputable def SteepestDescent.quartered : SteepestDescent ℝ where
  lineSearch := coarse
  firstStep := 0.25
  stopping := { tolerance := 0, limit := some 3 }

/-- From the height `1` in the square the first search moves halfway to the bottom. -/
theorem SteepestDescent.quartered_searches_again :
    ∃ s before, quartered.SearchesFrom square 1 none { state := 0 } s before ∧
      s.iterations = 1 ∧ s.lastStep = 0.25 ∧ s.current = squareField.point 0.5 := by
  obtain ⟨session₁, hfirst⟩ : ∃ session₁, evaluateFirst square 1 { state := 0 } =
      .ok (squareField.point 1) session₁ := ⟨_, rfl⟩
  have hlarge : ∀ x : ℝ, 0 < x → ¬quartered.stopping.Converged (squareField.point x) := by
    intro x hx
    show ¬|x + x| ≤ 0
    rw [not_le, abs_pos]
    linarith
  obtain ⟨found, after, hmade, hphase⟩ : ∃ found after,
      ((State.initial quartered 1 (squareField.point 1) none).call session₁ found after).Made
        quartered.lineSearch square ∧
      found.phase = (quartered.lineSearch.explore squareField 1 ((1 + 1) * -1) 0.25).2 :=
    StrongWolfe.search_explored square_computes (fun _ _ => rfl) (by rfl) _ none session₁
  have hquarter : found.step = 0.25 := by
    rw [Search.step, hphase, StrongWolfe.explore_of_accepts (Nat.succ_pos 3) ?_ ?_]
    · rfl
    · rw [sufficientDecrease_iff]
      norm_num [quartered, coarse, squareField, ScalarField.point, ScalarField.trial, Point.slice]
    · rw [flatEnough_iff]
      norm_num [quartered, coarse, squareField, ScalarField.point, ScalarField.trial, Point.slice]
  have hne : (found.step == 0) = false := by
    rw [hquarter, beq_eq_false_iff_ne]
    norm_num
  have hnext : found.next = squareField.point 0.5 := by
    refine (hmade.next_eq square_computes hne).trans (congrArg squareField.point ?_)
    show 1 + (1 + 1) * -1 * found.step = 0.5
    rw [hquarter]
    norm_num
  obtain ⟨log, hstep⟩ := step_run hmade
  rw [if_neg (ne_true_of_eq_false hne)] at hstep
  have hgo : ¬((State.moved (.initial quartered 1 (squareField.point 1) none) found).lastStep == 0)
      = true := ne_true_of_eq_false hne
  have hlarge' : ¬quartered.stopping.Converged
      (State.moved (.initial quartered 1 (squareField.point 1) none) found).current := by
    show ¬quartered.stopping.Converged found.next
    rw [hnext]
    exact hlarge 0.5 (by norm_num)
  exact ⟨_, _, ⟨_, session₁, hfirst, .later (hlarge 1 one_pos) hstep hgo (.here hlarge')⟩, rfl,
    hquarter, hnext⟩

/-- The second searches of two runs in the square, one behind a failed search and one behind a move.
They may make trials, so that zero can only be the end of their bisections. -/
theorem later_searches_signal_in_square :
    (∃ s before found session',
      PolakRibiere.unbisected.SearchesFrom square 1 none { state := 0 } s before ∧
      s.iterations = 1 ∧ s.lastStep = 0 ∧ s.current = squareField.point 1 ∧
      PolakRibiere.unbisected.lineSearch.search square s.direction s.current s.spare s.nextStep none
        before = .ok found session' ∧
      0 ≤ found.step ∧ (found.step = 0 ↔ ∃ b, found.phase = .zooming 0 b)) ∧
    ∃ s before found session',
      SteepestDescent.quartered.SearchesFrom square 1 none { state := 0 } s before ∧
      s.iterations = 1 ∧ s.lastStep = 0.25 ∧ s.current = squareField.point 0.5 ∧
      coarse.search square (Space.scale s.current.gradient (-1)) s.current s.spare s.lastStep
        (s.history.map fun _ => s.unlisted) before = .ok found session' ∧
      0 ≤ found.step ∧ (found.step = 0 ↔ ∃ b, found.phase = .zooming coarse.bisections b) := by
  obtain ⟨hconjugate, hdescent⟩ := zero_means_failure square (1 : ℝ) none { state := 0 }
  have hanswers : square.Answers 1 fun _ => True := fun _ _ _ _ _ => ⟨rfl, trivial⟩
  have hbudget : ¬coarse.doublings = 0 := by decide
  constructor
  · obtain ⟨s, before, hs, hcount, hlast, hpoint⟩ := PolakRibiere.unbisected_searches_again
    have hsignals := hconjugate PolakRibiere.unbisected one_pos s before hs
    obtain ⟨found, session', hrun⟩ := StrongWolfe.search_total hanswers rfl rfl
      PolakRibiere.unbisected.lineSearch rfl s.spare trivial s.nextStep none before
    refine ⟨s, before, found, session', hs, hcount, hlast, hpoint, hrun,
      hsignals.step_nonneg found session' hrun, ?_⟩
    exact (hsignals.step_eq_zero_iff found session' hrun).trans (or_iff_right hbudget)
  · obtain ⟨s, before, hs, hcount, hlast, hpoint⟩ :=
      SteepestDescent.quartered_searches_again
    have hfirst : 0 < SteepestDescent.quartered.firstStep := by norm_num [SteepestDescent.quartered]
    have hsignals := hdescent SteepestDescent.quartered hfirst s before hs
    obtain ⟨found, session', hrun⟩ := StrongWolfe.search_total hanswers rfl rfl coarse rfl s.spare
      trivial s.lastStep (s.history.map fun _ => s.unlisted) before
    refine ⟨s, before, found, session', hs, hcount, hlast, hpoint, hrun,
      hsignals.step_nonneg found session' hrun, ?_⟩
    exact (hsignals.step_eq_zero_iff found session' hrun).trans (or_iff_right hbudget)

end Descent
