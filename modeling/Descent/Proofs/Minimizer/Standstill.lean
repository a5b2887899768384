import Descent.Proofs.Minimizer.Histories
import Descent.Proofs.Minimizer.Recurrence

/-!
# Conjugate gradients that stand still

For any scalars, and for an objective whose values and gradients depend on the point alone. A search
that fails makes the recurrence begin anew where it is. If the search from a new beginning fails as
well, there is nothing left that could change.

* `PolakRibiere.Stage.next_fresh`: a new beginning from which the search fails is a fixed point of
  the recurrence.
* `PolakRibiere.stages_of_failures`: after two failures one behind the other it stays there.
* `SearchCall.Repeats`: a search does in vain what another one has done.
* `PolakRibiere.stuck_after_two_failures`: the statement for runs.
-/

namespace Descent

variable {σ V S : Type}

/-- The search `d` starts from the point from which `c` has started, calls the objective at the same
points with the same answers, and fails. -/
structure SearchCall.Repeats [Scalar S] (c d : SearchCall σ V S) : Prop where
  current_eq : d.current = c.current
  points_eq : d.evaluations.map (·.point) = c.evaluations.map (·.point)
  failed : (d.found.step == 0) = true

namespace PolakRibiere

variable [Scalar S] [Space V S] {m : PolakRibiere S} {F : ScalarField V S}

/-! ## The sequence -/

namespace Stage

theorem next_of_failed {z : Stage V S} (h : (z.step m F == 0) = true) :
    z.next m F = fresh m F z.x :=
  if_pos h

/-- A new beginning from which the search fails comes again and again. -/
theorem next_fresh {x : V} (h : ((fresh m F x).step m F == 0) = true) :
    (fresh m F x).next m F = fresh m F x :=
  next_of_failed h

end Stage

/-- After a failure and another one right behind it, all stages are the new beginning between them.
-/
theorem stages_of_failures {x₀ : V} {k j : Nat} (h : ((m.stages F x₀ k).step m F == 0) = true)
    (h' : ((m.stages F x₀ (k + 1)).step m F == 0) = true) (hj : k + 1 ≤ j) :
    m.stages F x₀ j = .fresh m F (m.stages F x₀ k).x := by
  have hfresh : m.stages F x₀ (k + 1) = .fresh m F (m.stages F x₀ k).x := Stage.next_of_failed h
  induction j, hj using Nat.le_induction with
  | base => exact hfresh
  | succ j _ ih =>
    rw [hfresh] at h'
    rw [stages, ih, Stage.next_fresh h']

/-! ## Whole runs -/

variable {f : Objective σ V S} {x₀ : V} {history : History V S} {s s' : State V S}
  {session session' : Session σ V S} {cs : List (SearchCall σ V S)} {c c' d : SearchCall σ V S}
  {n k i j : Nat}

/-- Two searches from the same stage find the same. -/
theorem CallIsAt.repeats (hc : CallIsAt m F x₀ i c) (hd : CallIsAt m F x₀ j d)
    (hstage : m.stages F x₀ j = m.stages F x₀ i) (hzero : (c.found.step == 0) = true) :
    c.Repeats d where
  current_eq := by
    rw [hd.current_eq, hc.current_eq, pointAt, pointAt, hstage]
  points_eq := by
    rw [hd.evaluations_eq, hc.evaluations_eq, hstage]
  failed := by
    have hphase : d.found.phase = c.found.phase := by
      rw [hd.phase_eq, hc.phase_eq, hstage]
    rw [Search.step, hphase]
    exact hzero

/-- A loop in which two searches one behind the other fail stands still from then on. -/
theorem Iterates.stuck (h : Iterates m f n s session cs s' session')
    (hf : f.Computes F.value F.gradient) (hs : s.IsAt m F x₀ history i) (hc : cs[k]? = some c)
    (hc' : cs[k + 1]? = some c') (hzero : (c.found.step == 0) = true)
    (hzero' : (c'.found.step == 0) = true) :
    c'.current = c.current ∧ s'.current = c'.current ∧ ¬m.stopping.Converged s'.current ∧
      cs.length = n ∧
      ∀ (j : Nat) (d : SearchCall σ V S), k + 1 ≤ j → cs[j]? = some d → c'.Repeats d := by
  have hat := h.call_isAt hf hs hc
  have hat' := h.call_isAt hf hs hc'
  have hstages : ∀ {j}, k + 1 ≤ j →
      m.stages F x₀ (i + j) = .fresh m F (m.stages F x₀ (i + k)).x := by
    intro j hj
    refine stages_of_failures ?_ ?_ (Nat.add_le_add_left hj i)
    · rw [Stage.step, ← hat.phase_eq]
      exact hzero
    · rw [Stage.step, Nat.add_assoc, ← hat'.phase_eq]
      exact hzero'
  have hstay : ∀ {j}, k + 1 ≤ j → m.pointAt F x₀ (i + j) = c.current := by
    intro j hj
    rw [pointAt, hstages hj, hat.current_eq]
    rfl
  have hcurrent : c'.current = c.current := hat'.current_eq.trans (hstay le_rfl)
  have hend : s'.current = c'.current := by
    have hlt : k + 1 < cs.length := (List.getElem?_eq_some_iff.mp hc').1
    rw [(h.follow hf hs).isAt.current_eq, hcurrent, hstay hlt.le]
  have hlarge : ¬m.stopping.Converged s'.current := by
    rw [hend]
    exact h.large c' (List.mem_of_getElem? hc')
  refine ⟨hcurrent, hend, hlarge, h.ending.resolve_left hlarge, fun j d hj hd => ?_⟩
  exact hat'.repeats (h.call_isAt hf hs hd) ((hstages hj).trans (hstages le_rfl).symm) hzero'

/-- Once two searches one behind the other have failed, a run is stuck for good. It returns; its
record of a search shows where that has started and which step it has found. The second of the two
searches has started where the first one has. All searches from then on do the same as the second
one and fail as it did, and the run ends where they start, not converged, with all its iterations
used up. -/
theorem stuck_after_two_failures [SizedSpace V S] (m : PolakRibiere S)
    (hf : f.Computes F.value F.gradient)
    (hkeep : ∀ x, Space.dimension x = Space.dimension x₀ →
      Space.dimension (F.gradient x) = Space.dimension x₀)
    (history : History V S) (session : Session σ V S) :
    ∃ minimum session' first cs s,
      m.run f x₀ history session = .ok (minimum, history.recordAll (records cs s)) session' ∧
      m.Unrolls f x₀ history session first cs s session' ∧ cs.length = minimum.iterations ∧
      ∀ (k : Nat) (c c' : SearchCall σ V S), cs[k]? = some c → cs[k + 1]? = some c' →
        (c.found.step == 0) = true → (c'.found.step == 0) = true →
        c'.current = c.current ∧
        (∀ (j : Nat) (d : SearchCall σ V S), k + 1 ≤ j → cs[j]? = some d → c'.Repeats d) ∧
        minimum.point = c'.current ∧ minimum.converged = false ∧
        minimum.iterations = m.stopping.limit.getD (20 * Space.dimension x₀) := by
  obtain ⟨minimum, history', session', hrun⟩ :=
    m.run_total (hf.answers hkeep) rfl trivial history session
  obtain ⟨first, cs, s, hunrolls, rfl, rfl⟩ := run_unrolls hrun
  obtain ⟨before, after, log, hfirst, hiter, -⟩ := hunrolls.loop
  have hcount : s.iterations = cs.length := hunrolls.ends.iterations_eq
  have hhistory : s.history.record s.final = history.recordAll (records cs s) := by
    rw [hiter.history_eq, Recorder.record_recordAll]
    rfl
  have hpoint : first.point = F.point x₀ := by
    rw [hfirst.calls.points hf first List.mem_cons_self, hunrolls.x_eq]
  rw [hpoint] at hiter
  rw [hhistory] at hrun
  refine ⟨_, session', first, cs, s, hrun, hunrolls, hcount.symm, ?_⟩
  intro k c c' hc hc' hzero hzero'
  obtain ⟨hcurrent, hend, hlarge, hspent, hrepeats⟩ :=
    hiter.stuck hf State.initial_isAt hc hc' hzero hzero'
  exact ⟨hcurrent, hrepeats, hend, decide_eq_false hlarge, hcount.trans hspent⟩

/-- The function `x²` with the gradient of `-x²`. -/
def mistaken : ScalarField Float Float where
  value x := x * x
  gradient x := -2 * x

/-- An objective with that mistake, which counts its calls. -/
def countedMistaken : Objective Nat Float Float := fun x _ => do
  modify (· + 1)
  return (mistaken.value x, mistaken.gradient x)

/-- With it all directions go uphill. From `1` the first two searches fail, and the third one
repeats the second. -/
theorem stuck_on_mistaken :
    ∃ minimum history' session' first c₀ c₁ c₂ s,
      shortConjugate.run countedMistaken 1 (some #[]) { state := 0 } =
        .ok (minimum, history') session' ∧
      shortConjugate.Unrolls countedMistaken 1 (some #[]) { state := 0 } first [c₀, c₁, c₂] s
        session' ∧
      session'.state = 7 ∧ c₁.Repeats c₂ ∧ minimum.point = c₀.current ∧
      minimum.converged = false ∧ minimum.iterations = 3 := by
  have hcomputes : countedMistaken.Computes mistaken.value mistaken.gradient := fun _ _ _ => rfl
  have hkeep : ∀ x, Space.dimension x = Space.dimension (1 : Float) →
      Space.dimension (mistaken.gradient x) = Space.dimension (1 : Float) := fun _ _ => rfl
  obtain ⟨minimum, session', first, cs, s, hrun, hunrolls, hlength, hstuck⟩ :=
    stuck_after_two_failures shortConjugate hcomputes hkeep (some #[]) { state := 0 }
  have htest : Succeeds (fun result session' => result.1.iterations == 3 && session'.state == 7 &&
        (result.2.contents.map fun r => r.step == 0) == #[true, true, true, true])
      (shortConjugate.run countedMistaken 1 (some #[]) { state := 0 }) = true := by
    decide +kernel
  rw [hrun] at htest
  obtain ⟨⟨hcount, hcalls⟩, hsteps⟩ : (minimum.iterations = 3 ∧ session'.state = 7) ∧
      ((Recorder.recordAll (some #[]) (records cs s)).contents.map fun r => r.step == 0) =
        #[true, true, true, true] := by
    simpa [Succeeds] using htest
  rw [hcount] at hlength
  obtain ⟨c₀, c₁, c₂, rfl⟩ := List.length_eq_three.mp hlength
  have hsteps' := congrArg Array.toList hsteps
  rw [Array.toList_map, Recorder.toList_contents_recordAll] at hsteps'
  obtain ⟨hzero₀, hzero₁, -, -⟩ : (c₀.found.step == 0) = true ∧ (c₁.found.step == 0) = true ∧
      (c₂.found.step == 0) = true ∧ (s.final.step == 0) = true := by
    simpa [records, record] using hsteps'
  obtain ⟨hcurrent, hrepeats, hend, hopen, -⟩ := hstuck 0 c₀ c₁ rfl rfl hzero₀ hzero₁
  exact ⟨minimum, _, session', first, c₀, c₁, c₂, s, hrun, hunrolls, hcalls,
    hrepeats 2 c₂ (by decide) rfl, hend.trans hcurrent, hopen, hcount⟩

end PolakRibiere

end Descent
