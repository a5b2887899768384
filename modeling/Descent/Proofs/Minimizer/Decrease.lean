import Descent.Proofs.Euclidean
import Descent.Proofs.Minimizer.Totality
import Descent.Proofs.StrongWolfe.Existence

/-!
# Steepest descent goes down

In exact arithmetic, for an objective of which nothing is known: it may have a state, and its
gradients need not be gradients.

* `SearchCall.Made.arrival_le`: a search leads to a point on or below the line of sufficient
  decrease; after a failed one that is the point where it began.
* `Journey.value_le`: what the searches of a run gain adds up over the run.
* `SteepestDescent.Iterates.first_pos`: every search tries a positive step first.
* `SteepestDescent.run_decreases`: how much a whole run goes down, from record to record and in sum.
-/

namespace Descent

open Space (dot scale)

variable {σ V : Type} [Space V ℝ] {rule : StrongWolfe ℝ} {f : Objective σ V ℝ}

/-! ## Searches -/

namespace SearchCall

variable {c : SearchCall σ V ℝ}

omit [Space V ℝ] in
theorem succeeded_iff : c.Succeeded ↔ c.found.step ≠ 0 := beq_eq_false_iff_ne

theorem Made.step_nonneg (h : c.Made rule f) (hfirst : 0 < c.first) : 0 ≤ c.found.step := by
  obtain ⟨qs, middle, hd, -, -⟩ := h.driven
  exact (hd.reaches.scaled hfirst).step_nonneg hfirst

theorem Made.arrival_le (h : c.Made rule f) :
    c.arrival.value ≤
      c.current.value + rule.c₁ * c.found.step * dot c.current.gradient c.direction := by
  by_cases hs : c.Succeeded
  · obtain ⟨q, hq, hdec⟩ := h.accepted hs
    rw [arrival_of_succeeded hs, hq.next_eq, hq.step_eq]
    exact hq.along.value_eq.symm.le.trans (sufficientDecrease_iff.mp hdec)
  · have hzero : c.found.step = 0 := not_not.mp (mt succeeded_iff.mpr hs)
    rw [arrival_of_failed (beq_iff_eq.mpr hzero), hzero]
    simp

end SearchCall

/-! ## Journeys -/

namespace Journey

variable {p p' : Point V ℝ} {session session' : Session σ V ℝ} {cs : List (SearchCall σ V ℝ)}

/-- What the single searches gain adds up. -/
theorem value_le {gain : SearchCall σ V ℝ → ℝ} (h : Journey rule f p session cs p' session')
    (hgain : ∀ c ∈ cs, c.arrival.value ≤ c.current.value - gain c) :
    p'.value ≤ p.value - (cs.map gain).sum := by
  induction h with
  | nil => simp
  | @cons c cs p' session' log made rest ih =>
    obtain ⟨hc, hcs⟩ := List.forall_mem_cons.mp hgain
    have hrest := ih hcs
    rw [List.map_cons, List.sum_cons]
    linarith

/-- If no search goes up, no later point lies above an earlier one. -/
theorem values_pairwise (h : Journey rule f p session cs p' session')
    (hdown : ∀ c ∈ cs, c.arrival.value ≤ c.current.value) :
    ((cs.map (·.current) ++ [p']).map (·.value)).Pairwise (· ≥ ·) := by
  rw [h.path_eq, ← List.isChain_iff_pairwise, List.isChain_map]
  induction h with
  | nil => exact .singleton _
  | cons made rest ih =>
    obtain ⟨hc, hcs⟩ := List.forall_mem_cons.mp hdown
    exact List.isChain_cons_cons.mpr ⟨hc, ih hcs⟩

end Journey

/-- A gradient that is not short enough does not vanish. -/
theorem Stopping.dot_gradient_pos [Coordinatized V ℝ] [ExactSpace V] {stopping : Stopping ℝ}
    {p : Point V ℝ} (htol : 0 ≤ stopping.tolerance) (h : ¬stopping.Converged p) :
    0 < dot p.gradient p.gradient := by
  have hnorm : 0 < Space.norm p.gradient := htol.trans_lt (not_le.mp h)
  rwa [ExactSpace.norm_eq_sqrt, Real.sqrt_pos] at hnorm

/-! ## Steepest descent -/

namespace SteepestDescent

variable {m : SteepestDescent ℝ} {s s' : State V ℝ} {session session' : Session σ V ℝ} {n : ℕ}
  {cs : List (SearchCall σ V ℝ)}

/-- Every search begins with a step that the one before has found, and that is positive. -/
theorem Iterates.first_pos (h : Iterates m f n s session cs s' session') (hs : 0 < s.lastStep) :
    ∀ c ∈ cs, 0 < c.first := by
  induction h with
  | exhausted => simp
  | converged => simp
  | failed => exact List.forall_mem_singleton.mpr hs
  | moved _ made nonzero _ ih =>
    have hnonneg := made.step_nonneg hs
    have hpos := hnonneg.lt_of_ne' (beq_eq_false_iff_ne.mp nonzero)
    exact List.forall_mem_cons.mpr ⟨hs, ih hpos⟩

variable [Coordinatized V ℝ] [ExactSpace V]

/-- A search against the gradient gains at least `c₁ α ⟨g, g⟩`. -/
theorem arrival_le {c : SearchCall σ V ℝ} (h : c.Made rule f)
    (hdirection : c.direction = scale c.current.gradient (-1)) :
    c.arrival.value ≤
      c.current.value - rule.c₁ * (c.found.step * dot c.current.gradient c.current.gradient) := by
  have hle := h.arrival_le
  rw [hdirection, ExactSpace.dot_scale rfl] at hle
  linarith

/-- How far a run goes down that begins with a positive step. Every step that it records is not
negative, and the next point lies at least `c₁ α ⟨g, g⟩` below the recorded one, strictly below it
if a step was taken. In sum that bounds the value that is returned. No later point lies above an
earlier one. -/
theorem run_decreases {x₀ : V} {history history' : History V ℝ} {minimum : Minimum V ℝ}
    (hfirst : 0 < m.firstStep) (hc₁ : 0 ≤ m.lineSearch.c₁)
    (h : m.run f x₀ history session = .ok (minimum, history') session') :
    ∃ (first : Evaluation V ℝ) (rest : List (Evaluation V ℝ)) (records : List (Record V ℝ)),
      first.x = x₀ ∧ session.Extends f (first :: rest) session' ∧
      history' = history.recordAll records ∧ records.length = minimum.iterations ∧
      (minimum.path records).head? = some first.point ∧
      (∀ (k : ℕ) (r : Record V ℝ) (next : Point V ℝ),
        records[k]? = some r → (minimum.path records)[k + 1]? = some next →
          0 ≤ r.step ∧
          next.value ≤ r.point.value -
            m.lineSearch.c₁ * (r.step * dot r.point.gradient r.point.gradient) ∧
          (0 < m.lineSearch.c₁ → 0 ≤ m.stopping.tolerance → r.step ≠ 0 →
            next.value < r.point.value)) ∧
      minimum.point.value ≤ first.value - m.lineSearch.c₁ *
        (records.map fun r => r.step * dot r.point.gradient r.point.gradient).sum ∧
      ((minimum.path records).map (·.value)).Pairwise (· ≥ ·) := by
  obtain ⟨first, cs, s, session₁, session₂, log, hx, -, hext, hiter, rfl, rfl, rfl⟩ := run_ok h
  have hj : Journey m.lineSearch f first.point session₁ cs s.current session₂ := hiter.journey
  have hpath :
      (cs.map record).map (·.point) ++ [s.current] = first.point :: cs.map (·.arrival) := by
    rw [List.map_map]
    exact hj.path_eq
  have hnonneg : ∀ c ∈ cs, 0 ≤ c.found.step := fun c hc =>
    (hj.made c hc).step_nonneg (hiter.first_pos hfirst c hc)
  have hle : ∀ c ∈ cs, c.arrival.value ≤ c.current.value -
      m.lineSearch.c₁ * (c.found.step * dot c.current.gradient c.current.gradient) := fun c hc =>
    arrival_le (hj.made c hc) (hiter.against c hc).1
  refine ⟨first, _, cs.map record, hx, (hext.trans hj.calls).setLog log, hiter.history_eq, ?_, ?_,
    ?_, ?_, ?_⟩
  · rw [List.length_map, hiter.iterations_eq]
    exact (Nat.zero_add _).symm
  · exact congrArg List.head? hpath
  · intro k r next hr hnext
    replace hnext := (congrArg (·[k + 1]?) hpath).symm.trans hnext
    rw [List.getElem?_map] at hr
    obtain ⟨c, hc, rfl⟩ := Option.map_eq_some_iff.mp hr
    rw [List.getElem?_cons_succ, List.getElem?_map, hc] at hnext
    obtain rfl : c.arrival = next := Option.some.inj hnext
    have hmem := List.mem_of_getElem? hc
    refine ⟨hnonneg c hmem, hle c hmem, fun hc₁ htol hstep => (hle c hmem).trans_lt ?_⟩
    have hgradient := Stopping.dot_gradient_pos htol (hiter.against c hmem).2
    have hpos : 0 < c.found.step := (hnonneg c hmem).lt_of_ne' hstep
    exact sub_lt_self _ (by positivity)
  · have hsum := hj.value_le hle
    rw [List.sum_map_mul_left] at hsum
    rw [List.map_map]
    exact hsum
  · have hdown : ∀ c ∈ cs, c.arrival.value ≤ c.current.value := fun c hc => by
      refine (hle c hc).trans (sub_le_self _ ?_)
      exact mul_nonneg hc₁ (mul_nonneg (hnonneg c hc) (ExactSpace.dot_self_nonneg _))
    have hvalues := hj.values_pairwise hdown
    rwa [hj.path_eq, ← hpath] at hvalues

/-- Three iterations at most, with the constants and budgets of `coarse`. -/
noncomputable def threeSearches : SteepestDescent ℝ where
  lineSearch := coarse
  firstStep := 1
  stopping := { tolerance := 0, limit := some 3 }

/-- From the height `1` in the square. -/
theorem run_decreases_in_square :
    ∃ minimum history' session',
      threeSearches.run square 1 (some #[]) { state := 0 } = .ok (minimum, history') session' ∧
      ∃ records : List (Record ℝ ℝ), history' = Recorder.recordAll (some #[]) records ∧
        records.length = minimum.iterations ∧
        minimum.point.value ≤
          1 - 0.1 * (records.map fun r => r.step * (r.point.gradient * r.point.gradient)).sum := by
  have hanswers : square.Answers 1 fun _ => True := fun _ _ _ _ _ => ⟨rfl, trivial⟩
  have hcomputes : square.Computes (fun x => x * x) (fun x => x + x) := fun _ _ _ => rfl
  have hfirst : 0 < threeSearches.firstStep := one_pos
  have hc₁ : 0 ≤ threeSearches.lineSearch.c₁ := by norm_num [threeSearches, coarse]
  have hdimension : Space.dimension (1 : ℝ) = 1 := rfl
  obtain ⟨minimum, history', session', hrun⟩ :=
    threeSearches.run_total hanswers hdimension trivial (some #[]) { state := 0 }
  obtain ⟨first, rest, records, hx, hext, hhistory, hlength, -, -, hsum, -⟩ :=
    run_decreases hfirst hc₁ hrun
  have hvalue : first.value = 1 := by
    rw [(hext.calls.computed hcomputes first List.mem_cons_self).1, hx, one_mul]
  rw [hvalue] at hsum
  exact ⟨minimum, history', session', hrun, records, hhistory, hlength, hsum⟩

end SteepestDescent

end Descent
