import Descent.Proofs.LinearSystem.Orthogonality
import Descent.Proofs.LinearSystem.Termination

/-!
# The iterates have the least energy

In exact arithmetic, for positive definite matrices. The energy `⟨x, A x⟩ / 2 - ⟨b, x⟩` is least at
the solution of `A x = b`, and its slope along a direction is that of the residual, turned around.

* `energy_add`: how the energy changes along a direction. Where the residual is orthogonal to it the
  energy rises (`energy_lt_add`); along the step that the method takes it falls by a known amount
  (`energy_add_step`).
* `directionSpan`: what the directions of some records span.
* `sub_mem_span`, `inner_span`: each iterate differs from the first by what the directions before it
  span, and its residual is orthogonal to all of that.
* `run_optimal`: so every iterate of a run is the only point of least energy that could be reached
  from the first one along the directions so far, and every iteration lowers the energy.
-/

open scoped RealInnerProductSpace

namespace Descent

section Energy

variable {E : Type*} [NormedAddCommGroup E] [InnerProductSpace ℝ E]

/-- The energy `⟨v, T v⟩ / 2 - ⟨b, v⟩`. -/
noncomputable def energy (T : E →ₗ[ℝ] E) (b v : E) : ℝ :=
  ⟪v, T v⟫ / (1 + 1) - ⟪b, v⟫

variable {T : E →ₗ[ℝ] E} {b v d : E}

theorem energy_add (hT : T.IsSymmetric) (b v d : E) :
    energy T b (v + d) = energy T b v - ⟪b - T v, d⟫ + ⟪d, T d⟫ / 2 := by
  have hcross : ⟪d, T v⟫ = ⟪v, T d⟫ := by rw [real_inner_comm, hT]
  have hslope : ⟪T v, d⟫ = ⟪v, T d⟫ := hT v d
  simp only [energy, map_add, inner_add_left, inner_add_right, inner_sub_left, hcross, hslope]
  ring

/-- Away from a point the energy rises along every direction to which the residual is orthogonal. -/
theorem energy_lt_add (hT : T.IsSymmetric) (hpos : ∀ v, v ≠ 0 → 0 < ⟪v, T v⟫)
    (horth : ⟪b - T v, d⟫ = 0) (hd : d ≠ 0) : energy T b v < energy T b (v + d) := by
  have hcurved := hpos d hd
  rw [energy_add hT, horth]
  linarith

/-- The step with which the residual becomes orthogonal to the direction lowers the energy most. -/
theorem energy_add_step (hT : T.IsSymmetric) {ρ : ℝ} (hslope : ⟪b - T v, d⟫ = ρ)
    (hcurved : ⟪d, T d⟫ ≠ 0) :
    energy T b (v + (ρ / ⟪d, T d⟫) • d) = energy T b v - ρ ^ 2 / (2 * ⟪d, T d⟫) := by
  rw [energy_add hT, map_smul, inner_smul_left, inner_smul_right, inner_smul_right, hslope,
    conj_trivial]
  field_simp
  ring

end Energy

/-- The energy `⟨x, A x⟩ / 2 - ⟨b, x⟩` of a vector given by coordinates. -/
noncomputable def DenseMatrix.energy (a : DenseMatrix ℝ) (b x : List ℝ) : ℝ :=
  Space.dot x (a.apply x) / (1 + 1) - Space.dot b x

theorem DenseMatrix.energy_eq {n : ℕ} {a : DenseMatrix ℝ} {b x : List ℝ} (ha : a.Square n)
    (hb : b.length = n) (hx : x.length = n) :
    a.energy b x = Descent.energy (a.toLin n) (toEuclidean n b) (toEuclidean n x) := by
  rw [energy, Descent.energy, dot_eq_inner hx (ha.length_apply x), dot_eq_inner hb hx,
    toEuclidean_apply ha hx]

/-- What the directions of the records span. -/
def directionSpan (n : ℕ) (records : List (SolverRecord ℝ)) :
    Submodule ℝ (EuclideanSpace ℝ (Fin n)) :=
  Submodule.span ℝ {v | ∃ r ∈ records, toEuclidean n r.direction = v}

namespace ConjugateGradient

variable {m : ConjugateGradient ℝ} {n k : ℕ} {a : DenseMatrix ℝ} {b x : List ℝ} {s s' : State ℝ}

/-! ## The heads of the iterations -/

namespace State

/-- The step of an iteration goes along its direction. -/
theorem Fits.x_next (h : s.Fits n) :
    toEuclidean n (s.next a).x =
      toEuclidean n s.x + (s.residualSquared / s.curvature a) • toEuclidean n s.direction :=
  toEuclidean_ray h.x h.direction _

theorem directionSpan_mono {j : ℕ} (hj : j ≤ k) :
    directionSpan n (s.entries a j) ≤ directionSpan n (s.entries a k) := by
  apply Submodule.span_mono
  rintro v ⟨r, hr, rfl⟩
  rw [← take_entries hj] at hr
  exact ⟨r, List.mem_of_mem_take hr, rfl⟩

theorem direction_mem_span : toEuclidean n (s.head a k).direction ∈
    directionSpan n (s.entries a (k + 1)) := by
  apply Submodule.subset_span
  exact ⟨(s.head a k).entry a, by simp [entries_succ], rfl⟩

end State

section Heads

variable (ha : a.Square n) (hb : b.length = n) (hs : s.Tracks a b n)
include ha hb hs

/-- The iterates stay in what the directions span. -/
theorem sub_mem_span (k : ℕ) : toEuclidean n (s.head a k).x - toEuclidean n s.x ∈
    directionSpan n (s.entries a k) := by
  induction k with
  | zero =>
    rw [State.head, sub_self]
    exact Submodule.zero_mem _
  | succ k ih =>
    have hbefore := State.directionSpan_mono (n := n) (s := s) (a := a) k.le_succ ih
    have hstep := Submodule.smul_mem _ ((s.head a k).residualSquared / (s.head a k).curvature a)
      (State.direction_mem_span (n := n) (s := s) (a := a) (k := k))
    rw [State.head, (hs.head ha hb k).fits.x_next, add_sub_right_comm]
    exact Submodule.add_mem _ hbefore hstep

/-- The residual of an iterate is that of the energy there. -/
theorem residual_head (k : ℕ) : toEuclidean n (s.head a k).residual =
    toEuclidean n b - a.toLin n (toEuclidean n (s.head a k).x) := by
  have h := hs.head ha hb k
  rw [h.residual_eq, toEuclidean_residual ha hb h.fits.x]

variable (hpos : (a.toMatrix n).PosDef) (hfirst : s.direction = s.residual)
  (htol : 0 ≤ m.tolerance) (h : Arrives m a s k s')
include hpos hfirst htol h

theorem Arrives.inner_span {j : ℕ} (hj : j ≤ k) {d : EuclideanSpace ℝ (Fin n)}
    (hd : d ∈ directionSpan n (s.entries a j)) :
    ⟪toEuclidean n (s.head a j).residual, d⟫ = 0 := by
  have hsteps := conjugateSteps ha hb hs hfirst
  have hconjugate := hsteps.conjugate_of_le (DenseMatrix.isSymmetric_toLin hpos.isHermitian)
    (h.regular ha hb hs htol) hj
  rw [← Submodule.mem_orthogonal_singleton_iff_inner_right]
  refine Submodule.span_le.mpr ?_ hd
  rintro v ⟨r, hr, rfl⟩
  obtain ⟨i, hi, rfl⟩ := List.mem_map.mp hr
  rw [SetLike.mem_coe, Submodule.mem_orthogonal_singleton_iff_inner_right, real_inner_comm]
  exact hconjugate.directions i (List.mem_range.mp hi)

/-- Among the points that could be reached along the directions so far, only the iterate has the
least energy. -/
theorem Arrives.energy_lt {j : ℕ} (hj : j ≤ k) {y : List ℝ} (hy : y.length = n)
    (hmem : toEuclidean n y - toEuclidean n s.x ∈ directionSpan n (s.entries a j))
    (hne : y ≠ (s.head a j).x) : a.energy b (s.head a j).x < a.energy b y := by
  have hfits := (hs.head ha hb j).fits
  have hd : toEuclidean n y - toEuclidean n (s.head a j).x ∈ directionSpan n (s.entries a j) := by
    rw [← sub_sub_sub_cancel_right _ _ (toEuclidean n s.x)]
    exact Submodule.sub_mem _ hmem (sub_mem_span ha hb hs j)
  have horth := h.inner_span ha hb hs hpos hfirst htol hj hd
  rw [residual_head ha hb hs] at horth
  have hd0 : toEuclidean n y - toEuclidean n (s.head a j).x ≠ 0 := fun h0 =>
    hne (toEuclidean_injective hy hfits.x (sub_eq_zero.mp h0))
  have hlt := energy_lt_add (DenseMatrix.isSymmetric_toLin hpos.isHermitian)
    (fun v hv => DenseMatrix.inner_toLin_pos hpos hv) horth hd0
  rw [add_sub_cancel] at hlt
  rwa [DenseMatrix.energy_eq ha hb hfits.x, DenseMatrix.energy_eq ha hb hy]

/-- What a step that was taken does to the energy. -/
theorem Arrives.energy_step {j : ℕ} (hj : j < k) :
    0 < (s.head a j).curvature a ∧ 0 < (s.head a j).residualSquared ∧
    a.energy b (s.head a (j + 1)).x = a.energy b (s.head a j).x -
      (s.head a j).residualSquared ^ 2 / (2 * (s.head a j).curvature a) := by
  have hT := DenseMatrix.isSymmetric_toLin hpos.isHermitian
  have htracks := hs.head ha hb j
  have hcurved : 0 < (s.head a j).curvature a :=
    curvature_head_pos ha hpos hb htol hs hfirst fun i hi => h.unsolved i (hi.trans_lt hj)
  have hself := (conjugateSteps ha hb hs hfirst).inner_direction_self
    fun i (hi : i < j) => (h.regular ha hb hs htol).curved i (hi.trans hj)
  rw [real_inner_comm, ← htracks.squared_eq_inner, residual_head ha hb hs] at hself
  have hsquared : 0 < (s.head a j).residualSquared := by
    rw [htracks.squared_eq_inner]
    exact real_inner_self_pos.mpr (residual_ne_zero htol htracks (h.unsolved j hj))
  refine ⟨hcurved, hsquared, ?_⟩
  have hstep := energy_add_step hT hself (htracks.fits.curvature_eq_inner ha ▸ hcurved.ne')
  rw [← htracks.fits.curvature_eq_inner ha, ← htracks.fits.x_next] at hstep
  rwa [DenseMatrix.energy_eq ha hb (hs.head ha hb (j + 1)).fits.x,
    DenseMatrix.energy_eq ha hb htracks.fits.x]

end Heads

/-! ## Whole runs -/

theorem State.eq_of_getElem?_entries {j : ℕ} {r : SolverRecord ℝ}
    (hr : (s.entries a k)[j]? = some r) : j < k ∧ r = (s.head a j).entry a := by
  obtain ⟨hj, rfl⟩ := List.getElem?_eq_some_iff.mp hr
  exact ⟨State.length_entries (s := s) (a := a) k ▸ hj, State.getElem_entries hj⟩

/-- The records of a run hold the iterates of its heads, the last record included. -/
theorem State.x_eq_of_getElem? {j : ℕ} {r last : SolverRecord ℝ}
    (hlast : last.x = (s.head a k).x) (hr : (s.entries a k ++ [last])[j]? = some r) :
    j ≤ k ∧ r.x = (s.head a j).x := by
  rcases Nat.lt_or_ge j k with hj | hj
  · rw [List.getElem?_append_left (by rwa [length_entries])] at hr
    obtain ⟨-, rfl⟩ := eq_of_getElem?_entries hr
    exact ⟨hj.le, rfl⟩
  · rw [List.getElem?_append_right (by rwa [length_entries]), length_entries,
      List.getElem?_singleton] at hr
    split at hr
    · obtain rfl : last = r := Option.some.inj hr
      obtain rfl : j = k := by omega
      exact ⟨le_rfl, hlast⟩
    · cases hr

/-- The iterates of a run are optimal, for a positive definite matrix, also where the limit cuts the
run off. The `k`-th one can be reached from the first guess along the first `k` directions, and all
other vectors that can be reached along these have a greater energy. Every iteration takes a
positive step along a direction of positive curvature and lowers the energy by
`⟨r, r⟩² / (2 ⟨p, A p⟩)`. -/
theorem run_optimal (m : ConjugateGradient ℝ) (ha : a.Square n) (hpos : (a.toMatrix n).PosDef)
    (hb : b.length = n) (hx : x.length = n) (htol : 0 ≤ m.tolerance)
    (history : Recorder (SolverRecord ℝ)) (log : Array (SolverEvent ℝ)) :
    ∃ (solution : Solution ℝ) (records : List (SolverRecord ℝ)) (last : SolverRecord ℝ)
      (log' : Array (SolverEvent ℝ)),
      m.run a b x history log = .ok (solution, history.recordAll (records ++ [last])) log' ∧
      records.length = solution.iterations ∧ last.x = solution.x ∧
      (∀ (k : ℕ) (r : SolverRecord ℝ), (records ++ [last])[k]? = some r →
        r.x.length = n ∧
        toEuclidean n r.x - toEuclidean n x ∈ directionSpan n (records.take k) ∧
        ∀ y : List ℝ, y.length = n →
          toEuclidean n y - toEuclidean n x ∈ directionSpan n (records.take k) →
          y ≠ r.x → a.energy b r.x < a.energy b y) ∧
      (∀ (k : ℕ) (r next : SolverRecord ℝ), records[k]? = some r →
        (records ++ [last])[k + 1]? = some next →
          0 < r.step ∧ 0 < Space.dot r.direction (a.apply r.direction) ∧
          a.energy b next.x = a.energy b r.x -
            Space.dot (r.residual a b) (r.residual a b) ^ 2 /
              (2 * Space.dot r.direction (a.apply r.direction)) ∧
          a.energy b next.x < a.energy b r.x) := by
  have hs := State.tracks_initial ha hb hx history
  obtain ⟨steps, s', hend, hrun⟩ := run_run (m := m) ha hb hx history log
  have h := hend.arrives rfl
  rw [h.record_eq] at hrun
  refine ⟨_, _, _, _, hrun, State.length_entries _, rfl, ?_, ?_⟩
  · intro k r hr
    obtain ⟨hk, hrx⟩ := State.x_eq_of_getElem? h.x_eq hr
    rw [hrx, State.take_entries hk]
    exact ⟨(hs.head ha hb k).fits.x, sub_mem_span ha hb hs k, fun y hy hmem hne =>
      h.energy_lt ha hb hs hpos rfl htol hk hy hmem hne⟩
  · intro k r next hr hnext
    obtain ⟨hk, rfl⟩ := State.eq_of_getElem?_entries hr
    obtain ⟨-, hnextx⟩ := State.x_eq_of_getElem? h.x_eq hnext
    obtain ⟨hcurved, hsquared, henergy⟩ := h.energy_step ha hb hs hpos rfl htol hk
    have htracks := hs.head ha hb k
    have hresidual : Space.dot ((((State.initial a b x history).head a k).entry a).residual a b)
        ((((State.initial a b x history).head a k).entry a).residual a b) =
        ((State.initial a b x history).head a k).residualSquared := by
      rw [htracks.residual_entry]
      exact htracks.squared_eq.symm
    rw [hnextx, hresidual]
    refine ⟨div_pos hsquared hcurved, hcurved, henergy, ?_⟩
    rw [henergy]
    exact sub_lt_self _ (by positivity)

/-- A run that is cut off after one iteration, where two would be needed, returns the best point
along its direction. -/
theorem run_optimal_on_ellipse :
    ∃ (solution : Solution ℝ) (records : List (SolverRecord ℝ)) (last : SolverRecord ℝ)
      (log' : Array (SolverEvent ℝ)),
      (ConjugateGradient.mk 0 (some 1)).run ellipse [1, 0] [0, 0] (some #[]) #[] =
        .ok (solution, Recorder.recordAll (some #[]) (records ++ [last])) log' ∧
      records.length = solution.iterations ∧
      (∀ y : List ℝ, y.length = 2 →
        toEuclidean 2 y - toEuclidean 2 [0, 0] ∈ directionSpan 2 records →
        y ≠ solution.x → ellipse.energy [1, 0] solution.x < ellipse.energy [1, 0] y) ∧
      ∀ r ∈ records.head?, 0 < r.step := by
  obtain ⟨solution, records, last, log', hrun, hlength, hlast, hoptimal, hsteps⟩ :=
    run_optimal (n := 2) ⟨0, some 1⟩ (a := ellipse) (b := [1, 0]) (x := [0, 0]) ⟨rfl, rfl⟩
      ellipse_posDef rfl rfl le_rfl (some #[]) #[]
  refine ⟨solution, records, last, log', hrun, hlength, ?_, ?_⟩
  · obtain ⟨-, -, hleast⟩ := hoptimal records.length last (by simp)
    rw [List.take_length, hlast] at hleast
    exact hleast
  · intro r hr
    rw [List.head?_eq_getElem?] at hr
    obtain ⟨next, hnext⟩ : ∃ next, (records ++ [last])[1]? = some next := by
      have hpos := (List.getElem?_eq_some_iff.mp hr).1
      exact ⟨_, List.getElem?_eq_getElem (by simpa using hpos)⟩
    exact (hsteps 0 r next hr hnext).1

end ConjugateGradient

end Descent
