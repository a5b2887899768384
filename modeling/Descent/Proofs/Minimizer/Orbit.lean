import Descent.Proofs.Minimizer.FixedSteps
import Descent.Space.Line
import Mathlib.Order.Bounds.Defs

/-!
# The orbit of a descent at a fixed rate

For any scalars, and for an objective of which nothing is known. A descent at a fixed rate has one
buffer for the gradient, and every call of the objective is given what the call before it has left
there. So all calls are determined by the start, and a run only has to say how many it makes.

* `Objective.call`: a call of the objective, with the state that it leaves.
* `FixedRate.orbit`, `FixedRate.nthCall`: the calls of a descent that never stops.
* `FixedRate.Follows`: calls of a loop that are those of the orbit, from one place to another.
  `Iterates.follow` finds them in the loop.
* `FixedRate.Unrolls`: a run as the beginning of the orbit. `run_unrolls` holds for every run that
  returns.
* `FixedRate.run_cuts_orbit`: where a run cuts the orbit off.
-/

namespace Descent

variable {σ V S : Type}

/-- The call of the objective at `x` with a buffer, and the state of the objective behind it. -/
def Objective.call (f : Objective σ V S) (st : σ) (x buffer : V) : Evaluation V S × σ :=
  let ((value, gradient), st') := (f x buffer).run st
  ({ x, buffer, value, gradient }, st')

theorem Calls.eq_call {f : Objective σ V S} {st st' : σ} {e : Evaluation V S}
    (h : Calls f st [e] st') : (e, st') = f.call st e.x e.buffer := by
  cases h with
  | cons call rest =>
    cases rest
    rw [Objective.call, call]

variable [Scalar S] [Space V S]

namespace FixedRate

variable (m : FixedRate S) (f : Objective σ V S) (x₀ : V) (st : σ)

/-- The calls of a descent from `x₀` that never stops, each with the state in which it leaves the
objective. The first buffer is a copy of `x₀`; later on the buffer holds the last gradient. -/
def orbit : Nat → Evaluation V S × σ
  | 0 => f.call st x₀ x₀
  | k + 1 =>
    let (e, st') := orbit k
    f.call st' (Space.ray e.x e.gradient (-m.rate)) e.gradient

/-- The `k`-th call of the descent, counted from zero. -/
def nthCall (k : Nat) : Evaluation V S := (m.orbit f x₀ st k).1

variable {m f x₀ st}

theorem orbit_succ (k : Nat) :
    m.orbit f x₀ st (k + 1) = f.call (m.orbit f x₀ st k).2
      (Space.ray (m.nthCall f x₀ st k).x (m.nthCall f x₀ st k).gradient (-m.rate))
      (m.nthCall f x₀ st k).gradient := rfl

/-! ## Loops -/

variable {s s' : State V S} {session session' : Session σ V S} {n k : Nat}
  {es : List (Evaluation V S)}

/-- A loop that stands at the `k`-th call of the orbit makes the calls `es` behind that one and ends
in `s'`. -/
structure Follows (m : FixedRate S) (f : Objective σ V S) (x₀ : V) (st : σ) (k : Nat)
    (es : List (Evaluation V S)) (s' : State V S) (session' : Session σ V S) : Prop where
  calls_eq : es = (List.range' (k + 1) es.length).map (m.nthCall f x₀ st)
  current_eq : s'.current = (m.nthCall f x₀ st (k + es.length)).point
  state_eq : session'.state = (m.orbit f x₀ st (k + es.length)).2
  large : ∀ j < es.length, ¬m.stopping.Converged (m.nthCall f x₀ st (k + j)).point

theorem Follows.stay (hs : s.current = (m.nthCall f x₀ st k).point)
    (hst : session.state = (m.orbit f x₀ st k).2) : Follows m f x₀ st k [] s session :=
  ⟨rfl, hs, hst, nofun⟩

theorem Follows.cons {e : Evaluation V S} (he : e = m.nthCall f x₀ st (k + 1))
    (hlarge : ¬m.stopping.Converged (m.nthCall f x₀ st k).point)
    (h : Follows m f x₀ st (k + 1) es s' session') : Follows m f x₀ st k (e :: es) s' session' := by
  have hlength : k + (e :: es).length = k + 1 + es.length := by
    rw [List.length_cons]
    omega
  refine ⟨?_, by rw [hlength]; exact h.current_eq, by rw [hlength]; exact h.state_eq, ?_⟩
  · rw [List.length_cons, List.range'_succ, List.map_cons, ← he, ← h.calls_eq]
  · intro j hj
    cases j with
    | zero => exact hlarge
    | succ j =>
      rw [Nat.add_comm j 1, ← Nat.add_assoc]
      exact h.large j (Nat.lt_of_succ_lt_succ hj)

namespace Iterates

/-- The calls of a loop are those of the orbit. -/
theorem follow (h : Iterates m f n s session es s' session')
    (hs : s.current = (m.nthCall f x₀ st k).point)
    (hst : session.state = (m.orbit f x₀ st k).2) : Follows m f x₀ st k es s' session' := by
  induction h generalizing k with
  | exhausted => exact .stay hs hst
  | converged => exact .stay hs hst
  | next large x_eq buffer_eq call _ ih =>
    have hcall := call.calls.eq_call
    rw [x_eq, buffer_eq, hs, hst] at hcall
    obtain ⟨he, hst₁⟩ := Prod.mk.inj (hcall.trans (orbit_succ k).symm)
    exact .cons he (hs ▸ large) (ih (congrArg Evaluation.point he) hst₁)

variable (h : Iterates m f n s session es s' session')
include h

theorem length_le : es.length ≤ n := by
  induction h with
  | exhausted => exact Nat.le_refl 0
  | converged => exact Nat.zero_le _
  | next _ _ _ _ _ ih => exact Nat.succ_le_succ ih

/-- Why a loop has stopped. -/
theorem ending : m.stopping.Converged s'.current ∨ es.length = n := by
  induction h with
  | exhausted => exact .inr rfl
  | converged small => exact .inl small
  | next _ _ _ _ _ ih => exact ih.imp_right (congrArg (· + 1))

end Iterates

/-! ## Whole runs -/

variable {history history' : History V S} {minimum : Minimum V S}

/-- A run with the outcome `minimum` makes the first calls of the orbit, one more than it has
iterations. It records all of them and stops at the last one, because the gradient there is short
enough or because there are no iterations left. -/
structure Unrolls (m : FixedRate S) (f : Objective σ V S) (x₀ : V) (history : History V S)
    (session : Session σ V S) (minimum : Minimum V S) (history' : History V S)
    (session' : Session σ V S) : Prop where
  iterations_le : minimum.iterations ≤ m.stopping.budget 100 x₀
  calls : session.Extends f
    ((List.range (minimum.iterations + 1)).map (m.nthCall f x₀ session.state)) session'
  state_eq : session'.state = (m.orbit f x₀ session.state minimum.iterations).2
  history_eq : history' = history.recordAll
    ((List.range (minimum.iterations + 1)).map fun k => m.record (m.nthCall f x₀ session.state k))
  point_eq : minimum.point = (m.nthCall f x₀ session.state minimum.iterations).point
  large : ∀ k < minimum.iterations,
    ¬m.stopping.Converged (m.nthCall f x₀ session.state k).point
  converged_iff : minimum.converged = true ↔ m.stopping.Converged minimum.point
  spent : minimum.converged = false → minimum.iterations = m.stopping.budget 100 x₀

theorem run_unrolls (h : m.run f x₀ history session = .ok (minimum, history') session') :
    m.Unrolls f x₀ history session minimum history' session' := by
  obtain ⟨first, es, s, session₁, session₂, log, hx, hb, hext, hiter, rfl, rfl, rfl⟩ := run_ok h
  have hcall := hext.calls.eq_call
  rw [hx, hb] at hcall
  obtain ⟨hfirst, hst⟩ : first = m.nthCall f x₀ session.state 0 ∧
      session₁.state = (m.orbit f x₀ session.state 0).2 := Prod.mk.inj hcall
  have hfollows := hiter.follow (congrArg Evaluation.point hfirst) hst
  have hcount : s.iterations = es.length := hiter.iterations_eq.trans (Nat.zero_add _)
  have hcalls : first :: es =
      (List.range (es.length + 1)).map (m.nthCall f x₀ session.state) := by
    rw [List.range_eq_range', List.range'_succ, List.map_cons, ← hfirst, ← hfollows.calls_eq]
  have hplace : ∀ j, 0 + j = j := Nat.zero_add
  refine ⟨Nat.le_trans (Nat.le_of_eq hcount) hiter.length_le, ?_, ?_, ?_, ?_, ?_,
    decide_eq_true_iff, ?_⟩
  · rw [hcount, ← hcalls]
    exact (hext.trans hiter.calls).setLog log
  · rw [hcount, ← hplace es.length]
    exact hfollows.state_eq
  · have hrecords : (List.range (es.length + 1)).map
        (fun k => m.record (m.nthCall f x₀ session.state k)) = (first :: es).map m.record := by
      rw [hcalls, List.map_map]
      rfl
    rw [hcount, hrecords, hiter.history_eq, List.map_cons, ← Recorder.recordAll_record]
    rfl
  · rw [hcount, ← hplace es.length]
    exact hfollows.current_eq
  · intro k hk
    rw [← hplace k]
    exact hfollows.large k (hcount ▸ hk)
  · intro hopen
    exact hcount.trans (hiter.ending.resolve_left (of_decide_eq_false hopen))

/-- The places in the orbit at which the gradient is short enough. -/
def shortCalls (m : FixedRate S) (f : Objective σ V S) (x₀ : V) (st : σ) : Set Nat :=
  {k | Space.norm (m.nthCall f x₀ st k).gradient ≤ m.stopping.tolerance}

namespace Unrolls

variable (h : m.Unrolls f x₀ history session minimum history' session')
include h

theorem mem_shortCalls_iff :
    minimum.iterations ∈ m.shortCalls f x₀ session.state ↔ minimum.converged = true := by
  rw [h.converged_iff, h.point_eq]
  rfl

theorem isLeast_of_converged (hconverged : minimum.converged = true) :
    IsLeast (m.shortCalls f x₀ session.state) minimum.iterations :=
  ⟨h.mem_shortCalls_iff.mpr hconverged, fun k hk => Nat.le_of_not_lt fun hlt => h.large k hlt hk⟩

/-- A run that has not converged has seen as much of the orbit as it may, and no short gradient. -/
theorem not_mem_of_open (hopen : minimum.converged = false) {k : Nat}
    (hk : k ≤ m.stopping.budget 100 x₀) : k ∉ m.shortCalls f x₀ session.state := by
  rw [← h.spent hopen] at hk
  rcases Nat.lt_or_eq_of_le hk with hlt | rfl
  · exact h.large k hlt
  · exact mt h.mem_shortCalls_iff.mp (Bool.eq_false_iff.mp hopen)

end Unrolls

/-- A run that returns is its orbit, cut off at the first call that leaves a short gradient, if
there is one within the limit, and else at the limit. It makes the calls up to there and no others,
in order, one more than it has iterations. It adds a record of each of them, with the rate as its
step, to what the history holds, and returns the point of the last one. -/
theorem run_cuts_orbit (h : m.run f x₀ history session = .ok (minimum, history') session') :
    session'.evaluations.toList = session.evaluations.toList ++
      (List.range (minimum.iterations + 1)).map (m.nthCall f x₀ session.state) ∧
    session'.state = (m.orbit f x₀ session.state minimum.iterations).2 ∧
    history' = history.recordAll ((List.range (minimum.iterations + 1)).map fun k =>
      { point := (m.nthCall f x₀ session.state k).point, step := m.rate, samples := #[] }) ∧
    minimum.point = (m.nthCall f x₀ session.state minimum.iterations).point ∧
    ((∃ k ≤ m.stopping.limit.getD (100 * Space.dimension x₀),
        k ∈ m.shortCalls f x₀ session.state) →
      IsLeast (m.shortCalls f x₀ session.state) minimum.iterations ∧ minimum.converged = true) ∧
    ((¬∃ k ≤ m.stopping.limit.getD (100 * Space.dimension x₀),
        k ∈ m.shortCalls f x₀ session.state) →
      minimum.iterations = m.stopping.limit.getD (100 * Space.dimension x₀) ∧
        minimum.converged = false) := by
  have hunrolls := run_unrolls h
  refine ⟨hunrolls.calls.evaluations_eq, hunrolls.state_eq, hunrolls.history_eq,
    hunrolls.point_eq, ?_,
    fun hnone => ?_⟩
  · rintro ⟨k, hk, hshort⟩
    have hconverged : minimum.converged = true :=
      (Bool.eq_false_or_eq_true _).resolve_right fun hopen =>
        hunrolls.not_mem_of_open hopen hk hshort
    exact ⟨hunrolls.isLeast_of_converged hconverged, hconverged⟩
  · have hopen : minimum.converged = false := by
      rw [Bool.eq_false_iff, ne_eq, ← hunrolls.mem_shortCalls_iff]
      exact fun hshort => hnone ⟨_, hunrolls.iterations_le, hshort⟩
    exact ⟨hunrolls.spent hopen, hopen⟩

/-- The objective `x²`, which adds its gradient to what it finds in the buffer and counts its
calls. -/
def adding : Objective Nat Float Float := fun x buffer => do
  modify (· + 1)
  return (x * x, buffer + 2 * x)

/-- Five steps at most, a quarter of what the buffer holds. -/
def quarterRate : FixedRate Float where
  rate := 0.25
  stopping := { tolerance := 1, limit := some 5 }

/-- With it the gradient of a call depends on the calls before. From `1` the fourth call is the
first to leave a short one. -/
theorem run_cuts_orbit_of_adding :
    ∃ minimum history' session',
      quarterRate.run adding 1 (some #[]) { state := 0 } = .ok (minimum, history') session' ∧
      session'.state = 4 ∧ minimum.iterations = 3 ∧ minimum.converged = true ∧
      IsLeast (quarterRate.shortCalls adding 1 0) 3 ∧
      session'.evaluations.toList = (List.range 4).map (quarterRate.nthCall adding 1 0) := by
  have htest : Succeeds (fun result session' => result.1.iterations == 3 && session'.state == 4 &&
        result.1.converged)
      (quarterRate.run adding 1 (some #[]) { state := 0 }) = true := by decide +kernel
  obtain ⟨⟨minimum, history'⟩, session', h, htest⟩ := Succeeds.exists_ok htest
  obtain ⟨⟨hcount, hcalls⟩, hconverged⟩ :
      (minimum.iterations = 3 ∧ session'.state = 4) ∧ minimum.converged = true := by
    simpa using htest
  obtain ⟨hevaluations, -, -, -, hfirst, hnone⟩ := run_cuts_orbit h
  have hshort : ∃ k ≤ 5, k ∈ quarterRate.shortCalls adding 1 0 := by
    refine Classical.byContradiction fun hlong => ?_
    rw [(hnone hlong).2] at hconverged
    cases hconverged
  obtain ⟨hleast, -⟩ := hfirst hshort
  rw [hcount] at hleast hevaluations
  exact ⟨minimum, history', session', h, hcalls, hcount, hconverged, hleast, hevaluations⟩

end FixedRate

end Descent
