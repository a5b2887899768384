import Descent.Proofs.Minimizer.Orbit
import Descent.Proofs.Minimizer.Searches
import Descent.Space.Line

/-!
# Returned and recorded points are evaluated points

A point holds a vector with a value and a gradient. The methods move such points between buffers and
write into them, but what they return and record is always what a single call of the objective has
given.

* `SearchCall.Made.last_evaluation`: a search that succeeds leaves the point of its last call.
* `FoundBySearches`: where the points of a method with line searches come from.
* `points_are_evaluations`: the statement for all three methods.
-/

namespace Descent

variable {σ V S : Type} [Scalar S] [Space V S]

/-- A search that has found a step has called the objective, and leaves the point of its last
call. -/
theorem SearchCall.Made.last_evaluation {rule : StrongWolfe S} {f : Objective σ V S}
    {c : SearchCall σ V S} (h : c.Made rule f) (hs : c.Succeeded) :
    ∃ e, c.evaluations.getLast? = some e ∧ c.found.next = e.point := by
  obtain ⟨qs, middle, hd, he, -⟩ := h.driven
  rcases List.eq_nil_or_concat qs with rfl | ⟨past, q, rfl⟩
  · -- Without a trial the phase is still the first one, whose step is zero.
    have hstep : c.found.step = 0 := congrArg Phase.step hd.reaches.eq_of_nil
    rw [SearchCall.Succeeded, hstep, Scalar.zero_beq_zero] at hs
    cases hs
  · refine ⟨q.evaluation, ?_, ?_⟩
    · rw [he]; simp
    · rw [hd.next_eq]; simp [Probe.point]

/-- A run at a fixed rate records all its calls and returns the point of the last one. -/
theorem FixedRate.calls_of_run {m : FixedRate S} {f : Objective σ V S} {x₀ : V}
    {history history' : History V S} {session session' : Session σ V S} {minimum : Minimum V S}
    (h : m.run f x₀ history session = .ok (minimum, history') session') :
    ∃ calls last, session.Extends f (calls ++ [last]) session' ∧ minimum.point = last.point ∧
      history' = history.recordAll ((calls ++ [last]).map m.record) := by
  have hunrolls := run_unrolls h
  have hcalls := hunrolls.calls
  rw [List.range_succ, List.map_append, List.map_singleton] at hcalls
  refine ⟨_, _, hcalls, hunrolls.point_eq, ?_⟩
  rw [← List.map_singleton, ← List.map_append, ← List.range_succ, List.map_map]
  exact hunrolls.history_eq

/-- The point was found by the first call of a run or by the last call of a search that has found a
step. -/
def FoundBySearches (first : Evaluation V S) (searches : List (SearchCall σ V S))
    (p : Point V S) : Prop :=
  p = first.point ∨
    ∃ c ∈ searches, c.Succeeded ∧ ∃ e, c.evaluations.getLast? = some e ∧ p = e.point

theorem Journey.foundBySearches {rule : StrongWolfe S} {f : Objective σ V S}
    {first : Evaluation V S} {p' : Point V S} {session session' : Session σ V S}
    {cs : List (SearchCall σ V S)} (h : Journey rule f first.point session cs p' session') :
    ∀ p ∈ p' :: cs.map (·.current), FoundBySearches first cs p := by
  intro p hp
  rcases h.points p hp with rfl | ⟨c, hc, hs, rfl⟩
  · exact .inl rfl
  · obtain ⟨e, he, hn⟩ := (h.made c hc).last_evaluation hs
    exact .inr ⟨c, hc, hs, e, he, hn⟩

/-- A run with line searches makes one call at its start and then only those of its searches. What
it returns and what it records was found by the first call or by the last call of a search that has
found a step. -/
def SearchesAccountFor (rule : StrongWolfe S) (f : Objective σ V S) (x₀ : V)
    (history : History V S) (session : Session σ V S) (minimum : Minimum V S)
    (history' : History V S) (session' : Session σ V S) : Prop :=
  ∃ (first : Evaluation V S) (searches : List (SearchCall σ V S)) (records : List (Record V S)),
    first.x = x₀ ∧ (∀ c ∈ searches, c.Made rule f) ∧
    session.Extends f (first :: searches.flatMap (·.evaluations)) session' ∧
    history' = history.recordAll records ∧
    ∀ p ∈ minimum.point :: records.map (·.point), FoundBySearches first searches p

theorem SteepestDescent.searchesAccountFor {m : SteepestDescent S} {f : Objective σ V S} {x₀ : V}
    {history history' : History V S} {session session' : Session σ V S} {minimum : Minimum V S}
    (h : m.run f x₀ history session = .ok (minimum, history') session') :
    SearchesAccountFor m.lineSearch f x₀ history session minimum history' session' := by
  obtain ⟨first, cs, s, session₁, session₂, log, hx, -, hext, hiter, rfl, rfl, rfl⟩ := run_ok h
  have hj := hiter.journey
  refine ⟨first, cs, cs.map record, hx, hj.made, (hext.trans hj.calls).setLog log,
    hiter.history_eq, ?_⟩
  rw [List.map_map]
  exact hj.foundBySearches

theorem PolakRibiere.searchesAccountFor {m : PolakRibiere S} {f : Objective σ V S} {x₀ : V}
    {history history' : History V S} {session session' : Session σ V S} {minimum : Minimum V S}
    (h : m.run f x₀ history session = .ok (minimum, history') session') :
    SearchesAccountFor m.lineSearch f x₀ history session minimum history' session' := by
  obtain ⟨first, cs, s, session₁, session₂, log, hx, -, hext, hiter, rfl, rfl, rfl⟩ := run_ok h
  have hj := hiter.journey
  refine ⟨first, cs, cs.map record ++ [s.final], hx, hj.made, (hext.trans hj.calls).setLog log,
    ?_, ?_⟩
  · rw [hiter.history_eq, Recorder.record_recordAll]
    rfl
  · -- The last record holds the returned point again.
    intro p hp
    apply hj.foundBySearches
    simp only [List.map_append, List.map_map, List.mem_cons, List.mem_append, List.map_cons,
      List.map_nil, List.not_mem_nil, or_false] at hp ⊢
    rcases hp with hp | hp | hp
    · exact .inl hp
    · exact .inr hp
    · exact .inl hp

/-- Whatever a run returns and records was found by a single call of the objective that it has made.
At a fixed rate that call is the last one for the result. With line searches it is the first one of
the run or the last one of a search that has found a step. -/
theorem points_are_evaluations (f : Objective σ V S) (x₀ : V) (history : History V S)
    (session : Session σ V S) :
    (∀ (m : FixedRate S) minimum history' session',
      m.run f x₀ history session = .ok (minimum, history') session' →
        ∃ (calls : List (Evaluation V S)) (last : Evaluation V S) (records : List (Record V S)),
          session.Extends f (calls ++ [last]) session' ∧ minimum.point = last.point ∧
          history' = history.recordAll records ∧
          ∀ r ∈ records, ∃ e ∈ calls ++ [last], r.point = e.point) ∧
    (∀ (m : SteepestDescent S) minimum history' session',
      m.run f x₀ history session = .ok (minimum, history') session' →
        SearchesAccountFor m.lineSearch f x₀ history session minimum history' session') ∧
    (∀ (m : PolakRibiere S) minimum history' session',
      m.run f x₀ history session = .ok (minimum, history') session' →
        SearchesAccountFor m.lineSearch f x₀ history session minimum history' session') := by
  refine ⟨fun m minimum history' session' h => ?_,
    fun m _ _ _ h => SteepestDescent.searchesAccountFor h,
    fun m _ _ _ h => PolakRibiere.searchesAccountFor h⟩
  obtain ⟨calls, last, hext, hlast, hhist⟩ := FixedRate.calls_of_run h
  refine ⟨calls, last, (calls ++ [last]).map m.record, hext, hlast, hhist, fun r hr => ?_⟩
  obtain ⟨e, he, rfl⟩ := List.mem_map.mp hr
  exact ⟨e, he, rfl⟩

/-- The objective `u² + 10 v²`, which counts its calls. -/
def bowl : Objective Nat (List Float) Float := fun x _ => do
  modify (· + 1)
  match x with
  | [u, v] => return (u * u + 10 * (v * v), [2 * u, 20 * v])
  | _ => return (0, x)

/-- Two iterations at most. -/
def briefly : Stopping Float where
  tolerance := 1e-5
  limit := some 2

/-- Two iterations of each method in the bowl. -/
theorem points_in_bowl_are_evaluations :
    (∃ minimum history' session',
      { FixedRate.standard with stopping := briefly }.run bowl [1, 1] (some #[]) { state := 0 } =
        .ok (minimum, history') session' ∧
      ∃ (calls : List (Evaluation (List Float) Float)) (last : Evaluation (List Float) Float),
        session'.evaluations.toList = calls ++ [last] ∧ minimum.point = last.point) ∧
    (∃ minimum history' session',
      { SteepestDescent.standard with stopping := briefly }.run bowl [1, 1] (some #[])
        { state := 0 } = .ok (minimum, history') session' ∧
      SearchesAccountFor { StrongWolfe.standard with c₁ := 1e-3 } bowl [1, 1] (some #[])
        { state := 0 } minimum history' session') ∧
    ∃ minimum history' session',
      { PolakRibiere.standard with stopping := briefly }.run bowl [1, 1] (some #[])
        { state := 0 } = .ok (minimum, history') session' ∧
      SearchesAccountFor StrongWolfe.standard bowl [1, 1] (some #[]) { state := 0 } minimum
        history' session' := by
  obtain ⟨hfixed, hdescent, hconjugate⟩ :=
    points_are_evaluations bowl [1, 1] (some #[]) { state := 0 }
  refine ⟨?_, ?_, ?_⟩
  · have hrun : Succeeds (fun _ _ => true)
        ({ FixedRate.standard with stopping := briefly }.run bowl [1, 1] (some #[])
          { state := 0 }) = true := by decide +kernel
    obtain ⟨⟨minimum, history'⟩, session', h, -⟩ := Succeeds.exists_ok hrun
    obtain ⟨calls, last, records, hext, hlast, -⟩ := hfixed _ minimum history' session' h
    exact ⟨minimum, history', session', h, calls, last, hext.evaluations_eq, hlast⟩
  · have hrun : Succeeds (fun _ _ => true)
        ({ SteepestDescent.standard with stopping := briefly }.run bowl [1, 1] (some #[])
          { state := 0 }) = true := by decide +kernel
    obtain ⟨⟨minimum, history'⟩, session', h, -⟩ := Succeeds.exists_ok hrun
    exact ⟨minimum, history', session', h, hdescent _ minimum history' session' h⟩
  · have hrun : Succeeds (fun _ _ => true)
        ({ PolakRibiere.standard with stopping := briefly }.run bowl [1, 1] (some #[])
          { state := 0 }) = true := by decide +kernel
    obtain ⟨⟨minimum, history'⟩, session', h, -⟩ := Succeeds.exists_ok hrun
    exact ⟨minimum, history', session', h, hconjugate _ minimum history' session' h⟩

end Descent
