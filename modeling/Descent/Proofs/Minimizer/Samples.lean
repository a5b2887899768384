import Descent.Proofs.Minimizer.Consistency
import Descent.Proofs.Minimizer.Endings

/-!
# What the records of steepest descent list

For any scalars, and for an objective of which nothing is known. A run with a history lists in
every record the points of the calls that it has made since the record before.

* `SearchCall.Made.samples_eq`: a search adds the points of its calls to those that it was given.
* `SearchCall.Made.last_call`: the last of them is the point that a search has found, if it has.
* `SteepestDescent.Iterates.samples_on`, `SteepestDescent.Iterates.listed`: in a loop with a history
  all searches keep their points, and the records list them one after the other.
* `SteepestDescent.Iterates.failed_last`: nothing comes after a failed search.
* `SteepestDescent.Iterates.record_step`: what comes after a record with a step.
* `SteepestDescent.records_account`: the records of a whole run.
-/

namespace Descent

variable {σ V S : Type} [Scalar S] [Space V S]

/-! ## Searches -/

namespace SearchCall.Made

variable {rule : StrongWolfe S} {f : Objective σ V S} {c : SearchCall σ V S}

theorem samples_eq (h : c.Made rule f) :
    c.found.samples = c.samples.recordAll (c.evaluations.map (·.x)) := by
  obtain ⟨qs, middle, hd, he, -⟩ := h.driven
  rw [hd.samples_eq, he, List.map_map]
  rfl

/-- A search that has found a step has made its last call at the point that it has found, which
lies at that step along the direction. -/
theorem last_call (h : c.Made rule f) (hs : c.Succeeded) :
    (c.evaluations.map (·.x)).getLast? = some c.found.next.x ∧
      c.found.next.x = Space.ray c.current.x c.direction c.found.step := by
  obtain ⟨e, hlast, hnext⟩ := h.last_evaluation hs
  obtain ⟨q, hq, -⟩ := h.accepted hs
  constructor
  · rw [List.getLast?_map, hlast, hnext]
    rfl
  · rw [hq.next_eq, hq.step_eq]
    exact hq.along.x_eq

end SearchCall.Made

/-! ## Records -/

namespace SteepestDescent

variable {m : SteepestDescent S} {f : Objective σ V S} {s s' : State V S}
  {session session' : Session σ V S} {n : Nat} {cs : List (SearchCall σ V S)}

/-- The record of an iteration lists the points that were in no record before it and those of its
search. -/
theorem State.samples_record {found : Search V S} {after : Session σ V S}
    (made : (s.call session found after).Made m.lineSearch f) (hon : s.history.isSome) :
    (record (s.call session found after)).samples.toList =
      s.unlisted.toList ++ (s.call session found after).evaluations.map (·.x) := by
  obtain ⟨old, hold⟩ := Option.isSome_iff_exists.mp hon
  have hgiven : (s.call session found after).samples = some s.unlisted := by
    simp only [State.call, hold, Option.map_some]
  unfold record
  rw [made.samples_eq, hgiven, Recorder.toList_contents_recordAll]

omit [Space V S] in
/-- A history that is on stays on. -/
theorem State.isSome_history_moved {found : Search V S} (hon : s.history.isSome) :
    (s.moved found).history.isSome := by
  simpa [State.moved, State.count, Recorder.record] using hon

/-- With a history the record of every search ends with the points of its calls. -/
theorem Iterates.samples_on (h : Iterates m f n s session cs s' session')
    (hon : s.history.isSome) :
    ∀ c ∈ cs, ∃ given, (record c).samples.toList = given ++ c.evaluations.map (·.x) := by
  induction h with
  | exhausted => simp
  | converged => simp
  | failed _ made _ => exact List.forall_mem_singleton.mpr ⟨_, State.samples_record made hon⟩
  | moved _ made _ _ ih =>
    exact List.forall_mem_cons.mpr
      ⟨⟨_, State.samples_record made hon⟩, ih (State.isSome_history_moved hon)⟩

/-- The records of a loop list the points that were in no record before it and those of all its
calls, once each and in order. -/
theorem Iterates.listed (h : Iterates m f n s session cs s' session') (hon : s.history.isSome)
    (hne : cs ≠ []) :
    (cs.map record).flatMap (·.samples.toList) =
      s.unlisted.toList ++ (cs.flatMap (·.evaluations)).map (·.x) := by
  induction h with
  | exhausted => exact absurd rfl hne
  | converged => exact absurd rfl hne
  | failed _ made _ =>
    simpa only [List.map_cons, List.map_nil, List.flatMap_cons, List.flatMap_nil,
      List.append_nil] using State.samples_record made hon
  | @moved _ s _ session after _ found _ cs _ made _ _ ih =>
    -- After a move nothing is unlisted, so the rest lists its own calls only.
    have hrest : (cs.map record).flatMap (·.samples.toList) =
        (cs.flatMap (·.evaluations)).map (·.x) := by
      by_cases hcs : cs = []
      · rw [hcs]
        rfl
      · exact (ih (State.isSome_history_moved hon) hcs).trans (List.nil_append _)
    rw [List.map_cons, List.flatMap_cons, State.samples_record made hon, hrest, List.flatMap_cons,
      List.map_append, List.append_assoc]

/-- A search that finds no step is the last one, and the point from which it started is where the
loop ends. -/
theorem Iterates.failed_last (h : Iterates m f n s session cs s' session') {k : Nat}
    {c : SearchCall σ V S} (hc : cs[k]? = some c) (hzero : (c.found.step == 0) = true) :
    k + 1 = cs.length ∧ s'.current = c.current := by
  induction h generalizing k with
  | exhausted => cases hc
  | converged => cases hc
  | failed =>
    cases k with
    | zero =>
      cases hc
      exact ⟨rfl, rfl⟩
    | succ k => cases hc
  | moved _ _ nonzero _ ih =>
    cases k with
    | zero =>
      cases hc
      exact absurd hzero (ne_true_of_eq_false nonzero)
    | succ k =>
      obtain ⟨hlength, hcurrent⟩ := ih hc
      exact ⟨congrArg (· + 1) hlength, hcurrent⟩

/-- The points of the records and the result of a run are those between its searches. -/
theorem Iterates.path_eq (h : Iterates m f n s session cs s' session') {minimum : Minimum V S}
    (hpoint : minimum.point = s'.current) :
    minimum.path (cs.map record) = s.current :: cs.map (·.arrival) := by
  rw [Minimum.path, List.map_map, hpoint]
  exact h.journey.path_eq

omit [Space V S] in
/-- Every record is that of a search. -/
theorem search_of_record {k : Nat} {r : Record V S} (hr : (cs.map record)[k]? = some r) :
    ∃ c, cs[k]? = some c ∧ record c = r := by
  rw [List.getElem?_map] at hr
  exact Option.map_eq_some_iff.mp hr

/-- After a record with a step comes the last point that it lists, at that step from its own point,
against the gradient. -/
theorem Iterates.record_step (h : Iterates m f n s session cs s' session') (hon : s.history.isSome)
    {minimum : Minimum V S} (hpoint : minimum.point = s'.current) {k : Nat} {r : Record V S}
    (hr : (cs.map record)[k]? = some r) (hstep : (r.step == 0) = false) :
    ∃ next, (minimum.path (cs.map record))[k + 1]? = some next ∧
      r.samples.toList.getLast? = some next.x ∧
      next.x = Space.ray r.point.x (Space.scale r.point.gradient (-1)) r.step := by
  obtain ⟨c, hc, rfl⟩ := search_of_record hr
  have hmem := List.mem_of_getElem? hc
  have hsucceeded : c.Succeeded := hstep
  obtain ⟨hlast, hx⟩ := (h.journey.made c hmem).last_call hsucceeded
  obtain ⟨given, hgiven⟩ := h.samples_on hon c hmem
  refine ⟨c.found.next, ?_, ?_, ?_⟩
  · rw [h.path_eq hpoint, List.getElem?_cons_succ, List.getElem?_map, hc, Option.map_some,
      SearchCall.arrival_of_succeeded hsucceeded]
  · rw [hgiven, List.getLast?_append, hlast]
    rfl
  · rw [hx, (h.against c hmem).1]
    rfl

theorem minimizeWithHistory_ok {x₀ : V} {old records : Array (Record V S)}
    {minimum : Minimum V S}
    (h : m.minimizeWithHistory f x₀ old session = .ok (minimum, records) session') :
    ∃ history', m.run f x₀ (some old) session = .ok (minimum, history') session' ∧
      records = history'.contents :=
  contents_ok h

/-- What the records of a run with a history say about its calls. The old records stay, and one
record is added for every iteration. If there is one, then together they list the points of all
calls of the run in order, from `x₀` on, and the first record is that of `x₀`. After a record with a
step the run goes on at the last point that the record lists, which lies at that step from its own
point, against the gradient. Only the last record can be without a step, and then its point is the
result. -/
theorem records_account {x₀ : V} {old records : Array (Record V S)} {minimum : Minimum V S}
    (h : m.minimizeWithHistory f x₀ old session = .ok (minimum, records) session') :
    ∃ (new : List (Record V S)) (first : Evaluation V S) (rest : List (Evaluation V S)),
      records.toList = old.toList ++ new ∧ new.length = minimum.iterations ∧
      first.x = x₀ ∧ session.Extends f (first :: rest) session' ∧
      (1 ≤ minimum.iterations →
        new.flatMap (·.samples.toList) = (first :: rest).map (·.x)) ∧
      (∀ r, new[0]? = some r → r.point.x = x₀) ∧
      (∀ (k : Nat) (r : Record V S), new[k]? = some r → (r.step == 0) = false →
        ∃ next, (minimum.path new)[k + 1]? = some next ∧
          r.samples.toList.getLast? = some next.x ∧
          next.x = Space.ray r.point.x (Space.scale r.point.gradient (-1)) r.step) ∧
      (∀ (k : Nat) (r : Record V S), new[k]? = some r → (r.step == 0) = true →
        k + 1 = new.length ∧ minimum.point = r.point) := by
  obtain ⟨history', hrun, rfl⟩ := minimizeWithHistory_ok h
  obtain ⟨first, cs, s, hunrolls, rfl, hmin⟩ := run_unrolls hrun
  have hcount : minimum.iterations = cs.length := by
    rw [hmin]
    exact hunrolls.ends.iterations_eq
  obtain ⟨before, after, log, -, hiter, -⟩ := hunrolls.loop
  have hpoint : minimum.point = s.current := congrArg Minimum.point hmin
  refine ⟨cs.map record, first, _, ?_, ?_, hunrolls.x_eq, hunrolls.calls, ?_, ?_,
    fun k r hr hstep => hiter.record_step rfl hpoint hr hstep, ?_⟩
  · rw [hiter.history_eq]
    exact Recorder.toList_contents_recordAll _ _
  · rw [List.length_map]
    exact hcount.symm
  · intro hpos
    have hne : cs ≠ [] := List.ne_nil_of_length_pos (hcount ▸ hpos)
    rw [hiter.listed rfl hne, List.map_cons, hunrolls.x_eq]
    rfl
  · intro r hr
    have hfirst : some r.point = some first.point :=
      (minimum.getElem?_path hr).symm.trans (congrArg (·[0]?) (hiter.path_eq hpoint))
    rw [Option.some.inj hfirst]
    exact hunrolls.x_eq
  · intro k r hr hstep
    obtain ⟨c, hc, rfl⟩ := search_of_record hr
    rw [List.length_map, hpoint]
    exact hiter.failed_last hc hstep

/-- A record of something else, made before. -/
def oldRecord : Record Float Float where
  point := { x := 7, value := 49, gradient := 14 }
  step := 1
  samples := #[]

/-- From a half the first search takes its first step and the second one fails after two more calls.
The two new records list the four calls. -/
theorem records_account_on_fickle :
    ∃ minimum records session',
      shortDescent.minimizeWithHistory fickle 0.5 #[oldRecord] { state := 0 } =
        .ok (minimum, records) session' ∧
      session'.state = 4 ∧
      ∃ (r₁ r₂ : Record Float Float), records.toList = [oldRecord, r₁, r₂] ∧
        r₁.samples.toList ++ r₂.samples.toList = session'.evaluations.toList.map (·.x) ∧
        r₁.samples.toList.getLast? = some r₂.point.x ∧ (r₂.step == 0) = true ∧
        minimum.point = r₂.point := by
  have hrun : Succeeds (fun result session' => result.1.iterations == 2 && session'.state == 4 &&
        (result.2.map fun r => r.step == 0) == #[false, false, true])
      (shortDescent.minimizeWithHistory fickle 0.5 #[oldRecord] { state := 0 }) = true := by
    decide +kernel
  obtain ⟨⟨minimum, records⟩, session', h, htest⟩ := Succeeds.exists_ok hrun
  obtain ⟨⟨hcount, hcalls⟩, hsteps⟩ : (minimum.iterations = 2 ∧ session'.state = 4) ∧
      (records.map fun r => r.step == 0) = #[false, false, true] := by simpa using htest
  obtain ⟨new, first, rest, hnew, hlength, -, hext, hlisted, -, hstep, hzero⟩ := records_account h
  rw [hcount] at hlength
  obtain ⟨r₁, r₂, rfl⟩ := List.length_eq_two.mp hlength
  have hlists := hlisted (by rw [hcount]; decide)
  have hsteps' := congrArg Array.toList hsteps
  rw [Array.toList_map, hnew] at hsteps'
  obtain ⟨-, hmoved, hfailed⟩ : (oldRecord.step == 0) = false ∧ (r₁.step == 0) = false ∧
      (r₂.step == 0) = true := by simpa using hsteps'
  obtain ⟨next, hnext, hlast, -⟩ := hstep 0 r₁ rfl hmoved
  obtain rfl : r₂.point = next := Option.some.inj hnext
  refine ⟨minimum, records, session', h, hcalls, r₁, r₂, hnew, ?_, hlast, hfailed,
    (hzero 1 r₂ rfl hfailed).2⟩
  have hevaluations : session'.evaluations.toList = first :: rest := hext.evaluations_eq
  rw [hevaluations, ← hlists]
  simp

end SteepestDescent

end Descent
