import Descent.Proofs.Minimizer.Consistency
import Descent.Proofs.Minimizer.Endings

/-!
# What the records of conjugate gradients tell

For any scalars, and for an objective of which nothing is known. A run with a history records every
search where it starts, before its point can move, and at last the result.

* `PolakRibiere.records`: the records of the searches and of the result.
* `PolakRibiere.Iterates.points_eq`: their points are those between the searches of the loop.
* `PolakRibiere.Iterates.lastStep_eq`: a loop remembers the step of its last search.
* `PolakRibiere.records_follow`: the records of a whole run, one search after the other.
-/

namespace Descent

variable {σ V S : Type} [Scalar S] [Space V S]

namespace PolakRibiere

variable {m : PolakRibiere S} {f : Objective σ V S} {s s' : State V S}
  {session session' : Session σ V S} {n : Nat} {cs : List (SearchCall σ V S)}

theorem Iterates.lastStep_eq (h : Iterates m f n s session cs s' session') :
    s'.lastStep = (cs.getLast?.map (·.found.step)).getD s.lastStep := by
  induction h with
  | exhausted => rfl
  | converged => rfl
  | restarted _ _ _ _ ih => rw [ih, List.getLast?_cons]; cases List.getLast? _ <;> rfl
  | moved _ _ _ _ _ ih => rw [ih, List.getLast?_cons]; cases List.getLast? _ <;> rfl

theorem Iterates.lastStep_of_last (h : Iterates m f n s session cs s' session') {k : Nat}
    {c : SearchCall σ V S} (hk : k + 1 = cs.length) (hc : cs[k]? = some c) :
    s'.lastStep = c.found.step := by
  have hlast : cs.getLast? = some c := by
    rw [List.getLast?_eq_getElem?, ← hk, Nat.add_sub_cancel, hc]
  rw [h.lastStep_eq, hlast]
  rfl

/-- The records of a run that makes the searches `cs` and ends in the state `s`. -/
def records (cs : List (SearchCall σ V S)) (s : State V S) : List (Record V S) :=
  cs.map record ++ [s.final]

omit [Space V S] in
theorem records_of_search {k : Nat} {c : SearchCall σ V S} (hc : cs[k]? = some c) :
    (records cs s)[k]? = some (record c) := by
  have hk : k < (cs.map record).length := by
    rw [List.length_map]
    exact (List.getElem?_eq_some_iff.mp hc).1
  rw [records, List.getElem?_append_left hk, List.getElem?_map, hc, Option.map_some]

omit [Space V S] in
theorem records_last : (records cs s)[cs.length]? = some s.final := by
  rw [records, List.getElem?_append_right (List.length_map _).le, List.length_map, Nat.sub_self]
  rfl

omit [Space V S] in
/-- No record lists points. -/
theorem samples_of_mem_records : ∀ r ∈ records cs s, r.samples = #[] := by
  intro r hr
  rcases List.mem_append.mp hr with hr | hr
  · obtain ⟨c, -, rfl⟩ := List.mem_map.mp hr
    rfl
  · rw [List.mem_singleton.mp hr]
    rfl

/-- The recorded points are the first one and those to which the searches have led. -/
theorem Iterates.points_eq (h : Iterates m f n s session cs s' session') :
    (records cs s').map (·.point) = s.current :: cs.map (·.arrival) := by
  rw [← h.journey.path_eq, records, List.map_append, List.map_map]
  rfl

/-- Behind the record of a search stands the point to which it has led. -/
theorem Iterates.record_succ (h : Iterates m f n s session cs s' session') {k : Nat}
    {c : SearchCall σ V S} (hc : cs[k]? = some c) :
    ∃ next, (records cs s')[k + 1]? = some next ∧ next.point = c.arrival := by
  have hpoint : ((records cs s').map (·.point))[k + 1]? = some c.arrival := by
    rw [h.points_eq, List.getElem?_cons_succ, List.getElem?_map, hc, Option.map_some]
  rw [List.getElem?_map] at hpoint
  exact Option.map_eq_some_iff.mp hpoint

theorem minimizeWithHistory_ok {x₀ : V} {old records : Array (Record V S)}
    {minimum : Minimum V S}
    (h : m.minimizeWithHistory f x₀ old session = .ok (minimum, records) session') :
    ∃ history', m.run f x₀ (some old) session = .ok (minimum, history') session' ∧
      records = history'.contents :=
  contents_ok h

/-- What the records of a run with a history say about its searches. The old records stay, and
records without lists of points are added, one for every search and one for the result. The record
of a search holds the point from which it started and the step that it has found. If it has found
none, the next record holds the same point, and else the point of the last call of the search. The
last record holds the result, with the step of the record before it. -/
theorem records_follow {x₀ : V} {old new : Array (Record V S)} {minimum : Minimum V S}
    (h : m.minimizeWithHistory f x₀ old session = .ok (minimum, new) session') :
    ∃ first cs s added, m.Unrolls f x₀ (some old) session first cs s session' ∧
      new.toList = old.toList ++ added ∧ cs.length = minimum.iterations ∧
      added.length = minimum.iterations + 1 ∧ (∀ r ∈ added, r.samples = #[]) ∧
      (∀ (k : Nat) (c : SearchCall σ V S), cs[k]? = some c →
        ∃ r next, added[k]? = some r ∧ added[k + 1]? = some next ∧
          r.point = c.current ∧ r.step = c.found.step ∧
          ((r.step == 0) = true → next.point = r.point) ∧
          ((r.step == 0) = false →
            ∃ e, c.evaluations.getLast? = some e ∧ next.point = e.point)) ∧
      ∃ last, added[minimum.iterations]? = some last ∧ last.point = minimum.point ∧
        (minimum.iterations = 0 → last.step = 0) ∧
        ∀ (k : Nat) (r : Record V S), k + 1 = minimum.iterations → added[k]? = some r →
          last.step = r.step := by
  obtain ⟨history', hrun, rfl⟩ := minimizeWithHistory_ok h
  obtain ⟨first, cs, s, hunrolls, rfl, rfl⟩ := run_unrolls hrun
  obtain ⟨before, after, log, -, hiter, -⟩ := hunrolls.loop
  have hcount : s.iterations = cs.length := hunrolls.ends.iterations_eq
  refine ⟨first, cs, s, records cs s, hunrolls, ?_, hcount.symm, ?_, samples_of_mem_records, ?_,
    s.final, ?_, rfl, ?_, ?_⟩
  · rw [hiter.history_eq, Recorder.record_recordAll]
    exact Recorder.toList_contents_recordAll _ _
  · rw [records, List.length_append, List.length_map, hcount]
    rfl
  · intro k c hc
    obtain ⟨next, hnext, hpoint⟩ := hiter.record_succ hc
    refine ⟨record c, next, records_of_search hc, hnext, rfl, rfl, fun hzero => ?_, fun hstep => ?_⟩
    · rw [hpoint]
      exact SearchCall.arrival_of_failed hzero
    · have hsucceeded : c.Succeeded := hstep
      obtain ⟨e, hlast, hfound⟩ :=
        (hiter.journey.made c (List.mem_of_getElem? hc)).last_evaluation hsucceeded
      exact ⟨e, hlast, by rw [hpoint, SearchCall.arrival_of_succeeded hsucceeded, hfound]⟩
  · rw [hcount]
    exact records_last
  · intro hnone
    obtain rfl : cs = [] := List.length_eq_zero_iff.mp (hcount.symm.trans hnone)
    exact hiter.lastStep_eq
  · intro k r hk hr
    have hlength : k + 1 = cs.length := hk.trans hcount
    have hlt : k < cs.length := Nat.lt_of_succ_le hlength.le
    have hc : cs[k]? = some cs[k] := List.getElem?_eq_getElem hlt
    obtain rfl : record cs[k] = r := Option.some.inj ((records_of_search hc).symm.trans hr)
    exact hiter.lastStep_of_last hlength hc

/-- From a half the first search takes its first step and the two after it fail. Their two records
and that of the result hold the same point. -/
theorem records_follow_on_fickle :
    ∃ minimum new session',
      shortConjugate.minimizeWithHistory fickle 0.5 #[] { state := 0 } =
        .ok (minimum, new) session' ∧
      session'.state = 6 ∧
      ∃ (r₀ r₁ r₂ last : Record Float Float), new.toList = [r₀, r₁, r₂, last] ∧
        (r₀.step == 0) = false ∧ (r₁.step == 0) = true ∧ (r₂.step == 0) = true ∧
        r₂.point = r₁.point ∧ last.point = r₁.point ∧ last.point = minimum.point ∧
        last.step = r₂.step := by
  have hrun : Succeeds (fun result session' => result.1.iterations == 3 && session'.state == 6 &&
        (result.2.map fun r => r.step == 0) == #[false, true, true, true])
      (shortConjugate.minimizeWithHistory fickle 0.5 #[] { state := 0 }) = true := by
    decide +kernel
  obtain ⟨⟨minimum, new⟩, session', h, htest⟩ := Succeeds.exists_ok hrun
  obtain ⟨⟨hcount, hcalls⟩, hsteps⟩ : (minimum.iterations = 3 ∧ session'.state = 6) ∧
      (new.map fun r => r.step == 0) = #[false, true, true, true] := by simpa using htest
  obtain ⟨first, cs, s, added, -, hnew, hsearches, hlength, -, hrecords, last, hlast, hresult, -,
    hbefore⟩ := records_follow h
  rw [hcount] at hsearches hlength hlast hbefore
  obtain ⟨c₀, c₁, c₂, rfl⟩ := List.length_eq_three.mp hsearches
  obtain ⟨r₀, r₁, r₂, r₃, rfl⟩ : ∃ r₀ r₁ r₂ r₃, added = [r₀, r₁, r₂, r₃] := by
    match added, hlength with
    | [r₀, r₁, r₂, r₃], _ => exact ⟨r₀, r₁, r₂, r₃, rfl⟩
  have hsteps' := congrArg Array.toList hsteps
  rw [Array.toList_map, hnew] at hsteps'
  obtain ⟨hmoved, hfailed₁, hfailed₂, -⟩ : (r₀.step == 0) = false ∧ (r₁.step == 0) = true ∧
      (r₂.step == 0) = true ∧ (r₃.step == 0) = true := by simpa using hsteps'
  -- The second and the third record are followed by one with the same point.
  obtain ⟨r, next, hr, hnext, -, -, hstay₁, -⟩ := hrecords 1 c₁ rfl
  obtain rfl : r₁ = r := Option.some.inj hr
  obtain rfl : r₂ = next := Option.some.inj hnext
  obtain ⟨r, next, hr, hnext, -, -, hstay₂, -⟩ := hrecords 2 c₂ rfl
  obtain rfl : r₂ = r := Option.some.inj hr
  obtain rfl : r₃ = next := Option.some.inj hnext
  obtain rfl : r₃ = last := Option.some.inj hlast
  exact ⟨minimum, new, session', h, hcalls, r₀, r₁, r₂, r₃, hnew, hmoved, hfailed₁, hfailed₂,
    hstay₁ hfailed₁, (hstay₂ hfailed₂).trans (hstay₁ hfailed₁), hresult, hbefore 2 r₂ rfl rfl⟩

end PolakRibiere

end Descent
