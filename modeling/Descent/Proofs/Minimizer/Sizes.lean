import Descent.Proofs.Minimizer.Samples
import Descent.Proofs.Minimizer.Totality

/-!
# All vectors of a run have one dimension

For any scalars, and for an objective that, given a point and a buffer of one dimension, leaves a
gradient of that dimension in the buffer. It may have a state, and its gradients may hold anything
that is not a number.

* `Objective.Keeps f n`: such an objective.
* `Point.Sized`, `Evaluation.Sized`, `SearchCall.Sized`, `Record.Sized`: all vectors of a point, a
  call of the objective, a line search and a record have dimension `n`.
* `StrongWolfe.Driven.sized`: a search only makes such calls.
* `Iterates.sized` of each method: what one iteration preserves, the whole loop does.
* `runs_keep_dimension`: runs return, and all their vectors have the dimension of the start.
-/

namespace Descent

variable {σ V S : Type} [Space V S] {n : Nat}

/-- Given a point and a buffer of dimension `n`, the objective leaves a gradient of dimension
`n`. -/
def Objective.Keeps (f : Objective σ V S) (n : Nat) : Prop :=
  ∀ x buffer st, Space.dimension x = n → Space.dimension buffer = n →
    Space.dimension ((f x buffer).run st).1.2 = n

/-- The vectors of the point have dimension `n`. -/
structure Point.Sized (n : Nat) (p : Point V S) : Prop where
  x : Space.dimension p.x = n
  gradient : Space.dimension p.gradient = n

/-- The objective was called with vectors of dimension `n` and has left such a gradient. -/
structure Evaluation.Sized (n : Nat) (e : Evaluation V S) : Prop where
  x : Space.dimension e.x = n
  buffer : Space.dimension e.buffer = n
  gradient : Space.dimension e.gradient = n

/-- The recorded point and the points that are listed with it have dimension `n`. -/
structure Record.Sized (n : Nat) (r : Record V S) : Prop where
  point : r.point.Sized n
  samples : ∀ v ∈ r.samples, Space.dimension v = n

/-- All vectors that go into a line search, that it evaluates or samples, and that come out of it
have dimension `n`. -/
structure SearchCall.Sized (n : Nat) (c : SearchCall σ V S) : Prop where
  direction : Space.dimension c.direction = n
  current : c.current.Sized n
  spare : c.spare.Sized n
  evaluations : ∀ e ∈ c.evaluations, e.Sized n
  next : c.found.next.Sized n
  samples : ∀ v ∈ c.found.samples.contents, Space.dimension v = n

variable {f : Objective σ V S}

theorem Objective.Keeps.answers (hf : f.Keeps n) : f.Answers n (Space.dimension · = n) :=
  fun x buffer st hx hb => ⟨hf x buffer st hx hb, hf x buffer st hx hb⟩

theorem Point.Sized.fits {p : Point V S} (h : p.Sized n) : p.Fits n (Space.dimension · = n) :=
  ⟨h.x, h.gradient, h.gradient⟩

theorem Evaluation.Sized.point {e : Evaluation V S} (h : e.Sized n) : e.point.Sized n :=
  ⟨h.x, h.gradient⟩

/-- A single call with vectors of dimension `n` leaves such a gradient. -/
theorem Session.Extends.sized {a b : Session σ V S} {e : Evaluation V S}
    (h : a.Extends f [e] b) (hf : f.Keeps n) (hx : Space.dimension e.x = n)
    (hb : Space.dimension e.buffer = n) : e.Sized n :=
  ⟨hx, hb, (h.calls.answer hf.answers hx hb).1⟩

namespace Recorder

variable {α : Type} {r : Recorder α} {l : List α} {P : α → Prop}

/-- What holds of the old values and of the new ones holds of all recorded values. -/
theorem forall_mem_recordAll (hold : ∀ v ∈ r.contents, P v) (hnew : ∀ v ∈ l, P v) :
    ∀ v ∈ (r.recordAll l).contents, P v := by
  cases r with
  | none => simp [recordAll]
  | some old =>
    intro v hv
    rcases Array.mem_append.mp hv with hv | hv
    · exact hold v hv
    · exact hnew v (List.mem_toArray.mp hv)

end Recorder

/-! ## Line searches -/

variable [Scalar S] [SizedSpace V S]

theorem StrongWolfe.Driven.sized {rule : StrongWolfe S} {direction : V} {current : Point V S}
    {start : Slice S} {s s' : Search V S} {session session' : Session σ V S}
    {qs : List (Probe V S)} (h : Driven rule f direction current start s session qs s' session')
    (hf : f.Keeps n) (hx : Space.dimension current.x = n) (hs : s.next.Sized n) :
    (∀ q ∈ qs, q.evaluation.Sized n) ∧ s'.next.Sized n := by
  induction h with
  | stop => exact ⟨by simp, hs⟩
  | next _ buffer along call _ _ ih =>
    -- The buffer of the call is the gradient that the call before has left.
    have he := call.sized hf (along.dimension_eq.trans hx) (buffer ▸ hs.gradient)
    obtain ⟨hrest, hlast⟩ := ih he.point
    exact ⟨List.forall_mem_cons.mpr ⟨he, hrest⟩, hlast⟩

theorem SearchCall.Made.sized {rule : StrongWolfe S} {c : SearchCall σ V S} (h : c.Made rule f)
    (hf : f.Keeps n) (hd : Space.dimension c.direction = n) (hc : c.current.Sized n)
    (hs : c.spare.Sized n) (hsamples : ∀ v ∈ c.samples.contents, Space.dimension v = n) :
    c.Sized n := by
  obtain ⟨qs, middle, hdriven, hevals, -⟩ := h.driven
  obtain ⟨hqs, hnext⟩ := hdriven.sized hf hc.x hs
  have hcalls : ∀ e ∈ c.evaluations, e.Sized n := by
    rw [hevals]
    exact List.forall_mem_map.mpr hqs
  refine ⟨hd, hc, hs, hcalls, hnext, ?_⟩
  rw [h.samples_eq]
  exact Recorder.forall_mem_recordAll hsamples (List.forall_mem_map.mpr fun e he => (hcalls e he).x)

/-! ## Steepest descent -/

namespace SteepestDescent

variable {m : SteepestDescent S} {s s' : State V S} {session session' : Session σ V S} {k : Nat}
  {cs : List (SearchCall σ V S)}

/-- All vectors of the state have dimension `n`. -/
structure State.Sized (n : Nat) (s : State V S) : Prop where
  current : s.current.Sized n
  spare : s.spare.Sized n
  unlisted : ∀ v ∈ s.unlisted, Space.dimension v = n

theorem State.Sized.call {found : Search V S} {after : Session σ V S} (hs : s.Sized n)
    (hf : f.Keeps n) (made : (s.call session found after).Made m.lineSearch f) :
    (s.call session found after).Sized n := by
  refine made.sized hf ?_ hs.current hs.spare ?_
  · exact (SizedSpace.dimension_scale _ _).trans hs.current.gradient
  · show ∀ v ∈ Recorder.contents (s.history.map fun _ => s.unlisted), _
    cases s.history with
    | none => simp
    | some old => exact hs.unlisted

theorem Iterates.sized (h : Iterates m f k s session cs s' session') (hf : f.Keeps n)
    (hs : s.Sized n) : (∀ c ∈ cs, c.Sized n) ∧ s'.Sized n := by
  induction h with
  | exhausted => exact ⟨by simp, hs⟩
  | converged => exact ⟨by simp, hs⟩
  | failed _ made _ =>
    have hc := hs.call hf made
    exact ⟨List.forall_mem_singleton.mpr hc, hs.current, hc.next, by simp [State.count]⟩
  | moved _ made _ _ ih =>
    have hc := hs.call hf made
    obtain ⟨hrest, hlast⟩ := ih ⟨hc.next, hs.current, by simp [State.moved, State.count]⟩
    exact ⟨List.forall_mem_cons.mpr ⟨hc, hrest⟩, hlast⟩

omit [SizedSpace V S] in
theorem record_sized {c : SearchCall σ V S} (h : c.Sized n) : (record c).Sized n :=
  ⟨h.current, h.samples⟩

end SteepestDescent

/-! ## Conjugate gradients -/

namespace PolakRibiere

variable {m : PolakRibiere S} {s s' : State V S} {session session' : Session σ V S} {k : Nat}
  {cs : List (SearchCall σ V S)}

/-- All vectors of the state have dimension `n`. -/
structure State.Sized (n : Nat) (s : State V S) : Prop where
  current : s.current.Sized n
  spare : s.spare.Sized n
  direction : Space.dimension s.direction = n

theorem State.Sized.call {found : Search V S} {after : Session σ V S} (hs : s.Sized n)
    (hf : f.Keeps n) (made : (s.call session found after).Made m.lineSearch f) :
    (s.call session found after).Sized n :=
  made.sized hf hs.direction hs.current hs.spare (by simp [State.call])

theorem dimension_turn {direction old new turned : V} (hd : Space.dimension direction = n)
    (ho : Space.dimension old = n) (hn : Space.dimension new = n)
    (h : turn direction old new = .ok turned) : Space.dimension turned = n := by
  rw [turn_of_dimension hd ho hn] at h
  cases h
  exact (SizedSpace.dimension_combine (hd.trans hn.symm) _ _).trans hd

theorem Iterates.sized (h : Iterates m f k s session cs s' session') (hf : f.Keeps n)
    (hs : s.Sized n) : (∀ c ∈ cs, c.Sized n) ∧ s'.Sized n := by
  induction h with
  | exhausted => exact ⟨by simp, hs⟩
  | converged => exact ⟨by simp, hs⟩
  | restarted _ made _ _ ih =>
    have hc := hs.call hf made
    have hd := (SizedSpace.dimension_scale _ (-1 : S)).trans hs.current.gradient
    obtain ⟨hrest, hlast⟩ := ih ⟨hs.current, hc.next, hd⟩
    exact ⟨List.forall_mem_cons.mpr ⟨hc, hrest⟩, hlast⟩
  | moved _ made _ turned _ ih =>
    have hc := hs.call hf made
    have hd := dimension_turn hs.direction hs.current.gradient hc.next.gradient turned
    obtain ⟨hrest, hlast⟩ := ih ⟨hc.next, hs.current, hd⟩
    exact ⟨List.forall_mem_cons.mpr ⟨hc, hrest⟩, hlast⟩

end PolakRibiere

/-! ## Descent at a fixed rate -/

theorem FixedRate.Iterates.sized {m : FixedRate S} {s s' : State V S}
    {session session' : Session σ V S} {k : Nat} {es : List (Evaluation V S)}
    (h : Iterates m f k s session es s' session') (hf : f.Keeps n) (hs : s.current.Sized n) :
    (∀ e ∈ es, e.Sized n) ∧ s'.current.Sized n := by
  induction h with
  | exhausted => exact ⟨by simp, hs⟩
  | converged => exact ⟨by simp, hs⟩
  | next _ x_eq buffer_eq call _ ih =>
    have hray := SizedSpace.dimension_ray (hs.x.trans hs.gradient.symm) (-m.rate)
    have he := call.sized hf (x_eq ▸ hray.trans hs.x) (buffer_eq ▸ hs.gradient)
    obtain ⟨hrest, hlast⟩ := ih he.point
    exact ⟨List.forall_mem_cons.mpr ⟨he, hrest⟩, hlast⟩

/-! ## Whole runs -/

/-- What a run calls the objective with, what it records and what it returns has dimension `n`. -/
structure SizedRun (f : Objective σ V S) (n : Nat) (history : History V S)
    (session : Session σ V S) (minimum : Minimum V S) (history' : History V S)
    (session' : Session σ V S) : Prop where
  calls : ∃ es, session.Extends f es session' ∧ ∀ e ∈ es, e.Sized n
  point : minimum.point.Sized n
  records : ∃ records, history' = history.recordAll records ∧ ∀ r ∈ records, r.Sized n

variable {x₀ : V} {history history' : History V S} {minimum : Minimum V S}
  {session session' : Session σ V S}

theorem FixedRate.sizedRun {m : FixedRate S} (hf : f.Keeps (Space.dimension x₀))
    (h : m.run f x₀ history session = .ok (minimum, history') session') :
    SizedRun f (Space.dimension x₀) history session minimum history' session' := by
  obtain ⟨first, es, s, session₁, session₂, log, hx, hb, hext, hiter, rfl, rfl, rfl⟩ := run_ok h
  have hfirst := hext.sized hf (congrArg Space.dimension hx) (congrArg Space.dimension hb)
  obtain ⟨hes, hlast⟩ := hiter.sized hf hfirst.point
  have hcalls : ∀ e ∈ first :: es, e.Sized (Space.dimension x₀) :=
    List.forall_mem_cons.mpr ⟨hfirst, hes⟩
  refine ⟨⟨first :: es, (hext.trans hiter.calls).setLog log, hcalls⟩, hlast,
    (first :: es).map m.record, ?_, ?_⟩
  · rw [hiter.history_eq, List.map_cons, ← Recorder.recordAll_record]
    rfl
  · exact List.forall_mem_map.mpr fun e he => ⟨(hcalls e he).point, by simp [record]⟩

/-- A run with line searches, all vectors of which have the dimension of the start. -/
theorem SteepestDescent.sizedRun {m : SteepestDescent S} (hf : f.Keeps (Space.dimension x₀))
    (h : m.run f x₀ history session = .ok (minimum, history') session') :
    SizedRun f (Space.dimension x₀) history session minimum history' session' ∧
    ∃ first cs s, m.Unrolls f x₀ history session first cs s session' ∧
      (∀ c ∈ cs, c.Sized (Space.dimension x₀)) ∧ s.Sized (Space.dimension x₀) := by
  obtain ⟨first, cs, s, hunrolls, rfl, rfl⟩ := run_unrolls h
  obtain ⟨before, after, log, hext, hiter, rfl⟩ := hunrolls.loop
  have hfirst := hext.sized hf (congrArg Space.dimension hunrolls.x_eq)
    (congrArg Space.dimension hunrolls.buffer_eq)
  obtain ⟨hcs, hlast⟩ := hiter.sized hf ⟨hfirst.point, hfirst.point, by simp [State.initial]⟩
  refine ⟨⟨⟨_, hunrolls.calls, ?_⟩, hlast.current, cs.map record, hiter.history_eq, ?_⟩, first, cs,
    s, hunrolls, hcs, hlast⟩
  · refine List.forall_mem_cons.mpr ⟨hfirst, fun e he => ?_⟩
    obtain ⟨c, hc, hec⟩ := List.mem_flatMap.mp he
    exact (hcs c hc).evaluations e hec
  · exact List.forall_mem_map.mpr fun c hc => record_sized (hcs c hc)

theorem PolakRibiere.sizedRun {m : PolakRibiere S} (hf : f.Keeps (Space.dimension x₀))
    (h : m.run f x₀ history session = .ok (minimum, history') session') :
    SizedRun f (Space.dimension x₀) history session minimum history' session' ∧
    ∃ first cs s, m.Unrolls f x₀ history session first cs s session' ∧
      (∀ c ∈ cs, c.Sized (Space.dimension x₀)) ∧ s.Sized (Space.dimension x₀) := by
  obtain ⟨first, cs, s, hunrolls, rfl, rfl⟩ := run_unrolls h
  obtain ⟨before, after, log, hext, hiter, rfl⟩ := hunrolls.loop
  have hfirst := hext.sized hf (congrArg Space.dimension hunrolls.x_eq)
    (congrArg Space.dimension hunrolls.buffer_eq)
  have hd := (SizedSpace.dimension_scale first.gradient (-1 : S)).trans hfirst.gradient
  obtain ⟨hcs, hlast⟩ := hiter.sized hf ⟨hfirst.point, hfirst.point, hd⟩
  refine ⟨⟨⟨_, hunrolls.calls, ?_⟩, hlast.current, cs.map record ++ [s.final], ?_, ?_⟩, first, cs,
    s, hunrolls, hcs, hlast⟩
  · refine List.forall_mem_cons.mpr ⟨hfirst, fun e he => ?_⟩
    obtain ⟨c, hc, hec⟩ := List.mem_flatMap.mp he
    exact (hcs c hc).evaluations e hec
  · rw [hiter.history_eq, Recorder.record_recordAll]
    rfl
  · refine List.forall_mem_append.mpr ⟨List.forall_mem_map.mpr fun c hc => ?_, ?_⟩
    · exact ⟨(hcs c hc).current, by simp [record]⟩
    · exact List.forall_mem_singleton.mpr ⟨hlast.current, by simp [State.final]⟩

/-- Runs from `x₀` return, whatever their budgets are and whether they have a history or not, if the
objective keeps the dimension of `x₀`. All vectors that they handle have that dimension: the points
at which the objective is called, its buffers and gradients, what is recorded and returned, and, in
runs with line searches, the directions, the points and the samples of every search, and all that is
left at the end. -/
theorem runs_keep_dimension (hf : f.Keeps (Space.dimension x₀)) (history : History V S)
    (session : Session σ V S) :
    (∀ m : FixedRate S, ∃ minimum history' session',
      m.run f x₀ history session = .ok (minimum, history') session' ∧
      SizedRun f (Space.dimension x₀) history session minimum history' session') ∧
    (∀ m : SteepestDescent S, ∃ minimum history' session',
      m.run f x₀ history session = .ok (minimum, history') session' ∧
      SizedRun f (Space.dimension x₀) history session minimum history' session' ∧
      ∃ first cs s, m.Unrolls f x₀ history session first cs s session' ∧
        (∀ c ∈ cs, c.Sized (Space.dimension x₀)) ∧ s.Sized (Space.dimension x₀)) ∧
    ∀ m : PolakRibiere S, ∃ minimum history' session',
      m.run f x₀ history session = .ok (minimum, history') session' ∧
      SizedRun f (Space.dimension x₀) history session minimum history' session' ∧
      ∃ first cs s, m.Unrolls f x₀ history session first cs s session' ∧
        (∀ c ∈ cs, c.Sized (Space.dimension x₀)) ∧ s.Sized (Space.dimension x₀) := by
  refine ⟨fun m => ?_, fun m => ?_, fun m => ?_⟩
  · obtain ⟨minimum, history', session', h⟩ := m.run_total hf.answers rfl rfl history session
    exact ⟨minimum, history', session', h, FixedRate.sizedRun hf h⟩
  · obtain ⟨minimum, history', session', h⟩ := m.run_total hf.answers rfl rfl history session
    exact ⟨minimum, history', session', h, SteepestDescent.sizedRun hf h⟩
  · obtain ⟨minimum, history', session', h⟩ := m.run_total hf.answers rfl rfl history session
    exact ⟨minimum, history', session', h, PolakRibiere.sizedRun hf h⟩

/-- In the bowl all vectors have two coordinates, with no budget for trials as well. -/
theorem runs_in_bowl_keep_dimension :
    bowl.Keeps (Space.dimension ([1, 1] : List Float)) ∧
    (∃ minimum history' session',
      { PolakRibiere.standard with stopping := briefly }.run bowl [1, 1] (some #[]) { state := 0 } =
        .ok (minimum, history') session' ∧
      minimum.point.x.length = 2 ∧
      ∀ e ∈ session'.evaluations.toList, e.x.length = 2 ∧ e.buffer.length = 2) ∧
    ∃ minimum history' session',
      { SteepestDescent.standard with
        lineSearch := { StrongWolfe.standard with doublings := 0 } }.run bowl [1, 1] none
          { state := 0 } = .ok (minimum, history') session' ∧
      ∃ first cs s, SteepestDescent.Unrolls
        { SteepestDescent.standard with lineSearch := { StrongWolfe.standard with doublings := 0 } }
        bowl [1, 1] none { state := 0 } first cs s session' ∧ ∀ c ∈ cs, c.direction.length = 2 := by
  have htwo : bowl.Keeps 2 := by
    intro x buffer st hx hb
    match x, hx with
    | [u, v], _ => rfl
  have hf : bowl.Keeps (Space.dimension ([1, 1] : List Float)) := htwo
  refine ⟨hf, ?_, ?_⟩
  · obtain ⟨-, -, hconjugate⟩ := runs_keep_dimension hf (some #[]) { state := 0 }
    obtain ⟨minimum, history', session', h, hsized, -⟩ :=
      hconjugate { PolakRibiere.standard with stopping := briefly }
    obtain ⟨es, hext, hes⟩ := hsized.calls
    obtain rfl : session'.evaluations.toList = es := hext.evaluations_eq
    exact ⟨minimum, history', session', h, hsized.point.x, fun e he =>
      ⟨(hes e he).x, (hes e he).buffer⟩⟩
  · obtain ⟨-, hdescent, -⟩ := runs_keep_dimension hf none { state := 0 }
    obtain ⟨minimum, history', session', h, -, first, cs, s, hcs, hsized, -⟩ :=
      hdescent { SteepestDescent.standard with
        lineSearch := { StrongWolfe.standard with doublings := 0 } }
    exact ⟨minimum, history', session', h, first, cs, s, hcs, fun c hc => (hsized c hc).direction⟩

end Descent
