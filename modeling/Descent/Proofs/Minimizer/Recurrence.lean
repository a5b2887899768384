import Descent.Proofs.Minimizer.Totality
import Descent.Proofs.StrongWolfe.Slices

/-!
# The recurrence of conjugate gradients

For any scalars, and for an objective whose values and gradients depend on the point alone. The loop
of the method holds two points and swaps them at every move; the gradient of one is the buffer for
the trials from the other. Its runs are nevertheless those of a sequence without buffers.

* `PolakRibiere.Stage`: where the sequence stands before a search. `Stage.next` is the textbook
  step.
* `PolakRibiere.stages`: the sequence from a start.
* `PolakRibiere.State.IsAt`: the state of the loop shows a stage. It does not mention the spare
  point, on which nothing depends.
* `PolakRibiere.Follows`: iterations of the loop go through the sequence, from one stage to another.
  All iterations of a run do (`PolakRibiere.Iterates.follow`).
* `PolakRibiere.run_follows_stages`: a run returns, and shows the sequence up to its end.
-/

namespace Descent

variable {σ V S : Type} [Scalar S] [Space V S] {f : Objective σ V S}

/-! ## Searches -/

namespace SearchCall.Made

variable {F : ScalarField V S} {rule : StrongWolfe S} {c : SearchCall σ V S} {x : V}

/-- A search of a run finds what the search without buffers finds. -/
theorem explored (h : c.Made rule f) (hf : f.Computes F.value F.gradient)
    (hx : c.current = F.point x) :
    c.found.phase = (rule.explore F x c.direction c.first).2 ∧
      c.evaluations.map (·.point) = (rule.explore F x c.direction c.first).1.map fun t =>
        F.point (Space.ray x c.direction t.step) := by
  obtain ⟨qs, middle, hd, he, -⟩ := h.driven
  rw [hx] at hd
  obtain ⟨hexplore, hpoints⟩ := hd.explored hf
  change rule.explore F x c.direction c.first = _ at hexplore
  rw [hexplore, he, List.map_map]
  exact ⟨rfl, hpoints⟩

/-- A search that has found a step leaves what the function has there. -/
theorem next_eq (h : c.Made rule f) (hf : f.Computes F.value F.gradient) (hs : c.Succeeded) :
    c.found.next = F.point (Space.ray c.current.x c.direction c.found.step) := by
  obtain ⟨q, hq, -⟩ := h.accepted hs
  rw [hq.next_eq, hq.step_eq, ← hq.along.x_eq]
  exact h.calls.calls.points hf q.evaluation hq.mem

end SearchCall.Made

namespace PolakRibiere

theorem turn_ok {direction old new turned : V} (h : turn direction old new = .ok turned) :
    turned = Space.combine direction (beta old new) new (-1) := by
  unfold turn at h
  obtain ⟨change, hchange, h₁⟩ := check_bind_ok h
  obtain ⟨-, rfl⟩ := tryRay_ok hchange
  obtain ⟨overlap, hoverlap, h₂⟩ := check_bind_ok h₁
  obtain ⟨-, rfl⟩ := tryDot_ok hoverlap
  exact (tryCombine_ok h₂).2

/-! ## The sequence -/

/-- Where the recurrence stands before a search. -/
structure Stage (V S : Type) where
  x : V
  direction : V
  /-- The step that the search tries first. -/
  first : S

variable (m : PolakRibiere S) (F : ScalarField V S)

namespace Stage

/-- A new beginning at `x`, against the gradient. -/
def fresh (x : V) : Stage V S where
  x
  direction := Space.scale (F.gradient x) (-1)
  first := m.firstStep

variable (z : Stage V S)

/-- The search from a stage: its trials and the phase in which it ends. -/
def search : List (Trial S) × Phase S :=
  m.lineSearch.explore F z.x z.direction z.first

/-- The step that the search finds. -/
def step : S := (z.search m F).2.step

/-- What the search evaluates, in order. -/
def evaluated : List (Point V S) :=
  (z.search m F).1.map fun t => F.point (Space.ray z.x z.direction t.step)

/-- The stage after the step `a`. -/
def move (a : S) : Stage V S where
  x := Space.ray z.x z.direction a
  direction :=
    let new := F.gradient (Space.ray z.x z.direction a)
    Space.combine z.direction (beta (F.gradient z.x) new) new (-1)
  first := a

/-- The stage after the search. -/
def next : Stage V S :=
  if z.step m F == 0 then fresh m F z.x else z.move F (z.step m F)

variable {m F z} in
theorem next_of_step {a : S} (hstep : z.step m F = a) (hne : (a == 0) = false) :
    z.next m F = z.move F a := by
  rw [next, hstep, if_neg (ne_true_of_eq_false hne)]

end Stage

/-- The sequence from a start. -/
def stages (x₀ : V) : Nat → Stage V S
  | 0 => .fresh m F x₀
  | k + 1 => (stages x₀ k).next m F

variable (x₀ : V)

/-- The step of the last search before a stage; `0` if there was none. -/
def stepBefore : Nat → S
  | 0 => 0
  | k + 1 => (m.stages F x₀ k).step m F

/-- The point of a stage. -/
def pointAt (k : Nat) : Point V S := F.point (m.stages F x₀ k).x

/-- The record of a stage, with the step taken there. -/
def recordAt (k : Nat) : Record V S where
  point := m.pointAt F x₀ k
  step := (m.stages F x₀ k).step m F
  samples := #[]

/-- The record of the stage in which a run ends, with the step that led there. -/
def lastRecordAt (k : Nat) : Record V S where
  point := m.pointAt F x₀ k
  step := m.stepBefore F x₀ k
  samples := #[]

/-- The first stage, up to the budget, whose gradient is short enough, or else the last one. -/
structure StopsAt (n : Nat) : Prop where
  within : n ≤ m.stopping.budget 20 x₀
  large : ∀ k < n, ¬m.stopping.Converged (m.pointAt F x₀ k)
  stop : m.stopping.Converged (m.pointAt F x₀ n) ∨ n = m.stopping.budget 20 x₀

/-- The state of a run from `x₀` that began with `history` shows stage `k`. -/
structure State.IsAt (history : History V S) (k : Nat) (s : State V S) : Prop where
  current_eq : s.current = m.pointAt F x₀ k
  direction_eq : s.direction = (m.stages F x₀ k).direction
  nextStep_eq : s.nextStep = (m.stages F x₀ k).first
  lastStep_eq : s.lastStep = m.stepBefore F x₀ k
  iterations_eq : s.iterations = k
  history_eq : s.history = history.recordAll ((List.range k).map (m.recordAt F x₀))

/-- The search of a run from `x₀` is that from stage `k`. -/
structure CallIsAt (k : Nat) (c : SearchCall σ V S) : Prop where
  current_eq : c.current = m.pointAt F x₀ k
  direction_eq : c.direction = (m.stages F x₀ k).direction
  phase_eq : c.found.phase = ((m.stages F x₀ k).search m F).2
  evaluations_eq : c.evaluations.map (·.point) = (m.stages F x₀ k).evaluated m F

/-! ## The loop -/

variable {m F x₀} {history : History V S} {k n : Nat} {s s' : State V S}
  {session session' after : Session σ V S} {found : Search V S} {cs : List (SearchCall σ V S)}

theorem State.initial_isAt : (State.initial m (F.point x₀) history).IsAt m F x₀ history 0 where
  current_eq := rfl
  direction_eq := rfl
  nextStep_eq := rfl
  lastStep_eq := rfl
  iterations_eq := rfl
  history_eq := (Recorder.recordAll_nil _).symm

namespace State.IsAt

variable (hs : s.IsAt m F x₀ history k) (hf : f.Computes F.value F.gradient)
  (made : (s.call session found after).Made m.lineSearch f)
include hs hf made

theorem call : CallIsAt m F x₀ k (s.call session found after) := by
  have h := made.explored hf hs.current_eq
  simp only [State.call, hs.direction_eq, hs.nextStep_eq] at h
  exact ⟨hs.current_eq, hs.direction_eq, h.1, h.2⟩

theorem step_eq : found.step = (m.stages F x₀ k).step m F :=
  congrArg Phase.step (hs.call hf made).phase_eq

theorem count_history : (s.count found.step).history =
    history.recordAll ((List.range (k + 1)).map (m.recordAt F x₀)) := by
  have hrecord : ({ point := s.current, step := found.step, samples := #[] } : Record V S) =
      m.recordAt F x₀ k := by
    rw [recordAt, ← hs.current_eq, ← hs.step_eq hf made]
  rw [List.range_succ, List.map_append, List.map_singleton, ← Recorder.record_recordAll,
    ← hs.history_eq, ← hrecord]
  rfl

/-- A failed search begins anew, as the sequence does. -/
theorem restarted (zero : (found.step == 0) = true) :
    (s.restarted m.firstStep found).IsAt m F x₀ history (k + 1) := by
  have hstep := hs.step_eq hf made
  have hnext : m.stages F x₀ (k + 1) = .fresh m F (m.stages F x₀ k).x := by
    rw [stages, Stage.next, ← hstep, if_pos zero]
  constructor
  · rw [pointAt, hnext]
    exact hs.current_eq
  · rw [hnext]
    exact congrArg (fun p => Space.scale p.gradient (-1)) hs.current_eq
  · rw [hnext]
    rfl
  · exact hstep
  · exact congrArg (· + 1) hs.iterations_eq
  · exact hs.count_history hf made

/-- A search that has found a step moves as the sequence does. -/
theorem moved {direction : V} (nonzero : (found.step == 0) = false)
    (turned : turn s.direction s.current.gradient found.next.gradient = .ok direction) :
    (s.moved found direction).IsAt m F x₀ history (k + 1) := by
  have hstep := hs.step_eq hf made
  have hnext : m.stages F x₀ (k + 1) = (m.stages F x₀ k).move F found.step :=
    Stage.next_of_step hstep.symm nonzero
  have hpoint : found.next =
      F.point (Space.ray (m.stages F x₀ k).x (m.stages F x₀ k).direction found.step) := by
    have h := made.next_eq hf nonzero
    simp only [State.call, hs.direction_eq, hs.current_eq] at h
    exact h
  constructor
  · rw [pointAt, hnext]
    exact hpoint
  · have hturn := turn_ok turned
    rw [hs.direction_eq, hs.current_eq, hpoint] at hturn
    rw [hnext]
    exact hturn
  · rw [hnext]
    rfl
  · exact hstep
  · exact congrArg (· + 1) hs.iterations_eq
  · exact hs.count_history hf made

end State.IsAt

/-- The iterations with the searches `cs`, at most `n` of them, go through the sequence from stage
`k` on and end in the state `s'`. -/
structure Follows (m : PolakRibiere S) (F : ScalarField V S) (x₀ : V) (history : History V S)
    (k n : Nat) (cs : List (SearchCall σ V S)) (s' : State V S) : Prop where
  isAt : s'.IsAt m F x₀ history (k + cs.length)
  within : cs.length ≤ n
  large : ∀ i, k ≤ i → i < k + cs.length → ¬m.stopping.Converged (m.pointAt F x₀ i)
  stop : m.stopping.Converged (m.pointAt F x₀ (k + cs.length)) ∨ cs.length = n
  evaluations_eq : (cs.flatMap (·.evaluations)).map (·.point) =
    (List.range' k cs.length).flatMap fun i => (m.stages F x₀ i).evaluated m F

/-- All iterations of a run stop where the sequence does. -/
theorem Follows.stopsAt (h : Follows m F x₀ history 0 (m.stopping.budget 20 x₀) cs s') :
    m.StopsAt F x₀ cs.length := by
  have hstop := h.stop
  rw [Nat.zero_add] at hstop
  exact ⟨h.within, fun k hk => h.large k k.zero_le ((Nat.zero_add _).symm ▸ hk), hstop⟩

/-- One more iteration before others. -/
theorem Follows.cons {c : SearchCall σ V S} (large : ¬m.stopping.Converged (m.pointAt F x₀ k))
    (evaluations : c.evaluations.map (·.point) = (m.stages F x₀ k).evaluated m F)
    (h : Follows m F x₀ history (k + 1) n cs s') :
    Follows m F x₀ history k (n + 1) (c :: cs) s' := by
  have hlength : k + (c :: cs).length = k + 1 + cs.length := by
    rw [List.length_cons]
    omega
  constructor
  · rw [hlength]
    exact h.isAt
  · exact Nat.succ_le_succ h.within
  · intro i hk hi
    rcases hk.eq_or_lt with rfl | hlt
    · exact large
    · exact h.large i hlt (hlength ▸ hi)
  · rw [hlength]
    exact h.stop.imp_right (congrArg (· + 1))
  · rw [List.flatMap_cons, List.map_append, evaluations, h.evaluations_eq]
    rfl

/-- Every iteration of the loop is a step of the sequence. -/
theorem Iterates.follow (h : Iterates m f n s session cs s' session')
    (hf : f.Computes F.value F.gradient) (hs : s.IsAt m F x₀ history k) :
    Follows m F x₀ history k n cs s' := by
  induction h generalizing k with
  | exhausted => exact ⟨hs, Nat.le_refl 0, fun _ hk hi => absurd hi hk.not_gt, .inr rfl, rfl⟩
  | converged small =>
    exact ⟨hs, Nat.zero_le _, fun _ hk hi => absurd hi hk.not_gt, .inl (hs.current_eq ▸ small), rfl⟩
  | restarted large made zero _ ih =>
    exact (ih (hs.restarted hf made zero)).cons (hs.current_eq ▸ large)
      (hs.call hf made).evaluations_eq
  | moved large made nonzero turned _ ih =>
    exact (ih (hs.moved hf made nonzero turned)).cons (hs.current_eq ▸ large)
      (hs.call hf made).evaluations_eq

/-- The searches of the loop are those from the stages of the sequence. -/
theorem Iterates.call_isAt (h : Iterates m f n s session cs s' session')
    (hf : f.Computes F.value F.gradient) (hs : s.IsAt m F x₀ history k) {i : Nat}
    {c : SearchCall σ V S} (hc : cs[i]? = some c) : CallIsAt m F x₀ (k + i) c := by
  induction h generalizing k i with
  | exhausted => cases hc
  | converged => cases hc
  | restarted _ made zero _ ih =>
    cases i with
    | zero => cases hc; exact hs.call hf made
    | succ i =>
      rw [show k + (i + 1) = k + 1 + i by omega]
      exact ih (hs.restarted hf made zero) hc
  | moved _ made nonzero turned _ ih =>
    cases i with
    | zero => cases hc; exact hs.call hf made
    | succ i =>
      rw [show k + (i + 1) = k + 1 + i by omega]
      exact ih (hs.moved hf made nonzero turned) hc

/-- A sequence that does not come to a short gradient stops where the budget ends. -/
theorem StopsAt.eq_budget (h : m.StopsAt F x₀ n)
    (hlarge : ∀ k < m.stopping.budget 20 x₀, ¬m.stopping.Converged (m.pointAt F x₀ k)) :
    n = m.stopping.budget 20 x₀ := by
  rcases h.stop with hsmall | heq
  · exact Nat.le_antisymm h.within (Nat.not_lt.mp fun hlt => hlarge n hlt hsmall)
  · exact heq

/-! ## Whole runs -/

section Runs

variable [SizedSpace V S] (hf : f.Computes F.value F.gradient)
  (hkeep : ∀ x, Space.dimension x = Space.dimension x₀ →
    Space.dimension (F.gradient x) = Space.dimension x₀)
include hkeep

/-- All vectors of the sequence have the dimension of the start. -/
theorem dimension_stages (k : Nat) :
    Space.dimension (m.stages F x₀ k).x = Space.dimension x₀ ∧
      Space.dimension (m.stages F x₀ k).direction = Space.dimension x₀ := by
  induction k with
  | zero => exact ⟨rfl, (SizedSpace.dimension_scale _ _).trans (hkeep x₀ rfl)⟩
  | succ k ih =>
    obtain ⟨hx, hdirection⟩ := ih
    rw [stages, Stage.next]
    split
    · exact ⟨hx, (SizedSpace.dimension_scale _ _).trans (hkeep _ hx)⟩
    · have hray := (SizedSpace.dimension_ray (hx.trans hdirection.symm)
        ((m.stages F x₀ k).step m F)).trans hx
      exact ⟨hray, (SizedSpace.dimension_combine (hdirection.trans (hkeep _ hray).symm) _ _).trans
        hdirection⟩

include hf

/-- After `k` iterations the loop is at stage `k`, if it has not stopped before. -/
theorem iterate_isAt (history : History V S) (session : Session σ V S)
    (hlarge : ∀ i < k, ¬m.stopping.Converged (m.pointAt F x₀ i)) :
    ∃ s session', m.iterate f k (.initial m (F.point x₀) history) session = .ok s session' ∧
      s.IsAt m F x₀ history k := by
  have hfits : (F.point x₀).Fits (Space.dimension x₀) fun _ => True := ⟨rfl, hkeep x₀ rfl, trivial⟩
  obtain ⟨s, session', hiter⟩ := iterate_total (m := m) (hf.answers hkeep) k
    (State.initial_fits hfits history) session
  obtain ⟨cs, hcs⟩ := iterate_ok hiter
  have hfollow := hcs.follow hf State.initial_isAt
  have hlength : cs.length = k := by
    rcases hfollow.stop with hsmall | hlength
    · rw [Nat.zero_add] at hsmall
      exact Nat.le_antisymm hfollow.within (Nat.not_lt.mp fun hlt => hlarge _ hlt hsmall)
    · exact hlength
  have hat := hfollow.isAt
  rw [Nat.zero_add, hlength] at hat
  exact ⟨s, session', hiter, hat⟩

end Runs

/-- The searches from the stages of the sequence take the steps of the sequence, whatever buffers
and states they are given. A run returns. It ends in the stage `n` where the sequence stops, with
the records of the stages before and one of its end. Its calls are those of the start and of the
searches, in order. After each number of iterations up to `n` the loop is at that stage. -/
theorem run_follows_stages [SizedSpace V S] (m : PolakRibiere S)
    (hf : f.Computes F.value F.gradient)
    (hkeep : ∀ x, Space.dimension x = Space.dimension x₀ →
      Space.dimension (F.gradient x) = Space.dimension x₀)
    (history : History V S) (session : Session σ V S) :
    (∀ k next samples before, ∃ found after,
      m.lineSearch.search f (m.stages F x₀ k).direction (m.pointAt F x₀ k) next
        (m.stages F x₀ k).first samples before = .ok found after ∧
      found.step = (m.stages F x₀ k).step m F) ∧
    ∃ n es session', m.StopsAt F x₀ n ∧
      m.run f x₀ history session =
        .ok ({ point := m.pointAt F x₀ n, iterations := n,
               converged := m.stopping.Converged (m.pointAt F x₀ n) },
             history.recordAll ((List.range n).map (m.recordAt F x₀) ++ [m.lastRecordAt F x₀ n]))
          session' ∧
      session.Extends f es session' ∧
      es.map (·.point) = F.point x₀ ::
        (List.range n).flatMap (fun k => (m.stages F x₀ k).evaluated m F) ∧
      ∃ session₁, evaluateFirst f x₀ session = .ok (F.point x₀) session₁ ∧
        ∀ k ≤ n, ∃ s after,
          m.iterate f k (.initial m (F.point x₀) history) session₁ = .ok s after ∧
          s.IsAt m F x₀ history k := by
  constructor
  · intro k next samples before
    obtain ⟨hx, hdirection⟩ := dimension_stages (m := m) hkeep k
    obtain ⟨found, after, hsearch, hphase⟩ := m.lineSearch.search_explored hf
      (fun y hy => (hkeep y (hy.trans hx)).trans hx.symm) (hdirection.trans hx.symm) next samples
      before
    exact ⟨found, after, hsearch, congrArg Phase.step hphase⟩
  · obtain ⟨minimum, history', session', hrun⟩ :=
      m.run_total (hf.answers hkeep) rfl trivial history session
    obtain ⟨first, cs, s, session₁, session₂, log, hx, -, hext, hiter, rfl, rfl, rfl⟩ := run_ok hrun
    have hfirst : first.point = F.point x₀ := by
      rw [hext.calls.points hf first List.mem_cons_self, hx]
    rw [hfirst] at hiter
    have hfollow := hiter.follow hf State.initial_isAt
    have hat := hfollow.isAt
    rw [Nat.zero_add] at hat
    have hfinal : s.final = m.lastRecordAt F x₀ cs.length := by
      rw [State.final, lastRecordAt, hat.current_eq, hat.lastStep_eq]
    have hcalls : session.Extends f (first :: cs.flatMap (·.evaluations)) { session₂ with log } :=
      (hext.trans hiter.journey.calls).setLog log
    refine ⟨cs.length, _, _, hfollow.stopsAt, ?_, hcalls, ?_, ?_⟩
    · rw [hrun, hfinal, hat.history_eq, Recorder.record_recordAll, hat.current_eq,
        hat.iterations_eq]
    · rw [List.map_cons, hfirst, hfollow.evaluations_eq, List.range_eq_range']
    · obtain ⟨p, session₁, heval, -⟩ :=
        evaluateFirst_total (hf.answers hkeep) rfl trivial session
      obtain ⟨e, hx, -, rfl, hcall, -⟩ := evaluate_ok heval
      rw [hcall.calls.points hf e List.mem_cons_self, hx] at heval
      exact ⟨session₁, heval, fun k hk => iterate_isAt hf hkeep history session₁ fun i hi =>
        hfollow.stopsAt.large i (hi.trans_le hk)⟩

/-- The function `(x - 1)²`. -/
def parabola : ScalarField Float Float where
  value x := (x - 1) * (x - 1)
  gradient x := 2 * (x - 1)

/-- The objective `(x - 1)²`, which counts its calls. -/
def countedParabola : Objective Nat Float Float := fun x _ => do
  modify (· + 1)
  return (parabola.value x, parabola.gradient x)

/-- From `5` one iteration with two trials leads to the minimum. -/
theorem run_follows_stages_on_parabola :
    ∃ session',
      standard.run countedParabola 5 (some #[]) { state := 0 } =
        .ok ({ point := standard.pointAt parabola 5 1, iterations := 1,
               converged := standard.stopping.Converged (standard.pointAt parabola 5 1) },
             some #[standard.recordAt parabola 5 0, standard.lastRecordAt parabola 5 1]) session' ∧
      session'.state = 3 ∧
      session'.evaluations.toList.map (·.point) =
        parabola.point 5 :: (standard.stages parabola 5 0).evaluated standard parabola := by
  have hcomputes : countedParabola.Computes parabola.value parabola.gradient := fun _ _ _ => rfl
  have hkeep : ∀ x, Space.dimension x = Space.dimension (5 : Float) →
      Space.dimension (parabola.gradient x) = Space.dimension (5 : Float) := fun _ _ => rfl
  obtain ⟨-, n, es, session', -, hrun, hext, hpoints, -⟩ :=
    run_follows_stages standard hcomputes hkeep (some #[]) { state := 0 }
  have htest : Succeeds (fun result session' => result.1.iterations == 1 && session'.state == 3)
      (standard.run countedParabola 5 (some #[]) { state := 0 }) = true := by
    decide +kernel
  rw [hrun] at htest
  obtain ⟨rfl, hcalls⟩ : n = 1 ∧ session'.state = 3 := by simpa [Succeeds] using htest
  refine ⟨session', hrun, hcalls, ?_⟩
  rw [List.range_one, List.flatMap_singleton] at hpoints
  rw [hext.evaluations_eq]
  exact hpoints

/-- The trials are those at `-3` and `1`. -/
example : ((standard.stages parabola 5 0).evaluated standard parabola).map (·.x) == [-3, 1] := by
  decide +kernel

end PolakRibiere

end Descent
