import Descent.Proofs.Minimizer.Searches
import Descent.Space.Line

/-!
# How runs with line searches end

For any scalars, and for an objective of which nothing is known: its gradients may hold anything
that is not a number, and then no comparison with the tolerance holds.

* `SteepestDescent.Unrolls`, `PolakRibiere.Unrolls`: a run with its first call of the objective and
  the searches of its loop. `run_unrolls` finds them in a run that returns.
* `Iterates.length_le`, `Iterates.ending`: a loop does not make more searches than it may, and
  stops for a short gradient, for want of iterations or, with steepest descent, after a failed
  search.
* `Stopping.Ends`: what the endings of both methods have in common.
* `runs_end`: the statement for both methods.
-/

namespace Descent

variable {σ V S : Type} [Scalar S] [Space V S]

/-! ## Steepest descent -/

namespace SteepestDescent

variable {m : SteepestDescent S} {f : Objective σ V S} {s s' : State V S}
  {session session' : Session σ V S} {n : Nat} {cs : List (SearchCall σ V S)}

theorem Iterates.length_le (h : Iterates m f n s session cs s' session') : cs.length ≤ n := by
  induction h with
  | exhausted => exact Nat.le_refl 0
  | converged => exact Nat.zero_le _
  | @failed n => exact Nat.succ_le_succ n.zero_le
  | moved _ _ _ _ ih => exact Nat.succ_le_succ ih

/-- Why a loop has stopped. -/
theorem Iterates.ending (h : Iterates m f n s session cs s' session') :
    m.stopping.Converged s'.current ∨ cs.length = n ∨
      ∃ c, cs.getLast? = some c ∧ (c.found.step == 0) = true := by
  induction h with
  | exhausted => exact .inr (.inl rfl)
  | converged small => exact .inl small
  | failed _ _ zero => exact .inr (.inr ⟨_, rfl, zero⟩)
  | moved _ _ _ _ ih =>
    refine ih.imp_right (Or.imp (congrArg (· + 1)) ?_)
    rintro ⟨c, hlast, hzero⟩
    exact ⟨c, by rw [List.getLast?_cons, hlast]; rfl, hzero⟩

/-- A run from `x₀` that begins with `history` calls the objective at its start and makes the
searches `cs` in its loop, which ends in the state `s`. Only a report follows. -/
structure Unrolls (m : SteepestDescent S) (f : Objective σ V S) (x₀ : V) (history : History V S)
    (session : Session σ V S) (first : Evaluation V S) (cs : List (SearchCall σ V S))
    (s : State V S) (session' : Session σ V S) : Prop where
  x_eq : first.x = x₀
  buffer_eq : first.buffer = x₀
  loop : ∃ before after log, session.Extends f [first] before ∧
    Iterates m f (m.stopping.budget 100 x₀) (.initial m x₀ first.point history) before cs s after ∧
    session' = { after with log }

theorem run_unrolls {x₀ : V} {history history' : History V S} {minimum : Minimum V S}
    (h : m.run f x₀ history session = .ok (minimum, history') session') :
    ∃ first cs s, m.Unrolls f x₀ history session first cs s session' ∧ history' = s.history ∧
      minimum = { point := s.current, iterations := s.iterations,
                  converged := m.stopping.Converged s.current } := by
  obtain ⟨first, cs, s, before, after, log, hx, hb, hext, hiter, hlog, hhistory, hmin⟩ := run_ok h
  exact ⟨first, cs, s, ⟨hx, hb, before, after, log, hext, hiter, hlog⟩, hhistory, hmin⟩

/-- The calls of a run are the first one and those of its searches, in order. -/
theorem Unrolls.calls {x₀ : V} {history : History V S} {first : Evaluation V S}
    (h : m.Unrolls f x₀ history session first cs s session') :
    session.Extends f (first :: cs.flatMap (·.evaluations)) session' := by
  obtain ⟨before, after, log, hext, hiter, rfl⟩ := h.loop
  exact (hext.trans hiter.journey.calls).setLog log

end SteepestDescent

/-! ## Conjugate gradients -/

namespace PolakRibiere

variable {m : PolakRibiere S} {f : Objective σ V S} {s s' : State V S}
  {session session' : Session σ V S} {n : Nat} {cs : List (SearchCall σ V S)}

theorem Iterates.length_le (h : Iterates m f n s session cs s' session') : cs.length ≤ n := by
  induction h with
  | exhausted => exact Nat.le_refl 0
  | converged => exact Nat.zero_le _
  | restarted _ _ _ _ ih => exact Nat.succ_le_succ ih
  | moved _ _ _ _ _ ih => exact Nat.succ_le_succ ih

/-- Why a loop has stopped. A failed search is no reason. -/
theorem Iterates.ending (h : Iterates m f n s session cs s' session') :
    m.stopping.Converged s'.current ∨ cs.length = n := by
  induction h with
  | exhausted => exact .inr rfl
  | converged small => exact .inl small
  | restarted _ _ _ _ ih => exact ih.imp_right (congrArg (· + 1))
  | moved _ _ _ _ _ ih => exact ih.imp_right (congrArg (· + 1))

/-- A run from `x₀` that begins with `history` calls the objective at its start and makes the
searches `cs` in its loop, which ends in the state `s`. Only a report follows. -/
structure Unrolls (m : PolakRibiere S) (f : Objective σ V S) (x₀ : V) (history : History V S)
    (session : Session σ V S) (first : Evaluation V S) (cs : List (SearchCall σ V S))
    (s : State V S) (session' : Session σ V S) : Prop where
  x_eq : first.x = x₀
  buffer_eq : first.buffer = x₀
  loop : ∃ before after log, session.Extends f [first] before ∧
    Iterates m f (m.stopping.budget 20 x₀) (.initial m first.point history) before cs s after ∧
    session' = { after with log }

theorem run_unrolls {x₀ : V} {history history' : History V S} {minimum : Minimum V S}
    (h : m.run f x₀ history session = .ok (minimum, history') session') :
    ∃ first cs s, m.Unrolls f x₀ history session first cs s session' ∧
      history' = s.history.record s.final ∧
      minimum = { point := s.current, iterations := s.iterations,
                  converged := m.stopping.Converged s.current } := by
  obtain ⟨first, cs, s, before, after, log, hx, hb, hext, hiter, hlog, hhistory, hmin⟩ := run_ok h
  exact ⟨first, cs, s, ⟨hx, hb, before, after, log, hext, hiter, hlog⟩, hhistory, hmin⟩

/-- The calls of a run are the first one and those of its searches, in order. -/
theorem Unrolls.calls {x₀ : V} {history : History V S} {first : Evaluation V S}
    (h : m.Unrolls f x₀ history session first cs s session') :
    session.Extends f (first :: cs.flatMap (·.evaluations)) session' := by
  obtain ⟨before, after, log, hext, hiter, rfl⟩ := h.loop
  exact (hext.trans hiter.journey.calls).setLog log

end PolakRibiere

/-! ## Both methods -/

/-- What all runs have in common that come to `minimum` by the searches `cs`: the searches are
counted and within the budget, each of them starts where the gradient is not short enough, and the
run has converged if and only if the gradient at its result is. -/
structure Stopping.Ends (stopping : Stopping S) (budget : Nat) (cs : List (SearchCall σ V S))
    (minimum : Minimum V S) : Prop where
  iterations_eq : minimum.iterations = cs.length
  iterations_le : minimum.iterations ≤ budget
  large : ∀ c ∈ cs, ¬Space.norm c.current.gradient ≤ stopping.tolerance
  converged_iff : minimum.converged = true ↔
    Space.norm minimum.point.gradient ≤ stopping.tolerance

theorem SteepestDescent.Unrolls.ends {m : SteepestDescent S} {f : Objective σ V S} {x₀ : V}
    {history : History V S} {session session' : Session σ V S} {first : Evaluation V S}
    {cs : List (SearchCall σ V S)} {s : State V S}
    (h : m.Unrolls f x₀ history session first cs s session') :
    m.stopping.Ends (m.stopping.budget 100 x₀) cs
      { point := s.current, iterations := s.iterations,
        converged := m.stopping.Converged s.current } := by
  obtain ⟨before, after, log, -, hiter, -⟩ := h.loop
  have hcount : s.iterations = cs.length := hiter.iterations_eq.trans (Nat.zero_add _)
  exact ⟨hcount, hcount.trans_le hiter.length_le, fun c hc => (hiter.against c hc).2,
    decide_eq_true_iff⟩

theorem PolakRibiere.Unrolls.ends {m : PolakRibiere S} {f : Objective σ V S} {x₀ : V}
    {history : History V S} {session session' : Session σ V S} {first : Evaluation V S}
    {cs : List (SearchCall σ V S)} {s : State V S}
    (h : m.Unrolls f x₀ history session first cs s session') :
    m.stopping.Ends (m.stopping.budget 20 x₀) cs
      { point := s.current, iterations := s.iterations,
        converged := m.stopping.Converged s.current } := by
  obtain ⟨before, after, log, -, hiter, -⟩ := h.loop
  have hcount : s.iterations = cs.length := hiter.iterations_eq.trans (Nat.zero_add _)
  exact ⟨hcount, hcount.trans_le hiter.length_le, hiter.large, decide_eq_true_iff⟩

/-- When a run that returns has stopped. It has made as many searches as it reports, not more than
its limit allows or else, without a limit, twenty or a hundred for every dimension. None of the
points from which they started has a gradient that is short enough; whether the result has one is
what the run reports. If it has none, then all iterations were used up, or the last search of
steepest descent has found no step. -/
theorem runs_end (f : Objective σ V S) (x₀ : V) (history : History V S)
    (session : Session σ V S) :
    (∀ (m : PolakRibiere S) minimum history' session',
      m.run f x₀ history session = .ok (minimum, history') session' →
        ∃ first cs s, m.Unrolls f x₀ history session first cs s session' ∧
          minimum.point = s.current ∧
          m.stopping.Ends (m.stopping.limit.getD (20 * Space.dimension x₀)) cs minimum ∧
          (minimum.converged = false →
            minimum.iterations = m.stopping.limit.getD (20 * Space.dimension x₀))) ∧
    (∀ (m : SteepestDescent S) minimum history' session',
      m.run f x₀ history session = .ok (minimum, history') session' →
        ∃ first cs s, m.Unrolls f x₀ history session first cs s session' ∧
          minimum.point = s.current ∧
          m.stopping.Ends (m.stopping.limit.getD (100 * Space.dimension x₀)) cs minimum ∧
          (minimum.converged = false →
            minimum.iterations = m.stopping.limit.getD (100 * Space.dimension x₀) ∨
            ∃ c, cs.getLast? = some c ∧ (c.found.step == 0) = true)) := by
  constructor
  · intro m minimum history' session' h
    obtain ⟨first, cs, s, hrun, -, rfl⟩ := PolakRibiere.run_unrolls h
    obtain ⟨before, after, log, -, hiter, -⟩ := hrun.loop
    refine ⟨first, cs, s, hrun, rfl, hrun.ends, fun hopen => ?_⟩
    have hlong : ¬m.stopping.Converged s.current := of_decide_eq_false hopen
    exact hrun.ends.iterations_eq.trans (hiter.ending.resolve_left hlong)
  · intro m minimum history' session' h
    obtain ⟨first, cs, s, hrun, -, rfl⟩ := SteepestDescent.run_unrolls h
    obtain ⟨before, after, log, -, hiter, -⟩ := hrun.loop
    refine ⟨first, cs, s, hrun, rfl, hrun.ends, fun hopen => ?_⟩
    have hlong : ¬m.stopping.Converged s.current := of_decide_eq_false hopen
    exact (hiter.ending.resolve_left hlong).imp_left hrun.ends.iterations_eq.trans

/-- The objective `x²` for its first two calls. From the third one on its value is `1`
everywhere. -/
def fickle : Objective Nat Float Float := fun x _ => do
  let calls ← getModify (· + 1)
  return (if calls < 2 then x * x else 1, 2 * x)

/-- Searches that may try one step and one bisection. -/
def shortSearch : StrongWolfe Float where
  c₁ := 0.1
  c₂ := 0.75
  doublings := 1
  bisections := 1

/-- Five iterations at most, with short searches from a quarter on. -/
def shortDescent : SteepestDescent Float where
  lineSearch := shortSearch
  firstStep := 0.25
  stopping := { tolerance := 1e-5, limit := some 5 }

/-- Three iterations at most, with short searches from a quarter on. -/
def shortConjugate : PolakRibiere Float where
  lineSearch := shortSearch
  firstStep := 0.25
  stopping := { tolerance := 1e-5, limit := some 3 }

/-- From a half the second search of both methods fails. Conjugate gradients go on until their
iterations are used up, steepest descent stops there. -/
theorem runs_end_on_fickle :
    (∃ minimum history' session',
      shortConjugate.run fickle 0.5 (some #[]) { state := 0 } =
        .ok (minimum, history') session' ∧
      minimum.converged = false ∧ minimum.iterations = 3 ∧ session'.state = 6) ∧
    ∃ minimum history' session',
      shortDescent.run fickle 0.5 (some #[]) { state := 0 } = .ok (minimum, history') session' ∧
      minimum.converged = false ∧ minimum.iterations = 2 ∧ session'.state = 4 ∧
      ∃ first cs s, shortDescent.Unrolls fickle 0.5 (some #[]) { state := 0 } first cs s session' ∧
        cs.length = 2 ∧ ∃ c, cs.getLast? = some c ∧ (c.found.step == 0) = true := by
  obtain ⟨hconjugate, hdescent⟩ := runs_end fickle 0.5 (some #[]) { state := 0 }
  constructor
  · have hrun : Succeeds (fun result session' => !result.1.converged && session'.state == 6)
        (shortConjugate.run fickle 0.5 (some #[]) { state := 0 }) = true := by decide +kernel
    obtain ⟨⟨minimum, history'⟩, session', h, htest⟩ := Succeeds.exists_ok hrun
    obtain ⟨hopen, hcalls⟩ : minimum.converged = false ∧ session'.state = 6 := by simpa using htest
    obtain ⟨first, cs, s, -, -, -, hspent⟩ := hconjugate _ minimum history' session' h
    exact ⟨minimum, history', session', h, hopen, hspent hopen, hcalls⟩
  · have hrun : Succeeds (fun result session' => !result.1.converged &&
          result.1.iterations == 2 && session'.state == 4)
        (shortDescent.run fickle 0.5 (some #[]) { state := 0 }) = true := by decide +kernel
    obtain ⟨⟨minimum, history'⟩, session', h, htest⟩ := Succeeds.exists_ok hrun
    obtain ⟨⟨hopen, hcount⟩, hcalls⟩ :
        (minimum.converged = false ∧ minimum.iterations = 2) ∧ session'.state = 4 := by
      simpa using htest
    obtain ⟨first, cs, s, hcs, -, hends, hstop⟩ := hdescent _ minimum history' session' h
    have hfive : minimum.iterations ≠ shortDescent.stopping.limit.getD (100 * 1) := by
      rw [hcount]
      decide
    exact ⟨minimum, history', session', h, hopen, hcount, hcalls, first, cs, s, hcs,
      hends.iterations_eq.symm.trans hcount, (hstop hopen).resolve_left hfive⟩

end Descent
