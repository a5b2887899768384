import Descent.Minimizer.FixedRate
import Descent.Proofs.Traces

/-!
# The steps of a descent at a fixed rate

* `FixedRate.Iterates`: the loop as a relation, with the calls of the objective that it makes.
  `FixedRate.iterate_ok` and `FixedRate.run_ok` find it in a run.
* `Iterates.calls`, `Iterates.current_eq`, `Iterates.history_eq`, `Iterates.iterations_eq`: the loop
  makes these calls and no others, ends at the point of the last one, and records and counts all of
  them.
-/

namespace Descent

variable {σ V S : Type} [Scalar S] [Space V S]

namespace FixedRate

variable {m : FixedRate S} {f : Objective σ V S} {s s' : State V S}
  {session session' : Session σ V S} {n : Nat} {es : List (Evaluation V S)}

/-- The record of an evaluated point. -/
def record (m : FixedRate S) (e : Evaluation V S) : Record V S where
  point := e.point
  step := m.rate
  samples := #[]

theorem step_ok (h : m.step f s session = .ok s' session') :
    ∃ e : Evaluation V S, e.x = Space.ray s.current.x s.current.gradient (-m.rate) ∧
      e.buffer = s.current.gradient ∧ session.Extends f [e] session' ∧
      s' = m.arrive e.point (s.iterations + 1) s.history := by
  unfold step at h
  obtain ⟨x, s₁, hray, h₁⟩ := bind_ok h
  obtain ⟨hx, rfl⟩ := liftM_ok hray
  obtain ⟨-, rfl⟩ := tryRay_ok hx
  obtain ⟨p, s₂, heval, h₂⟩ := bind_ok h₁
  obtain ⟨e, hex, heb, rfl, hext, -⟩ := evaluate_ok heval
  rw [bind_of_ok (note_run _ _)] at h₂
  obtain ⟨rfl, rfl⟩ := pure_ok h₂
  exact ⟨e, hex, heb, hext.setLog _, rfl⟩

/-- At most `n` steps, with the calls that they make. -/
inductive Iterates (m : FixedRate S) (f : Objective σ V S) : Nat → State V S →
    Session σ V S → List (Evaluation V S) → State V S → Session σ V S → Prop where
  | exhausted {s : State V S} {session : Session σ V S} : Iterates m f 0 s session [] s session
  | converged {n : Nat} {s : State V S} {session : Session σ V S}
      (small : m.stopping.Converged s.current) : Iterates m f (n + 1) s session [] s session
  | next {n : Nat} {s s' : State V S} {session session₁ session' : Session σ V S}
      {e : Evaluation V S} {es : List (Evaluation V S)}
      (large : ¬m.stopping.Converged s.current)
      (x_eq : e.x = Space.ray s.current.x s.current.gradient (-m.rate))
      (buffer_eq : e.buffer = s.current.gradient) (call : session.Extends f [e] session₁)
      (rest : Iterates m f n (m.arrive e.point (s.iterations + 1) s.history) session₁ es s'
        session') :
      Iterates m f (n + 1) s session (e :: es) s' session'

theorem iterate_ok (h : m.iterate f n s session = .ok s' session') :
    ∃ es, Iterates m f n s session es s' session' := by
  induction n generalizing s session with
  | zero =>
    obtain ⟨rfl, rfl⟩ := pure_ok h
    exact ⟨[], .exhausted⟩
  | succ n ih =>
    unfold iterate at h
    split at h
    · rename_i hsmall
      obtain ⟨rfl, rfl⟩ := pure_ok h
      exact ⟨[], .converged hsmall⟩
    · rename_i hlarge
      obtain ⟨s₁, session₁, hstep, hrest⟩ := bind_ok h
      obtain ⟨es, hes⟩ := ih hrest
      obtain ⟨e, hx, hb, hcall, rfl⟩ := step_ok hstep
      exact ⟨e :: es, .next hlarge hx hb hcall hes⟩

namespace Iterates

variable (h : Iterates m f n s session es s' session')
include h

theorem calls : session.Extends f es session' := by
  induction h with
  | exhausted => exact .refl f _
  | converged => exact .refl f _
  | next _ _ _ call _ ih => exact call.trans ih

theorem current_eq : s'.current = (es.getLast?.map (·.point)).getD s.current := by
  induction h with
  | exhausted => rfl
  | converged => rfl
  | next _ _ _ _ _ ih => rw [ih, List.getLast?_cons]; cases List.getLast? _ <;> rfl

theorem history_eq : s'.history = s.history.recordAll (es.map m.record) := by
  induction h with
  | exhausted => simp
  | converged => simp
  | next _ _ _ _ _ ih => rw [ih]; simp [arrive, record]

theorem iterations_eq : s'.iterations = s.iterations + es.length := by
  induction h with
  | exhausted => rfl
  | converged => rfl
  | next _ _ _ _ _ ih =>
    rw [ih, List.length_cons]
    simp only [arrive]
    omega

end Iterates

/-- A run evaluates the start, makes its steps and reports. -/
theorem run_ok {x₀ : V} {history history' : History V S} {minimum : Minimum V S}
    (h : m.run f x₀ history session = .ok (minimum, history') session') :
    ∃ first es s session₁ session₂ log, first.x = x₀ ∧ first.buffer = x₀ ∧
      session.Extends f [first] session₁ ∧
      Iterates m f (m.stopping.budget 100 x₀) (m.arrive first.point 0 history) session₁ es s
        session₂ ∧
      session' = { session₂ with log } ∧ history' = s.history ∧
      minimum = { point := s.current, iterations := s.iterations,
                  converged := m.stopping.Converged s.current } := by
  unfold run at h
  obtain ⟨p, session₁, heval, h₁⟩ := bind_ok h
  obtain ⟨first, hx, hb, rfl, hext, -⟩ := evaluate_ok heval
  obtain ⟨s, session₂, hiter, h₂⟩ := bind_ok h₁
  obtain ⟨es, hes⟩ := iterate_ok hiter
  obtain ⟨minimum, session₃, hend, h₃⟩ := bind_ok h₂
  obtain ⟨hpair, rfl⟩ := pure_ok h₃
  cases hpair
  cases hend
  exact ⟨first, es, s, session₁, session₂, _, hx, hb, hext, hes, rfl, rfl, rfl⟩

end FixedRate

end Descent
