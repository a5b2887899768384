import Descent.Proofs.LinearSystem.Limits
import Descent.Proofs.LinearSystem.Refusals
import Descent.Proofs.Minimizer.Endings
import Descent.Proofs.Recording

/-!
# The limit only truncates

Two runs of a method that differ in their limits of iterations. For any scalars, any objective and
all inputs for which the run with the larger limit returns.

* `Reading`: what the results and the records of a method tell.
* `Reading.Truncated`: the results of the two runs. They are the same if the smaller limit is
  enough, and else the one is cut off where the other goes on.
* `Reading.Truncates`: the runs of a method with and without a history, for all limits. A run that
  needs more iterations is cut off (`Reading.Truncates.cut`).
* `truncated_of_loop`: for a program that repeats a step the comparison comes down to its loop.
* `loop_truncated`, `truncates` of each method: where a longer loop goes on, and from that its runs.
* `limits_truncate`: the statement for all four methods.
-/

namespace Descent

/-! ## Two runs -/

/-- What the results `α` and the records `β` of a method tell, about places `π`, and which calls `γ`
of an objective are listed in a state `τ`. -/
structure Reading (τ α β π γ : Type) where
  /-- How many iterations a result reports. -/
  iterations : α → Nat
  /-- Whether a result reports that the run has converged. -/
  converged : α → Bool
  /-- Where a run has ended. -/
  arrival : α → π
  /-- Where the iteration of a record has begun. -/
  departure : β → π
  /-- The calls in order. -/
  calls : τ → List γ

namespace Reading

variable {ε τ α β π γ : Type}

/-- Two runs from the same state with the same old records. The one that returns `short` may do `n`
iterations, the one that returns `long` at least as many. -/
inductive Truncated (r : Reading τ α β π γ) (n : Nat) (old : Array β) (short : α × Array β) (s : τ)
    (long : α × Array β) (s' : τ) : Prop where
  /-- The smaller limit is enough, and both runs do the same. -/
  | enough (within : r.iterations long.1 ≤ n) (result : short = long)
      (calls : r.calls s = r.calls s')
  /-- The shorter run stops after `n` iterations, in the place where the longer one begins the next
  one. Up to there both have recorded the same. -/
  | cut (common : List β) (next : β) (beyond : n < r.iterations long.1)
      (spent : r.iterations short.1 = n) (unconverged : r.converged short.1 = false)
      (calls : r.calls s <+: r.calls s') (length : common.length = n)
      (shortRecords : old.toList ++ common <+: short.2.toList)
      (longRecords : old.toList ++ (common ++ [next]) <+: long.2.toList)
      (stands : r.departure next = r.arrival short.1)

section Truncated

variable {r : Reading τ α β π γ} {n : Nat} {old : Array β} {short long : α × Array β} {s s' : τ}

theorem Truncated.of_le (h : r.Truncated n old short s long s') (hle : r.iterations long.1 ≤ n) :
    short = long ∧ r.calls s = r.calls s' := by
  cases h with
  | enough _ result calls => exact ⟨result, calls⟩
  | cut _ _ beyond => exact absurd beyond (Nat.not_lt.mpr hle)

theorem Truncated.of_lt (h : r.Truncated n old short s long s') (hlt : n < r.iterations long.1) :
    r.iterations short.1 = n ∧ r.converged short.1 = false ∧ r.calls s <+: r.calls s' := by
  cases h with
  | enough within => exact absurd within (Nat.not_le.mpr hlt)
  | cut _ _ _ spent unconverged calls => exact ⟨spent, unconverged, calls⟩

end Truncated

/-- What a run returns with a larger limit it returns with a smaller one, except that it may be cut
off. Without a history the runs return what they return with one. -/
structure Truncates (r : Reading τ α β π γ) (plain : Nat → EStateM ε τ α)
    (recording : Nat → Array β → EStateM ε τ (α × Array β)) : Prop where
  recorded : ∀ n N, n ≤ N → ∀ old s long s', recording N old s = .ok long s' →
    ∃ short s₁, recording n old s = .ok short s₁ ∧ r.Truncated n old short s₁ long s'
  unrecorded : ∀ n N, n ≤ N → ∀ s long s', plain N s = .ok long s' →
    ∃ short s₁ records records', plain n s = .ok short s₁ ∧
      recording n #[] s = .ok (short, records) s₁ ∧
      recording N #[] s = .ok (long, records') s' ∧
      r.Truncated n #[] (short, records) s₁ (long, records') s'

/-- A run without a history that does more iterations than a smaller limit allows is cut off
there. -/
theorem Truncates.cut {r : Reading τ α β π γ} {plain : Nat → EStateM ε τ α}
    {recording : Nat → Array β → EStateM ε τ (α × Array β)} (h : r.Truncates plain recording)
    {n N : Nat} {long : α} {s s' : τ} (hle : n ≤ N) (hlong : plain N s = .ok long s')
    (hlt : n < r.iterations long) :
    ∃ short s₁, plain n s = .ok short s₁ ∧ r.iterations short = n ∧ r.converged short = false ∧
      r.calls s₁ <+: r.calls s' := by
  obtain ⟨short, s₁, _, _, hshort, -, -, htruncated⟩ := h.unrecorded n N hle s long s' hlong
  exact ⟨short, s₁, hshort, htruncated.of_lt hlt⟩

/-- Runs without a history are only not watched. -/
theorem Truncates.of_watches {r : Reading τ α β π γ} {plain : Nat → EStateM ε τ α}
    {recording : Nat → Array β → EStateM ε τ (α × Array β)}
    (hwatches : ∀ n, Watches (plain n) (recording n))
    (hrecorded : ∀ n N, n ≤ N → ∀ old s long s', recording N old s = .ok long s' →
      ∃ short s₁, recording n old s = .ok short s₁ ∧ r.Truncated n old short s₁ long s') :
    r.Truncates plain recording where
  recorded := hrecorded
  unrecorded n N hle s long s' h := by
    have hplain : ∀ k, plain k = Prod.fst <$> recording k #[] := fun k =>
      ((hwatches k).same #[]).symm
    rw [hplain, map_eq_pure_bind] at h
    obtain ⟨⟨long, records'⟩, s₂, hlong, hpure⟩ := bind_ok h
    obtain ⟨rfl, rfl⟩ := pure_ok hpure
    obtain ⟨⟨short, records⟩, s₁, hshort, htruncated⟩ := hrecorded n N hle #[] s _ _ hlong
    refine ⟨short, s₁, records, records', ?_, hshort, hlong, htruncated⟩
    rw [hplain, map_eq_pure_bind, bind_of_ok hshort]
    rfl

end Reading

/-! ## Minimizers -/

variable {σ V S : Type}

/-- A minimizer is at a point before an iteration and in the end. -/
def minima : Reading (Session σ V S) (Minimum V S) (Record V S) (Point V S) (Evaluation V S) where
  iterations := Minimum.iterations
  converged := Minimum.converged
  arrival := Minimum.point
  departure := Record.point
  calls session := session.evaluations.toList

/-- Reports behind the last calls change nothing. -/
theorem truncated_setLog {n : Nat} {old : Array (Record V S)}
    {short long : Minimum V S × Array (Record V S)} {session session' : Session σ V S}
    (h : minima.Truncated n old short session long session') (log log' : Array (Event S)) :
    minima.Truncated n old short { session with log } long { session' with log := log' } := by
  cases h with
  | enough within result calls => exact .enough within result calls
  | cut common next beyond spent unconverged calls length shortRecords longRecords stands =>
    exact .cut common next beyond spent unconverged calls length shortRecords longRecords stands

/-- A run was cut off behind the records `common`, and a longer one has the record `next` there. -/
theorem truncated_of_histories {f : Objective σ V S} {n : Nat} {old : Array (Record V S)}
    {common behind ahead : List (Record V S)} {next : Record V S} {history history' : History V S}
    {short long : Minimum V S} {session session' : Session σ V S} {es : List (Evaluation V S)}
    (hbefore : history = (Recorder.recordAll (some old) common).recordAll behind)
    (hafter : history' = (Recorder.recordAll (some old) (common ++ [next])).recordAll ahead)
    (hlength : common.length = n) (hspent : short.iterations = n) (hopen : short.converged = false)
    (hbeyond : n < long.iterations) (hcalls : session.Extends f es session')
    (hstands : next.point = short.point) :
    minima.Truncated n old (short, history.contents) session (long, history'.contents)
      session' := by
  subst hbefore hafter
  exact .cut common next hbeyond hspent hopen ⟨es, hcalls.evaluations_eq.symm⟩ hlength
    (Recorder.prefix_contents_recordAll _ _ _) (Recorder.prefix_contents_recordAll _ _ _) hstands

/-- Two programs that begin in the same way, make steps in a loop and report. If their loops differ
in their budgets only, then what remains to be shown is what the longer loop does after the shorter
one was cut off. -/
theorem truncated_of_loop {ι α : Type} {stop halt : α → Prop} [DecidablePred stop]
    [DecidablePred halt] {step : α → Run σ V S α} {loop : Nat → Nat → α → Run σ V S α}
    {first : Run σ V S ι} {start : ι → α}
    {report : α → Run σ V S (Minimum V S × Array (Record V S))} {old : Array (Record V S)}
    {n N : Nat} (outcome : α → Minimum V S × Array (Record V S)) (hle : n ≤ N)
    (hloop : ∀ k, Loops stop halt step (loop k))
    (hcount : ∀ s session t session', step s session = .ok t session' →
      (outcome t).1.iterations = (outcome s).1.iterations + 1)
    (hstart : ∀ p, (outcome (start p)).1.iterations = 0)
    (hreport : ∀ s session, ∃ log, report s session = .ok (outcome s) { session with log })
    (hcut : ∀ p session t after s' after' k, loop n n (start p) session = .ok t after →
      (outcome t).1.iterations = n → ¬stop t → loop N (k + 1) t after = .ok s' after' →
      minima.Truncated n old (outcome t) after (outcome s') after')
    {long : Minimum V S × Array (Record V S)} {session session' : Session σ V S}
    (hlong : (first >>= fun p => loop N N (start p) >>= report) session = .ok long session') :
    ∃ short session₁,
      (first >>= fun p => loop n n (start p) >>= report) session = .ok short session₁ ∧
      minima.Truncated n old short session₁ long session' := by
  obtain ⟨p, before, hfirst, hrest⟩ := bind_ok hlong
  obtain ⟨s', after', hloopN, hreported⟩ := bind_ok hrest
  obtain ⟨t, after, hloopn, hcase⟩ := (hloop n).shorter (hloop N) hcount hle hloopN
  rw [hstart, Nat.zero_add] at hcase
  obtain ⟨log', hs'⟩ := hreport s' after'
  obtain ⟨rfl, rfl⟩ : long = outcome s' ∧ session' = { after' with log := log' } := by
    rw [hs'] at hreported
    cases hreported
    exact ⟨rfl, rfl⟩
  obtain ⟨log, ht⟩ := hreport t after
  refine ⟨outcome t, { after with log }, ?_, ?_⟩
  · rw [bind_of_ok hfirst, bind_of_ok hloopn, ht]
  obtain ⟨hwithin, rfl, rfl⟩ | ⟨hspent, hvisits⟩ := hcase
  · exact .enough hwithin rfl rfl
  · obtain ⟨hgo, k, hresumes⟩ := hvisits.resumes (hloop N)
    rw [hresumes] at hloopN
    exact truncated_setLog (hcut p before t after s' after' k hloopn hspent hgo hloopN) log log'

section Methods

variable [Scalar S] [Space V S]

/-- The same tolerance with the limit `n`. -/
def Stopping.limitedTo (stopping : Stopping S) (n : Nat) : Stopping S :=
  { stopping with limit := some n }

/-- What a run returns that stops at `p` with this history. -/
def Stopping.outcome (stopping : Stopping S) (p : Point V S) (iterations : Nat)
    (history : History V S) : Minimum V S × Array (Record V S) :=
  ({ point := p, iterations, converged := stopping.Converged p }, history.contents)

variable {f : Objective σ V S} {x₀ : V} {session session' : Session σ V S}
  {old : Array (Record V S)} {n N k : Nat} {p : Point V S} {before after after' : Session σ V S}

namespace FixedRate

variable {m : FixedRate S} {s s' t : State V S} {es : List (Evaluation V S)}

/-- The same method with the limit `n`. -/
def limitedTo (m : FixedRate S) (n : Nat) : FixedRate S :=
  { m with stopping := m.stopping.limitedTo n }

/-- What a run returns whose loop ends in the state. -/
def outcome (m : FixedRate S) (s : State V S) : Minimum V S × Array (Record V S) :=
  m.stopping.outcome s.current s.iterations s.history

theorem Iterates.exists_cons (h : Iterates m f (n + 1) s session es s' session')
    (large : ¬m.stopping.Converged s.current) : ∃ e rest, es = e :: rest := by
  cases h with
  | converged small => exact absurd small large
  | next => exact ⟨_, _, rfl⟩

/-- The point where a loop stands is that of its last record, which is the one of the start if there
were no steps. -/
theorem Iterates.exists_concat (h : Iterates m f n s session es s' session') {r : Record V S}
    (hr : r.point = s.current) :
    ∃ init last, r :: es.map m.record = init ++ [last] ∧ last.point = s'.current := by
  rcases List.eq_nil_or_concat es with rfl | ⟨init, last, rfl⟩
  · exact ⟨[], r, rfl, hr.trans h.current_eq.symm⟩
  · rw [List.concat_eq_append] at h ⊢
    refine ⟨r :: init.map m.record, m.record last, ?_, ?_⟩
    · rw [List.map_append, List.map_singleton, List.cons_append]
    · rw [h.current_eq, List.getLast?_append]
      rfl

/-- The shorter loop has recorded its last point already. -/
theorem loop_truncated
    (hshort : (m.limitedTo n).iterate f n (m.arrive p 0 (some old)) before = .ok t after)
    (hspent : t.iterations = n) (hlarge : ¬m.stopping.Converged t.current)
    (hrest : (m.limitedTo N).iterate f (k + 1) t after = .ok s' after') :
    minima.Truncated n old (m.outcome t) after (m.outcome s') after' := by
  obtain ⟨es, hes⟩ := iterate_ok hshort
  obtain ⟨ds, hds⟩ := iterate_ok hrest
  obtain ⟨e, rest, rfl⟩ := hds.exists_cons hlarge
  let start : Record V S := { point := p, step := m.rate, samples := #[] }
  obtain ⟨init, last, hsplit, hlast⟩ := hes.exists_concat (r := start) rfl
  have hcount : es.length = n := by
    rw [← hspent, hes.iterations_eq]
    exact (Nat.zero_add _).symm
  have hlength : init.length = n := by
    have h := congrArg List.length hsplit
    rw [List.length_cons, List.length_map, List.length_append, List.length_singleton] at h
    omega
  have hbefore : t.history = Recorder.recordAll (some old) (init ++ [last]) := by
    rw [hes.history_eq, ← hsplit, ← Recorder.recordAll_record]
    rfl
  have hafter : s'.history =
      (Recorder.recordAll (some old) (init ++ [last])).recordAll ((e :: rest).map m.record) := by
    rw [← hbefore]
    exact hds.history_eq
  rw [Recorder.recordAll_append] at hbefore
  have hbeyond : n < s'.iterations := by
    rw [hds.iterations_eq, hspent, List.length_cons]
    omega
  exact truncated_of_histories hbefore hafter hlength hspent (decide_eq_false hlarge) hbeyond
    hds.calls hlast

/-- Runs that differ in their limits make the same steps. -/
theorem loops_limitedTo (m : FixedRate S) (n : Nat) :
    Loops (fun s : State V S => m.stopping.Converged s.current) (fun _ => False) (m.step f)
      ((m.limitedTo n).iterate f) :=
  (m.limitedTo n).loops

theorem step_iterations (h : m.step f s session = .ok s' session') :
    s'.iterations = s.iterations + 1 := by
  obtain ⟨e, -, -, -, rfl⟩ := step_ok h
  rfl

theorem minimizeWithHistory_eq (m : FixedRate S) (f : Objective σ V S) (x₀ : V)
    (old : Array (Record V S)) :
    m.minimizeWithHistory f x₀ old = evaluateFirst f x₀ >>= fun p =>
      m.iterate f (m.stopping.budget 100 x₀) (m.arrive p 0 (some old)) >>= fun s =>
        m.stopping.conclude .fixedRate s.current s.iterations >>= fun minimum =>
          pure (minimum, s.history.contents) := by
  simp only [minimizeWithHistory, run, bind_assoc, pure_bind]

theorem truncates (m : FixedRate S) (f : Objective σ V S) (x₀ : V) :
    minima.Truncates (fun n => (m.limitedTo n).minimize f x₀)
      (fun n => (m.limitedTo n).minimizeWithHistory f x₀) := by
  refine .of_watches (fun n => .of_run (fun r => (m.limitedTo n).run_behind r x₀) fun _ _ _ =>
    (m.limitedTo n).isSome_history rfl) fun n N hle old s long s' h => ?_
  simp only [minimizeWithHistory_eq] at h ⊢
  refine truncated_of_loop m.outcome hle m.loops_limitedTo
    (fun _ _ _ _ => step_iterations) (fun _ => rfl) ?_ ?_ h
  · exact fun _ _ => ⟨_, rfl⟩
  · exact fun _ _ _ _ _ _ _ => loop_truncated

end FixedRate

namespace SteepestDescent

variable {m : SteepestDescent S} {s s' t : State V S} {cs : List (SearchCall σ V S)}

/-- The same method with the limit `n`. -/
def limitedTo (m : SteepestDescent S) (n : Nat) : SteepestDescent S :=
  { m with stopping := m.stopping.limitedTo n }

/-- What a run returns whose loop ends in the state. -/
def outcome (m : SteepestDescent S) (s : State V S) : Minimum V S × Array (Record V S) :=
  m.stopping.outcome s.current s.iterations s.history

theorem Iterates.exists_cons (h : Iterates m f (n + 1) s session cs s' session')
    (large : ¬m.stopping.Converged s.current) :
    ∃ c rest, cs = c :: rest ∧ c.current = s.current := by
  cases h with
  | converged small => exact absurd small large
  | failed => exact ⟨_, _, rfl, rfl⟩
  | moved => exact ⟨_, _, rfl, rfl⟩

theorem loop_truncated
    (hshort : (m.limitedTo n).iterate f n (.initial m x₀ p (some old)) before = .ok t after)
    (hspent : t.iterations = n) (hlarge : ¬m.stopping.Converged t.current)
    (hrest : (m.limitedTo N).iterate f (k + 1) t after = .ok s' after') :
    minima.Truncated n old (m.outcome t) after (m.outcome s') after' := by
  obtain ⟨cs, hcs⟩ := iterate_ok hshort
  obtain ⟨ds, hds⟩ := iterate_ok hrest
  obtain ⟨c, rest, rfl, hc⟩ := hds.exists_cons hlarge
  have hcount : cs.length = n := by
    rw [← hspent, hcs.iterations_eq]
    exact (Nat.zero_add _).symm
  have hbefore : t.history = (Recorder.recordAll (some old) (cs.map record)).recordAll [] := by
    rw [Recorder.recordAll_nil]
    exact hcs.history_eq
  have hafter : s'.history =
      (Recorder.recordAll (some old) (cs.map record ++ [record c])).recordAll
        (rest.map record) := by
    rw [hds.history_eq, hbefore, Recorder.recordAll_nil, ← Recorder.recordAll_append,
      ← Recorder.recordAll_append, List.append_assoc]
    rfl
  have hbeyond : n < s'.iterations := by
    rw [hds.iterations_eq, hspent, List.length_cons]
    omega
  exact truncated_of_histories hbefore hafter ((List.length_map _).trans hcount) hspent
    (decide_eq_false hlarge) hbeyond hds.journey.calls hc

/-- Runs that differ in their limits make the same steps. -/
theorem loops_limitedTo (m : SteepestDescent S) (n : Nat) :
    Loops (fun s : State V S => m.stopping.Converged s.current)
      (fun s => (s.lastStep == 0) = true) (m.step f) ((m.limitedTo n).iterate f) :=
  (m.limitedTo n).loops

theorem step_iterations (h : m.step f s session = .ok s' session') :
    s'.iterations = s.iterations + 1 := by
  obtain ⟨found, after, log, -, -, rfl⟩ := step_ok h
  split <;> rfl

theorem minimizeWithHistory_eq (m : SteepestDescent S) (f : Objective σ V S) (x₀ : V)
    (old : Array (Record V S)) :
    m.minimizeWithHistory f x₀ old = evaluateFirst f x₀ >>= fun p =>
      m.iterate f (m.stopping.budget 100 x₀) (.initial m x₀ p (some old)) >>= fun s =>
        m.stopping.conclude (.searching .steepestDescent) s.current s.iterations >>= fun minimum =>
          pure (minimum, s.history.contents) := by
  simp only [minimizeWithHistory, run, bind_assoc, pure_bind]
  rfl

theorem truncates (m : SteepestDescent S) (f : Objective σ V S) (x₀ : V) :
    minima.Truncates (fun n => (m.limitedTo n).minimize f x₀)
      (fun n => (m.limitedTo n).minimizeWithHistory f x₀) := by
  refine .of_watches (fun n => .of_run (fun r => (m.limitedTo n).run_behind r x₀) fun _ _ _ =>
    (m.limitedTo n).isSome_history rfl) fun n N hle old s long s' h => ?_
  simp only [minimizeWithHistory_eq] at h ⊢
  refine truncated_of_loop m.outcome hle m.loops_limitedTo
    (fun _ _ _ _ => step_iterations) (fun _ => rfl) ?_ ?_ h
  · exact fun _ _ => ⟨_, rfl⟩
  · exact fun _ _ _ _ _ _ _ => loop_truncated

end SteepestDescent

namespace PolakRibiere

variable {m : PolakRibiere S} {s s' t : State V S} {cs : List (SearchCall σ V S)}

/-- The same method with the limit `n`. -/
def limitedTo (m : PolakRibiere S) (n : Nat) : PolakRibiere S :=
  { m with stopping := m.stopping.limitedTo n }

/-- What a run returns whose loop ends in the state. -/
def outcome (m : PolakRibiere S) (s : State V S) : Minimum V S × Array (Record V S) :=
  m.stopping.outcome s.current s.iterations (s.history.record s.final)

theorem Iterates.exists_cons (h : Iterates m f (n + 1) s session cs s' session')
    (large : ¬m.stopping.Converged s.current) :
    ∃ c rest, cs = c :: rest ∧ c.current = s.current := by
  cases h with
  | converged small => exact absurd small large
  | restarted => exact ⟨_, _, rfl, rfl⟩
  | moved => exact ⟨_, _, rfl, rfl⟩

/-- The last record of the shorter run stands where the longer run has that of an iteration. -/
theorem loop_truncated
    (hshort : (m.limitedTo n).iterate f n (.initial m p (some old)) before = .ok t after)
    (hspent : t.iterations = n) (hlarge : ¬m.stopping.Converged t.current)
    (hrest : (m.limitedTo N).iterate f (k + 1) t after = .ok s' after') :
    minima.Truncated n old (m.outcome t) after (m.outcome s') after' := by
  obtain ⟨cs, hcs⟩ := iterate_ok hshort
  obtain ⟨ds, hds⟩ := iterate_ok hrest
  obtain ⟨c, rest, rfl, hc⟩ := hds.exists_cons hlarge
  have hcount : cs.length = n := by
    rw [← hspent, hcs.iterations_eq]
    exact (Nat.zero_add _).symm
  have hbefore : t.history.record t.final =
      (Recorder.recordAll (some old) (cs.map record)).recordAll [t.final] := by
    rw [hcs.history_eq, Recorder.record_recordAll, Recorder.recordAll_append]
    rfl
  have hafter : s'.history.record s'.final =
      (Recorder.recordAll (some old) (cs.map record ++ [record c])).recordAll
        (rest.map record ++ [s'.final]) := by
    rw [hds.history_eq, hcs.history_eq, Recorder.record_recordAll, ← Recorder.recordAll_append,
      ← Recorder.recordAll_append, List.append_assoc]
    rfl
  have hbeyond : n < s'.iterations := by
    rw [hds.iterations_eq, hspent, List.length_cons]
    omega
  exact truncated_of_histories hbefore hafter ((List.length_map _).trans hcount) hspent
    (decide_eq_false hlarge) hbeyond hds.journey.calls hc

/-- Runs that differ in their limits make the same steps. -/
theorem loops_limitedTo (m : PolakRibiere S) (n : Nat) :
    Loops (fun s : State V S => m.stopping.Converged s.current) (fun _ => False) (m.step f)
      ((m.limitedTo n).iterate f) :=
  (m.limitedTo n).loops

theorem step_iterations (h : m.step f s session = .ok s' session') :
    s'.iterations = s.iterations + 1 := by
  obtain ⟨found, after, log, -, -, ⟨-, rfl⟩ | ⟨-, direction, -, rfl⟩⟩ := step_ok h
  · rfl
  · rfl

theorem minimizeWithHistory_eq (m : PolakRibiere S) (f : Objective σ V S) (x₀ : V)
    (old : Array (Record V S)) :
    m.minimizeWithHistory f x₀ old = evaluateFirst f x₀ >>= fun p =>
      m.iterate f (m.stopping.budget 20 x₀) (.initial m p (some old)) >>= fun s =>
        m.stopping.conclude (.searching .conjugateGradient) s.current s.iterations >>=
          fun minimum => pure (minimum, (s.history.record s.final).contents) := by
  simp only [minimizeWithHistory, run, bind_assoc, pure_bind]
  rfl

theorem truncates (m : PolakRibiere S) (f : Objective σ V S) (x₀ : V) :
    minima.Truncates (fun n => (m.limitedTo n).minimize f x₀)
      (fun n => (m.limitedTo n).minimizeWithHistory f x₀) := by
  refine .of_watches (fun n => .of_run (fun r => (m.limitedTo n).run_behind r x₀) fun _ _ _ =>
    (m.limitedTo n).isSome_history rfl) fun n N hle old s long s' h => ?_
  simp only [minimizeWithHistory_eq] at h ⊢
  refine truncated_of_loop m.outcome hle m.loops_limitedTo
    (fun _ _ _ _ => step_iterations) (fun _ => rfl) ?_ ?_ h
  · exact fun _ _ => ⟨_, rfl⟩
  · exact fun _ _ _ _ _ _ _ => loop_truncated

end PolakRibiere

end Methods

/-! ## The linear solver -/

/-- The solver is at an iterate before an iteration and in the end. It calls no objective. -/
def solutions : Reading (Array (SolverEvent S)) (Solution S) (SolverRecord S) (List S) Empty where
  iterations := Solution.iterations
  converged := Solution.converged
  arrival := Solution.x
  departure := SolverRecord.x
  calls _ := []

namespace ConjugateGradient

variable [Scalar S] {m : ConjugateGradient S} {a : DenseMatrix S} {s' t : State S}
  {steps steps' n N : Nat}

theorem run_truncated {b x : List S} {old : Array (SolverRecord S)}
    (hle : n ≤ N) (h : Outcome (m.limitedTo n) a (.initial a b x (some old)) n steps t)
    (h' : Outcome (m.limitedTo N) a (.initial a b x (some old)) N steps' s')
    (log log' : Array (SolverEvent S)) :
    solutions.Truncated n old (t.solution (m.limitedTo n), (t.record t.lastStep).contents) log
      (s'.solution (m.limitedTo N), (s'.record s'.lastStep).contents) log' := by
  have hmin := h.iterations_eq_min h' hle rfl
  rcases Nat.lt_or_ge n s'.iterations with hlt | hge
  · have hcount : t.iterations = n := by omega
    have hopen : ¬(m.limitedTo n).Converged ((State.initial a b x (some old)).head a n) :=
      (h'.arrives rfl).unsolved n hlt
    have hstate := (h.state_eq rfl).trans (congrArg _ hcount)
    rw [State.after_of_unsolved hopen] at hstate
    have hshort := (h.arrives rfl).prefix_record rfl List.prefix_rfl t.lastStep
    have hlong := (h'.arrives rfl).prefix_record rfl (State.entries_prefix hlt) s'.lastStep
    rw [hcount] at hshort
    rw [State.entries_succ] at hlong
    refine .cut _ _ hlt hcount ?_ List.prefix_rfl (State.length_entries n) hshort hlong ?_
    · exact decide_eq_false (hstate ▸ hopen)
    · exact congrArg State.x hstate.symm
  · have hcount : t.iterations = s'.iterations := by omega
    have hstate : t = s' := by
      rw [h.state_eq rfl, h'.state_eq rfl, hcount]
      rfl
    subst hstate
    exact .enough hge rfl rfl

theorem truncates (m : ConjugateGradient S) (a : DenseMatrix S) (b x : List S) :
    solutions.Truncates (fun n => (m.limitedTo n).solve a b x)
      (fun n => (m.limitedTo n).solveWithHistory a b x) := by
  refine .of_watches (fun n => .of_run (fun r => (m.limitedTo n).run_behind r a b x) fun _ _ _ =>
    (m.limitedTo n).isSome_history a rfl) ?_
  rintro n N hle old log ⟨solution, records⟩ log' h
  obtain ⟨history', hrun, rfl⟩ := contents_ok h
  obtain ⟨d, steps', s', ha, hb, hx, hend', rfl, rfl⟩ := run_ok hrun
  obtain ⟨steps, t, hend, hshort⟩ := run_run (m := m.limitedTo n) ha hb hx (some old) log
  exact ⟨_, _, bind_of_ok hshort, run_truncated hle hend hend' _ _⟩

end ConjugateGradient

/-- Two runs of a method that differ in their limits only, where the one with the larger limit
returns. If that does not do more iterations than the smaller limit allows, then both return the
same, record the same and call the objective in the same way. If it does, then the other one returns
after as many iterations as it may and has not converged. Its calls of the objective are the first
of the longer run, which records the same iterations before it begins another one, from the point
that the shorter run returns. The solver refuses the same systems with all limits. -/
theorem limits_truncate [Scalar S] [Space V S] (f : Objective σ V S) (x₀ : V) :
    (∀ m : FixedRate S, minima.Truncates (fun n => (m.limitedTo n).minimize f x₀)
      fun n => (m.limitedTo n).minimizeWithHistory f x₀) ∧
    (∀ m : SteepestDescent S, minima.Truncates (fun n => (m.limitedTo n).minimize f x₀)
      fun n => (m.limitedTo n).minimizeWithHistory f x₀) ∧
    (∀ m : PolakRibiere S, minima.Truncates (fun n => (m.limitedTo n).minimize f x₀)
      fun n => (m.limitedTo n).minimizeWithHistory f x₀) ∧
    ∀ (m : ConjugateGradient S) (a : DenseMatrix S) (b x : List S),
      solutions.Truncates (fun n => (m.limitedTo n).solve a b x)
        (fun n => (m.limitedTo n).solveWithHistory a b x) ∧
      ∀ n N history log e log', (m.limitedTo N).run a b x history log = .error e log' →
        (m.limitedTo n).run a b x history log = .error e log' :=
  ⟨fun m => m.truncates f x₀, fun m => m.truncates f x₀, fun m => m.truncates f x₀,
    fun m a b x => ⟨m.truncates a b x, fun _ _ _ _ _ _ h =>
      ConjugateGradient.run_error_iff.mpr (ConjugateGradient.run_error_iff.mp h)⟩⟩

/-- Five steps at most, a quarter of the gradient. -/
def shortFixed : FixedRate Float where
  rate := 0.25
  stopping := { tolerance := 1e-5, limit := some 5 }

/-- A matrix that stretches one of two coordinates. -/
def stretched : DenseMatrix Float where
  columnCount := 2
  rows := [[1, 0], [0, 2]]
  length_of_mem := by simp

/-- With one iteration descent at a fixed rate and conjugate gradients are cut off where three are
made, and the linear solver where two are. Steepest descent has its last search in the second
iteration, so that three are as good as five. A right side that is too short is refused with every
limit. -/
theorem limits_truncate_on_fickle :
    (∃ short session₁ long session',
      (shortFixed.limitedTo 1).minimize fickle 0.5 { state := 0 } = .ok short session₁ ∧
      (shortFixed.limitedTo 3).minimize fickle 0.5 { state := 0 } = .ok long session' ∧
      long.iterations = 3 ∧ short.iterations = 1 ∧ short.converged = false ∧
      session₁.evaluations.toList <+: session'.evaluations.toList) ∧
    (∃ result session₁ session',
      (shortDescent.limitedTo 3).minimizeWithHistory fickle 0.5 #[] { state := 0 } =
        .ok result session₁ ∧
      (shortDescent.limitedTo 5).minimizeWithHistory fickle 0.5 #[] { state := 0 } =
        .ok result session' ∧
      result.1.iterations = 2 ∧
      session₁.evaluations.toList = session'.evaluations.toList) ∧
    (∃ short session₁ long session',
      (shortConjugate.limitedTo 1).minimize fickle 0.5 { state := 0 } = .ok short session₁ ∧
      (shortConjugate.limitedTo 3).minimize fickle 0.5 { state := 0 } = .ok long session' ∧
      long.iterations = 3 ∧ short.iterations = 1 ∧ short.converged = false ∧
      session₁.evaluations.toList <+: session'.evaluations.toList) ∧
    (∃ short log₁ long log',
      (ConjugateGradient.standard.limitedTo 1).solve stretched [1, 1] [0, 0] #[] =
        .ok short log₁ ∧
      (ConjugateGradient.standard.limitedTo 2).solve stretched [1, 1] [0, 0] #[] =
        .ok long log' ∧
      long.iterations = 2 ∧ short.iterations = 1 ∧ short.converged = false) ∧
    (ConjugateGradient.standard.limitedTo 1).run stretched [1] [0, 0] none #[] =
      .error (.dimensionMismatch 2 1) #[] := by
  obtain ⟨hfixed, hdescent, hconjugate, hlinear⟩ := limits_truncate fickle 0.5
  refine ⟨?_, ?_, ?_, ?_, ?_⟩
  · have hrun : Succeeds (fun minimum _ => minimum.iterations == 3)
        ((shortFixed.limitedTo 3).minimize fickle 0.5 { state := 0 }) = true := by decide +kernel
    obtain ⟨long, session', hlong, htest⟩ := Succeeds.exists_ok hrun
    have hthree : long.iterations = 3 := by simpa using htest
    obtain ⟨short, session₁, hshort, hcut⟩ := (hfixed shortFixed).cut (n := 1) (by decide) hlong
      (Nat.lt_of_lt_of_eq (by decide) hthree.symm)
    exact ⟨short, session₁, long, session', hshort, hlong, hthree, hcut⟩
  · have hrun : Succeeds (fun result _ => result.1.iterations == 2)
        ((shortDescent.limitedTo 5).minimizeWithHistory fickle 0.5 #[] { state := 0 }) = true := by
      decide +kernel
    obtain ⟨long, session', hlong, htest⟩ := Succeeds.exists_ok hrun
    have htwo : long.1.iterations = 2 := by simpa using htest
    obtain ⟨short, session₁, hshort, htruncated⟩ :=
      (hdescent shortDescent).recorded 3 5 (by decide) _ _ _ _ hlong
    obtain ⟨rfl, hcalls⟩ := htruncated.of_le (htwo.trans_le (by decide))
    exact ⟨_, session₁, session', hshort, hlong, htwo, hcalls⟩
  · have hrun : Succeeds (fun minimum _ => minimum.iterations == 3)
        ((shortConjugate.limitedTo 3).minimize fickle 0.5 { state := 0 }) = true := by
      decide +kernel
    obtain ⟨long, session', hlong, htest⟩ := Succeeds.exists_ok hrun
    have hthree : long.iterations = 3 := by simpa using htest
    obtain ⟨short, session₁, hshort, hcut⟩ := (hconjugate shortConjugate).cut (n := 1) (by decide)
      hlong (Nat.lt_of_lt_of_eq (by decide) hthree.symm)
    exact ⟨short, session₁, long, session', hshort, hlong, hthree, hcut⟩
  · have hrun : Succeeds (fun solution _ => solution.iterations == 2)
        ((ConjugateGradient.standard.limitedTo 2).solve stretched [1, 1] [0, 0] #[]) = true := by
      decide +kernel
    obtain ⟨long, log', hlong, htest⟩ := Succeeds.exists_ok hrun
    have htwo : long.iterations = 2 := by simpa using htest
    obtain ⟨short, log₁, hshort, hspent, hopen, -⟩ :=
      (hlinear .standard stretched [1, 1] [0, 0]).1.cut (n := 1) (by decide) hlong
        (Nat.lt_of_lt_of_eq (by decide) htwo.symm)
    exact ⟨short, log₁, long, log', hshort, hlong, htwo, hspent, hopen⟩
  · exact (hlinear .standard stretched [1] [0, 0]).2 1 2 none #[] _ _ rfl

end Descent
