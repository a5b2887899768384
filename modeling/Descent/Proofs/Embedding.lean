import Descent.Proofs.Exact
import Descent.Proofs.Loops
import Descent.Proofs.StrongWolfe.Trials

/-!
# The same program in another space

A map between two spaces over the same scalars that keeps dimensions, operations and norms takes
whatever is done in the one space to the other. No comparison of scalars tells the two apart.

* `Carries`: a program does on the images of states what another one does. That goes with sequences,
  checks and tests, and with loops (`Loops.carries`). `Corresponds` also says that the programs
  return.
* `Embeds`: a map of spaces that keeps dimensions, operations and norms. In exact arithmetic the
  coordinates of vectors are one (`ExactSpace.embeds_toList`).
* `Point.map`, `Record.map`, `Minimum.map`, `Session.map`, `Search.map`: the images under a map of
  vectors.
* `Objective.Lifts`: an objective that does on the images of vectors what another one does on the
  vectors themselves.
* `StrongWolfe.search_carries`: a line search in the other space tries and finds the same steps.
-/

namespace Descent

/-! ## Programs on the images of states -/

section Programs

variable {ε τ τ' α α' β β' : Type} {F : τ → τ'} {G : α → α'} {H : β → β'}

/-- The result of a program, with its value and its state mapped. -/
def mapResult (F : τ → τ') (G : α → α') : EStateM.Result ε τ α → EStateM.Result ε τ' α'
  | .ok a s => .ok (G a) (F s)
  | .error e s => .error e (F s)

/-- On the images of states `q` does what `p` does: it returns the image of what `p` returns or
fails alike, and leaves the image of the state that `p` leaves. -/
def Carries (F : τ → τ') (G : α → α') (p : EStateM ε τ α) (q : EStateM ε τ' α') : Prop :=
  ∀ s, q (F s) = mapResult F G (p s)

namespace Carries

theorem pure (F : τ → τ') (G : α → α') (a : α) :
    Carries F G (Pure.pure a : EStateM ε τ α) (Pure.pure (G a)) :=
  fun _ => rfl

theorem bind {p : EStateM ε τ α} {q : EStateM ε τ' α'} {k : α → EStateM ε τ β}
    {l : α' → EStateM ε τ' β'} (h : Carries F G p q) (hk : ∀ a, Carries F H (k a) (l (G a))) :
    Carries F H (p >>= k) (q >>= l) := by
  intro s
  show EStateM.bind q l (F s) = mapResult F H (EStateM.bind p k s)
  unfold EStateM.bind
  rw [h s]
  cases p s with
  | ok a s' => exact hk a s'
  | error e s' => rfl

/-- A check whose answer is the image of the other one's. -/
theorem check (F : τ → τ') (G : α → α') (e : Except ε α) :
    Carries F G (liftM e : EStateM ε τ α) (liftM (G <$> e)) := by
  intro s
  cases e <;> rfl

/-- Two tests that hold or fail together. -/
theorem ite {c c' : Prop} [Decidable c] [Decidable c'] {p₁ p₂ : EStateM ε τ α}
    {q₁ q₂ : EStateM ε τ' α'} (hc : c' ↔ c) (h₁ : Carries F G p₁ q₁) (h₂ : Carries F G p₂ q₂) :
    Carries F G (if c then p₁ else p₂) (if c' then q₁ else q₂) := by
  by_cases h : c
  · rw [if_pos h, if_pos (hc.mpr h)]
    exact h₁
  · rw [if_neg h, if_neg (mt hc.mp h)]
    exact h₂

end Carries

/-- `p` returns from every state, and on the image of that state `q` returns the image of the result
and leaves the image of the state that `p` leaves. -/
def Corresponds (F : τ → τ') (G : α → α') (p : EStateM ε τ α) (q : EStateM ε τ' α') : Prop :=
  ∀ s, ∃ a s', p s = .ok a s' ∧ q (F s) = .ok (G a) (F s')

theorem Carries.corresponds {p : EStateM ε τ α} {q : EStateM ε τ' α'} (h : Carries F G p q)
    (hp : ∀ s, ∃ a s', p s = .ok a s') : Corresponds F G p q := by
  intro s
  obtain ⟨a, s', hrun⟩ := hp s
  refine ⟨a, s', hrun, ?_⟩
  rw [h s, hrun]
  rfl

/-- Two loops whose steps do the same and whose tests hold or fail together do the same. -/
theorem Loops.carries {stop halt : α → Prop} {stop' halt' : α' → Prop} [DecidablePred stop]
    [DecidablePred halt] [DecidablePred stop'] [DecidablePred halt'] {step : α → EStateM ε τ α}
    {step' : α' → EStateM ε τ' α'} {loop : Nat → α → EStateM ε τ α}
    {loop' : Nat → α' → EStateM ε τ' α'} (h : Loops stop halt step loop)
    (h' : Loops stop' halt' step' loop') (hstop : ∀ s, stop' (G s) ↔ stop s)
    (hhalt : ∀ s, halt' (G s) ↔ halt s) (hstep : ∀ s, Carries F G (step s) (step' (G s))) (n : Nat)
    (s : α) : Carries F G (loop n s) (loop' n (G s)) := by
  induction n generalizing s with
  | zero =>
    rw [h.zero, h'.zero]
    exact .pure F G s
  | succ n ih =>
    rw [h.succ, h'.succ]
    refine .ite (hstop s) (.pure F G s) (.bind (hstep s) fun t => ?_)
    exact .ite (hhalt t) (.pure F G t) (ih t)

end Programs

/-! ## Maps of spaces -/

variable {σ V W S : Type}

/-- `φ` keeps dimensions and norms, and the operations on vectors of one dimension. -/
structure Embeds [Space V S] [Space W S] (φ : V → W) : Prop where
  dimension (v : V) : Space.dimension (φ v) = Space.dimension v
  scale (v : V) (a : S) : Space.scale (φ v) a = φ (Space.scale v a)
  ray {v w : V} (h : Space.dimension v = Space.dimension w) (t : S) :
    Space.ray (φ v) (φ w) t = φ (Space.ray v w t)
  combine {v w : V} (h : Space.dimension v = Space.dimension w) (a b : S) :
    Space.combine (φ v) a (φ w) b = φ (Space.combine v a w b)
  dot {v w : V} (h : Space.dimension v = Space.dimension w) :
    Space.dot (φ v) (φ w) = Space.dot v w
  norm (v : V) : Space.norm (φ v) = Space.norm v

/-- Whether an operation is refused or not is seen from the dimensions alone. -/
theorem requireEqual_map {α β : Type} {m n : Nat} {G : α → β} {a : α} {b : β}
    (h : m = n → b = G a) :
    (do requireEqual m n; return b : Except LengthMismatch β) =
      G <$> (do requireEqual m n; return a : Except LengthMismatch α) := by
  by_cases hmn : m = n
  · rw [requireEqual_of_eq hmn, h hmn]
    rfl
  · rw [requireEqual_of_ne hmn]
    rfl

namespace Embeds

variable [Space V S] [Space W S] {φ : V → W} (hφ : Embeds φ)
include hφ

theorem tryDot (v w : V) : Space.tryDot (φ v) (φ w) = id <$> Space.tryDot v w := by
  unfold Space.tryDot
  rw [hφ.dimension, hφ.dimension]
  exact requireEqual_map hφ.dot

theorem tryRay (v w : V) (t : S) : Space.tryRay (φ v) (φ w) t = φ <$> Space.tryRay v w t := by
  unfold Space.tryRay
  rw [hφ.dimension, hφ.dimension]
  exact requireEqual_map fun h => hφ.ray h t

theorem tryCombine (v : V) (a : S) (w : V) (b : S) :
    Space.tryCombine (φ v) a (φ w) b = φ <$> Space.tryCombine v a w b := by
  unfold Space.tryCombine
  rw [hφ.dimension, hφ.dimension]
  exact requireEqual_map fun h => hφ.combine h a b

end Embeds

/-- In exact arithmetic vectors are what their coordinates are. -/
theorem ExactSpace.embeds_toList {V : Type} [Space V ℝ] [Coordinatized V ℝ] [ExactSpace V] :
    Embeds (Coordinatized.toList : V → List ℝ) where
  dimension v := (dimension_eq v).symm
  scale v a := (toList_scale v a).symm
  ray h t := (toList_ray h t).symm
  combine h a b := (toList_combine h a b).symm
  dot h := (dot_eq h).symm
  norm v := (norm_eq v).symm

/-! ## The images of recorders, points, results and sessions -/

namespace Recorder

variable {α β : Type} (g : α → β) (r : Recorder α)

/-- The recorder that holds the images of the recorded values. -/
def mapAll : Recorder β := Option.map (Array.map g) r

theorem record_mapAll (a : α) : (r.mapAll g).record (g a) = (r.record a).mapAll g := by
  cases r <;> simp [record, mapAll]

theorem contents_mapAll : (r.mapAll g).contents = r.contents.map g := by
  cases r <;> simp [contents, mapAll]

end Recorder

section Images

variable (φ : V → W)

def Point.map (p : Point V S) : Point W S where
  x := φ p.x
  value := p.value
  gradient := φ p.gradient

def Record.map (r : Record V S) : Record W S where
  point := r.point.map φ
  step := r.step
  samples := r.samples.map φ

theorem Record.map_of_no_samples (p : Point V S) (step : S) :
    Record.map φ { point := p, step, samples := #[] } =
      { point := p.map φ, step, samples := #[] } := by
  simp [Record.map]

def Minimum.map (m : Minimum V S) : Minimum W S where
  point := m.point.map φ
  iterations := m.iterations
  converged := m.converged

def Evaluation.map (e : Evaluation V S) : Evaluation W S where
  x := φ e.x
  buffer := φ e.buffer
  value := e.value
  gradient := φ e.gradient

/-- The same calls at the images of their points, with the same reports. -/
def Session.map (s : Session σ V S) : Session σ W S where
  state := s.state
  evaluations := s.evaluations.map (·.map φ)
  log := s.log

theorem Session.map_start (st : σ) :
    Session.map φ ({ state := st } : Session σ V S) = { state := st } := by
  simp [map]

/-- The search in the same phase at the image of its point. -/
def Search.map (s : Search V S) : Search W S where
  phase := s.phase
  next := s.next.map φ
  samples := s.samples.mapAll φ

/-- At the images of a point and a buffer, `F` does what `f` does there: it answers with the same
value and the image of the gradient. -/
def Objective.Lifts (f : Objective σ V S) (F : Objective σ W S) : Prop :=
  ∀ x buffer, F (φ x) (φ buffer) = (fun answer => (answer.1, φ answer.2)) <$> f x buffer

end Images

variable {φ : V → W} {f : Objective σ V S} {F : Objective σ W S}

theorem evaluate_carries (hF : f.Lifts φ F) (x buffer : V) :
    Carries (Session.map φ) (Point.map φ) (evaluate f x buffer)
      (evaluate F (φ x) (φ buffer)) := by
  intro session
  rcases h : (f x buffer).run session.state with ⟨⟨value, gradient⟩, state⟩
  have hanswer : (F (φ x) (φ buffer)).run session.state = ((value, φ gradient), state) := by
    rw [hF x buffer, StateT.run_map, h]
    rfl
  simp [evaluate, h, Session.map, hanswer, mapResult, Point.map, Evaluation.map]

theorem note_carries (e : Event S) :
    Carries (Session.map φ) id (note e : Run σ V S Unit) (note e : Run σ W S Unit) :=
  fun _ => rfl

theorem note?_carries (e : Option (Event S)) :
    Carries (Session.map φ) id (note? e : Run σ V S Unit) (note? e : Run σ W S Unit) := by
  cases e with
  | none => exact fun _ => rfl
  | some e => exact note_carries e

/-! ## Line searches -/

variable [Scalar S] [Space V S] [Space W S] (hφ : Embeds φ) (hF : f.Lifts φ F)
include hφ hF

omit [Scalar S] in
theorem probe_carries (direction : V) (current : Point V S) (a : S) (buffer : V) :
    Carries (Session.map φ) (fun r => (r.1, r.2.map φ)) (probe f direction current a buffer)
      (probe F (φ direction) (current.map φ) a (φ buffer)) := by
  unfold probe
  have hray : Space.tryRay (current.map φ).x (φ direction) a =
      φ <$> Space.tryRay current.x direction a := hφ.tryRay _ _ _
  rw [hray]
  refine .bind (.check _ φ _) fun x => .bind (evaluate_carries hF x buffer) fun next => ?_
  have hdot : Space.tryDot (next.map φ).gradient (φ direction) =
      id <$> Space.tryDot next.gradient direction := hφ.tryDot _ _
  rw [hdot]
  exact .bind (.check _ id _) fun slope => .bind (note_carries _) fun _ => .pure _ _ _

namespace StrongWolfe

variable (rule : StrongWolfe S)

theorem drive_carries (direction : V) (current : Point V S) (start : Slice S) (s : Search V S) :
    Carries (Session.map φ) (Search.map φ) (rule.drive f direction current start s)
      (rule.drive F (φ direction) (current.map φ) start (s.map φ)) := by
  induction s using drive.induct rule start with
  | case1 s hp =>
    have hp' : (s.map φ).phase.pending rule = none := hp
    rw [drive_of_pending_eq_none hp, drive_of_pending_eq_none hp']
    exact .pure _ _ s
  | case2 s a hp ih =>
    have hp' : (s.map φ).phase.pending rule = some a := hp
    rw [drive_of_pending hp, drive_of_pending hp']
    refine .bind (probe_carries hφ hF direction current a s.next.gradient) fun probed => ?_
    have hrest := ih probed.1 probed.2
    simp only [Search.map, ← Recorder.record_mapAll] at hrest
    exact hrest

theorem search_carries (direction : V) (current next : Point V S) (first : S)
    (samples : Recorder V) :
    Carries (Session.map φ) (Search.map φ) (rule.search f direction current next first samples)
      (rule.search F (φ direction) (current.map φ) (next.map φ) first
        (samples.mapAll φ)) := by
  unfold search
  have hdot : Space.tryDot (current.map φ).gradient (φ direction) =
      id <$> Space.tryDot current.gradient direction := hφ.tryDot _ _
  rw [hdot]
  refine .bind (.check _ id _) fun slope => ?_
  refine .bind (rule.drive_carries hφ hF direction current _ _) fun s => ?_
  exact .bind (note?_carries _) fun _ => .pure _ _ s

end StrongWolfe

end Descent
