import XmlSieve.Proofs.Entries
import XmlSieve.Proofs.Stream.Lockstep

/-!
# Views

A `View` says what is to be seen of what listeners share and of the pauses that they ask for.  Where
other listeners do what is to be seen of them (`View.Shows`), an assembly that tells those is what is
to be seen of it (`Assembly.view`), and stays so with every token (`accept_view`).
-/

namespace XmlSieve

variable {σ τ : Type}

/-- What is to be seen of what listeners share, and of the pauses that they ask for. -/
structure View (τ σ : Type) where
  env : τ → σ
  pause : Bool → Bool
  pause_false : pause false = false
  pause_or : ∀ p q, pause (p || q) = (pause p || pause q)

namespace View

variable {v : View τ σ}

/-- The view of all pauses, and of the environment through `f`. -/
def through (f : τ → σ) : View τ σ := ⟨f, id, rfl, fun _ _ => rfl⟩

/-- What is to be seen of what a listener answers. -/
def reaction (v : View τ σ) (r : Reaction τ) : Reaction σ where
  element := r.element
  pause := v.pause r.pause
  env := v.env r.env

/-- A listener that does what is to be seen of another. -/
def Shows (v : View τ σ) (listener : Listener τ) (seen : Listener σ) : Prop :=
  ∀ m env, seen m (v.env env) = v.reaction (listener m env)

theorem tellAll_eq {listeners : List (Listener τ)} {seen : List (Listener σ)}
    (h : List.Forall₂ v.Shows listeners seen) (m : Match) (env : τ) :
    Listener.tellAll seen m (v.env env) = v.reaction (Listener.tellAll listeners m env) := by
  suffices hfold : ∀ r : Reaction τ,
      seen.foldl
          (fun r listener =>
            let r' := listener { m with element := r.element } r.env
            { r' with pause := r.pause || r'.pause }) (v.reaction r) =
        v.reaction (listeners.foldl
          (fun r listener =>
            let r' := listener { m with element := r.element } r.env
            { r' with pause := r.pause || r'.pause }) r) by
    have hall := hfold { element := m.element, env }
    rwa [reaction, v.pause_false] at hall
  induction h with
  | nil => exact fun r => rfl
  | @cons listener other listeners seen hfirst hrest ih =>
    intro r
    have hnext : other { m with element := r.element } (v.env r.env) =
        v.reaction (listener { m with element := r.element } r.env) := hfirst _ _
    rw [List.foldl_cons, List.foldl_cons, ← ih]
    simp only [reaction, v.pause_or] at hnext ⊢
    rw [hnext]

theorem foldl_eq {α β : Type} {R : α → β → Prop} {k : τ → α → τ} {l : σ → β → σ}
    (hstep : ∀ x y, R x y → ∀ env, l (v.env env) y = v.env (k env x)) {xs : List α} {ys : List β}
    (h : List.Forall₂ R xs ys) (env : τ) : ys.foldl l (v.env env) = v.env (xs.foldl k env) := by
  induction h generalizing env with
  | nil => rfl
  | cons hfirst hrest ih => rw [List.foldl_cons, List.foldl_cons, hstep _ _ hfirst, ih]

end View

namespace Assembly

variable {v : View τ σ} {a : Assembly τ} {other : Assembly σ}

/-- The listeners and the sinks of another assembly do what is to be seen of these. -/
structure Shows (a : Assembly τ) (v : View τ σ) (other : Assembly σ) : Prop where
  listeners : List.Forall₂ (fun entry seen => seen.1 = entry.1 ∧ List.Forall₂ v.Shows entry.2 seen.2)
    a.listeners other.listeners
  sinks : List.Forall₂ (fun sink seen => ∀ fragment env,
    seen fragment (v.env env) = v.env (sink fragment env)) a.sinks other.sinks

/-- What is to be seen of the assembly, with the listeners and the sinks of another. -/
def view (a : Assembly τ) (v : View τ σ) (other : Assembly σ) : Assembly σ :=
  { other with
    automaton := a.automaton
    document := a.document
    frames := a.frames
    holding := a.holding
    preserving := a.preserving
    verbatim := a.verbatim
    paused := v.pause a.paused
    env := v.env a.env }

theorem Shows.same {b : Assembly τ} (h : a.Shows v other) (hs : SameSetting a b) :
    b.Shows v other := by
  refine ⟨?_, ?_⟩
  · rw [hs.listeners]
    exact h.listeners
  · rw [hs.sinks]
    exact h.sinks

/-! ### Effects -/

theorem emit_view (h : a.Shows v other) (fragment : String) :
    (a.view v other).emit fragment = (a.emit fragment).view v other := by
  have hempty : other.sinks.isEmpty = a.sinks.isEmpty := by
    have hsinks := h.sinks
    generalize a.sinks = told, other.sinks = seen at hsinks
    cases hsinks <;> rfl
  have hemitting : (a.view v other).emitting = a.emitting :=
    congrArg (fun empty => !empty && decide (a.holding = 0)) hempty
  have hfold := View.foldl_eq (k := fun env sink => sink fragment env)
    (l := fun env sink => sink fragment env) (fun _ _ h env => h fragment env) h.sinks a.env
  unfold emit
  rw [hemitting]
  split
  · exact congrArg (fun env => { a.view v other with env }) hfold
  · rfl

theorem notify_view (h : a.Shows v other) (id : Nat) (frame : Frame)
    (chunk : Option String) :
    (a.view v other).notify id frame chunk =
      ((a.notify id frame chunk).1.view v other, (a.notify id frame chunk).2) := by
  have hget := forall₂_getElem? h.listeners id
  have hseen : (a.view v other).listeners[id]? = other.listeners[id]? := rfl
  unfold notify
  rw [hseen]
  generalize a.listeners[id]? = entry, other.listeners[id]? = seen at hget
  cases hget with
  | none => rfl
  | @some entry seen hentry =>
    obtain ⟨_, told⟩ := entry
    obtain ⟨event, seen⟩ := seen
    obtain ⟨rfl, hlisteners⟩ := hentry
    have htold := View.tellAll_eq hlisteners
      { event, element := frame.element, ancestry := a.ancestry, chunk } a.env
    simp only [view, ancestry, View.reaction, v.pause_or] at htold ⊢
    rw [htold]

theorem flush_view (h : a.Shows v other) (frame : Frame) (id : Nat) :
    (a.view v other).flush frame id =
      ((a.flush frame id).1.view v other, (a.flush frame id).2) := by
  have hsame := a.notify_same id { frame with held := frame.held.erase id } none
  unfold flush
  split
  · rw [notify_view h]
    generalize a.notify id { frame with held := frame.held.erase id } none = told at hsame
    have hshows : Shows { told.1 with holding := told.1.holding - 1 } v other :=
      ⟨(h.same hsame).listeners, (h.same hsame).sinks⟩
    exact Prod.ext (emit_view hshows _) rfl
  · rfl

theorem apply_view (h : a.Shows v other) (frame : Frame) (chunk : Option String)
    (effect : Effect) :
    apply chunk (a.view v other, frame) effect =
      ((apply chunk (a, frame) effect).1.view v other,
        (apply chunk (a, frame) effect).2) := by
  cases effect with
  | collect | preserve | hold => rfl
  | release whitespace =>
    simp only [apply, endPreserving]
    split <;> rfl
  | flush id => exact flush_view h frame id
  | notify id => exact notify_view h id frame chunk

theorem applyAll_view (h : a.Shows v other) (frame : Frame) (chunk : Option String)
    (effects : List Effect) :
    (a.view v other).applyAll frame chunk effects =
      ((a.applyAll frame chunk effects).1.view v other,
        (a.applyAll frame chunk effects).2) := by
  induction effects generalizing a frame with
  | nil => rfl
  | cons effect effects ih =>
    unfold applyAll at ih ⊢
    rw [List.foldl_cons, apply_view h]
    exact ih (h.same (a.apply_same frame chunk effect)) _

/-! ### Tokens -/

theorem modifyParent_view (a : Assembly τ) (f : Element → Element) :
    (a.view v other).modifyParent f = (a.modifyParent f).view v other := by
  unfold modifyParent
  rw [show (a.view v other).frames = a.frames from rfl]
  split <;> rfl

theorem modifyParent_shows (h : a.Shows v other) (f : Element → Element) :
    (a.modifyParent f).Shows v other := by
  rw [modifyParent_eq]
  exact ⟨h.listeners, h.sinks⟩

theorem pushFrame_view (h : a.Shows v other) (frame : Frame) :
    (a.view v other).pushFrame frame = (a.pushFrame frame).view v other := by
  unfold pushFrame
  dsimp only
  rw [show (a.view v other).preserving = a.preserving from rfl, modifyParent_view,
    emit_view (modifyParent_shows h _)]
  rfl

theorem popFrame_view (h : a.Shows v other) (frame : Frame) :
    (a.view v other).popFrame frame = (a.popFrame frame).view v other := by
  unfold popFrame store
  dsimp only
  rw [show (a.view v other).preserving = a.preserving from rfl, modifyParent_view,
    emit_view (modifyParent_shows h _)]

theorem acceptStart_view (h : a.Shows v other) (name : String)
    (attributes : Attributes) :
    (a.view v other).acceptStart name attributes =
      (a.acceptStart name attributes).view v other := by
  have hentered : Shows { a with automaton := (a.automaton.enter name).2 } v other :=
    ⟨h.listeners, h.sinks⟩
  have hrun : (a.view v other).runStart name attributes =
      ((a.runStart name attributes).1.view v other, (a.runStart name attributes).2) :=
    applyAll_view hentered _ _ _
  have hran : (a.runStart name attributes).1.Shows v other :=
    hentered.same (applyAll_same _ _ _ _)
  rw [acceptStart_eq, acceptStart_eq, hrun, pushFrame_view hran]

theorem acceptText_view (h : a.Shows v other) (chunk : String) :
    (a.view v other).acceptText chunk =
      (a.acceptText chunk).map (·.view v other) := by
  cases hframes : a.frames with
  | nil =>
    unfold acceptText
    rw [show (a.view v other).frames = a.frames from rfl, hframes]
    rfl
  | cons frame outer =>
    have hinner : Shows { a with frames := outer } v other := ⟨h.listeners, h.sinks⟩
    have hrun : (a.view v other).runText frame outer chunk =
        ((a.runText frame outer chunk).1.view v other,
          (a.runText frame outer chunk).2) := applyAll_view hinner _ _ _
    have hran : (a.runText frame outer chunk).1.Shows v other :=
      hinner.same (applyAll_same _ _ _ _)
    rw [acceptText_eq (a := a.view v other) hframes, acceptText_eq hframes, hrun]
    have hpushed : Shows { (a.runText frame outer chunk).1 with
        frames := (a.runText frame outer chunk).2 :: (a.runText frame outer chunk).1.frames }
        v other := ⟨hran.listeners, hran.sinks⟩
    exact congrArg Except.ok (emit_view hpushed (escape chunk))

theorem acceptEnd_view (h : a.Shows v other) :
    (a.view v other).acceptEnd = a.acceptEnd.map (·.view v other) := by
  cases hframes : a.frames with
  | nil =>
    unfold acceptEnd
    rw [show (a.view v other).frames = a.frames from rfl, hframes]
    rfl
  | cons frame outer =>
    cases hactive : a.automaton.active with
    | nil =>
      unfold acceptEnd Automaton.leave
      rw [show (a.view v other).frames = a.frames from rfl,
        show (a.view v other).automaton = a.automaton from rfl, hframes, hactive]
      rfl
    | cons set sets =>
      have hinner : Shows { a with
          automaton := { a.automaton with active := sets }, frames := outer } v other :=
        ⟨h.listeners, h.sinks⟩
      have hrun : (a.view v other).runEnd frame outer set sets =
          ((a.runEnd frame outer set sets).1.view v other,
            (a.runEnd frame outer set sets).2) := applyAll_view hinner _ _ _
      rw [acceptEnd_eq (a := a.view v other) hframes hactive, acceptEnd_eq hframes hactive,
        hrun]
      exact congrArg Except.ok (popFrame_view (hinner.same (applyAll_same _ _ _ _)) _)

/-- What comes of a token is to be seen with the other listeners. -/
theorem accept_view (h : a.Shows v other) (token : Token) :
    (a.view v other).accept token = (a.accept token).map (·.view v other) := by
  cases token with
  | startTag name attributes => exact congrArg Except.ok (acceptStart_view h name attributes)
  | endTag name => exact acceptEnd_view h
  | text chunk => exact acceptText_view h chunk

end Assembly

end XmlSieve
