import XmlSieve.Proofs.Stream.Calls

/-!
# What tokens leave alone

What all listeners for matches and all sinks uphold of an element and of what they share is upheld
when the effects of a token run (`Assembly.Upholds.done`).  So what none of them changes is not
changed by any token either (`Assembly.Conserves.takes`), nor by a registration
(`Assembly.Conserves.register`).
-/

namespace XmlSieve

variable {σ : Type}

namespace Assembly

variable {β : Type} {a b : Assembly σ} {f : σ → β} {P : Element → σ → Prop}
  {token : Token} {tokens : List Token}

/-! ### Upholding -/

/-- No listener that is told of a match around here and no sink breaks what `P` says of the element
and of what they share. -/
structure Upholds (a : Assembly σ) (P : Element → σ → Prop) : Prop where
  listeners : ∀ entry ∈ a.listeners, ∀ listener ∈ entry.2, ∀ m env, m.ancestry = a.ancestry →
    P m.element env → P (listener m env).element (listener m env).env
  sinks : ∀ sink ∈ a.sinks, ∀ fragment e env, P e env → P e (sink fragment env)

namespace Upholds

theorem same (h : a.Upholds P) (hs : SameSetting a b) : b.Upholds P := by
  constructor
  · rw [hs.listeners, ancestry, hs.document, hs.frames]
    exact h.listeners
  · rw [hs.sinks]
    exact h.sinks

theorem notify (h : a.Upholds P) (frame : Frame) (hP : P frame.element a.env) (id : Nat)
    (chunk : Option String) :
    P (a.notify id frame chunk).2.element (a.notify id frame chunk).1.env := by
  refine notify_upholds (fun event listeners hget => ?_) hP chunk
  exact h.listeners _ (List.mem_of_getElem? hget)

theorem apply (h : a.Upholds P) {frame : Frame} (hP : P frame.element a.env)
    (chunk : Option String) (effect : Effect) :
    P (Assembly.apply chunk (a, frame) effect).2.element
      (Assembly.apply chunk (a, frame) effect).1.env := by
  cases effect with
  | collect | preserve | release | hold =>
    rwa [apply_quiet_element rfl, apply_quiet_env rfl]
  | flush id =>
    simp only [Assembly.apply, flush]
    split
    · have hsame := a.notify_same id { frame with held := frame.held.erase id } none
      have hnotify := h.notify { frame with held := frame.held.erase id } hP id none
      generalize a.notify id { frame with held := frame.held.erase id } none = told at *
      have hsinks := (h.same hsame).sinks
      exact emit_upholds (a := { told.1 with holding := told.1.holding - 1 })
        (fun sink hsink fragment => hsinks sink hsink fragment told.2.element) hnotify _
    · exact hP
  | notify id => exact h.notify frame hP id chunk

theorem applyAll (h : a.Upholds P) {frame : Frame} (hP : P frame.element a.env)
    (chunk : Option String) (effects : List Effect) :
    P (a.applyAll frame chunk effects).2.element (a.applyAll frame chunk effects).1.env := by
  induction effects generalizing a frame with
  | nil => exact hP
  | cons effect effects ih =>
    exact ih (h.same (a.apply_same frame chunk effect)) (h.apply hP chunk effect)

/-- What is upheld around a task holds when the token was taken. -/
theorem done {task : Task σ} (h : task.assembly.Upholds P)
    (hP : P task.frame.element task.assembly.env) (token : Token) :
    P task.done.2.element (Assembly.completed task.done token).env := by
  have hsame := task.assembly.applyAll_same task.frame task.chunk task.effects
  exact completed_upholds (fun sink hsink fragment => (h.same hsame).sinks sink hsink fragment _)
    (h.applyAll hP task.chunk task.effects) task.done.2 token

end Upholds

/-! ### Conserving -/

/-- No listener for matches and no sink changes what `f` shows of what they share. -/
structure Conserves (a : Assembly σ) (f : σ → β) : Prop where
  listeners : ∀ entry ∈ a.listeners, ∀ listener ∈ entry.2, ∀ m env, f (listener m env).env = f env
  sinks : ∀ sink ∈ a.sinks, ∀ fragment env, f (sink fragment env) = f env

namespace Conserves

theorem congr (h : a.Conserves f) (hlisteners : b.listeners = a.listeners)
    (hsinks : b.sinks = a.sinks) : b.Conserves f := by
  constructor
  · rw [hlisteners]
    exact h.listeners
  · rw [hsinks]
    exact h.sinks

theorem upholds (h : a.Conserves f) (x : β) : a.Upholds fun _ env => f env = x :=
  ⟨fun entry he listener hl m env _ henv => (h.listeners entry he listener hl m env).trans henv,
    fun sink hsink fragment _ env henv => (h.sinks sink hsink fragment env).trans henv⟩

/-- What no listener for matches and no sink changes, no token changes. -/
theorem accept (h : a.Conserves f) (hb : a.accept token = .ok b) :
    f b.env = f a.env ∧ b.Conserves f := by
  obtain ⟨hlisteners, hsinks⟩ := accept_keeps hb
  refine ⟨?_, h.congr hlisteners hsinks⟩
  obtain ⟨task, htask, rfl⟩ := exists_task hb
  obtain ⟨hl, hs, henv, -⟩ := task_keeps htask
  have htaken : task.assembly.Conserves f := h.congr hl hs
  exact (htaken.upholds (f a.env)).done (congrArg f henv) token

theorem takes (h : a.Conserves f) (ht : a.Takes tokens b) : f b.env = f a.env ∧ b.Conserves f := by
  induction ht with
  | nil => exact ⟨rfl, h⟩
  | cons running haccept rest ih =>
    obtain ⟨henv, hconserves⟩ := h.accept haccept
    obtain ⟨hrest, hlast⟩ := ih hconserves
    exact ⟨hrest.trans henv, hlast⟩

end Conserves

end Assembly

/-! ### Registering -/

/-- What is true of all listeners for matches stays so if it is of one that is registered. -/
theorem Stream.register_listeners {L : Listener σ → Prop} {s : Stream σ} {r : Registration σ}
    (h : ∀ entry ∈ s.assembly.listeners, ∀ listener ∈ entry.2, L listener)
    (hr : ∀ event listener, r = .on event listener → L listener) :
    ∀ entry ∈ (s.register r).assembly.listeners, ∀ listener ∈ entry.2, L listener := by
  cases r with
  | on event listener =>
    have hlistener := hr event listener rfl
    simp only [Stream.register, Stream.on]
    cases Subscription.parse? event with
    | none => exact h
    | some subscription =>
      simp only [Assembly.subscribe]
      split
      · next known hget =>
        intro entry he
        rcases Entries.mem_insert he with rfl | he
        · exact List.forall_mem_append.2
            ⟨h _ (Entries.mem_of_get? hget), List.forall_mem_singleton.2 hlistener⟩
        · exact h entry he
      · intro entry he
        rcases Entries.mem_insert he with rfl | he
        · exact List.forall_mem_singleton.2 hlistener
        · exact h entry he
  | collect | preserve | data | atEnd | atError => exact h

/-- What is registered, if it is a listener for matches or a sink, does not change what `f` shows. -/
def Registration.Conserves {β : Type} (f : σ → β) : Registration σ → Prop
  | on _ listener => ∀ m env, f (listener m env).env = f env
  | data sink => ∀ fragment env, f (sink fragment env) = f env
  | collect _ | preserve _ _ | atEnd _ | atError _ => True

/-- Registering changes what is shared in no way that `f` shows, now or later. -/
theorem Assembly.Conserves.register {β : Type} {f : σ → β} {s : Stream σ} (h : s.assembly.Conserves f)
    {r : Registration σ} (hr : r.Conserves f) : (s.register r).assembly.Conserves f := by
  constructor
  · refine Stream.register_listeners h.listeners ?_
    rintro event listener rfl
    exact hr
  · rw [(s.register_output r).1]
    refine List.forall_mem_append.2 ⟨h.sinks, fun sink hsink => ?_⟩
    cases r with
    | data _ =>
      cases List.mem_singleton.1 hsink
      exact hr
    | on | collect | preserve | atEnd | atError => cases hsink

end XmlSieve
