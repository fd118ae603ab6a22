import XmlSieve.Proofs.Selector.Additions
import XmlSieve.Proofs.Stream.Matching
import XmlSieve.Proofs.Stream.Rooted
import XmlSieve.Proofs.Stream.Simulation

/-!
# Bystanders

A listener that does nothing may subscribe while elements are open, for anything but updates.  The
stream then has a bystander (`Stream.Accompanied`): all listeners together answer as before
(`answer_insert_idle`), and its automaton has additions that concern nobody else.  From there on
both streams do the same (`accompanied_simulation`).
-/

namespace XmlSieve

variable {σ : Type}

/-! ### What listeners answer -/

namespace Listener

/-- What the listeners with the number `id` answer together; if there are none, the element stays as
it is. -/
def answer (listeners : Entries (List (Listener σ))) (id : Nat) (element : Element)
    (ancestry : Ancestry) (chunk : Option String) (env : σ) : Reaction σ :=
  match listeners[id]? with
  | none => { element, env }
  | some (event, listeners) => tellAll listeners { event, element, ancestry, chunk } env

theorem tellAll_concat_idle (listeners : List (Listener σ)) (m : Match) (env : σ) :
    tellAll (listeners ++ [idle]) m env = tellAll listeners m env := by
  simp [tellAll, idle, List.foldl_append]

/-- Another listener that does nothing makes no difference to the answers. -/
theorem answer_insert_idle (name : String) (listeners : Entries (List (Listener σ))) :
    answer (Entries.insert name ((Entries.get? name listeners).getD [] ++ [idle]) listeners) =
      answer listeners := by
  funext id element ancestry chunk env
  induction listeners generalizing id with
  | nil => cases id <;> rfl
  | cons entry listeners ih =>
    obtain ⟨key, known⟩ := entry
    rw [Entries.get?, Entries.insert]
    split
    · cases id with
      | zero => exact tellAll_concat_idle known _ env
      | succ id => rfl
    · cases id with
      | zero => rfl
      | succ id => exact ih id

end Listener

/-- Whether the effect tells the event with the number `id`, without being an update of it. -/
def Effect.tells (id : Nat) (effect : Effect) : Bool := effect = .notify id

namespace Assembly

open Listener

variable {a : Assembly σ} {m : Automaton Effect} {listeners : Entries (List (Listener σ))}
  {frame : Frame} {chunk : Option String} {token : Token}

theorem notify_eq (a : Assembly σ) (id : Nat) (frame : Frame) (chunk : Option String) :
    a.notify id frame chunk =
      let r := answer a.listeners id frame.element a.ancestry chunk a.env
      ({ a with paused := a.paused || r.pause, env := r.env },
        { frame with element := r.element }) := by
  unfold notify answer
  cases a.listeners[id]? with
  | none => simp
  | some entry => rfl

/-! ### Assemblies that are fitted with others' listeners -/

/-- The assembly with this automaton and these listeners. -/
def refit (a : Assembly σ) (m : Automaton Effect) (listeners : Entries (List (Listener σ))) :
    Assembly σ :=
  { a with automaton := m, listeners }

theorem emit_refit (a : Assembly σ) (m : Automaton Effect)
    (listeners : Entries (List (Listener σ))) (fragment : String) :
    (a.refit m listeners).emit fragment = (a.emit fragment).refit m listeners := by
  unfold emit
  rw [show (a.refit m listeners).emitting = a.emitting from rfl]
  split <;> rfl

theorem notify_refit (h : answer listeners = answer a.listeners) (m : Automaton Effect) (id : Nat)
    (frame : Frame) (chunk : Option String) :
    (a.refit m listeners).notify id frame chunk =
      ((a.notify id frame chunk).1.refit m listeners, (a.notify id frame chunk).2) := by
  rw [notify_eq, notify_eq, show (a.refit m listeners).listeners = listeners from rfl, h]
  rfl

theorem flush_refit (h : answer listeners = answer a.listeners) (m : Automaton Effect)
    (frame : Frame) (id : Nat) :
    (a.refit m listeners).flush frame id =
      ((a.flush frame id).1.refit m listeners, (a.flush frame id).2) := by
  unfold flush
  split
  · rw [notify_refit h]
    generalize a.notify id { frame with held := frame.held.erase id } none = told
    exact Prod.ext (emit_refit { told.1 with holding := told.1.holding - 1 } m listeners _) rfl
  · rfl

theorem apply_refit (h : answer listeners = answer a.listeners) (m : Automaton Effect)
    (frame : Frame) (chunk : Option String) (effect : Effect) :
    apply chunk (a.refit m listeners, frame) effect =
      ((apply chunk (a, frame) effect).1.refit m listeners,
        (apply chunk (a, frame) effect).2) := by
  cases effect with
  | collect | preserve | hold => rfl
  | release whitespace =>
    simp only [apply, endPreserving]
    split <;> rfl
  | flush id => exact flush_refit h m frame id
  | notify id => exact notify_refit h m id frame chunk

theorem applyAll_refit (h : answer listeners = answer a.listeners) (m : Automaton Effect)
    (frame : Frame) (chunk : Option String) (effects : List Effect) :
    (a.refit m listeners).applyAll frame chunk effects =
      ((a.applyAll frame chunk effects).1.refit m listeners,
        (a.applyAll frame chunk effects).2) := by
  induction effects generalizing a frame with
  | nil => rfl
  | cons effect effects ih =>
    have hkeeps := (a.apply_same frame chunk effect).listeners
    unfold applyAll at ih ⊢
    rw [List.foldl_cons, apply_refit h]
    exact ih (h.trans (congrArg answer hkeeps.symm)) _

/-- Telling an event that nobody listens for changes nothing. -/
theorem applyAll_filter {id : Nat} (hnobody : a.listeners[id]? = none) (frame : Frame)
    (chunk : Option String) (effects : List Effect) :
    a.applyAll frame chunk (effects.filter (!·.tells id)) =
      a.applyAll frame chunk effects := by
  induction effects generalizing a frame with
  | nil => rfl
  | cons effect effects ih =>
    by_cases heffect : effect = .notify id
    · have hnothing : apply chunk (a, frame) effect = (a, frame) := by
        rw [heffect, apply, notify, hnobody]
      rw [List.filter_cons_of_neg (by simp [Effect.tells, heffect]), ih hnobody]
      unfold applyAll
      rw [List.foldl_cons, hnothing]
    · have hkeeps := (a.apply_same frame chunk effect).listeners
      rw [List.filter_cons_of_pos (by simp [Effect.tells, heffect])]
      exact ih (hkeeps.symm ▸ hnobody) _

theorem modifyParent_refit (a : Assembly σ) (m : Automaton Effect)
    (listeners : Entries (List (Listener σ))) (f : Element → Element) :
    (a.refit m listeners).modifyParent f = (a.modifyParent f).refit m listeners := by
  unfold modifyParent
  rw [show (a.refit m listeners).frames = a.frames from rfl]
  split <;> rfl

theorem completed_refit (a : Assembly σ) (m : Automaton Effect)
    (listeners : Entries (List (Listener σ))) (frame : Frame) (token : Token) :
    completed (a.refit m listeners, frame) token =
      (completed (a, frame) token).refit m listeners := by
  cases token with
  | startTag name attributes =>
    unfold completed pushFrame
    dsimp only
    rw [modifyParent_refit, emit_refit]
    rfl
  | text chunk => exact emit_refit { a with frames := frame :: a.frames } m listeners _
  | endTag name =>
    unfold completed popFrame store
    rw [modifyParent_refit, emit_refit]
    rfl

/-! ### Assemblies with a bystander -/

/-- The automaton has additions, which tell of an event that nobody in `a` listens for. -/
abbrev Accommodates (a : Assembly σ) (m : Automaton Effect) : Prop :=
  a.automaton.Contains (·.tells a.listeners.length) m

/-- A token sets the same task where the automaton has additions, but for what these tell. -/
theorem exists_task_refit (hm : a.Accommodates m) (listeners : Entries (List (Listener σ)))
    {task : Task σ} (h : a.task? token = some task) :
    ∃ m' effects, (a.refit m listeners).task? token =
        some ⟨task.assembly.refit m' listeners, task.frame, task.chunk, effects⟩ ∧
      task.assembly.Accommodates m' ∧
      effects.filter (!·.tells a.listeners.length) =
        task.effects.filter (!·.tells a.listeners.length) := by
  rcases task_cases h with ⟨name, attributes, rfl, rfl⟩ |
    ⟨chunk, frame, outer, rfl, hframes, rfl⟩ |
    ⟨name, frame, outer, set, sets, rfl, hframes, hactive, rfl⟩
  · refine ⟨(m.enter name).2, _, rfl, hm.enter name, ?_⟩
    have hset := hm.transition hm.current name
    rw [List.filter_append, List.filter_append]
    exact congrArg₂ _ (hm.fire hset .flag) (hm.fire hset .enter)
  · refine ⟨m, m.due .inside, ?_, hm, hm.due .inside⟩
    rw [task?, show (a.refit m listeners).frames = a.frames from rfl, hframes]
    rfl
  · have hactives := hm.active
    rw [hactive] at hactives
    obtain ⟨set', sets', hset, hsets, hopen⟩ := List.forall₂_cons_left_iff.1 hactives
    refine ⟨{ m with active := sets' }, m.hooks.fire .leave set', ?_, hm.reopen hsets,
      hm.fire hset .leave⟩
    rw [task?, show (a.refit m listeners).frames = a.frames from rfl, hframes,
      show (a.refit m listeners).automaton = m from rfl, Automaton.leave, hopen]
    rfl

/-- A token comes to the same with a bystander. -/
theorem accept_refit {b : Assembly σ} (hanswer : answer listeners = answer a.listeners)
    (hm : a.Accommodates m) (hb : a.accept token = .ok b) :
    ∃ m', (a.refit m listeners).accept token = .ok (b.refit m' listeners) ∧
      answer listeners = answer b.listeners ∧ b.Accommodates m' := by
  have hkeeps := (accept_keeps hb).1
  obtain ⟨task, htask, rfl⟩ := exists_task hb
  obtain ⟨m', effects, htask', hm', heffects⟩ := exists_task_refit hm listeners htask
  have hlisteners := (task_keeps htask).1
  have hautomaton := (task.assembly.applyAll_same task.frame task.chunk task.effects).automaton
  rw [← hlisteners] at hanswer heffects
  have hnobody : task.assembly.listeners[task.assembly.listeners.length]? = none := by simp
  -- What the additions tell is told nobody, with these listeners and with those of `a`.
  have hdone : Task.done ⟨task.assembly.refit m' listeners, task.frame, task.chunk, effects⟩ =
      (task.done.1.refit m' listeners, task.done.2) := by
    unfold Task.done Task.after
    rw [applyAll_refit hanswer, ← applyAll_filter hnobody, heffects, applyAll_filter hnobody]
  refine ⟨m', ?_, ?_, ?_⟩
  · rw [accept_of_task htask', hdone, completed_refit]
  · rw [hkeeps, ← hlisteners, hanswer]
  · rw [Accommodates, completed_automaton, hkeeps, ← hlisteners]
    exact hautomaton ▸ hm'

/-! ### Subscribing -/

/-- An assembly that holds what was registered, where all states that are active exist. -/
structure Populated (a : Assembly σ) (done : List (Registration σ)) : Prop where
  setUp : a.SetUp done
  active : ∀ set ∈ a.automaton.active, ∀ state ∈ set, state < a.automaton.size

theorem Populated.accept {b : Assembly σ} {done : List (Registration σ)} (h : a.Populated done)
    (hb : a.accept token = .ok b) : b.Populated done := by
  refine ⟨h.setUp.accept hb, ?_⟩
  obtain ⟨states, hserves, -⟩ := h.setUp.serves
  rcases automaton_cases hb with ⟨name, attributes, rfl, hautomaton⟩ | ⟨chunk, rfl, hautomaton⟩ |
    ⟨name, set, sets, rfl, hactive, hautomaton⟩ <;> rw [hautomaton]
  · refine List.forall_mem_cons.2 ⟨fun state hstate => ?_, h.active⟩
    obtain ⟨e, he, -, -, rfl⟩ := Automaton.mem_transition.1 hstate
    exact (hserves.bounded.edges e he).2
  · exact h.active
  · exact fun set' hset' => h.active set' (hactive ▸ List.mem_cons_of_mem set hset')

theorem populated_invariant : Invariant (σ := σ) fun done _ a => a.Populated done where
  unseen h _ _ := ⟨⟨h.setUp.serves, h.setUp.listeners, h.setUp.sinks⟩, h.active⟩
  register {_ _ s} h r := by
    refine ⟨h.setUp.register r, fun set hset state hstate => ?_⟩
    rw [(s.register_input r).2.2.2] at hset
    exact (h.active set hset state hstate).trans_le (register_grown (.refl _) r).size
  accept h _ hb := h.accept hb

/-- A listener that does nothing may subscribe to anything but updates. -/
theorem subscribe_idle {done : List (Registration σ)} (h : a.Populated done) {s : Subscription}
    (hkind : s.kind ≠ .updateElement) :
    ∃ m listeners, a.subscribe s .idle = a.refit m listeners ∧
      answer listeners = answer a.listeners ∧ a.Accommodates m := by
  obtain ⟨states, hserves, -⟩ := h.setUp.serves
  have hsame : a.Accommodates a.automaton := .refl hserves h.active
  have hanswer := answer_insert_idle s.name a.listeners
  unfold subscribe
  cases hknown : Entries.get? s.name a.listeners with
  | some known =>
    rw [hknown] at hanswer
    exact ⟨a.automaton, _, rfl, hanswer, hsame⟩
  | none =>
    rw [hknown] at hanswer
    refine ⟨_, _, rfl, hanswer, ?_⟩
    have hcompiled := hsame.compile s.selector
    have htells : (Effect.notify a.listeners.length).tells a.listeners.length = true := by
      simp [Effect.tells]
    cases hs : s.kind with
    | updateElement => exact absurd hs hkind
    | startElement => exact hcompiled.on htells .enter _
    | endElement => exact hcompiled.on htells .leave _
    | text => exact hcompiled.on htells .inside _

end Assembly

namespace Stream

open Listener Assembly

variable {s : Stream σ}

/-- The stream `t` is `s` with a bystander. -/
def Accompanied (s t : Stream σ) : Prop :=
  ∃ m listeners, t = { s with assembly := s.assembly.refit m listeners } ∧
    answer listeners = answer s.assembly.listeners ∧ s.assembly.Accommodates m

/-- A listener that does nothing is a bystander. -/
theorem accompanied_register {done : List (Registration σ)} (h : s.assembly.Populated done)
    {event : String}
    (hkind : ∀ subscription, Subscription.parse? event = some subscription →
      subscription.kind ≠ .updateElement) :
    s.Accompanied (s.register (.on event .idle)) := by
  unfold register on
  dsimp only
  cases hparse : Subscription.parse? event with
  | none =>
    obtain ⟨states, hserves, -⟩ := h.setUp.serves
    exact ⟨s.assembly.automaton, s.assembly.listeners, rfl, rfl, .refl hserves h.active⟩
  | some subscription =>
    obtain ⟨m, listeners, hsubscribe, hsame⟩ := subscribe_idle h (hkind subscription hparse)
    exact ⟨m, listeners, congrArg (fun a => { s with assembly := a }) hsubscribe, hsame⟩

/-- A bystander makes no difference to what is done with a stream. -/
theorem accompanied_simulation : Simulation (Accompanied (σ := σ)) where
  tokenizer := by
    rintro s _ ⟨m, listeners, rfl, -⟩
    rfl
  phase := by
    rintro s _ ⟨m, listeners, rfl, -⟩
    rfl
  isPaused := by
    rintro s _ ⟨m, listeners, rfl, -⟩
    rfl
  read := by
    rintro s _ ⟨m, listeners, rfl, h⟩ tokenizer
    exact ⟨m, listeners, rfl, h⟩
  enter := by
    rintro s _ ⟨m, listeners, rfl, h⟩ phase
    exact ⟨m, listeners, rfl, h⟩
  pause := by
    rintro s _ ⟨m, listeners, rfl, h⟩ paused
    exact ⟨m, listeners, rfl, h⟩
  accept := by
    rintro s _ ⟨m, listeners, rfl, hanswer, hm⟩ token assembly haccept
    obtain ⟨m', haccept', h⟩ := accept_refit hanswer hm haccept
    exact ⟨_, haccept', m', listeners, rfl, h⟩
  complete := by
    rintro s _ ⟨m, listeners, rfl, h⟩
    exact ⟨m, listeners, rfl, h⟩
  fail := by
    rintro s _ ⟨m, listeners, rfl, h⟩ e
    exact ⟨m, listeners, rfl, h⟩

end Stream

end XmlSieve
