import XmlSieve.Proofs.Stream.Output
import XmlSieve.Proofs.Stream.Requests

/-!
# Tasks

Taking a token begins with a `Task`: effects that run one after the other in the frame of an
element, while only the frames around it are open (`Assembly.task?`).  What is then done with the
assembly and the frame does not look at the effects any more (`Assembly.completed`).  Taking a token
changes nothing of what was registered, so that an assembly stays as it was set up
(`SetUp.accept`), also if more is registered while elements are open.
-/

namespace XmlSieve

variable {σ : Type}

/-- Effects that are to run in the frame of an element, with the assembly they find. -/
structure Task (σ : Type) where
  assembly : Assembly σ
  frame : Frame
  chunk : Option String
  effects : List Effect

namespace Task

/-- The assembly and the frame when these effects have run. -/
def after (task : Task σ) (effects : List Effect) : Assembly σ × Frame :=
  task.assembly.applyAll task.frame task.chunk effects

/-- The assembly and the frame when all effects have run. -/
def done (task : Task σ) : Assembly σ × Frame := task.after task.effects

end Task

namespace Assembly

variable {a b : Assembly σ} {token : Token} {task : Task σ}

/-- What taking a token begins with. -/
def task? (a : Assembly σ) : Token → Option (Task σ)
  | .startTag name attributes =>
    some ⟨{ a with automaton := (a.automaton.enter name).2 }, Frame.opened a.path name attributes,
      none, (a.automaton.enter name).1.flags ++ (a.automaton.enter name).1.enter⟩
  | .text chunk =>
    match a.frames with
    | [] => none
    | frame :: outer =>
      some ⟨{ a with frames := outer }, a.addText frame chunk, some chunk, a.automaton.due .inside⟩
  | .endTag _ =>
    match a.frames, a.automaton.leave with
    | frame :: outer, .ok (effects, automaton) =>
      some ⟨{ a with automaton, frames := outer }, frame, none, effects⟩
    | _, _ => none

/-- What a token leads to when its effects have run. -/
def completed (r : Assembly σ × Frame) : Token → Assembly σ
  | .startTag _ _ => r.1.pushFrame r.2
  | .text chunk => { r.1 with frames := r.2 :: r.1.frames }.emit (escape chunk)
  | .endTag _ => r.1.popFrame r.2

/-- A token is accepted where there is a task, by doing it. -/
theorem exists_task (hb : a.accept token = .ok b) :
    ∃ task, a.task? token = some task ∧ b = completed task.done token := by
  cases token with
  | startTag name attributes =>
    cases hb
    exact ⟨_, rfl, a.acceptStart_eq name attributes⟩
  | text chunk =>
    obtain ⟨frame, outer, hframes⟩ := exists_frames_of_text hb
    rw [accept, acceptText_eq hframes] at hb
    cases hb
    refine ⟨⟨{ a with frames := outer }, a.addText frame chunk, some chunk,
      a.automaton.due .inside⟩, ?_, rfl⟩
    rw [task?, hframes]
  | endTag name =>
    obtain ⟨frame, outer, hframes⟩ := exists_frames_of_end hb
    obtain ⟨set, sets, hactive⟩ := exists_active_of_end hb
    rw [accept, acceptEnd_eq hframes hactive] at hb
    cases hb
    refine ⟨⟨{ a with automaton := { a.automaton with active := sets }, frames := outer }, frame,
      none, a.automaton.hooks.fire .leave set⟩, ?_, rfl⟩
    rw [task?, hframes, Automaton.leave, hactive]

/-- The ways in which a token sets a task. -/
theorem task_cases (h : a.task? token = some task) :
    (∃ name attributes, token = .startTag name attributes ∧
      task = ⟨{ a with automaton := (a.automaton.enter name).2 },
        Frame.opened a.path name attributes, none,
        (a.automaton.enter name).1.flags ++ (a.automaton.enter name).1.enter⟩) ∨
    (∃ chunk frame outer, token = .text chunk ∧ a.frames = frame :: outer ∧
      task = ⟨{ a with frames := outer }, a.addText frame chunk, some chunk,
        a.automaton.due .inside⟩) ∨
    (∃ name frame outer set sets, token = .endTag name ∧ a.frames = frame :: outer ∧
      a.automaton.active = set :: sets ∧
      task = ⟨{ a with automaton := { a.automaton with active := sets }, frames := outer }, frame,
        none, a.automaton.hooks.fire .leave set⟩) := by
  cases token with
  | startTag name attributes =>
    cases h
    exact .inl ⟨name, attributes, rfl, rfl⟩
  | text chunk =>
    cases hframes : a.frames with
    | nil =>
      rw [task?, hframes] at h
      cases h
    | cons frame outer =>
      rw [task?, hframes] at h
      cases h
      exact .inr (.inl ⟨chunk, frame, outer, rfl, rfl, rfl⟩)
  | endTag name =>
    cases hframes : a.frames with
    | nil =>
      rw [task?, hframes] at h
      cases h
    | cons frame outer =>
      rcases hactive : a.automaton.active with _ | ⟨set, sets⟩
      · rw [task?, hframes, Automaton.leave, hactive] at h
        cases h
      · rw [task?, hframes, Automaton.leave, hactive] at h
        cases h
        exact .inr (.inr ⟨name, frame, outer, set, sets, rfl, rfl, rfl, rfl⟩)

/-- Where there is a task, the token is accepted. -/
theorem accept_of_task (h : a.task? token = some task) :
    a.accept token = .ok (completed task.done token) := by
  rcases task_cases h with ⟨name, attributes, rfl, rfl⟩ |
    ⟨chunk, frame, outer, rfl, hframes, rfl⟩ |
    ⟨name, frame, outer, set, sets, rfl, hframes, hactive, rfl⟩
  · exact congrArg Except.ok (a.acceptStart_eq name attributes)
  · exact acceptText_eq hframes chunk
  · exact acceptEnd_eq hframes hactive

/-- A task finds listeners and output as they are. -/
theorem task_keeps (h : a.task? token = some task) :
    task.assembly.listeners = a.listeners ∧ task.assembly.sinks = a.sinks ∧
      task.assembly.env = a.env ∧ task.assembly.holding = a.holding := by
  rcases task_cases h with ⟨_, _, -, rfl⟩ | ⟨_, _, _, -, -, rfl⟩ |
    ⟨_, _, _, _, _, -, -, -, rfl⟩ <;> exact ⟨rfl, rfl, rfl, rfl⟩

/-- What every sink upholds is upheld by what is done when effects have run. -/
theorem completed_upholds {Q : σ → Prop}
    (hsinks : ∀ sink ∈ a.sinks, ∀ fragment env, Q env → Q (sink fragment env)) (h : Q a.env)
    (frame : Frame) (token : Token) : Q (completed (a, frame) token).env := by
  have hparent (f : Element → Element) (fragment : String) :
      Q ((a.modifyParent f).emit fragment).env := by
    refine emit_upholds ?_ ?_ fragment
    · rwa [modifyParent_eq]
    · rwa [Follows.modifyParent_env]
  cases token with
  | startTag name attributes => exact hparent _ _
  | text content => exact emit_upholds (a := { a with frames := frame :: a.frames }) hsinks h _
  | endTag name => exact hparent _ _

/-- What no sink changes is not changed by what is done when effects have run. -/
theorem completed_shows {β : Type} {f : σ → β}
    (hsinks : ∀ sink ∈ a.sinks, ∀ fragment env, f (sink fragment env) = f env) (frame : Frame)
    (token : Token) : f (completed (a, frame) token).env = f a.env := by
  refine completed_upholds (Q := fun env => f env = f a.env) ?_ rfl frame token
  exact fun sink hsink fragment env henv => (hsinks sink hsink fragment env).trans henv

theorem completed_automaton (r : Assembly σ × Frame) (token : Token) :
    (completed r token).automaton = r.1.automaton := by
  cases token with
  | startTag => exact (pushFrame_stacks _ _).2
  | text => exact (emit_same _ _).automaton
  | endTag => exact (popFrame_stacks _ _).2

/-- The ways in which a token changes the automaton. -/
theorem automaton_cases (hb : a.accept token = .ok b) :
    (∃ name attributes, token = .startTag name attributes ∧
      b.automaton = (a.automaton.enter name).2) ∨
    (∃ chunk, token = .text chunk ∧ b.automaton = a.automaton) ∨
    (∃ name set sets, token = .endTag name ∧ a.automaton.active = set :: sets ∧
      b.automaton = { a.automaton with active := sets }) := by
  obtain ⟨task, htask, rfl⟩ := exists_task hb
  have hran : task.done.1.automaton = task.assembly.automaton :=
    (task.assembly.applyAll_same task.frame task.chunk task.effects).automaton
  rw [completed_automaton, hran]
  rcases task_cases htask with ⟨name, attributes, rfl, rfl⟩ | ⟨chunk, frame, outer, rfl, -, rfl⟩ |
    ⟨name, frame, outer, set, sets, rfl, -, hactive, rfl⟩
  · exact .inl ⟨name, attributes, rfl, rfl⟩
  · exact .inr (.inl ⟨chunk, rfl, rfl⟩)
  · exact .inr (.inr ⟨name, set, sets, rfl, hactive, rfl⟩)

/-- A token changes nothing of the automaton but its active sets. -/
theorem accept_automaton (hb : a.accept token = .ok b) :
    b.automaton = { a.automaton with active := b.automaton.active } := by
  rcases automaton_cases hb with ⟨name, attributes, -, h⟩ | ⟨chunk, -, h⟩ |
    ⟨name, set, sets, -, -, h⟩
  · rw [h]
    rfl
  · rw [h]
  · rw [h]

/-! ### What was registered -/

/-- An assembly that holds what was registered with its stream. -/
structure SetUp (a : Assembly σ) (done : List (Registration σ)) : Prop where
  serves : a.Serves (Registration.selectors done) (Registration.requests done)
  listeners : a.listeners = Entries.table Subscription.name (Registration.listeners done)
    (Registration.subscriptions done)
  sinks : a.sinks = done.filterMap Registration.sink?

end Assembly

/-- What an automaton serves is not a matter of what is open. -/
theorem Automaton.Serves.reopened {η : Type} {m m' : Automaton η}
    {states : List (Selector × StateId)} {requests : List (HookRequest η)}
    (h : m.Serves states requests) (hm : m' = { m with active := m'.active }) :
    m'.Serves states requests := by
  rw [hm]
  exact ⟨⟨h.bounded.edges, h.bounded.initial⟩, h.finals, h.proper, h.distinct, h.below, h.ascending,
    h.recognizes, h.known, h.hooks⟩

namespace Assembly.SetUp

variable {a b : Assembly σ} {token : Token} {done : List (Registration σ)}

theorem create (env : σ) : (Stream.create env).assembly.SetUp [] :=
  ⟨⟨[], .empty, rfl⟩, rfl, rfl⟩

theorem accept (h : a.SetUp done) (hb : a.accept token = .ok b) : b.SetUp done := by
  obtain ⟨⟨states, hserves, hselectors⟩, hlisteners, hsinks⟩ := h
  obtain ⟨hl, hs⟩ := accept_keeps hb
  exact ⟨⟨states, hserves.reopened (accept_automaton hb), hselectors⟩, hl.trans hlisteners,
    hs.trans hsinks⟩

theorem register {s : Stream σ} (h : s.assembly.SetUp done) (r : Registration σ) :
    (s.register r).assembly.SetUp (done ++ [r]) := by
  have hs : s.SetUp done := ⟨h.serves, h.listeners⟩
  refine ⟨(hs.register r).serves, (hs.register r).listeners, ?_⟩
  rw [(Stream.register_output s r).1, h.sinks, List.filterMap_append]
  cases hr : Registration.sink? r <;> simp [hr]

/-- What is due was requested, whichever states are active. -/
theorem mem_fire (h : a.SetUp done) {occasion : Occasion} {set : StateSet} {effect : Effect}
    (he : effect ∈ a.automaton.hooks.fire occasion set) :
    ∃ selector, effect ∈
      HookRequest.hooksFor (Registration.requests done) occasion selector := by
  obtain ⟨states, hserves, -⟩ := h.serves
  obtain ⟨state, -, he⟩ := List.mem_flatMap.1 he
  by_cases hs : state ∈ states.map (·.2)
  · obtain ⟨⟨selector, _⟩, hmem, rfl⟩ := List.mem_map.1 hs
    exact ⟨selector, hserves.hooksAt_of_mem occasion hmem ▸ he⟩
  · rw [hserves.hooksAt_of_not_mem occasion hs] at he
    cases he

theorem fire_fits (h : a.SetUp done) (occasion : Occasion) (set : StateSet) :
    ∀ effect ∈ a.automaton.hooks.fire occasion set, effect.Fits occasion := by
  intro effect he
  obtain ⟨selector, he⟩ := h.mem_fire he
  obtain ⟨request, hr, rfl⟩ := List.mem_map.1 he
  obtain ⟨hmem, hrequest⟩ := List.mem_filter.1 hr
  have hfits := Registration.requests_fit done request hmem
  rwa [(of_decide_eq_true hrequest).1] at hfits

end Assembly.SetUp

end XmlSieve
