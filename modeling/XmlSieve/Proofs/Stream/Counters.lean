import Mathlib.Algebra.GroupWithZero.Nat
import Mathlib.Data.List.Flatten
import XmlSieve.Proofs.Stream.Operations
import XmlSieve.Proofs.Stream.Tasks
import XmlSieve.Proofs.Stream.Tracking

/-!
# The counters of an assembly

Three counters stand for what the open frames have recorded: the requests to preserve order, those
of them that keep white space, and the updates that hold output back (`Assembly.Tallied`).  What a
frame has recorded is undone by hooks that are looked up when its element ends, in a table that may
have grown since.  That they undo all of it is the invariant `Frame.Owed`, which holds because hooks
that begin something are registered together with those that end it (`SetUp.fire_congr`) and no
registration takes a hook away (`Frame.Owed.register`).  So the counters are exact after any
operations, no decrement finds its counter at zero, and an element that has ended leaves nothing
behind (`counters_exact`).
-/

namespace XmlSieve

variable {σ : Type}

/-! ### What effects leave under way -/

namespace Effect

variable {β : Type} [DecidableEq β] {begins? ends? : Effect → Option β} {underway kept : List β}
  {effect : Effect} {effects : List Effect}

/-- Where no more is under way than effects end and what is kept, one effect leaves no more under
way than the others end, what is kept, and what it begins. -/
theorem track_subperm (hdisjoint : (begins? effect).isSome = true → ends? effect = none)
    (h : underway.Subperm ((effect :: effects).filterMap ends? ++ kept)) :
    (track begins? ends? underway effect).Subperm
      (effects.filterMap ends? ++ (kept ++ (begins? effect).toList)) := by
  unfold track
  rw [List.filterMap_cons] at h
  cases hb : begins? effect with
  | some x =>
    rw [hdisjoint (by rw [hb]; rfl)] at h
    rw [← List.append_assoc]
    exact ((List.subperm_cons x).2 h).trans (List.perm_append_singleton x _).symm.subperm
  | none =>
    rw [Option.toList_none, List.append_nil]
    cases he : ends? effect with
    | some x =>
      rw [he] at h
      simpa using h.erase x
    | none =>
      rw [he] at h
      exact h

theorem foldl_track_subperm
    (hdisjoint : ∀ effect ∈ effects, (begins? effect).isSome = true → ends? effect = none)
    (h : underway.Subperm (effects.filterMap ends? ++ kept)) :
    (effects.foldl (track begins? ends?) underway).Subperm (kept ++ effects.filterMap begins?) := by
  induction effects generalizing underway kept with
  | nil => simpa using h
  | cons effect effects ih =>
    have hrest := ih (fun e he => hdisjoint e (by simp [he]))
      (track_subperm (hdisjoint effect (by simp)) h)
    rw [List.append_assoc] at hrest
    rw [List.filterMap_cons]
    cases hb : begins? effect <;> rw [hb] at hrest <;> exact hrest

end Effect

/-- Where a frame has recorded no more than effects end and what is kept, it has recorded no more
after them than what is kept and what they begin. -/
theorem Task.after_recorded (task : Task σ) (effects : List Effect) (requests : List Bool)
    (updates : List Nat)
    (hpreserved : task.frame.preserved.Subperm (effects.filterMap Effect.release? ++ requests))
    (hheld : task.frame.held.Subperm (effects.filterMap Effect.flush? ++ updates)) :
    (task.after effects).2.preserved.Subperm (requests ++ effects.filterMap Effect.preserve?) ∧
      (task.after effects).2.held.Subperm (updates ++ effects.filterMap Effect.hold?) := by
  rw [Task.after, Assembly.applyAll_frame]
  exact ⟨Effect.foldl_track_subperm (fun e _ => e.preserve_release) hpreserved,
    Effect.foldl_track_subperm (fun e _ => e.hold_flush) hheld⟩

/-! ### What hooks undo -/

namespace HookTable

variable {η : Type} {table table' : HookTable η}

/-- More hooks call for more. -/
theorem fire_sublist {more : List (HookEntry η)} (h : table'.entries = table.entries ++ more)
    (occasion : Occasion) (set : StateSet) :
    (table.fire occasion set).Sublist (table'.fire occasion set) := by
  refine List.Sublist.flatMap_right _ fun state _ => ?_
  rw [hooksAt, hooksAt, h, List.filter_append, List.map_append]
  exact List.sublist_append_left _ _

end HookTable

theorem foldl_on_entries {η : Type} (hooks : List (Occasion × η)) (m : Automaton η)
    (state : StateId) :
    (hooks.foldl (fun m (occasion, hook) => m.on occasion state hook) m).hooks.entries =
      m.hooks.entries ++ hooks.map fun (occasion, hook) => ⟨occasion, state, hook⟩ := by
  induction hooks generalizing m with
  | nil => simp
  | cons hook hooks ih => exact (ih _).trans (List.append_assoc _ _ _)

theorem compile_hooks {η : Type} (m : Automaton η) (selector : Selector) :
    (m.compile selector).2.hooks = m.hooks := by
  unfold Automaton.compile
  split
  · rfl
  · rw [Automaton.addSelector_eq]

theorem Assembly.register_entries (a : Assembly σ) (selector : Selector)
    (effects : List (Occasion × Effect)) :
    ∃ more, (a.register selector effects).automaton.hooks.entries =
      a.automaton.hooks.entries ++ more :=
  ⟨_, (foldl_on_entries _ _ _).trans
    (congrArg (·.entries ++ _) (compile_hooks a.automaton selector))⟩

/-- Registering takes no hook away. -/
theorem Stream.register_entries (s : Stream σ) (r : Registration σ) :
    ∃ more, (s.register r).assembly.automaton.hooks.entries =
      s.assembly.automaton.hooks.entries ++ more := by
  obtain ⟨_, _, _, _, _, h, rfl | ⟨selector, effects, rfl⟩⟩ := s.exists_register r <;> rw [h]
  · exact ⟨[], (List.append_nil _).symm⟩
  · exact Assembly.register_entries _ _ _

/-- Registering leaves the counters alone. -/
theorem Stream.register_counters (s : Stream σ) (r : Registration σ) :
    (s.register r).assembly.preserving = s.assembly.preserving ∧
      (s.register r).assembly.verbatim = s.assembly.verbatim ∧
      (s.register r).assembly.holding = s.assembly.holding := by
  obtain ⟨_, _, _, _, _, h, -⟩ := s.exists_register r
  rw [h]
  exact ⟨rfl, rfl, rfl⟩

namespace Assembly.SetUp

variable {a : Assembly σ} {done : List (Registration σ)}

/-- Two ways of picking out of what is due agree in every set of states if they do for every
selector. -/
theorem fire_congr {β : Type} {pick pick' : Effect → Option β} {occasion occasion' : Occasion}
    (h : a.SetUp done)
    (hpick : ∀ selector,
      (HookRequest.hooksFor (Registration.requests done) occasion selector).filterMap pick =
        (HookRequest.hooksFor (Registration.requests done) occasion' selector).filterMap pick')
    (set : StateSet) :
    (a.automaton.hooks.fire occasion set).filterMap pick =
      (a.automaton.hooks.fire occasion' set).filterMap pick' := by
  obtain ⟨states, hserves, -⟩ := h.serves
  rw [HookTable.fire, HookTable.fire, List.filterMap_flatMap, List.filterMap_flatMap]
  refine List.flatMap_congr fun state _ => ?_
  by_cases hs : state ∈ states.map (·.2)
  · obtain ⟨⟨selector, state⟩, hmem, rfl⟩ := List.mem_map.1 hs
    rw [hserves.hooksAt_of_mem occasion hmem, hserves.hooksAt_of_mem occasion' hmem]
    exact hpick selector
  · rw [hserves.hooksAt_of_not_mem occasion hs, hserves.hooksAt_of_not_mem occasion' hs]
    rfl

end Assembly.SetUp

/-- All that a frame has recorded ends with what is due when its element ends. -/
structure Frame.Owed (hooks : HookTable Effect) (frame : Frame) (set : StateSet) : Prop where
  preserved : frame.preserved.Subperm ((hooks.fire .leave set).filterMap Effect.release?)
  held : frame.held.Subperm ((hooks.fire .leave set).filterMap Effect.flush?)

theorem Frame.Owed.register {hooks hooks' : HookTable Effect} {frame : Frame} {set : StateSet}
    {more : List (HookEntry Effect)} (h : frame.Owed hooks set)
    (hmore : hooks'.entries = hooks.entries ++ more) : frame.Owed hooks' set :=
  ⟨h.preserved.trans ((HookTable.fire_sublist hmore .leave set).filterMap _).subperm,
    h.held.trans ((HookTable.fire_sublist hmore .leave set).filterMap _).subperm⟩

namespace Assembly

variable {a b : Assembly σ} {frame : Frame} {frames outer : List Frame} {token : Token}
  {task : Task σ} {r : Assembly σ × Frame} {done : List (Registration σ)}

/-! ### What the counters count -/

/-- The counters count what these frames have recorded. -/
structure Tallied (a : Assembly σ) (frames : List Frame) : Prop where
  counted : a.Counted (frames.flatMap (·.preserved))
  holding : a.holding = heldIn frames

/-- The counters are the sums of what is recorded in the frames. -/
theorem Tallied.sums (h : a.Tallied frames) :
    a.preserving = (frames.map (·.preserved.length)).sum ∧
      a.verbatim = (frames.map (·.preserved.count true)).sum ∧
      a.holding = (frames.map (·.held.length)).sum :=
  ⟨h.counted.1.trans List.length_flatMap, h.counted.2.trans List.count_flatMap,
    h.holding.trans List.length_flatMap⟩

/-- An effect takes nothing from a counter that is zero. -/
def Covered (r : Assembly σ × Frame) : Effect → Prop
  | .release whitespace =>
    whitespace ∈ r.2.preserved → 0 < r.1.preserving ∧ (whitespace = true → 0 < r.1.verbatim)
  | .flush id => id ∈ r.2.held → 0 < r.1.holding
  | .collect | .preserve _ | .hold _ | .notify _ => True

theorem Tallied.covered (h : r.1.Tallied (r.2 :: frames)) (effect : Effect) :
    Covered r effect := by
  cases effect with
  | release whitespace =>
    intro hmem
    have hin : whitespace ∈ (r.2 :: frames).flatMap (·.preserved) :=
      List.mem_flatMap_of_mem (by simp) hmem
    refine ⟨?_, ?_⟩
    · rw [h.counted.1]
      exact List.length_pos_of_mem hin
    · rintro rfl
      rw [h.counted.2]
      exact List.count_pos_iff.2 hin
  | flush id =>
    intro hmem
    have hin : id ∈ (r.2 :: frames).flatMap (·.held) := List.mem_flatMap_of_mem (by simp) hmem
    rw [h.holding]
    exact List.length_pos_of_mem hin
  | collect | preserve | hold | notify => trivial

/-- Effects keep the counters in balance with the frame that they run in and those around it. -/
theorem Tallied.after (h : task.assembly.Tallied (task.frame :: frames)) (effects : List Effect) :
    (task.after effects).1.Tallied ((task.after effects).2 :: frames) := by
  refine ⟨?_, ?_⟩
  · rw [List.flatMap_cons]
    exact applyAll_counted (List.flatMap_cons ▸ h.counted) _ _
  · rw [heldIn_cons]
    exact applyAll_holding (heldIn_cons _ _ ▸ h.holding) _ _

/-! ### What a token leaves recorded -/

theorem preserved_modifyHead (f : Element → Element) (frames : List Frame) :
    (Frame.modifyHead f frames).flatMap (·.preserved) = frames.flatMap (·.preserved) := by
  cases frames <;> rfl

theorem owed_modifyHead {hooks : HookTable Effect} {sets : List StateSet}
    (h : List.Forall₂ (Frame.Owed hooks) frames sets) (f : Element → Element) :
    List.Forall₂ (Frame.Owed hooks) (Frame.modifyHead f frames) sets := by
  cases h with
  | nil => exact .nil
  | cons first rest => exact .cons ⟨first.preserved, first.held⟩ rest

theorem completed_counters (r : Assembly σ × Frame) (token : Token) :
    (completed r token).preserving = r.1.preserving ∧
      (completed r token).verbatim = r.1.verbatim ∧
      (completed r token).holding = r.1.holding := by
  cases token with
  | startTag name attributes =>
    refine ⟨?_, ?_, pushFrame_holding _ _⟩
    · exact (emit_counters _ _).1.trans (by rw [modifyParent_eq])
    · exact (emit_counters _ _).2.trans (by rw [modifyParent_eq])
  | text chunk => exact ⟨(emit_counters _ _).1, (emit_counters _ _).2, emit_holding _ _⟩
  | endTag name =>
    refine ⟨?_, ?_, popFrame_holding _ _⟩
    · exact (emit_counters _ _).1.trans (by rw [store, modifyParent_eq])
    · exact (emit_counters _ _).2.trans (by rw [store, modifyParent_eq])

/-- The counters stay in balance with the open frames, if one that closes has nothing recorded. -/
theorem Tallied.completed (h : r.1.Tallied (r.2 :: r.1.frames))
    (hclosed : ∀ name, token = .endTag name → r.2.preserved = [] ∧ r.2.held = []) :
    (completed r token).Tallied (completed r token).frames := by
  obtain ⟨hp, hv, hh⟩ := completed_counters r token
  suffices hframes : (Assembly.completed r token).frames.flatMap (·.preserved) =
        (r.2 :: r.1.frames).flatMap (·.preserved) ∧
      heldIn (Assembly.completed r token).frames = heldIn (r.2 :: r.1.frames) by
    refine ⟨⟨?_, ?_⟩, ?_⟩
    · rw [hp, hframes.1]
      exact h.counted.1
    · rw [hv, hframes.1]
      exact h.counted.2
    · rw [hh, hframes.2]
      exact h.holding
  cases token with
  | startTag name attributes =>
    rw [Assembly.completed, pushFrame_frames, heldIn_cons, heldIn_modifyHead, heldIn_cons,
      List.flatMap_cons, preserved_modifyHead, List.flatMap_cons]
    exact ⟨rfl, rfl⟩
  | text chunk =>
    rw [Assembly.completed, (emit_same _ _).frames]
    exact ⟨rfl, rfl⟩
  | endTag name =>
    obtain ⟨hpreserved, hheld⟩ := hclosed name rfl
    rw [Assembly.completed, popFrame_frames, preserved_modifyHead, heldIn_modifyHead, heldIn_cons,
      List.flatMap_cons, hpreserved, hheld]
    exact ⟨rfl, (Nat.zero_add _).symm⟩

/-! ### The invariant -/

/-- The counters are in balance with the open frames, and the hooks undo all that is recorded in
these. -/
structure Accountable (a : Assembly σ) (done : List (Registration σ)) : Prop where
  setUp : a.SetUp done
  tallied : a.Tallied a.frames
  owed : List.Forall₂ (Frame.Owed a.automaton.hooks) a.frames a.automaton.active

namespace Accountable

/-- The counters are in balance when a token begins. -/
theorem begun (h : a.Accountable done) (htask : a.task? token = some task) :
    task.assembly.Tallied (task.frame :: task.assembly.frames) := by
  obtain ⟨⟨hp, hv⟩, hh⟩ := h.tallied
  rcases task_cases htask with ⟨name, attributes, -, rfl⟩ | ⟨chunk, frame, outer, -, hframes, rfl⟩ |
    ⟨name, frame, outer, set, sets, -, hframes, -, rfl⟩
  · exact ⟨⟨hp, hv⟩, by simpa [heldIn_cons, Frame.opened] using hh⟩
  · rw [hframes] at hp hv hh
    simp only [Holds.addText_eq]
    exact ⟨⟨hp, hv⟩, hh⟩
  · rw [hframes] at hp hv hh
    exact ⟨⟨hp, hv⟩, hh⟩

/-- The hooks undo all that the effects of a start tag record. -/
theorem opened (h : a.Accountable done) {name : String} {attributes : Attributes}
    (htask : a.task? (.startTag name attributes) = some task) :
    task.done.2.Owed a.automaton.hooks (a.automaton.transition a.automaton.current name) := by
  cases htask
  generalize hset : a.automaton.transition a.automaton.current name = set
  have hflag := h.setUp.fire_fits .flag set
  obtain ⟨hpreserved, hheld⟩ := Task.after_recorded
    ⟨{ a with automaton := (a.automaton.enter name).2 }, Frame.opened a.path name attributes, none,
      (a.automaton.enter name).1.flags ++ (a.automaton.enter name).1.enter⟩
    (a.automaton.hooks.fire .flag set ++ a.automaton.hooks.fire .enter set) [] []
    List.nil_subperm List.nil_subperm
  rw [List.filterMap_append, Effect.preserve?_eq_nil hflag (by simp)] at hpreserved
  rw [List.filterMap_append, Effect.hold?_eq_nil hflag (by simp)] at hheld
  subst hset
  refine ⟨?_, ?_⟩
  · rw [h.setUp.fire_congr fun selector => Registration.released_hooksFor done selector]
    exact hpreserved
  · rw [h.setUp.fire_congr fun selector => Registration.flushed_hooksFor done selector]
    exact hheld

/-- The effects of a text record nothing. -/
theorem continued (h : a.Accountable done) {chunk : String}
    (htask : a.task? (.text chunk) = some task) {set : StateSet}
    (hframes : a.frames = frame :: outer)
    (howed : frame.Owed a.automaton.hooks set) : task.done.2.Owed a.automaton.hooks set := by
  have hfits := h.setUp.fire_fits .inside a.automaton.current
  rw [task?, hframes] at htask
  cases htask
  obtain ⟨hpreserved, hheld⟩ := Task.after_recorded
    ⟨{ a with frames := outer }, a.addText frame chunk, some chunk, a.automaton.due .inside⟩
    (a.automaton.hooks.fire .inside a.automaton.current)
    ((a.automaton.hooks.fire .leave set).filterMap Effect.release?)
    ((a.automaton.hooks.fire .leave set).filterMap Effect.flush?)
    (by simpa [Holds.addText_eq, Effect.release?_eq_nil hfits] using howed.preserved)
    (by simpa [Holds.addText_eq, Effect.flush?_eq_nil hfits] using howed.held)
  rw [Effect.preserve?_eq_nil hfits (by simp), List.append_nil] at hpreserved
  rw [Effect.hold?_eq_nil hfits (by simp), List.append_nil] at hheld
  exact ⟨hpreserved, hheld⟩

/-- A frame has recorded nothing any more when the effects of its end tag have run. -/
theorem closed (h : a.Accountable done) {name : String}
    (htask : a.task? (.endTag name) = some task) :
    task.done.2.preserved = [] ∧ task.done.2.held = [] := by
  rcases task_cases htask with ⟨_, _, heq, -⟩ | ⟨_, _, _, heq, -, -⟩ |
    ⟨_, frame, outer, set, sets, -, hframes, hactive, rfl⟩
  · cases heq
  · cases heq
  · have howed := h.owed
    rw [hframes, hactive] at howed
    obtain ⟨first, -⟩ := List.forall₂_cons.1 howed
    have hfits := h.setUp.fire_fits .leave set
    obtain ⟨hpreserved, hheld⟩ := Task.after_recorded
      ⟨{ a with automaton := { a.automaton with active := sets }, frames := outer }, frame, none,
        a.automaton.hooks.fire .leave set⟩ (a.automaton.hooks.fire .leave set) [] []
      (by simpa using first.preserved) (by simpa using first.held)
    rw [Effect.preserve?_eq_nil hfits (by simp)] at hpreserved
    rw [Effect.hold?_eq_nil hfits (by simp)] at hheld
    exact ⟨List.subperm_nil.1 hpreserved, List.subperm_nil.1 hheld⟩

/-- A token leaves no more recorded in the open frames than the hooks undo. -/
theorem owed_completed (h : a.Accountable done) (htask : a.task? token = some task) :
    List.Forall₂ (Frame.Owed a.automaton.hooks) (completed task.done token).frames
      (completed task.done token).automaton.active := by
  have howed := h.owed
  have hsame := task.assembly.applyAll_same task.frame task.chunk task.effects
  have hframes : task.done.1.frames = task.assembly.frames := hsame.frames
  have hautomaton : task.done.1.automaton = task.assembly.automaton := hsame.automaton
  rw [completed_automaton, hautomaton]
  rcases task_cases htask with ⟨name, attributes, rfl, rfl⟩ |
    ⟨chunk, frame, outer, rfl, houter, rfl⟩ |
    ⟨name, frame, outer, set, sets, rfl, houter, hsets, rfl⟩
  · have hopened := h.opened htask
    rw [Assembly.completed, pushFrame_frames, hframes]
    exact .cons ⟨hopened.preserved, hopened.held⟩ (owed_modifyHead howed _)
  · rw [Assembly.completed, (emit_same _ _).frames, hframes]
    rw [houter] at howed
    obtain ⟨set, sets, first, rest, hsets⟩ := List.forall₂_cons_left_iff.1 howed
    rw [hsets]
    exact .cons (h.continued htask houter first) rest
  · rw [Assembly.completed, popFrame_frames, hframes]
    rw [houter, hsets] at howed
    exact owed_modifyHead (List.forall₂_cons.1 howed).2 _

theorem accept (h : a.Accountable done) (hb : a.accept token = .ok b) : b.Accountable done := by
  have hhooks : b.automaton.hooks = a.automaton.hooks := by rw [accept_automaton hb]
  obtain ⟨task, htask, rfl⟩ := exists_task hb
  have hframes : task.done.1.frames = task.assembly.frames :=
    (task.assembly.applyAll_same task.frame task.chunk task.effects).frames
  have htallied : task.done.1.Tallied (task.done.2 :: task.done.1.frames) :=
    hframes ▸ (h.begun htask).after task.effects
  refine ⟨h.setUp.accept hb, htallied.completed ?_, hhooks ▸ h.owed_completed htask⟩
  rintro name rfl
  exact h.closed htask

end Accountable

/-- Whatever is registered and delivered, the counters stay in balance. -/
theorem accountable_invariant : Invariant (σ := σ) fun done _ a => a.Accountable done where
  unseen h _ _ :=
    ⟨⟨h.setUp.serves, h.setUp.listeners, h.setUp.sinks⟩, ⟨h.tallied.counted, h.tallied.holding⟩,
      h.owed⟩
  register {_ _ s} h r := by
    obtain ⟨-, -, hframes, hactive⟩ := s.register_input r
    obtain ⟨more, hmore⟩ := s.register_entries r
    obtain ⟨hp, hv, hh⟩ := s.register_counters r
    refine ⟨h.setUp.register r, ⟨⟨?_, ?_⟩, ?_⟩, ?_⟩
    · rw [hframes, hp]
      exact h.tallied.counted.1
    · rw [hframes, hv]
      exact h.tallied.counted.2
    · rw [hframes, hh]
      exact h.tallied.holding
    · rw [hframes, hactive]
      exact h.owed.imp fun _ _ howed => howed.register hmore
  accept h _ hb := h.accept hb

end Assembly

namespace Stream

/-- Whatever is done with a stream, its counters are the sums of what the open frames have recorded,
and zero where no element is open.  Whenever a token is delivered, none of its effects takes from a
counter that is zero, and an element that it ends has nothing recorded any more. -/
theorem counters_exact (env : σ) (operations : List (Operation σ)) :
    (∃ verdicts s, (create env).operateAll operations = .ok (verdicts, s) ∧
      s.assembly.preserving = (s.assembly.frames.map (·.preserved.length)).sum ∧
      s.assembly.verbatim = (s.assembly.frames.map (·.preserved.count true)).sum ∧
      s.assembly.holding = (s.assembly.frames.map (·.held.length)).sum ∧
      (s.depth = 0 →
        s.assembly.preserving = 0 ∧ s.assembly.verbatim = 0 ∧ s.assembly.holding = 0)) ∧
    ∀ delivery ∈ (create env).history [] operations, ∃ task,
      delivery.assembly.task? delivery.token = some task ∧
      delivery.assembly.accept delivery.token =
        .ok (Assembly.completed task.done delivery.token) ∧
      (∀ before effect after, task.effects = before ++ effect :: after →
        Assembly.Covered (task.after before) effect) ∧
      ∀ name, delivery.token = .endTag name →
        task.done.2.preserved = [] ∧ task.done.2.held = [] := by
  have hstart : (create env).Keeps (fun done _ a => a.Accountable done) [] :=
    ⟨.create env, .create env, ⟨⟨rfl, rfl⟩, rfl⟩, .nil⟩
  obtain ⟨verdicts, s, hall, hs, hpasses⟩ :=
    operateAll_keeps Assembly.accountable_invariant hstart operations
  refine ⟨⟨verdicts, s, hall, ?_⟩, ?_⟩
  · obtain ⟨hp, hv, hh⟩ := hs.holds.tallied.sums
    refine ⟨hp, hv, hh, fun hdepth => ?_⟩
    have hnone : s.assembly.frames = [] := List.length_eq_zero_iff.1 hdepth
    rw [hp, hv, hh, hnone]
    exact ⟨rfl, rfl, rfl⟩
  · intro delivery hmem
    obtain ⟨p, q, b, hbefore, -, haccept, -⟩ := hpasses.of_mem delivery hmem
    obtain ⟨task, htask, rfl⟩ := Assembly.exists_task haccept
    refine ⟨task, htask, haccept, fun before effect after _ => ?_, fun name hname => ?_⟩
    · exact ((hbefore.begun htask).after before).covered effect
    · rw [hname] at htask
      exact hbefore.closed htask

end Stream

end XmlSieve
