import XmlSieve.Proofs.Token.Nesting
import XmlSieve.Stream.Basic

/-!
# Lockstep

Three stacks follow a document: the names that the tokenizer has open, the active sets of the
automaton and the frames under assembly.  `Assembly.InStep a p` says that the latter two are as high
as the place `p` is deep.  A token that follows `p` is accepted and keeps them in step
(`accept_inStep`), so that no call of a stream is ever misused by the tokens it delivers
(`drain_ok`).
-/

namespace XmlSieve

namespace Assembly

variable {σ : Type} {a b c : Assembly σ} {frame : Frame} {chunk : Option String}

/-! ### What effects leave alone -/

/-- `b` differs from `a` at most in its counters, in being paused and in what the listeners share.
-/
structure SameSetting (a b : Assembly σ) : Prop where
  automaton : b.automaton = a.automaton
  listeners : b.listeners = a.listeners
  sinks : b.sinks = a.sinks
  document : b.document = a.document
  frames : b.frames = a.frames

namespace SameSetting

theorem refl (a : Assembly σ) : SameSetting a a := ⟨rfl, rfl, rfl, rfl, rfl⟩

theorem trans (h : SameSetting a b) (k : SameSetting b c) : SameSetting a c :=
  ⟨k.1.trans h.1, k.2.trans h.2, k.3.trans h.3, k.4.trans h.4, k.5.trans h.5⟩

end SameSetting

theorem emit_same (a : Assembly σ) (fragment : String) : SameSetting a (a.emit fragment) := by
  unfold emit
  split
  · exact ⟨rfl, rfl, rfl, rfl, rfl⟩
  · exact .refl a

/-- What every sink upholds is upheld when something is written. -/
theorem emit_upholds {a : Assembly σ} {Q : σ → Prop}
    (hsinks : ∀ sink ∈ a.sinks, ∀ fragment env, Q env → Q (sink fragment env)) (h : Q a.env)
    (fragment : String) : Q (a.emit fragment).env := by
  unfold emit
  split
  · exact List.foldlRecOn (motive := Q) _ _ h fun env henv sink hsink => hsinks sink hsink _ env henv
  · exact h

/-- What no sink changes is not changed when something is written. -/
theorem emit_shows {a : Assembly σ} {β : Type} {f : σ → β}
    (hsinks : ∀ sink ∈ a.sinks, ∀ fragment env, f (sink fragment env) = f env) (fragment : String) :
    f (a.emit fragment).env = f a.env := by
  refine emit_upholds (Q := fun env => f env = f a.env) ?_ rfl fragment
  exact fun sink hsink fragment env henv => (hsinks sink hsink fragment env).trans henv

theorem notify_same (a : Assembly σ) (id : Nat) (frame : Frame) (chunk : Option String) :
    SameSetting a (a.notify id frame chunk).1 := by
  unfold notify
  split
  · exact .refl a
  · exact ⟨rfl, rfl, rfl, rfl, rfl⟩

theorem apply_same (a : Assembly σ) (frame : Frame) (chunk : Option String) (effect : Effect) :
    SameSetting a (apply chunk (a, frame) effect).1 := by
  cases effect with
  | collect => exact .refl a
  | preserve whitespace => exact ⟨rfl, rfl, rfl, rfl, rfl⟩
  | release whitespace =>
    simp only [apply, endPreserving]
    split
    · exact ⟨rfl, rfl, rfl, rfl, rfl⟩
    · exact .refl a
  | hold id => exact ⟨rfl, rfl, rfl, rfl, rfl⟩
  | flush id =>
    simp only [apply, flush]
    split
    · have htold := a.notify_same id { frame with held := frame.held.erase id } none
      refine SameSetting.trans ?_ (emit_same _ _)
      exact ⟨htold.1, htold.2, htold.3, htold.4, htold.5⟩
    · exact .refl a
  | notify id => exact a.notify_same id frame chunk

/-- The effects of a token change neither the stacks nor what was registered. -/
theorem applyAll_same (a : Assembly σ) (frame : Frame) (chunk : Option String)
    (effects : List Effect) : SameSetting a (a.applyAll frame chunk effects).1 := by
  induction effects generalizing a frame with
  | nil => exact .refl a
  | cons effect effects ih =>
    exact (a.apply_same frame chunk effect).trans (ih _ _)

/-! ### Tokens in two steps

A token first runs its effects, on a frame that is not among the open ones, and then changes the
stacks. -/

/-- Opens the element of `frame`, whose effects have run. -/
def pushFrame (a : Assembly σ) (frame : Frame) : Assembly σ :=
  let frame := if a.preserving > 0 then frame.startNodes else frame
  let e := frame.element
  let a := (a.modifyParent (·.openChild e.name frame.collected)).emit
    (Markup.startTag e.name e.attributes)
  { a with frames := frame :: a.frames }

/-- Closes the element of `frame`, whose effects have run. -/
def popFrame (a : Assembly σ) (frame : Frame) : Assembly σ :=
  (a.store frame).emit (Markup.endTag frame.element.name)

/-- The assembly and the new frame after the effects of a start tag. -/
def runStart (a : Assembly σ) (name : String) (attributes : Attributes) : Assembly σ × Frame :=
  { a with automaton := (a.automaton.enter name).2 }.applyAll
    (Frame.opened a.path name attributes) none
    ((a.automaton.enter name).1.flags ++ (a.automaton.enter name).1.enter)

/-- The assembly and the innermost frame after the effects of a text. -/
def runText (a : Assembly σ) (frame : Frame) (outer : List Frame) (chunk : String) :
    Assembly σ × Frame :=
  { a with frames := outer }.applyAll (a.addText frame chunk) (some chunk)
    (a.automaton.due .inside)

/-- The assembly and the closing frame after the effects of an end tag. -/
def runEnd (a : Assembly σ) (frame : Frame) (outer : List Frame) (set : StateSet)
    (sets : List StateSet) : Assembly σ × Frame :=
  { a with automaton := { a.automaton with active := sets }, frames := outer }.applyAll frame none
    (a.automaton.hooks.fire .leave set)

theorem acceptStart_eq (a : Assembly σ) (name : String) (attributes : Attributes) :
    a.acceptStart name attributes =
      (a.runStart name attributes).1.pushFrame (a.runStart name attributes).2 := by
  simp [acceptStart, runStart, applyAll, pushFrame, List.foldl_append]

theorem acceptText_eq {outer : List Frame} (h : a.frames = frame :: outer) (chunk : String) :
    a.acceptText chunk = .ok
      ({ (a.runText frame outer chunk).1 with
          frames := (a.runText frame outer chunk).2 ::
            (a.runText frame outer chunk).1.frames }.emit (escape chunk)) := by
  rw [acceptText, h]
  rfl

theorem acceptEnd_eq {outer : List Frame} {set : StateSet} {sets : List StateSet}
    (h : a.frames = frame :: outer) (hactive : a.automaton.active = set :: sets) :
    a.acceptEnd =
      .ok ((a.runEnd frame outer set sets).1.popFrame (a.runEnd frame outer set sets).2) := by
  rw [acceptEnd, h, Automaton.leave, hactive]
  rfl

/-- Text is taken in an open element. -/
theorem exists_frames_of_text {b : Assembly σ} {chunk : String} (hb : a.acceptText chunk = .ok b) :
    ∃ frame outer, a.frames = frame :: outer := by
  cases hframes : a.frames with
  | nil =>
    rw [acceptText, hframes] at hb
    cases hb
  | cons frame outer => exact ⟨frame, outer, rfl⟩

/-- An end tag is taken in an open element. -/
theorem exists_frames_of_end {b : Assembly σ} (hb : a.acceptEnd = .ok b) :
    ∃ frame outer, a.frames = frame :: outer := by
  cases hframes : a.frames with
  | nil =>
    rw [acceptEnd, hframes] at hb
    cases hb
  | cons frame outer => exact ⟨frame, outer, rfl⟩

/-- An end tag is taken where the automaton has a set to go back to. -/
theorem exists_active_of_end {b : Assembly σ} (hb : a.acceptEnd = .ok b) :
    ∃ set sets, a.automaton.active = set :: sets := by
  obtain ⟨frame, outer, hframes⟩ := exists_frames_of_end hb
  cases hactive : a.automaton.active with
  | nil =>
    rw [acceptEnd, hframes, Automaton.leave, hactive] at hb
    cases hb
  | cons set sets => exact ⟨set, sets, rfl⟩

/-! ### The stacks -/

theorem modifyParent_eq (a : Assembly σ) (f : Element → Element) :
    a.modifyParent f =
      { a with
        document := (a.modifyParent f).document
        frames := (a.modifyParent f).frames } := by
  unfold modifyParent
  split <;> rfl

/-- A token changes neither who is told nor where the document is written to. -/
theorem accept_keeps {a b : Assembly σ} {token : Token} (hb : a.accept token = .ok b) :
    b.listeners = a.listeners ∧ b.sinks = a.sinks := by
  cases token with
  | startTag name attributes =>
    cases hb
    have hran := applyAll_same { a with automaton := (a.automaton.enter name).2 }
      (Frame.opened a.path name attributes) none
      ((a.automaton.enter name).1.flags ++ (a.automaton.enter name).1.enter)
    rw [acceptStart_eq]
    unfold pushFrame
    dsimp only
    rw [(emit_same _ _).listeners, (emit_same _ _).sinks, modifyParent_eq]
    exact ⟨hran.listeners, hran.sinks⟩
  | text content =>
    obtain ⟨frame, outer, hframes⟩ := exists_frames_of_text hb
    rw [accept, acceptText_eq hframes] at hb
    cases hb
    have hran := applyAll_same { a with frames := outer } (a.addText frame content)
      (some content) (a.automaton.due .inside)
    rw [(emit_same _ _).listeners, (emit_same _ _).sinks]
    exact ⟨hran.listeners, hran.sinks⟩
  | endTag name =>
    obtain ⟨frame, outer, hframes⟩ := exists_frames_of_end hb
    obtain ⟨set, sets, hactive⟩ := exists_active_of_end hb
    rw [accept, acceptEnd_eq hframes hactive] at hb
    cases hb
    have hran := applyAll_same
      { a with automaton := { a.automaton with active := sets }, frames := outer } frame none
      (a.automaton.hooks.fire .leave set)
    unfold popFrame store
    rw [(emit_same _ _).listeners, (emit_same _ _).sinks, modifyParent_eq]
    exact ⟨hran.listeners, hran.sinks⟩

/-- The frames and the active sets are as many as the elements open at `p`. -/
structure InStep (a : Assembly σ) (p : Place) : Prop where
  frames : a.frames.length = p.depth
  active : a.automaton.active.length = p.depth

theorem length_modifyParent (a : Assembly σ) (f : Element → Element) :
    (a.modifyParent f).frames.length = a.frames.length := by
  unfold modifyParent
  split
  · rfl
  · next h => simp [h]

theorem modifyParent_automaton (a : Assembly σ) (f : Element → Element) :
    (a.modifyParent f).automaton = a.automaton := by
  unfold modifyParent
  split <;> rfl

theorem pushFrame_stacks (a : Assembly σ) (frame : Frame) :
    (a.pushFrame frame).frames.length = a.frames.length + 1 ∧
      (a.pushFrame frame).automaton = a.automaton := by
  unfold pushFrame
  dsimp only
  generalize (if a.preserving > 0 then frame.startNodes else frame) = frame
  have hemit := (a.modifyParent (·.openChild frame.element.name frame.collected)).emit_same
    (Markup.startTag frame.element.name frame.element.attributes)
  constructor
  · rw [List.length_cons, hemit.frames, length_modifyParent]
  · rw [hemit.automaton, modifyParent_automaton]

theorem popFrame_stacks (a : Assembly σ) (frame : Frame) :
    (a.popFrame frame).frames.length = a.frames.length ∧
      (a.popFrame frame).automaton = a.automaton := by
  have hemit := (a.store frame).emit_same (Markup.endTag frame.element.name)
  constructor
  · rw [popFrame, hemit.frames, store, length_modifyParent]
  · rw [popFrame, hemit.automaton, store, modifyParent_automaton]

theorem depth_inside (names : List String) : (Place.inside names).depth = names.length := by
  rw [Place.depth, Place.openNames_inside]

theorem acceptStart_inStep {p : Place} (ha : a.InStep p) (name : String)
    (attributes : Attributes) :
    (a.acceptStart name attributes).InStep (.content name p.openNames) := by
  have hsame := applyAll_same { a with automaton := (a.automaton.enter name).2 }
    (Frame.opened a.path name attributes) none
    ((a.automaton.enter name).1.flags ++ (a.automaton.enter name).1.enter)
  have hpush := (a.runStart name attributes).1.pushFrame_stacks (a.runStart name attributes).2
  rw [acceptStart_eq]
  constructor
  · rw [hpush.1, runStart, hsame.frames, ha.frames]
    rfl
  · rw [hpush.2, runStart, hsame.automaton]
    exact congrArg (· + 1) ha.active

theorem acceptText_inStep {innermost : String} {outer : List String}
    (ha : a.InStep (.content innermost outer)) (content : String) :
    ∃ b, a.acceptText content = .ok b ∧ b.InStep (.content innermost outer) := by
  obtain ⟨frame, frames, hframes⟩ := List.exists_cons_of_length_eq_add_one ha.frames
  have hsame := applyAll_same { a with frames := frames } (a.addText frame content)
    (some content) (a.automaton.due .inside)
  refine ⟨_, acceptText_eq hframes content, ?_⟩
  constructor
  · rw [(emit_same _ _).frames, List.length_cons, runText, hsame.frames, ← ha.frames, hframes]
    rfl
  · rw [(emit_same _ _).automaton]
    exact (congrArg (·.active.length) hsame.automaton).trans ha.active

theorem acceptEnd_inStep {innermost : String} {outer : List String}
    (ha : a.InStep (.content innermost outer)) :
    ∃ b, a.acceptEnd = .ok b ∧ b.InStep (.inside outer) := by
  obtain ⟨frame, frames, hframes⟩ := List.exists_cons_of_length_eq_add_one ha.frames
  obtain ⟨set, sets, hactive⟩ := List.exists_cons_of_length_eq_add_one ha.active
  have hsame := applyAll_same
    { a with automaton := { a.automaton with active := sets }, frames := frames } frame none
    (a.automaton.hooks.fire .leave set)
  have hpop := (a.runEnd frame frames set sets).1.popFrame_stacks
    (a.runEnd frame frames set sets).2
  have hlen := ha.frames
  have hlen' := ha.active
  rw [hframes] at hlen
  rw [hactive] at hlen'
  refine ⟨_, acceptEnd_eq hframes hactive, ?_⟩
  constructor
  · rw [hpop.1, runEnd, hsame.frames, depth_inside]
    exact Nat.succ.inj hlen
  · rw [hpop.2, runEnd, hsame.automaton, depth_inside]
    exact Nat.succ.inj hlen'

/-- A token that can stand at the place the stacks are in step with is accepted. -/
theorem accept_inStep {p q : Place} {token : Token} (ha : a.InStep p)
    (hq : p.follow token = some q) : ∃ b, a.accept token = .ok b ∧ b.InStep q := by
  cases Place.follow_eq_some_iff.1 hq with
  | startTag name attributes => exact ⟨_, rfl, acceptStart_inStep ha name attributes⟩
  | text content => exact acceptText_inStep ha content
  | endTag => exact acceptEnd_inStep ha

end Assembly

namespace Stream

variable {σ : Type} {s : Stream σ}

/-! ### Streams -/

/-- What holds of a stream between calls: the tokenizer knows whether the input has ended, and the
stacks are in step. -/
structure Sound (s : Stream σ) : Prop where
  accepting : s.phase = .accepting → s.tokenizer.finished = false
  finishing : s.phase = .finishing → s.tokenizer.finished = true
  rootStarted : s.tokenizer.RootStarted
  inStep : s.assembly.InStep s.tokenizer.standing

theorem Sound.create (env : σ) : (create env).Sound :=
  ⟨fun _ => rfl, by simp [Stream.create], by simp [Stream.create, Tokenizer.RootStarted], rfl, rfl⟩

theorem Sound.fail {e : StreamError} (h : s.assembly.InStep s.tokenizer.standing)
    (hr : s.tokenizer.RootStarted) : (s.fail e).Sound :=
  ⟨by simp [Stream.fail], by simp [Stream.fail], hr, h.frames, h.active⟩

theorem Sound.settle (hs : s.Sound) : s.settle.Sound := by
  unfold Stream.settle
  split
  · exact ⟨by simp [complete], by simp [complete], hs.rootStarted, hs.inStep.frames,
      hs.inStep.active⟩
  · exact hs

/-- A stream stays sound when its tokenizer answers without a token. -/
theorem Sound.wait {tokenizer : Tokenizer} {answer : Tokenizer.Answer} (hs : s.Sound)
    (h : s.tokenizer.next = (answer, tokenizer)) (hne : ∀ token, answer ≠ .ok (some token)) :
    { s with tokenizer }.Sound := by
  obtain ⟨hstanding, hroot⟩ := Tokenizer.next_standing hs.rootStarted h hne
  have hfinished := s.tokenizer.next_finished
  rw [h] at hfinished
  exact ⟨fun hp => hfinished.trans (hs.accepting hp), fun hp => hfinished.trans (hs.finishing hp),
    hroot, hstanding.symm ▸ hs.inStep⟩

/-- A token that the tokenizer gives is accepted, and the stream stays sound. -/
theorem Sound.token {tokenizer : Tokenizer} {token : Token} (hs : s.Sound)
    (h : s.tokenizer.next = (.ok (some token), tokenizer)) :
    ∃ assembly, s.assembly.accept token = .ok assembly ∧ { s with tokenizer, assembly }.Sound := by
  obtain ⟨hfollow, hroot⟩ := Tokenizer.next_follow hs.rootStarted h
  obtain ⟨assembly, haccept, hstep⟩ := Assembly.accept_inStep hs.inStep hfollow
  have hfinished := s.tokenizer.next_finished
  rw [h] at hfinished
  exact ⟨assembly, haccept, fun hp => hfinished.trans (hs.accepting hp),
    fun hp => hfinished.trans (hs.finishing hp), hroot, hstep⟩

/-- The token that was accepted is the one that the tokenizer gave. -/
theorem Sound.accepted {tokenizer : Tokenizer} {token : Token} {assembly : Assembly σ}
    (hs : s.Sound) (h : s.tokenizer.next = (.ok (some token), tokenizer))
    (haccept : s.assembly.accept token = .ok assembly) : { s with tokenizer, assembly }.Sound := by
  obtain ⟨assembly', haccept', ht⟩ := hs.token h
  rw [haccept] at haccept'
  cases haccept'
  exact ht

/-! ### Delivery -/

/-- How a delivery comes to its verdict: it takes tokens, each while it is not paused, until it is
paused, the tokenizer answers an error or no token is left. -/
inductive Drains : Stream σ → Verdict → Stream σ → Prop where
  | paused {s : Stream σ} (paused : s.isPaused = true) : Drains s (.ok ()) s
  | failed {s : Stream σ} {tokenizer : Tokenizer} {e : StreamError}
      (running : ¬ s.isPaused = true) (next : s.tokenizer.next = (.error e, tokenizer)) :
      Drains s (.error e) (({ s with tokenizer } : Stream σ).fail e)
  | waiting {s : Stream σ} {tokenizer : Tokenizer} (running : ¬ s.isPaused = true)
      (next : s.tokenizer.next = (.ok none, tokenizer)) :
      Drains s (.ok ()) ({ s with tokenizer } : Stream σ).settle
  | token {s t : Stream σ} {tokenizer : Tokenizer} {token : Token} {assembly : Assembly σ}
      {verdict : Verdict} (running : ¬ s.isPaused = true)
      (next : s.tokenizer.next = (.ok (some token), tokenizer))
      (accept : s.assembly.accept token = .ok assembly)
      (rest : Drains { s with tokenizer, assembly } verdict t) : Drains s verdict t

theorem drain_paused (hp : s.isPaused = true) : s.drain = .ok (.ok (), s) := by
  rw [drain, if_pos hp]

theorem drain_failed {tokenizer : Tokenizer} {e : StreamError} (hp : ¬ s.isPaused = true)
    (h : s.tokenizer.next = (.error e, tokenizer)) :
    s.drain = .ok (.error e, { s with tokenizer }.fail e) := by
  rw [drain, if_neg hp]
  split <;> rename_i hnext <;> rw [h] at hnext <;> cases hnext
  rfl

theorem drain_waiting {tokenizer : Tokenizer} (hp : ¬ s.isPaused = true)
    (h : s.tokenizer.next = (.ok none, tokenizer)) :
    s.drain = .ok (.ok (), { s with tokenizer }.settle) := by
  rw [drain, if_neg hp]
  split <;> rename_i hnext <;> rw [h] at hnext <;> cases hnext
  rfl

/-- A token that is taken leads on with the delivery. -/
theorem drain_taken {tokenizer : Tokenizer} {token : Token} {assembly : Assembly σ}
    (hp : ¬ s.isPaused = true) (h : s.tokenizer.next = (.ok (some token), tokenizer))
    (haccept : s.assembly.accept token = .ok assembly) :
    s.drain = { s with tokenizer, assembly }.drain := by
  rw [drain, if_neg hp]
  split <;> rename_i hnext <;> rw [h] at hnext <;> cases hnext
  rw [haccept]

theorem drain_eq_ok_iff {t : Stream σ} {verdict : Verdict} :
    s.drain = .ok (verdict, t) ↔ s.Drains verdict t := by
  constructor
  · intro h
    fun_induction drain s with
    | case1 s hp =>
      cases h
      exact .paused hp
    | case2 s hp e tokenizer hnext =>
      cases h
      exact .failed hp hnext
    | case3 s hp tokenizer hnext =>
      cases h
      exact .waiting hp hnext
    | case4 s hp token tokenizer hnext _ misuse hmisuse => cases h
    | case5 s hp token tokenizer hnext _ assembly haccept ih => exact .token hp hnext haccept (ih h)
  · intro h
    induction h with
    | paused hp => exact drain_paused hp
    | failed hp hnext => exact drain_failed hp hnext
    | waiting hp hnext => exact drain_waiting hp hnext
    | token hp hnext haccept _ ih => rw [drain_taken hp hnext haccept, ih]

/-- Delivering tokens always gives a result. -/
theorem drain_ok (hs : s.Sound) : ∃ verdict t, s.drain = .ok (verdict, t) ∧ t.Sound := by
  fun_induction drain s with
  | case1 s hp => exact ⟨_, _, rfl, hs⟩
  | case2 s hp e tokenizer h =>
    have hw := hs.wait h (by simp)
    exact ⟨_, _, rfl, .fail hw.inStep hw.rootStarted⟩
  | case3 s hp tokenizer h => exact ⟨_, _, rfl, (hs.wait h (by simp)).settle⟩
  | case4 s hp token tokenizer h _ misuse hmisuse =>
    obtain ⟨assembly, haccept, -⟩ := hs.token h
    rw [hmisuse] at haccept
    cases haccept
  | case5 s hp token tokenizer h _ assembly haccept ih => exact ih (hs.accepted h haccept)

end Stream

end XmlSieve
