import XmlSieve.Proofs.Stream.Output

/-!
# Tracking a document

Whatever listeners do to elements, an assembly keeps track of its document by the names that the
tokens gave: `Assembly.Tracks` says that the automaton is in the states for the open names, that
every open frame is collected if a selector asks for it and holds output back for the updates that
are due when it ends, and that all of these are counted.  Every token keeps it up (`Tracks.start`,
`Tracks.text`, `Tracks.finish`).
-/

namespace XmlSieve

variable {σ : Type}

/-! ### The automaton -/

namespace Automaton

variable {η : Type} {m : Automaton η} {names : List String}

/-- The states for open elements, given their names, innermost first. -/
def setsFor (m : Automaton η) : List String → List StateSet
  | [] => []
  | name :: outer => m.after (name :: outer).reverse :: m.setsFor outer

/-- The automaton in the states for open elements. -/
def openFor (m : Automaton η) (names : List String) : Automaton η :=
  { m with active := m.setsFor names }

theorem current_openFor (m : Automaton η) (names : List String) :
    (m.openFor names).current = m.after names.reverse := by
  cases names <;> rfl

theorem due_openFor (m : Automaton η) (names : List String) (occasion : Occasion) :
    (m.openFor names).due occasion = m.dueAt occasion names.reverse := by
  rw [due, current_openFor]
  rfl

theorem enter_openFor (m : Automaton η) (names : List String) (name : String) :
    (m.openFor names).enter name =
      (⟨m.dueAt .flag (name :: names).reverse, m.dueAt .enter (name :: names).reverse⟩,
        m.openFor (name :: names)) := by
  have hset : m.transition (m.after names.reverse) name = m.after (name :: names).reverse := by
    rw [List.reverse_cons, after, after, List.foldl_append]
    rfl
  have htransition (set : StateSet) : (m.openFor names).transition set name =
      m.transition set name := rfl
  rw [enter, current_openFor, htransition, hset]
  rfl

end Automaton

/-! ### The frames -/

/-- A frame of the element at `path`, as far as it does not depend on listeners. -/
structure Frame.Tracks (frame : Frame) (m : Automaton Effect) (policy : Policy)
    (path : List String) : Prop where
  collected : frame.collected = policy.collects path
  held : frame.held.Perm ((m.dueAt .leave path).filterMap Effect.flush?)

/-- Two frames of an element hold output back for as many updates. -/
theorem Frame.Tracks.length_held {frame other : Frame} {m : Automaton Effect} {policy : Policy}
    {path : List String} (h : frame.Tracks m policy path) (h' : other.Tracks m policy path) :
    frame.held.length = other.held.length :=
  (h.held.trans h'.held.symm).length_eq

/-- Frames of open elements, given the names of these, innermost first. -/
inductive Tracked (m : Automaton Effect) (policy : Policy) : List Frame → List String → Prop where
  | nil : Tracked m policy [] []
  | cons {frame : Frame} {frames : List Frame} {name : String} {names : List String}
      (first : frame.Tracks m policy (name :: names).reverse) (rest : Tracked m policy frames names) :
      Tracked m policy (frame :: frames) (name :: names)

/-- The frames with their innermost element changed. -/
def Frame.modifyHead (f : Element → Element) : List Frame → List Frame
  | [] => []
  | frame :: outer => { frame with element := f frame.element } :: outer

namespace Assembly

variable {a b : Assembly σ} {m : Automaton Effect} {policy : Policy} {names : List String}
  {frame : Frame} {outer : List Frame} {token : Token}

/-- How many updates hold output back in frames. -/
def heldIn (frames : List Frame) : Nat := (frames.flatMap (·.held)).length

theorem heldIn_cons (frame : Frame) (frames : List Frame) :
    heldIn (frame :: frames) = frame.held.length + heldIn frames := by
  rw [heldIn, List.flatMap_cons, List.length_append, heldIn]

theorem modifyParent_frames (a : Assembly σ) (f : Element → Element) :
    (a.modifyParent f).frames = Frame.modifyHead f a.frames := by
  unfold modifyParent Frame.modifyHead
  split <;> simp_all

theorem heldIn_modifyHead (f : Element → Element) (frames : List Frame) :
    heldIn (Frame.modifyHead f frames) = heldIn frames := by
  cases frames with
  | nil => rfl
  | cons frame frames => rw [Frame.modifyHead, heldIn_cons, heldIn_cons]

theorem names_modifyHead {f : Element → Element} (h : ∀ e, (f e).name = e.name)
    (frames : List Frame) :
    (Frame.modifyHead f frames).map (·.element.name) = frames.map (·.element.name) := by
  cases frames with
  | nil => rfl
  | cons frame frames => rw [Frame.modifyHead, List.map_cons, List.map_cons, h]

/-- What is invariant while a document is read whose open elements have these names. -/
structure Tracks (a : Assembly σ) (m : Automaton Effect) (policy : Policy) (names : List String) :
    Prop where
  automaton : a.automaton = m.openFor names
  frames : Tracked m policy a.frames names
  holding : a.holding = heldIn a.frames

end Assembly

theorem Tracked.modifyHead {m : Automaton Effect} {policy : Policy} {frames : List Frame}
    {names : List String} (h : Tracked m policy frames names) (f : Element → Element) :
    Tracked m policy (Frame.modifyHead f frames) names := by
  cases h with
  | nil => exact .nil
  | cons first rest => exact .cons ⟨first.collected, first.held⟩ rest

namespace Assembly

variable {a b : Assembly σ} {m : Automaton Effect} {policy : Policy} {names : List String}
  {frame : Frame} {outer : List Frame} {token : Token} {name : String} {chunk : Option String}

/-! ### Pushing and popping -/

/-- The frames when an element has opened. -/
theorem pushFrame_frames (a : Assembly σ) (frame : Frame) :
    (a.pushFrame frame).frames =
      { frame with
        element := { frame.element with
          nodes := if a.preserving > 0 then some [] else frame.element.nodes } } ::
        Frame.modifyHead (·.openChild frame.element.name frame.collected) a.frames := by
  unfold pushFrame
  dsimp only
  rw [(emit_same _ _).frames, modifyParent_frames]
  obtain ⟨⟨name, attributes, children, text, nodes⟩, path, collected, spacing, preserved, held⟩ :=
    frame
  by_cases hp : a.preserving > 0
  · simp [hp, Frame.startNodes]
  · simp [hp]

theorem pushFrame_holding (a : Assembly σ) (frame : Frame) :
    (a.pushFrame frame).holding = a.holding := by
  unfold pushFrame
  dsimp only
  rw [emit_holding, modifyParent_holding]

/-- The frames after a start tag. -/
theorem acceptStart_frames (a : Assembly σ) (name : String) (attributes : Attributes) :
    (a.acceptStart name attributes).frames =
      { (a.runStart name attributes).2 with
        element := { (a.runStart name attributes).2.element with
          nodes :=
            if (a.runStart name attributes).1.preserving > 0 then some []
            else (a.runStart name attributes).2.element.nodes } } ::
        Frame.modifyHead (·.openChild (a.runStart name attributes).2.element.name
          (a.runStart name attributes).2.collected) a.frames := by
  have hsame := applyAll_same { a with automaton := (a.automaton.enter name).2 }
    (Frame.opened a.path name attributes) none
    ((a.automaton.enter name).1.flags ++ (a.automaton.enter name).1.enter)
  have houter : (a.runStart name attributes).1.frames = a.frames := hsame.frames
  rw [acceptStart_eq, pushFrame_frames, houter]

/-- The frames after a text. -/
theorem acceptText_frames {content : String} (hframes : a.frames = frame :: outer)
    (hb : a.acceptText content = .ok b) :
    b.frames = (a.runText frame outer content).2 :: outer := by
  have hsame := applyAll_same { a with frames := outer } (a.addText frame content) (some content)
    (a.automaton.due .inside)
  have houter : (a.runText frame outer content).1.frames = outer := hsame.frames
  rw [acceptText_eq hframes] at hb
  cases hb
  rw [(emit_same _ _).frames, houter]

/-- The frames when an element has closed. -/
theorem popFrame_frames (a : Assembly σ) (frame : Frame) :
    (a.popFrame frame).frames =
      Frame.modifyHead (fun parent =>
        (if a.preserving > 0 then parent.addNode (.element frame.element) else parent).closeChild
          frame.element.name frame.collected frame.element.toContent) a.frames := by
  rw [popFrame, (emit_same _ _).frames, store, modifyParent_frames]

/-- The frames after an end tag. -/
theorem acceptEnd_frames {set : StateSet} {sets : List StateSet} (hframes : a.frames = frame :: outer)
    (hactive : a.automaton.active = set :: sets) {r : Assembly σ × Frame}
    (hr : a.runEnd frame outer set sets = r) (hb : a.acceptEnd = .ok b) :
    b.frames = Frame.modifyHead (fun parent =>
      (if r.1.preserving > 0 then parent.addNode (.element r.2.element) else parent).closeChild
        r.2.element.name r.2.collected r.2.element.toContent) outer := by
  have hsame := applyAll_same
    { a with automaton := { a.automaton with active := sets }, frames := outer } frame none
    (a.automaton.hooks.fire .leave set)
  have houter : (a.runEnd frame outer set sets).1.frames = outer := hsame.frames
  rw [acceptEnd_eq hframes hactive] at hb
  cases hb
  rw [popFrame_frames, houter, hr]

theorem popFrame_holding (a : Assembly σ) (frame : Frame) :
    (a.popFrame frame).holding = a.holding := by
  rw [popFrame, emit_holding, store, modifyParent_holding]

/-! ### Effects -/

/-- What effects put under way in a frame where everything that they end is under way. -/
theorem applyAll_tracks (a : Assembly σ) (chunk : Option String) {effects : List Effect}
    {kept : List Nat} (hheld : frame.held.Perm (effects.filterMap Effect.flush? ++ kept)) :
    (a.applyAll frame chunk effects).2.held.Perm (kept ++ effects.filterMap Effect.hold?) ∧
      (a.applyAll frame chunk effects).2.collected =
        (frame.collected || decide (.collect ∈ effects)) := by
  rw [a.applyAll_frame frame chunk effects]
  exact ⟨Effect.foldl_track_perm (fun e _ => e.hold_flush) hheld, rfl⟩

/-- A frame that opens holds nothing, and a start tag flushes nothing. -/
theorem opened_held (hm : policy.Agrees m) (around : String) (name : String)
    (attributes : Attributes) (path : List String) :
    (Frame.opened around name attributes).held.Perm
      ((m.dueAt .flag path ++ m.dueAt .enter path).filterMap Effect.flush? ++ []) := by
  rw [hm.flush?_start]
  exact .nil

/-- A text flushes nothing. -/
theorem addText_held (hm : policy.Agrees m) (a : Assembly σ) (frame : Frame) (chunk : String)
    (path : List String) :
    (a.addText frame chunk).held.Perm
      ((m.dueAt .inside path).filterMap Effect.flush? ++ frame.held) := by
  rw [Effect.flush?_eq_nil (hm.fits .inside path) (by simp), Holds.addText_eq]
  exact .refl _

namespace Tracks

/-- Where no element is open, none can end. -/
theorem acceptEnd_ne_ok (h : a.Tracks m policy []) : a.acceptEnd ≠ .ok b := by
  intro hb
  obtain ⟨frame, outer, hframes⟩ := exists_frames_of_end hb
  have htracked := h.frames
  rw [hframes] at htracked
  cases htracked

/-- The innermost frame is that of the innermost open element. -/
theorem head (h : a.Tracks m policy names) (hframes : a.frames = frame :: outer) :
    frame.Tracks m policy names.reverse := by
  have htracked := h.frames
  rw [hframes] at htracked
  cases htracked with
  | cons first rest => exact first

/-- The frames around the innermost are those of the elements around it. -/
theorem tail (h : a.Tracks m policy (name :: names)) (hframes : a.frames = frame :: outer) :
    Tracked m policy outer names := by
  have htracked := h.frames
  rw [hframes] at htracked
  cases htracked with
  | cons first rest => exact rest

/-- What is held back for the innermost open element and for those around it is all that is. -/
theorem holding_cons (h : a.Tracks m policy names) (hframes : a.frames = frame :: outer) :
    a.holding = frame.held.length + heldIn outer := by
  rw [h.holding, hframes, heldIn_cons]

/-- What is due in the innermost open element. -/
theorem due_eq (h : a.Tracks m policy names) (occasion : Occasion) :
    a.automaton.due occasion = m.dueAt occasion names.reverse := by
  rw [h.automaton, Automaton.due_openFor]

/-! ### Start tags -/

theorem runStart_eq (h : a.Tracks m policy names) (name : String) (attributes : Attributes) :
    a.runStart name attributes =
      { a with automaton := m.openFor (name :: names) }.applyAll
        (Frame.opened a.path name attributes) none
        (m.dueAt .flag (name :: names).reverse ++ m.dueAt .enter (name :: names).reverse) := by
  rw [runStart, h.automaton, Automaton.enter_openFor]

/-- The frame of an element that opens, when its effects have run. -/
theorem start_frame (h : a.Tracks m policy names) (hm : policy.Agrees m) (name : String)
    (attributes : Attributes) :
    (a.runStart name attributes).2.Tracks m policy (name :: names).reverse ∧
      (a.runStart name attributes).1.holding =
        (a.runStart name attributes).2.held.length + heldIn a.frames := by
  have hfits (occasion : Occasion) := hm.fits occasion (name :: names).reverse
  have hpolicy : policy.collects (name :: names).reverse =
      decide (.collect ∈ m.dueAt .flag (name :: names).reverse) := by
    rw [List.reverse_cons]
    exact hm.collects _ _
  have hheld := opened_held hm a.path name attributes (name :: names).reverse
  have hholding : ({ a with automaton := m.openFor (name :: names) } : Assembly σ).holding =
      (Frame.opened a.path name attributes).held.length + heldIn a.frames :=
    h.holding.trans (Nat.zero_add _).symm
  obtain ⟨hheld', hcollected⟩ :=
    applyAll_tracks { a with automaton := m.openFor (name :: names) } none hheld
  rw [h.runStart_eq]
  refine ⟨⟨?_, ?_⟩, applyAll_holding hholding none _⟩
  · rw [hcollected, hpolicy]
    simp only [Frame.opened, Bool.false_or, List.mem_append,
      Effect.collect_not_mem (hfits .enter) (by simp), or_false]
  · rwa [List.filterMap_append, Effect.hold?_eq_nil (hfits .flag) (by simp), List.nil_append,
      List.nil_append, ← hm.flushed] at hheld'

theorem start (h : a.Tracks m policy names) (hm : policy.Agrees m) (name : String)
    (attributes : Attributes) :
    (a.acceptStart name attributes).Tracks m policy (name :: names) := by
  obtain ⟨hframe, hholding⟩ := h.start_frame hm name attributes
  have hsame : SameSetting { a with automaton := m.openFor (name :: names) }
      (a.runStart name attributes).1 := by
    rw [h.runStart_eq]
    exact applyAll_same _ _ _ _
  refine ⟨?_, ?_, ?_⟩
  · rw [acceptStart_eq]
    exact (pushFrame_stacks _ _).2.trans hsame.automaton
  · rw [acceptStart_frames]
    exact .cons ⟨hframe.collected, hframe.held⟩ (h.frames.modifyHead _)
  · rw [acceptStart_frames, heldIn_cons, heldIn_modifyHead, acceptStart_eq, pushFrame_holding,
      hholding]

/-! ### Texts -/

theorem runText_eq (h : a.Tracks m policy names) (frame : Frame) (outer : List Frame)
    (chunk : String) :
    a.runText frame outer chunk =
      { a with frames := outer }.applyAll (a.addText frame chunk) (some chunk)
        (m.dueAt .inside names.reverse) := by
  rw [runText, h.due_eq]

/-- The frame of an element in which there is text, when the effects of this have run. -/
theorem text_frame (h : a.Tracks m policy names) (hm : policy.Agrees m)
    (hframes : a.frames = frame :: outer) (chunk : String) :
    (a.runText frame outer chunk).2.Tracks m policy names.reverse ∧
      (a.runText frame outer chunk).1.holding =
        (a.runText frame outer chunk).2.held.length + heldIn outer := by
  have hfits := hm.fits .inside names.reverse
  have hadd := Holds.addText_eq a frame chunk
  have hholding : ({ a with frames := outer } : Assembly σ).holding =
      (a.addText frame chunk).held.length + heldIn outer := by
    refine (h.holding_cons hframes).trans ?_
    rw [hadd]
  obtain ⟨hheld, hcollected⟩ := applyAll_tracks { a with frames := outer } (some chunk)
    (addText_held hm a frame chunk names.reverse)
  rw [h.runText_eq]
  refine ⟨⟨?_, ?_⟩, applyAll_holding hholding (some chunk) _⟩
  · rw [hcollected, decide_eq_false (Effect.collect_not_mem hfits (by simp)), Bool.or_false, hadd]
    exact (h.head hframes).collected
  · rw [Effect.hold?_eq_nil hfits (by simp), List.append_nil] at hheld
    exact hheld.trans (h.head hframes).held

theorem text (h : a.Tracks m policy names) (hm : policy.Agrees m) {chunk : String}
    (hb : a.acceptText chunk = .ok b) : b.Tracks m policy names := by
  obtain ⟨frame, outer, hframes⟩ := exists_frames_of_text hb
  obtain ⟨hframe, hholding⟩ := h.text_frame hm hframes chunk
  have hsame := applyAll_same { a with frames := outer } (a.addText frame chunk) (some chunk)
    (a.automaton.due .inside)
  have hafter := acceptText_frames hframes hb
  rw [acceptText_eq hframes] at hb
  cases hb
  have htracked := h.frames
  rw [hframes] at htracked
  refine ⟨?_, ?_, ?_⟩
  · exact (emit_same _ _).automaton.trans (hsame.automaton.trans h.automaton)
  · rw [hafter]
    cases htracked with
    | cons first rest => exact .cons hframe rest
  · rw [hafter, emit_holding, heldIn_cons]
    exact hholding

/-! ### End tags -/

theorem active_eq (h : a.Tracks m policy (name :: names)) :
    a.automaton.active = m.after (name :: names).reverse :: m.setsFor names := by
  rw [h.automaton]
  rfl

theorem runEnd_eq (h : a.Tracks m policy (name :: names)) (frame : Frame) (outer : List Frame) :
    a.runEnd frame outer (m.after (name :: names).reverse) (m.setsFor names) =
      { a with automaton := m.openFor names, frames := outer }.applyAll frame none
        (m.dueAt .leave (name :: names).reverse) := by
  rw [runEnd, h.automaton]
  rfl

/-- A frame that closes holds what its end tag flushes. -/
theorem closing_held (h : a.Tracks m policy (name :: names)) (hframes : a.frames = frame :: outer) :
    frame.held.Perm
      ((m.dueAt .leave (name :: names).reverse).filterMap Effect.flush? ++ []) := by
  rw [List.append_nil]
  exact (h.head hframes).held

/-- The frame of an element that closes, when its effects have run. -/
theorem end_frame (h : a.Tracks m policy (name :: names)) (hm : policy.Agrees m)
    (hframes : a.frames = frame :: outer) {r : Assembly σ × Frame}
    (hr : a.runEnd frame outer (m.after (name :: names).reverse) (m.setsFor names) = r) :
    r.2.collected = policy.collects (name :: names).reverse ∧ r.2.held = [] ∧
      r.1.holding = heldIn outer ∧
      SameSetting { a with automaton := m.openFor names, frames := outer } r.1 := by
  have hfits := hm.fits .leave (name :: names).reverse
  obtain ⟨hheld, hcollected⟩ := applyAll_tracks
    { a with automaton := m.openFor names, frames := outer } none (h.closing_held hframes)
  have hall := applyAll_holding
    (a := { a with automaton := m.openFor names, frames := outer }) (h.holding_cons hframes) none
    (m.dueAt .leave (name :: names).reverse)
  have hsame := applyAll_same { a with automaton := m.openFor names, frames := outer } frame none
    (m.dueAt .leave (name :: names).reverse)
  rw [← h.runEnd_eq, hr] at hheld hcollected hall hsame
  rw [Effect.hold?_eq_nil hfits (by simp)] at hheld
  have hnone : r.2.held = [] := hheld.eq_nil
  refine ⟨?_, hnone, ?_, hsame⟩
  · rw [hcollected, decide_eq_false (Effect.collect_not_mem hfits (by simp)), Bool.or_false]
    exact (h.head hframes).collected
  · rw [hall, hnone]
    exact Nat.zero_add _

theorem finish (h : a.Tracks m policy (name :: names)) (hm : policy.Agrees m)
    (hb : a.acceptEnd = .ok b) : b.Tracks m policy names := by
  obtain ⟨frame, outer, hframes⟩ := exists_frames_of_end hb
  rw [acceptEnd_eq hframes h.active_eq] at hb
  cases hb
  obtain ⟨-, -, hholding, hsame⟩ := h.end_frame hm hframes rfl
  have htracked := h.frames
  rw [hframes] at htracked
  refine ⟨(popFrame_stacks _ _).2.trans hsame.automaton, ?_, ?_⟩
  · rw [popFrame_frames, hsame.frames]
    cases htracked with
    | cons first rest => exact rest.modifyHead _
  · rw [popFrame_frames, popFrame_holding, heldIn_modifyHead, hholding, hsame.frames]

end Tracks

end Assembly

open Registration

namespace Stream

/-- A stream that was set up keeps track from the start. -/
theorem journaled_tracks (env : σ) (registrations : List (Registration σ)) :
    (journaled env registrations).assembly.Tracks (journaled env registrations).assembly.automaton
      (policy registrations) [] := by
  obtain ⟨hframes, hactive⟩ := journaled_closed env registrations
  obtain ⟨-, -, -, hholding, -⟩ :=
    registered_output ({ env } : Journal σ) (loggedAll registrations.zipIdx)
  refine ⟨?_, ?_, ?_⟩
  · rw [Automaton.openFor, Automaton.setsFor, ← hactive]
  · rw [hframes]
    exact .nil
  · rw [hframes]
    exact hholding

end Stream

end XmlSieve
