import XmlSieve.Proofs.Stream.Delivery
import XmlSieve.Proofs.Stream.Framing
import XmlSieve.Proofs.Stream.Sighting

/-!
# Following a document

`Assembly.Follows` is the invariant of an assembly at work: its automaton is in the states for the
open elements, its frames hold what has been read of them, and its counters count the requests to
preserve order that apply.  Every token keeps it up and tells the listeners that it is due to tell,
of the scene that the outline has there (`Follows.accept`), so that a whole run tells of one scene
after the other (`Follows.acceptAll`).
-/

namespace XmlSieve

open Branch

/-- The occasion on which the listeners for a token are told. -/
def Token.occasion : Token → Occasion
  | startTag _ _ => .enter
  | text _ => .inside
  | endTag _ => .leave

/-- The states for the open elements, innermost first. -/
def Automaton.sets {η : Type} (m : Automaton η) : List Branch → List StateSet
  | [] => []
  | b :: stack => m.after (path (b :: stack)) :: m.sets stack

namespace Effect

variable {effects : List Effect} {occasion : Occasion}

/-- Nothing is picked out of effects of an occasion that what is picked does not fit. -/
theorem filterMap_eq_nil {β : Type} {pick : Effect → Option β}
    (h : ∀ e ∈ effects, e.Fits occasion) (hpick : ∀ e, e.Fits occasion → pick e = none) :
    effects.filterMap pick = [] :=
  List.filterMap_eq_nil_iff.2 fun e he => hpick e (h e he)

theorem flush?_eq_nil (h : ∀ e ∈ effects, e.Fits occasion) (ho : occasion ≠ .leave) :
    effects.filterMap flush? = [] := by
  apply filterMap_eq_nil h
  intro e hfits
  cases e <;> simp_all [flush?, Fits]

theorem release?_eq_nil (h : ∀ e ∈ effects, e.Fits occasion) (ho : occasion ≠ .leave) :
    effects.filterMap release? = [] := by
  apply filterMap_eq_nil h
  intro e hfits
  cases e <;> simp_all [release?, Fits]

theorem hold?_eq_nil (h : ∀ e ∈ effects, e.Fits occasion) (ho : occasion ≠ .enter) :
    effects.filterMap hold? = [] := by
  apply filterMap_eq_nil h
  intro e hfits
  cases e <;> simp_all [hold?, Fits]

theorem preserve?_eq_nil (h : ∀ e ∈ effects, e.Fits occasion) (ho : occasion ≠ .enter) :
    effects.filterMap preserve? = [] := by
  apply filterMap_eq_nil h
  intro e hfits
  cases e <;> simp_all [preserve?, Fits]

theorem told?_eq_nil (h : ∀ e ∈ effects, e.Fits .flag) : effects.filterMap told? = [] := by
  apply filterMap_eq_nil h
  intro e hfits
  cases e <;> simp_all [told?, Fits]

theorem collect_not_mem (h : ∀ e ∈ effects, e.Fits occasion) (ho : occasion ≠ .flag) :
    .collect ∉ effects :=
  fun hmem => ho (h _ hmem)

end Effect

/-- No update ends when an element starts. -/
theorem Policy.Agrees.flush?_start {policy : Policy} {m : Automaton Effect} (h : policy.Agrees m)
    (path : List String) :
    (m.dueAt .flag path ++ m.dueAt .enter path).filterMap Effect.flush? = [] := by
  rw [List.filterMap_append, Effect.flush?_eq_nil (h.fits .flag path) (by simp),
    Effect.flush?_eq_nil (h.fits .enter path) (by simp), List.append_nil]

namespace Assembly

variable {σ : Type} {a b : Assembly (Journal σ)} {m : Automaton Effect} {policy : Policy}
  {roster : Roster} {stack : List Branch} {token : Token} {tokens : List Token}

/-- What is invariant while a document is read whose open elements are those of `stack`. -/
structure Follows (a : Assembly (Journal σ)) (m : Automaton Effect) (policy : Policy)
    (roster : Roster) (stack : List Branch) : Prop where
  automaton : a.automaton = { m with active := m.sets stack }
  scribed : a.Scribed roster
  holds : Holds m policy none a.frames stack
  counted : a.Counted (a.frames.flatMap (·.preserved))

/-- What is seen of a scene on an occasion. -/
def seen (m : Automaton Effect) (roster : Roster) (occasion : Occasion) (scene : Scene) :
    List Sighting :=
  ((m.dueAt occasion scene.path).filterMap Effect.told?).flatMap (roster.sightings scene)

namespace Follows

theorem current (h : a.Follows m policy roster stack) :
    a.automaton.current = m.after (Branch.path stack) := by
  rw [h.automaton]
  cases stack <;> rfl

theorem due (h : a.Follows m policy roster stack) (occasion : Occasion) :
    a.automaton.due occasion = m.dueAt occasion (Branch.path stack) := by
  rw [Automaton.due, h.current, h.automaton]
  rfl

theorem enter (h : a.Follows m policy roster stack) (branch : Branch) :
    a.automaton.enter branch.name =
      (⟨m.dueAt .flag (Branch.path (branch :: stack)),
          m.dueAt .enter (Branch.path (branch :: stack))⟩,
        { m with active := m.sets (branch :: stack) }) := by
  have hset : m.transition (m.after (Branch.path stack)) branch.name =
      m.after (Branch.path (branch :: stack)) := by
    rw [path_cons, Automaton.after, Automaton.after, List.foldl_append]
    rfl
  rw [Automaton.enter, h.current, h.automaton, Automaton.sets, ← hset]
  simp only [Automaton.dueAt, ← hset]
  rfl

/-- The scene that an assembly sets is at the path of the open elements. -/
theorem scene_eq {child : Option String} (h : Holds m policy child a.frames stack) (frame : Frame)
    (chunk : Option String) :
    a.scene frame chunk =
      { path := Branch.path stack ++ [frame.element.name], element := frame.element, chunk } := by
  rw [scene, h.names, Branch.path]

theorem emit_frames (a : Assembly σ) (frames : List Frame) (fragment : String) :
    ({ a with frames } : Assembly σ).emit fragment = { a.emit fragment with frames } := by
  unfold Assembly.emit
  split <;> split <;> first | rfl | contradiction

/-- Writing leaves everything as it is. -/
theorem emit (h : a.Follows m policy roster stack) (fragment : String) :
    (a.emit fragment).Follows m policy roster stack := by
  have hsame := emit_same a fragment
  obtain ⟨hpreserving, hverbatim⟩ := emit_counters a fragment
  refine ⟨hsame.automaton.trans h.automaton, h.scribed.same hsame, ?_, ?_, ?_⟩
  · rw [hsame.frames]
    exact h.holds
  · rw [hsame.frames, hpreserving]
    exact h.counted.1
  · rw [hsame.frames, hverbatim]
    exact h.counted.2

/-! ### Start tags -/

/-- What comes of the effects of a start tag. -/
theorem runStart_ran (h : a.Follows m policy roster stack) (hm : policy.Agrees m)
    (branch : Branch) :
    Ran { a with automaton := { m with active := m.sets (branch :: stack) } }
      (Frame.opened a.path branch.name branch.attributes) none
      (m.dueAt .flag (Branch.path (branch :: stack)) ++
        m.dueAt .enter (Branch.path (branch :: stack)))
      roster [] [] (a.runStart branch.name branch.attributes) := by
  have hfits (occasion : Occasion) := hm.fits occasion (Branch.path (branch :: stack))
  have hchunk (id : Nat) (_ : Effect.flush id ∈ m.dueAt .flag (Branch.path (branch :: stack)) ++
      m.dueAt .enter (Branch.path (branch :: stack))) : (none : Option String) = none := rfl
  rw [runStart, h.enter branch]
  refine applyAll_ran ⟨h.scribed.listeners, h.scribed.sinks⟩ hchunk ?_ ?_
  · rw [List.filterMap_append, Effect.release?_eq_nil (hfits .flag) (by simp),
      Effect.release?_eq_nil (hfits .enter) (by simp)]
    exact .nil
  · rw [hm.flush?_start]
    exact .nil

theorem modifyParent_preserved (a : Assembly σ) (f : Element → Element) :
    (a.modifyParent f).frames.flatMap (·.preserved) = a.frames.flatMap (·.preserved) := by
  unfold modifyParent
  split
  · rfl
  · next h => simp [h]

/-- The elements around one that opens have its slot reserved in the innermost of them. -/
theorem holds_openChild (h : Holds m policy none a.frames stack) (branch : Branch) :
    Holds m policy (some branch.name)
      (a.modifyParent (·.openChild branch.name
        (policy.collects (Branch.path (branch :: stack))))).frames stack := by
  unfold modifyParent
  cases stack with
  | nil =>
    rcases hframes : a.frames with _ | ⟨frame, frames⟩
    · exact .nil _
    · rw [hframes] at h
      cases h
  | cons b stack =>
    rcases hframes : a.frames with _ | ⟨frame, frames⟩
    · rw [hframes] at h
      cases h
    · rw [hframes] at h
      rw [path_cons branch]
      exact h.openChild branch.name

theorem modifyParent_scribed (h : a.Scribed roster) (f : Element → Element) :
    (a.modifyParent f).Scribed roster := by
  rw [modifyParent_eq]
  exact ⟨h.listeners, h.sinks⟩

theorem modifyParent_counted {requests : List Bool} (h : a.Counted requests)
    (f : Element → Element) : (a.modifyParent f).Counted requests := by
  rw [modifyParent_eq]
  exact h

theorem modifyParent_env (a : Assembly σ) (f : Element → Element) :
    (a.modifyParent f).env = a.env := by
  rw [modifyParent_eq]

/-- The frame of an element that opens, among the frames around it. -/
theorem holds_start (h : a.Follows m policy roster stack) (hm : policy.Agrees m) {branch : Branch}
    (hempty : branch.content = []) {r : Assembly (Journal σ) × Frame}
    (hran : Ran { a with automaton := { m with active := m.sets (branch :: stack) } }
      (Frame.opened a.path branch.name branch.attributes) none
      (m.dueAt .flag (Branch.path (branch :: stack)) ++
        m.dueAt .enter (Branch.path (branch :: stack))) roster [] [] r) :
    Holds m policy none
      ({ r.2 with element := Branch.element policy (branch :: stack) } ::
        (r.1.modifyParent (·.openChild branch.name r.2.collected)).frames) (branch :: stack) := by
  have hfits (occasion : Occasion) := hm.fits occasion (Branch.path (branch :: stack))
  have hcollected : r.2.collected = policy.collects (Branch.path (branch :: stack)) := by
    rw [hran.collected, path_cons, hm.collects, ← path_cons]
    simp [Frame.opened, Effect.collect_not_mem (hfits .enter)]
  have hpreserved := hran.preserved
  have hheld := hran.held
  rw [List.filterMap_append, Effect.preserve?_eq_nil (hfits .flag) (by simp), List.nil_append,
    List.nil_append, ← hm.released] at hpreserved
  rw [List.filterMap_append, Effect.hold?_eq_nil (hfits .flag) (by simp), List.nil_append,
    List.nil_append, ← hm.flushed] at hheld
  have haround : Holds m policy none r.1.frames stack := by
    rw [hran.same.frames]
    exact h.holds
  have hpieces : pieces policy (branch :: stack) = [] := by
    rw [pieces, hempty]
    rfl
  rw [hcollected]
  refine .cons ⟨rfl, hcollected, fun _ => ?_, hpreserved, hheld⟩ (holds_openChild haround branch)
  rw [hpieces]
  exact hran.spacing

/-- The element of a frame that opens has its list of nodes begun where order is preserved. -/
theorem startNodes_eq {frame : Frame} {branch : Branch}
    (helement : frame.element = { name := branch.name, attributes := branch.attributes })
    (hempty : branch.content = []) {n : Nat}
    (hn : decide (n > 0) = policy.preserves (Branch.path (branch :: stack))) :
    (if n > 0 then frame.startNodes else frame) =
      { frame with element := Branch.element policy (branch :: stack) } := by
  rw [Branch.element, hempty, Node.assembledAll, Element.ofPieces_nil, ← hn]
  by_cases hp : n > 0
  · simp [hp, Frame.startNodes, helement]
  · simp [hp, ← helement]

/-- A frame that is pushed is put before the others, and its start tag is written. -/
theorem pushFrame_eq (a : Assembly σ) {frame opened : Frame}
    (hopened : (if a.preserving > 0 then frame.startNodes else frame) = opened) :
    a.pushFrame frame = Assembly.emit
      { a.modifyParent (·.openChild opened.element.name opened.collected) with
        frames := opened ::
          (a.modifyParent (·.openChild opened.element.name opened.collected)).frames }
      (Markup.startTag opened.element.name opened.element.attributes) := by
  rw [emit_frames, ← (emit_same _ (Markup.startTag _ _)).frames]
  unfold pushFrame
  rw [hopened]

theorem start (h : a.Follows m policy roster stack) (hm : policy.Agrees m) (name : String)
    (attributes : Attributes) :
    (a.acceptStart name attributes).Follows m policy roster ({ name, attributes } :: stack) ∧
      (a.acceptStart name attributes).env.sightings = a.env.sightings ++
        seen m roster .enter (Branch.scene policy stack (.startTag name attributes)) := by
  have hran := h.runStart_ran hm { name, attributes }
  have hholds := h.holds_start hm rfl hran
  rw [acceptStart_eq]
  simp only at hran hholds
  generalize a.runStart name attributes = r at hran hholds ⊢
  have houter : r.1.frames = a.frames := hran.same.frames
  have hcounted : r.1.Counted (r.2.preserved ++ a.frames.flatMap (·.preserved)) :=
    hran.counted _ h.counted
  have hframe : (if r.1.preserving > 0 then r.2.startNodes else r.2) =
      { r.2 with element := Branch.element policy ({ name, attributes } :: stack) } := by
    refine startNodes_eq hran.element rfl ?_
    rw [hholds.preserves hm, hcounted.1, List.flatMap_cons, modifyParent_preserved, houter]
  have hpush : r.1.pushFrame r.2 = Assembly.emit
      { r.1.modifyParent (·.openChild name r.2.collected) with
        frames := { r.2 with element := Branch.element policy ({ name, attributes } :: stack) } ::
          (r.1.modifyParent (·.openChild name r.2.collected)).frames }
      (Markup.startTag name attributes) := pushFrame_eq r.1 hframe
  have hscribed : (r.1.modifyParent (·.openChild name r.2.collected)).Scribed roster := by
    have hbegun : Scribed { a with automaton :=
        { m with active := m.sets ({ name, attributes } :: stack) } } roster :=
      ⟨h.scribed.listeners, h.scribed.sinks⟩
    exact modifyParent_scribed (hbegun.same hran.same) _
  have hfollows : Follows
      { r.1.modifyParent (·.openChild name r.2.collected) with
        frames := { r.2 with element := Branch.element policy ({ name, attributes } :: stack) } ::
          (r.1.modifyParent (·.openChild name r.2.collected)).frames }
      m policy roster ({ name, attributes } :: stack) := by
    refine ⟨(modifyParent_automaton _ _).trans hran.same.automaton,
      ⟨hscribed.listeners, hscribed.sinks⟩, hholds, ?_⟩
    rw [List.flatMap_cons, modifyParent_preserved, houter]
    obtain ⟨hp, hv⟩ := modifyParent_counted hcounted (·.openChild name r.2.collected)
    exact ⟨hp, hv⟩
  rw [hpush]
  refine ⟨hfollows.emit _, (emit_sightings hfollows.scribed _).trans ?_⟩
  have hscene := scene_eq (a := { a with automaton :=
    { m with active := m.sets ({ name, attributes } :: stack) } }) h.holds
    (Frame.opened a.path name attributes) none
  have hsightings := hran.sightings
  rw [List.filterMap_append, Effect.told?_eq_nil (hm.fits .flag _), List.nil_append, hscene]
    at hsightings
  rw [modifyParent_env, hsightings, seen, path_cons]
  rfl

/-! ### Texts -/

/-- What comes of the effects of a text. -/
theorem runText_ran (h : a.Follows m policy roster stack) (hm : policy.Agrees m) (frame : Frame)
    (outer : List Frame) (chunk : String) :
    Ran { a with frames := outer } (a.addText frame chunk) (some chunk)
      (m.dueAt .inside (Branch.path stack)) roster (a.addText frame chunk).preserved
      (a.addText frame chunk).held (a.runText frame outer chunk) := by
  have hfits := hm.fits .inside (Branch.path stack)
  rw [runText, h.due]
  refine applyAll_ran ⟨h.scribed.listeners, h.scribed.sinks⟩ (fun id hid => ?_) ?_ ?_
  · exact absurd (hfits _ hid) (by simp [Effect.Fits])
  · rw [Effect.release?_eq_nil hfits (by simp)]
    exact .refl _
  · rw [Effect.flush?_eq_nil hfits (by simp)]
    exact .refl _

/-- A frame holds what it held when the effects of a text have run. -/
theorem holds_ran {frame : Frame} {chunk : Option String} {effects : List Effect}
    {element : Element} {r : Assembly (Journal σ) × Frame}
    (h : frame.Holds m policy stack element) (hfits : ∀ e ∈ effects, e.Fits .inside)
    (hran : Ran a frame chunk effects roster frame.preserved frame.held r) :
    r.2.Holds m policy stack element := by
  have hpreserved := hran.preserved
  have hheld := hran.held
  rw [Effect.preserve?_eq_nil hfits (by simp), List.append_nil] at hpreserved
  rw [Effect.hold?_eq_nil hfits (by simp), List.append_nil] at hheld
  refine ⟨hran.element.trans h.element, ?_, fun hv => hran.spacing.trans (h.spacing hv),
    hpreserved.trans h.preserved, hheld.trans h.held⟩
  rw [hran.collected, h.collected]
  simp [Effect.collect_not_mem hfits]

theorem text (h : a.Follows m policy roster stack) (hm : policy.Agrees m) {chunk : String}
    (hb : a.acceptText chunk = .ok b) :
    b.Follows m policy roster (grow stack (.text chunk)) ∧
      b.env.sightings = a.env.sightings ++
        seen m roster .inside (Branch.scene policy stack (.text chunk)) := by
  obtain ⟨frame, outer, hframes⟩ := exists_frames_of_text hb
  rw [acceptText_eq hframes] at hb
  cases hb
  have hholds := h.holds
  have hcounted := h.counted
  rw [hframes] at hholds hcounted
  rcases stack with _ | ⟨branch, stack⟩
  · cases hholds
  have hfits := hm.fits .inside (Branch.path (branch :: stack))
  have htext := hholds.text hm hcounted chunk
  have hadd := Holds.addText_eq a frame chunk
  have hran := h.runText_ran hm frame outer chunk
  generalize a.runText frame outer chunk = r at hran ⊢
  have houter : r.1.frames = outer := hran.same.frames
  obtain ⟨first, rest⟩ := htext.cons_inv
  have hfollows : Follows { r.1 with frames := r.2 :: r.1.frames } m policy roster
      (grow (branch :: stack) (.text chunk)) := by
    have hscribed := Scribed.same (a := { a with frames := outer })
      ⟨h.scribed.listeners, h.scribed.sinks⟩ hran.same
    refine ⟨hran.same.automaton.trans h.automaton, ⟨hscribed.listeners, hscribed.sinks⟩, ?_, ?_⟩
    · rw [houter]
      exact .cons (holds_ran first hfits hran) rest
    · have hpreserved : (a.addText frame chunk).preserved = frame.preserved := by rw [hadd]
      rw [houter, List.flatMap_cons]
      refine hran.counted (outer.flatMap (·.preserved)) ?_
      rw [hpreserved]
      exact hcounted
  refine ⟨hfollows.emit _, (emit_sightings hfollows.scribed _).trans (hran.sightings.trans ?_)⟩
  have hscene : scene { a with frames := outer } (a.addText frame chunk) (some chunk) =
      Branch.scene policy (branch :: stack) (.text chunk) := by
    rw [scene_eq (a := { a with frames := outer }) rest, first.element, Branch.scene,
      path_cons branch]
    rfl
  rw [hscene]
  rfl

/-! ### End tags -/

theorem sets_add (node : Node) (stack : List Branch) : m.sets (add node stack) = m.sets stack := by
  cases stack <;> rfl

/-- What comes of the effects of an end tag. -/
theorem runEnd_ran (h : a.Follows m policy roster stack) {frame : Frame} {element : Element}
    (hframe : frame.Holds m policy stack element) (outer : List Frame)
    (sets : List StateSet) :
    Ran { a with automaton := { a.automaton with active := sets }, frames := outer } frame none
      (m.dueAt .leave (Branch.path stack)) roster [] []
      (a.runEnd frame outer (m.after (Branch.path stack)) sets) := by
  have hdue : a.automaton.hooks.fire .leave (m.after (Branch.path stack)) =
      m.dueAt .leave (Branch.path stack) := by
    rw [h.automaton]
    rfl
  rw [runEnd, hdue]
  refine applyAll_ran ⟨h.scribed.listeners, h.scribed.sinks⟩ (fun _ _ => rfl) ?_ ?_
  · rw [List.append_nil]
    exact hframe.preserved
  · rw [List.append_nil]
    exact hframe.held

/-- An element that closes leaves nothing of its own to count when its effects have run. -/
theorem closed_ran {frame : Frame} {effects : List Effect} {r : Assembly (Journal σ) × Frame}
    (hfits : ∀ e ∈ effects, e.Fits .leave) (hran : Ran a frame none effects roster [] [] r)
    (hcounted : a.Counted (frame.preserved ++ a.frames.flatMap (·.preserved))) :
    r.2.collected = frame.collected ∧ r.1.Counted (r.1.frames.flatMap (·.preserved)) := by
  constructor
  · rw [hran.collected]
    simp [Effect.collect_not_mem hfits]
  · have hpreserved : r.2.preserved = [] := by
      have hperm := hran.preserved
      rw [Effect.preserve?_eq_nil hfits (by simp)] at hperm
      exact hperm.eq_nil
    have hrest := hran.counted _ hcounted
    rwa [hpreserved, List.nil_append, ← hran.same.frames] at hrest

/-- The frames around an element that closes, when it has been stored. -/
theorem holds_store {r : Assembly (Journal σ) × Frame} {branch : Branch} (hm : policy.Agrees m)
    (h : Holds m policy (some branch.name) r.1.frames stack)
    (hcounted : r.1.Counted (r.1.frames.flatMap (·.preserved)))
    (helement : r.2.element = Branch.element policy (branch :: stack))
    (hcollected : r.2.collected = policy.collects (Branch.path (branch :: stack))) :
    Holds m policy none (r.1.store r.2).frames (add branch.node stack) := by
  unfold store modifyParent
  rcases hframes : r.1.frames with _ | ⟨frame, outer⟩
  · rw [hframes] at h
    cases h
    exact .nil _
  · rw [hframes] at h hcounted
    rcases stack with _ | ⟨branch', stack⟩
    · cases h
    · rw [hcollected]
      exact h.closeChild hm hcounted helement

theorem finish (h : a.Follows m policy roster stack) (hm : policy.Agrees m) (name : String)
    (hb : a.acceptEnd = .ok b) :
    b.Follows m policy roster (grow stack (.endTag name)) ∧
      b.env.sightings = a.env.sightings ++
        seen m roster .leave (Branch.scene policy stack (.endTag name)) := by
  obtain ⟨frame, outer, hframes⟩ := exists_frames_of_end hb
  have hholds := h.holds
  have hcounted := h.counted
  rw [hframes] at hholds hcounted
  rcases stack with _ | ⟨branch, stack⟩
  · cases hholds
  obtain ⟨first, rest⟩ := hholds.cons_inv
  have hactive : a.automaton.active = m.after (Branch.path (branch :: stack)) :: m.sets stack := by
    rw [h.automaton]
    rfl
  rw [acceptEnd_eq hframes hactive] at hb
  cases hb
  have hran := h.runEnd_ran first outer (m.sets stack)
  generalize a.runEnd frame outer (m.after (Branch.path (branch :: stack))) (m.sets stack) = r
    at hran ⊢
  obtain ⟨hcollected, hcount⟩ := closed_ran (hm.fits .leave _) hran
    (by rwa [List.flatMap_cons] at hcounted)
  have hclosing : Scribed
      { a with
        automaton := { a.automaton with active := m.sets stack }
        frames := outer } roster :=
    ⟨h.scribed.listeners, h.scribed.sinks⟩
  have hscribed : (r.1.store r.2).Scribed roster := by
    rw [store]
    exact modifyParent_scribed (hclosing.same hran.same) _
  have hfollows : (r.1.store r.2).Follows m policy roster (add branch.node stack) := by
    have houter : Holds m policy (some branch.name) r.1.frames stack := by
      rw [hran.same.frames]
      exact rest
    refine ⟨?_, hscribed, holds_store hm houter hcount (hran.element.trans first.element)
      (hcollected.trans first.collected), ?_⟩
    · rw [store, modifyParent_automaton, hran.same.automaton, h.automaton, sets_add]
    · rw [store, modifyParent_preserved]
      exact modifyParent_counted hcount _
  rw [popFrame]
  refine ⟨hfollows.emit _, (emit_sightings hfollows.scribed _).trans ?_⟩
  have hscene : scene
      { a with automaton := { a.automaton with active := m.sets stack }, frames := outer } frame
        none = Branch.scene policy (branch :: stack) (.endTag name) := by
    rw [scene_eq (a :=
      { a with automaton := { a.automaton with active := m.sets stack }, frames := outer }) rest,
      first.element, Branch.scene, path_cons branch]
    rfl
  rw [store, modifyParent_env, hran.sightings, hscene]
  rfl

/-! ### Runs -/

/-- Every token keeps the invariant up and tells those whom its scene is due to. -/
theorem accept (h : a.Follows m policy roster stack) (hm : policy.Agrees m)
    (hb : a.accept token = .ok b) :
    b.Follows m policy roster (grow stack token) ∧
      b.env.sightings = a.env.sightings ++
        seen m roster token.occasion (Branch.scene policy stack token) := by
  cases token with
  | startTag name attributes =>
    cases hb
    exact h.start hm name attributes
  | text chunk => exact h.text hm hb
  | endTag name => exact h.finish hm name hb

/-- A run tells of the scenes of its tokens, one after the other. -/
theorem acceptAll (h : a.Follows m policy roster stack) (hm : policy.Agrees m)
    (hb : a.acceptAll tokens = .ok b) :
    b.env.sightings = a.env.sightings ++
      (scenes policy stack tokens).flatMap fun (token, scene) =>
        seen m roster token.occasion scene := by
  induction tokens generalizing a stack with
  | nil =>
    cases hb
    exact (List.append_nil _).symm
  | cons token tokens ih =>
    obtain ⟨c, hc, hrest⟩ := exists_of_bind_eq_ok hb
    obtain ⟨hfollows, hsightings⟩ := h.accept hm hc
    rw [ih hfollows hrest, hsightings, List.append_assoc, scenes, List.flatMap_cons]

end Follows

end Assembly

end XmlSieve
