import XmlSieve.Proofs.Element.Outline
import XmlSieve.Proofs.Selector.Recognition
import XmlSieve.Proofs.Stream.Effects

/-!
# Frames and branches

`Holds` says that the open frames of an assembly hold what has been read of the open elements: frame
by frame the element is the one that the `Policy` assembles from its branch, where the slot of the
child that is open is reserved in it.  The policy has to agree with what is due in the automaton at
each path (`Policy.Agrees`).  Then the counters tell whether order and white space are preserved
(`Holds.preserves`, `Holds.verbatim`), and texts and children can be added (`Holds.text`,
`Holds.openChild`, `Holds.closeChild`).
-/

namespace XmlSieve

/-- An effect that can be due on an occasion. -/
def Effect.Fits : Effect → Occasion → Prop
  | collect, occasion => occasion = .flag
  | preserve _, occasion | hold _, occasion => occasion = .enter
  | release _, occasion | flush _, occasion => occasion = .leave
  | notify _, occasion => occasion ≠ .flag

/-- What is due on an occasion in an element, given the names from the root to it. -/
def Automaton.dueAt {η : Type} (m : Automaton η) (occasion : Occasion) (path : List String) :
    List η :=
  m.hooks.fire occasion (m.after path)

/-- A policy that says what comes of the effects which are due. -/
structure Policy.Agrees (policy : Policy) (m : Automaton Effect) : Prop where
  fits : ∀ occasion path, ∀ effect ∈ m.dueAt occasion path, effect.Fits occasion
  collects : ∀ path name,
    policy.collects (path ++ [name]) = decide (.collect ∈ m.dueAt .flag (path ++ [name]))
  preserves_nil : policy.preserves [] = false
  preserves : ∀ path name, policy.preserves (path ++ [name]) =
    (policy.preserves path ||
      !((m.dueAt .enter (path ++ [name])).filterMap Effect.preserve?).isEmpty)
  verbatim_nil : policy.verbatim [] = false
  verbatim : ∀ path name, policy.verbatim (path ++ [name]) =
    (policy.verbatim path ||
      ((m.dueAt .enter (path ++ [name])).filterMap Effect.preserve?).contains true)
  released : ∀ path, (m.dueAt .leave path).filterMap Effect.release? =
    (m.dueAt .enter path).filterMap Effect.preserve?
  flushed : ∀ path, (m.dueAt .leave path).filterMap Effect.flush? =
    (m.dueAt .enter path).filterMap Effect.hold?

namespace Branch

/-- What has been read of the content of the innermost element amounts to these pieces. -/
def pieces (policy : Policy) : List Branch → List (Content Element)
  | [] => []
  | b :: stack => Node.assembledAll policy (path (b :: stack)) b.content

/-- The element of the innermost branch, with the slot of `child` reserved if it is open. -/
def reserved (policy : Policy) (child : Option String) (stack : List Branch) : Element :=
  match child with
  | none => element policy stack
  | some name =>
    (element policy stack).openChild name (policy.collects (path stack ++ [name]))

theorem reserved_name (policy : Policy) (child : Option String) (b : Branch)
    (stack : List Branch) : (reserved policy child (b :: stack)).name = b.name := by
  cases child <;> rfl

theorem pieces_add (policy : Policy) (node : Node) (b : Branch) (stack : List Branch) :
    pieces policy (add node (b :: stack)) =
      pieces policy (b :: stack) ++ [node.assembled policy (path (b :: stack))] := by
  have hpath : path ({ b with content := b.content ++ [node] } :: stack) = path (b :: stack) := rfl
  rw [add, pieces, hpath, Node.assembledAll_append]
  rfl

/-- The element of the innermost branch has the nodes that were added to it as its pieces. -/
theorem reserved_add (policy : Policy) (node : Node) (b : Branch) (stack : List Branch) :
    reserved policy none (add node (b :: stack)) =
      .ofPieces policy (path (b :: stack)) b.name b.attributes
        (pieces policy (b :: stack) ++ [node.assembled policy (path (b :: stack))]) := by
  rw [← pieces_add]
  rfl

end Branch

open Branch

/-- A frame that holds what has been read of the innermost branch, with this element in it. -/
structure Frame.Holds (frame : Frame) (m : Automaton Effect) (policy : Policy)
    (stack : List Branch) (element : Element) : Prop where
  element : frame.element = element
  collected : frame.collected = policy.collects (Branch.path stack)
  spacing : policy.verbatim (Branch.path stack) = false →
    frame.spacing = (Spacing.push .noContent "" (Element.pieceText (pieces policy stack))).1
  preserved : frame.preserved.Perm ((m.dueAt .leave (Branch.path stack)).filterMap Effect.release?)
  held : frame.held.Perm ((m.dueAt .leave (Branch.path stack)).filterMap Effect.flush?)

/-- Frames that hold what has been read of the branches of a stack, where `child` is open in the
innermost. -/
inductive Holds (m : Automaton Effect) (policy : Policy) :
    Option String → List Frame → List Branch → Prop where
  | nil (child : Option String) : Holds m policy child [] []
  | cons {child : Option String} {frame : Frame} {frames : List Frame} {b : Branch}
      {stack : List Branch} (first : frame.Holds m policy (b :: stack)
        (reserved policy child (b :: stack)))
      (rest : Holds m policy (some b.name) frames stack) :
      Holds m policy child (frame :: frames) (b :: stack)

namespace Holds

variable {m : Automaton Effect} {policy : Policy} {child : Option String} {frame : Frame}
  {frames : List Frame} {b b' : Branch} {stack : List Branch}

theorem cons_inv (h : Holds m policy child (frame :: frames) (b :: stack)) :
    frame.Holds m policy (b :: stack) (reserved policy child (b :: stack)) ∧
      Holds m policy (some b.name) frames stack := by
  cases h with
  | cons first rest => exact ⟨first, rest⟩

theorem names (h : Holds m policy child frames stack) :
    frames.map (·.element.name) = stack.map (·.name) := by
  induction h with
  | nil => rfl
  | cons first rest ih => rw [List.map_cons, List.map_cons, ih, first.element, reserved_name]

/-- Order is preserved if one of the open elements asked for it. -/
theorem preserves (h : Holds m policy child frames stack) (hm : policy.Agrees m) :
    policy.preserves (path stack) = decide (0 < (frames.flatMap (·.preserved)).length) := by
  induction h with
  | nil => exact hm.preserves_nil
  | @cons child frame frames b stack first rest ih =>
    have hperm := first.preserved
    rw [hm.released] at hperm
    rw [path_cons, hm.preserves, ← path_cons, ih, List.flatMap_cons, List.length_append,
      hperm.length_eq]
    cases (m.dueAt .enter (path (b :: stack))).filterMap Effect.preserve? with
    | nil => simp
    | cons whitespace more =>
      simp only [List.isEmpty_cons, Bool.not_false, Bool.or_true, List.length_cons]
      exact (decide_eq_true (by omega)).symm

/-- White space is preserved if one of the open elements asked for it. -/
theorem verbatim (h : Holds m policy child frames stack) (hm : policy.Agrees m) :
    policy.verbatim (path stack) =
      decide (0 < (frames.flatMap (·.preserved)).count true) := by
  induction h with
  | nil => exact hm.verbatim_nil
  | @cons child frame frames b stack first rest ih =>
    have hperm := first.preserved
    rw [hm.released] at hperm
    rw [path_cons, hm.verbatim, ← path_cons, ih, List.flatMap_cons, List.count_append,
      hperm.count_eq, Bool.eq_iff_iff]
    simp only [Bool.or_eq_true, decide_eq_true_eq, List.contains_iff_mem,
      Nat.add_pos_iff_pos_or_pos, List.count_pos_iff]
    exact or_comm

/-! ### Changes -/

/-- An element that opens has its slot reserved in the element around it. -/
theorem openChild (h : Holds m policy none (frame :: frames) (b :: stack)) (name : String) :
    Holds m policy (some name)
      ({ frame with
          element := frame.element.openChild name
            (policy.collects (path (b :: stack) ++ [name])) } :: frames) (b :: stack) := by
  cases h with
  | cons first rest =>
    refine .cons ⟨?_, first.collected, first.spacing, first.preserved, first.held⟩ rest
    rw [first.element]
    rfl

/-- What a text adds to a frame. -/
theorem addText_eq {σ : Type} (a : Assembly σ) (frame : Frame) (chunk : String) :
    a.addText frame chunk =
      { frame with
        element := { frame.element with
          text :=
            if a.verbatim > 0 then frame.element.text ++ chunk
            else (frame.spacing.push frame.element.text chunk).2
          nodes :=
            if a.preserving > 0 then
              frame.element.nodes.map
                (· ++ (Element.pieceNode? (a.verbatim > 0) (.text chunk)).toList)
            else frame.element.nodes }
        spacing :=
          if a.verbatim > 0 then frame.spacing
          else (frame.spacing.push frame.element.text chunk).1 } := by
  unfold Assembly.addText
  by_cases hv : a.verbatim > 0 <;> by_cases hp : a.preserving > 0
  · by_cases hchunk : chunk.isEmpty = true <;>
      simp [hv, hp, hchunk, Frame.addVerbatim, Element.addNode, Element.pieceNode?]
  · simp [hv, hp, Frame.addVerbatim]
  · by_cases hchunk : (trim chunk).isEmpty = true <;>
      simp [hv, hp, hchunk, Frame.addCollapsed, Element.addNode, Element.pieceNode?]
  · simp [hv, hp, Frame.addCollapsed]

/-- Where white space is collapsed, a text is pushed to that of the pieces. -/
theorem push_pieces {element : Element} (h : frame.Holds m policy (b :: stack) element)
    (hv : policy.verbatim (path (b :: stack)) = false) (chunk : String) :
    frame.spacing.push (collapse (Element.pieceText (pieces policy (b :: stack)))) chunk =
      Spacing.push .noContent "" (Element.pieceText (pieces policy (b :: stack)) ++ chunk) := by
  rw [h.spacing hv, ← Spacing.push_collapse, ← Spacing.push_append]

/-- A text is added to the element around it. -/
theorem text (h : Holds m policy none (frame :: frames) (b :: stack)) (hm : policy.Agrees m)
    {σ : Type} {a : Assembly σ} (ha : a.Counted ((frame :: frames).flatMap (·.preserved)))
    (chunk : String) :
    Holds m policy none (a.addText frame chunk :: frames) (add (.text chunk) (b :: stack)) := by
  have hverbatim : decide (a.verbatim > 0) = policy.verbatim (path (b :: stack)) := by
    rw [h.verbatim hm, ha.2]
  have hpreserves : decide (a.preserving > 0) = policy.preserves (path (b :: stack)) := by
    rw [h.preserves hm, ha.1]
  obtain ⟨first, rest⟩ := h.cons_inv
  have hold : frame.element = .ofPieces policy (path (b :: stack)) b.name b.attributes
      (pieces policy (b :: stack)) := first.element
  rw [addText_eq]
  refine .cons ⟨?_, first.collected, ?_, first.preserved, first.held⟩ rest
  · refine Eq.trans ?_ (reserved_add policy (.text chunk) b stack).symm
    rw [Node.assembled, Element.ofPieces_text, hold, hverbatim]
    simp only [Element.mk.injEq, true_and]
    constructor
    · cases hv : policy.verbatim (path (b :: stack)) with
      | true => simp [of_decide_eq_true (hverbatim.trans hv), Element.ofPieces, hv]
      | false =>
        simp only [of_decide_eq_false (hverbatim.trans hv), Element.ofPieces, hv, if_false,
          Bool.false_eq_true]
        rw [push_pieces first hv, Spacing.push_collapse]
    · cases hp : policy.preserves (path (b :: stack)) with
      | true => rw [if_pos (of_decide_eq_true (hpreserves.trans hp))]
      | false => simp [of_decide_eq_false (hpreserves.trans hp), Element.ofPieces, hp]
  · intro hv
    have hv' : policy.verbatim (path (b :: stack)) = false := hv
    have htext : frame.element.text =
        collapse (Element.pieceText (pieces policy (b :: stack))) := by
      rw [hold]
      exact if_neg (by simp [hv'])
    have hpieces := pieces_add policy (.text chunk) b stack
    rw [Node.assembled, add] at hpieces
    simp only [of_decide_eq_false (hverbatim.trans hv'), if_false]
    rw [hpieces, Element.pieceText_concat, htext, push_pieces first hv']

/-- An element that closes is stored in the element around it. -/
theorem closeChild (h : Holds m policy (some b.name) (frame :: frames) (b' :: stack))
    (hm : policy.Agrees m) {σ : Type} {a : Assembly σ}
    (ha : a.Counted ((frame :: frames).flatMap (·.preserved))) {e : Element}
    (he : e = element policy (b :: b' :: stack)) :
    Holds m policy none
      ({ frame with
          element :=
            (if a.preserving > 0 then frame.element.addNode (.element e)
              else frame.element).closeChild e.name
            (policy.collects (path (b :: b' :: stack))) e.toContent } :: frames)
      (add b.node (b' :: stack)) := by
  have hpreserves : decide (a.preserving > 0) = policy.preserves (path (b' :: stack)) := by
    rw [h.preserves hm, ha.1]
  have hname : e.name = b.name := by
    rw [he]
    rfl
  have hnode : b.node.assembled policy (path (b' :: stack)) = .element e := by
    rw [node, Node.assembled, ← path_cons, he]
    rfl
  obtain ⟨first, rest⟩ := h.cons_inv
  refine .cons ⟨?_, first.collected, fun hv => ?_, first.preserved, first.held⟩ rest
  · refine Eq.trans ?_ (reserved_add policy b.node b' stack).symm
    have hold : frame.element =
        (Element.ofPieces policy (path (b' :: stack)) b'.name b'.attributes
          (pieces policy (b' :: stack))).openChild e.name
            (policy.collects (path (b :: b' :: stack))) := by
      rw [first.element, hname, path_cons b (b' :: stack)]
      rfl
    rw [hnode, Element.ofPieces_element, hold, hname, path_cons b (b' :: stack)]
    cases hp : policy.preserves (path (b' :: stack)) with
    | true =>
      rw [if_pos (of_decide_eq_true (hpreserves.trans hp))]
      rfl
    | false =>
      rw [if_neg (of_decide_eq_false (hpreserves.trans hp))]
      simp [Element.openChild, Element.ofPieces, hp]
  · have hpieces := pieces_add policy b.node b' stack
    rw [hnode, add] at hpieces
    rw [hpieces, Element.pieceText_element]
    exact first.spacing hv

end Holds

end XmlSieve
