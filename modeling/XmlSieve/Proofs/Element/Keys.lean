import XmlSieve.Proofs.Element.Outline
import XmlSieve.Proofs.Token.Rereading

/-!
# The keys of elements

An element is `Element.WellKeyed` if no attribute and no key of a child is there twice, which is so
of all entries that were inserted one by one, and if no key of a child begins with a dollar sign, in
the element and in all that are in it.  Opening and closing a child keeps an element so, where the
child is well-keyed (`WellKeyed.openChild`, `WellKeyed.closeChild`).  Whatever is assembled from
tokens that can be written is well-keyed (`Node.assembled_keyed`): its keys are names, and no name
begins with a dollar sign.
-/

namespace XmlSieve

namespace Element

/-- Whether a key is one of those that an element does not leave to its children. -/
def Reserved (key : String) : Prop := key.toList.head? = some '$'

mutual

/-- No attribute and no key of a child is there twice, and no key of a child is reserved, in the
element and in all that are in it. -/
def WellKeyed : Element → Prop
  | ⟨_, attributes, children, _, nodes⟩ =>
    (Entries.names attributes).Nodup ∧ (Entries.names children).Nodup ∧
      (∀ key ∈ Entries.names children, ¬ Reserved key) ∧ NodesKeyed nodes ∧ ChildrenKeyed children

def NodesKeyed : Option (List (Content Element)) → Prop
  | none => True
  | some nodes => ContentsKeyed nodes

def ChildrenKeyed : List (String × Slot Element) → Prop
  | [] => True
  | (_, slot) :: children => SlotKeyed slot ∧ ChildrenKeyed children

def SlotKeyed : Slot Element → Prop
  | .one value => ContentKeyed value
  | .many values => ContentsKeyed values

def ContentsKeyed : List (Content Element) → Prop
  | [] => True
  | value :: values => ContentKeyed value ∧ ContentsKeyed values

def ContentKeyed : Content Element → Prop
  | .text _ => True
  | .element e => WellKeyed e

end

variable {pieces : List (Content Element)} {children : List (String × Slot Element)}

theorem contentsKeyed_iff : ContentsKeyed pieces ↔ ∀ value ∈ pieces, ContentKeyed value := by
  induction pieces with
  | nil => simp [ContentsKeyed]
  | cons value pieces ih => rw [ContentsKeyed, List.forall_mem_cons, ih]

theorem childrenKeyed_iff :
    ChildrenKeyed children ↔ ∀ child ∈ children, SlotKeyed child.2 := by
  induction children with
  | nil => simp [ChildrenKeyed]
  | cons child children ih => rw [ChildrenKeyed, List.forall_mem_cons, ih]

end Element

/-! ### Storing keeps elements well-keyed -/

namespace Element

variable {e : Element} {name : String} {slot : Slot Element} {value : Content Element}

theorem wellKeyed_iff :
    e.WellKeyed ↔ (Entries.names e.attributes).Nodup ∧ (Entries.names e.children).Nodup ∧
      (∀ key ∈ Entries.names e.children, ¬ Reserved key) ∧ NodesKeyed e.nodes ∧
      ChildrenKeyed e.children := by
  cases e
  rw [WellKeyed]

theorem slotKeyed_iff : SlotKeyed slot ↔ ∀ value ∈ slot.values, ContentKeyed value := by
  cases slot with
  | one value => simp [SlotKeyed, Slot.values]
  | many values => rw [SlotKeyed, Slot.values, contentsKeyed_iff]

theorem WellKeyed.slotKeyed (h : e.WellKeyed) (hslot : e.slot? name = some slot) :
    SlotKeyed slot := by
  obtain ⟨-, -, -, -, hchildren⟩ := wellKeyed_iff.1 h
  exact childrenKeyed_iff.1 hchildren _ (Entries.mem_of_get? hslot)

/-- What changes neither attributes nor children nor nodes leaves an element well-keyed. -/
theorem WellKeyed.congr {e' : Element} (h : e.WellKeyed) (hattributes : e'.attributes = e.attributes)
    (hchildren : e'.children = e.children) (hnodes : e'.nodes = e.nodes) : e'.WellKeyed := by
  rw [wellKeyed_iff, hattributes, hchildren, hnodes]
  exact wellKeyed_iff.1 h

theorem WellKeyed.insert (h : e.WellKeyed) (hname : ¬ Reserved name) (hslot : SlotKeyed slot) :
    WellKeyed { e with children := Entries.insert name slot e.children } := by
  obtain ⟨hattributes, hnodup, hkeys, hnodes, hchildren⟩ := wellKeyed_iff.1 h
  refine wellKeyed_iff.2 ⟨hattributes, ?_, ?_, hnodes, childrenKeyed_iff.2 fun child hchild => ?_⟩
  · rw [Entries.names_insert]
    split
    · exact hnodup
    · next hnew =>
      refine List.nodup_append.2 ⟨hnodup, List.nodup_singleton _, ?_⟩
      rintro key hkey _ hmem rfl
      exact hnew (List.mem_singleton.1 hmem ▸ hkey)
  · rw [Entries.names_insert]
    split
    · exact hkeys
    · exact List.forall_mem_append.2 ⟨hkeys, List.forall_mem_singleton.2 hname⟩
  · rcases Entries.mem_insert hchild with rfl | hchild
    · exact hslot
    · exact childrenKeyed_iff.1 hchildren child hchild

theorem WellKeyed.openChild (h : e.WellKeyed) (hname : ¬ Reserved name) (collect : Bool) :
    (e.openChild name collect).WellKeyed := by
  refine h.insert hname ?_
  cases collect with
  | false => trivial
  | true =>
    refine contentsKeyed_iff.2 (List.forall_mem_append.2 ⟨?_, List.forall_mem_singleton.2 trivial⟩)
    cases hslot : e.slot? name with
    | none => simp
    | some slot => exact slotKeyed_iff.1 (h.slotKeyed hslot)

theorem WellKeyed.closeChild (h : e.WellKeyed) (hname : ¬ Reserved name) (collect : Bool)
    (hvalue : ContentKeyed value) : (e.closeChild name collect value).WellKeyed := by
  refine h.insert hname ?_
  unfold settle
  split
  · next values hslot =>
    have hvalues := contentsKeyed_iff.1 (h.slotKeyed hslot)
    exact contentsKeyed_iff.2 (List.forall_mem_append.2
      ⟨fun value hmem => hvalues value (List.dropLast_subset _ hmem),
        List.forall_mem_singleton.2 hvalue⟩)
  · exact hvalue

theorem WellKeyed.addNode (h : e.WellKeyed) (hvalue : ContentKeyed value) :
    (e.addNode value).WellKeyed := by
  obtain ⟨hattributes, hnodup, hkeys, hnodes, hchildren⟩ := wellKeyed_iff.1 h
  refine wellKeyed_iff.2 ⟨hattributes, hnodup, hkeys, ?_, hchildren⟩
  unfold Element.addNode
  cases hn : e.nodes with
  | none => trivial
  | some nodes =>
    rw [hn] at hnodes
    exact contentsKeyed_iff.2 (List.forall_mem_append.2
      ⟨contentsKeyed_iff.1 hnodes, List.forall_mem_singleton.2 hvalue⟩)

end Element

/-! ### What is assembled is well-keyed -/

theorem not_reserved_of_isName {name : String} (h : isName name = true) :
    ¬ Element.Reserved name := by
  obtain ⟨b, bs, he, hstart, -⟩ := isName_iff.1 h
  intro hreserved
  obtain ⟨cs, hcs⟩ : ∃ cs, name.toList = '$' :: cs := by
    rw [Element.Reserved, List.head?_eq_some_iff] at hreserved
    exact hreserved
  have hfirst : b = '$'.toUInt8 := by
    rw [Bytes.encode, hcs, List.flatMap_cons, Bytes.utf8EncodeChar_ascii (by decide)] at he
    exact (List.cons.inj he).1.symm
  rw [hfirst] at hstart
  exact absurd hstart (by decide)

namespace Element

variable {pieces : List (Content Element)}

theorem contentKeyed_toContent {e : Element} (h : e.WellKeyed) : ContentKeyed e.toContent := by
  rw [toContent]
  split
  · trivial
  · exact h

/-- The values that are kept of well-keyed children are well-keyed. -/
theorem slotKeyed_pieceSlot (collect : Bool) (name : String)
    (h : ∀ piece ∈ pieces, ContentKeyed piece) : SlotKeyed (pieceSlot collect pieces name) := by
  have hvalues : ∀ value ∈ pieceValues pieces name, ContentKeyed value := by
    intro value hvalue
    obtain ⟨e, he, -, rfl⟩ := mem_pieceValues.1 hvalue
    exact contentKeyed_toContent (h _ he)
  cases collect with
  | true => exact contentsKeyed_iff.2 hvalues
  | false =>
    rw [pieceSlot, if_neg (by decide), List.getLastD_eq_getLast?]
    cases hlast : (pieceValues pieces name).getLast? with
    | none => trivial
    | some value => exact hvalues value (List.mem_of_getLast? hlast)

/-- An element is well-keyed if what it is made of is, and its names are names. -/
theorem wellKeyed_ofPieces (policy : Policy) (path : List String) (name : String)
    {attributes : Attributes} (hattributes : attributes.Proper)
    (hkeyed : ∀ piece ∈ pieces, ContentKeyed piece)
    (hnames : ∀ e, .element e ∈ pieces → isName e.name = true) :
    (ofPieces policy path name attributes pieces).WellKeyed := by
  have htable (value : String → Slot Element) :
      (Entries.table id value (pieceNames pieces).eraseDups).names =
        (pieceNames pieces).eraseDups := by
    rw [Entries.names_table, List.map_id]
  refine ⟨hattributes.nodup, ?_, ?_, ?_, ?_⟩
  · rw [htable]
    exact nodup_eraseDups _
  · intro key hkey
    rw [htable, List.mem_eraseDups] at hkey
    obtain ⟨e, he, rfl⟩ := mem_pieceNames.1 hkey
    exact not_reserved_of_isName (hnames e he)
  · cases policy.preserves path with
    | false => trivial
    | true =>
      refine contentsKeyed_iff.2 fun node hnode => ?_
      obtain ⟨piece, hpiece, hnp⟩ := List.mem_filterMap.1 hnode
      cases piece with
      | text chunk =>
        simp only [pieceNode?, Option.ite_none_left_eq_some] at hnp
        cases hnp.2
        trivial
      | element e =>
        cases hnp
        exact hkeyed _ hpiece
  · refine childrenKeyed_iff.2 fun child hchild => ?_
    obtain ⟨n, -, rfl⟩ := List.mem_map.1 hchild
    exact slotKeyed_pieceSlot _ n hkeyed

end Element

namespace Node

open Element

mutual

/-- What a document amounts to is well-keyed, and is named by its names. -/
theorem assembled_keyed (policy : Policy) : ∀ (node : Node) (path : List String),
    (∀ token ∈ node.tokens, token.Proper) →
    ContentKeyed (node.assembled policy path) ∧
      ∀ e, node.assembled policy path = .element e → isName e.name = true
  | .text chunk, path, _ => ⟨trivial, fun e he => by cases he⟩
  | .element name attributes content, path, h => by
    rw [tokens, List.forall_mem_cons] at h
    have hcontent := assembledAll_keyed policy content (path ++ [name]) fun token htoken =>
      h.2 token (List.mem_append_left _ htoken)
    refine ⟨wellKeyed_ofPieces policy _ name h.1.2 (fun piece hp => (hcontent piece hp).1)
      fun e he => (hcontent _ he).2 e rfl, ?_⟩
    intro e he
    cases he
    exact h.1.1

theorem assembledAll_keyed (policy : Policy) : ∀ (nodes : List Node) (path : List String),
    (∀ token ∈ tokensAll nodes, token.Proper) →
    ∀ piece ∈ assembledAll policy path nodes,
      ContentKeyed piece ∧ ∀ e, piece = .element e → isName e.name = true
  | [], path, _, piece, hpiece => by cases hpiece
  | node :: nodes, path, h, piece, hpiece => by
    rw [tokensAll, List.forall_mem_append] at h
    rcases List.mem_cons.1 hpiece with rfl | hpiece
    · exact assembled_keyed policy node path h.1
    · exact assembledAll_keyed policy nodes path h.2 piece hpiece

end

end Node

end XmlSieve
