import XmlSieve.Proofs.Element.Outline
import XmlSieve.Proofs.Element.Unfolding
import XmlSieve.Proofs.Token.Rereading

/-!
# Settled elements

What assembling makes of documents is `Element.Settled`, where neither order nor white space is
preserved (`Node.settled_assembled`): texts are collapsed, every slot is as its path demands, and
what could be reduced to a text is.  `Element.spacedOut` puts spaces for the tabs and line ends in
the values of all attributes in an element.  The slots of a settled element fit its paths, also with
these spaces (`Element.SettledChildren.fits`).
-/

namespace XmlSieve

namespace Element

/-! ### Spaces in attributes -/

mutual

/-- The element with spaces for the tabs and line ends in the values of all attributes in it. -/
def spacedOut : Element → Element
  | ⟨name, attributes, children, text, nodes⟩ =>
    ⟨name, attributes.spacedOut, spacedOutChildren children, text, spacedOutNodes nodes⟩

def spacedOutNodes : Option (List (Content Element)) → Option (List (Content Element))
  | none => none
  | some nodes => some (spacedOutContents nodes)

def spacedOutChildren : List (String × Slot Element) → List (String × Slot Element)
  | [] => []
  | (name, slot) :: children => (name, spacedOutSlot slot) :: spacedOutChildren children

def spacedOutSlot : Slot Element → Slot Element
  | .one value => .one (spacedOutContent value)
  | .many values => .many (spacedOutContents values)

def spacedOutContents : List (Content Element) → List (Content Element)
  | [] => []
  | value :: values => spacedOutContent value :: spacedOutContents values

def spacedOutContent : Content Element → Content Element
  | .text text => .text text
  | .element e => .element (spacedOut e)

end

theorem names_spacedOutChildren (children : List (String × Slot Element)) :
    Entries.names (spacedOutChildren children) = Entries.names children := by
  induction children with
  | nil => rfl
  | cons child children ih => exact congrArg (child.1 :: ·) ih

theorem isScalar_spacedOut (e : Element) : e.spacedOut.isScalar = e.isScalar := by
  obtain ⟨name, attributes, children, text, nodes⟩ := e
  cases attributes <;> cases children <;> cases nodes <;> rfl

theorem name_spacedOut (e : Element) : e.spacedOut.name = e.name := by
  obtain ⟨name, attributes, children, text, nodes⟩ := e
  rfl

theorem spacedOutContents_eq (values : List (Content Element)) :
    spacedOutContents values = values.map spacedOutContent := by
  induction values with
  | nil => rfl
  | cons value values ih => rw [spacedOutContents, ih, List.map_cons]

/-! ### Settled elements -/

mutual

/-- The element at `path` is as it would be if it was assembled again, with all that is in it. -/
def Settled (policy : Policy) (path : List String) : Element → Prop
  | ⟨name, attributes, children, text, nodes⟩ =>
    isName name = true ∧ attributes.Proper ∧ collapse text = text ∧ nodes = none ∧
      (Entries.names children).Nodup ∧ SettledChildren policy path children

def SettledChildren (policy : Policy) (path : List String) : List (String × Slot Element) → Prop
  | [] => True
  | (name, slot) :: children =>
    SettledSlot policy (path ++ [name]) name slot ∧ SettledChildren policy path children

def SettledSlot (policy : Policy) (path : List String) (name : String) : Slot Element → Prop
  | .one value => policy.collects path = false ∧ SettledContent policy path name value
  | .many values =>
    policy.collects path = true ∧ values ≠ [] ∧ SettledContents policy path name values

def SettledContents (policy : Policy) (path : List String) (name : String) :
    List (Content Element) → Prop
  | [] => True
  | value :: values =>
    SettledContent policy path name value ∧ SettledContents policy path name values

def SettledContent (policy : Policy) (path : List String) (name : String) :
    Content Element → Prop
  | .text text => isName name = true ∧ collapse text = text
  | .element e => e.name = name ∧ e.isScalar = false ∧ Settled policy path e

end

variable {policy : Policy}

theorem settledContents_iff {path : List String} {name : String} {values : List (Content Element)} :
    SettledContents policy path name values ↔
      ∀ value ∈ values, SettledContent policy path name value := by
  induction values with
  | nil => simp [SettledContents]
  | cons value values ih => rw [SettledContents, List.forall_mem_cons, ih]

theorem settledChildren_iff {path : List String} {children : List (String × Slot Element)} :
    SettledChildren policy path children ↔
      ∀ child ∈ children, SettledSlot policy (path ++ [child.1]) child.1 child.2 := by
  induction children with
  | nil => simp [SettledChildren]
  | cons child children ih => rw [SettledChildren, List.forall_mem_cons, ih]

/-! ### Slots that fit -/

theorem SettledContent.fits {path : List String} {name : String} {value : Content Element}
    (h : SettledContent policy path name value) : FitsValue name (spacedOutContent value) := by
  cases value with
  | text text => exact ⟨rfl, rfl⟩
  | element e =>
    obtain ⟨rfl, hscalar, -⟩ := h
    refine ⟨name_spacedOut e, ?_⟩
    show e.spacedOut.toContent = .element e.spacedOut
    rw [toContent, isScalar_spacedOut, hscalar]
    rfl

theorem SettledSlot.fits {path : List String} {name : String} {slot : Slot Element}
    (h : SettledSlot policy path name slot) :
    FitsSlot (policy.collects path) name (spacedOutSlot slot) := by
  cases slot with
  | one value => exact ⟨h.1, h.2.fits⟩
  | many values =>
    rw [spacedOutSlot, spacedOutContents_eq]
    refine ⟨h.1, by simpa using h.2.1, ?_⟩
    intro value hvalue
    obtain ⟨other, hother, rfl⟩ := List.mem_map.1 hvalue
    exact (settledContents_iff.1 h.2.2 other hother).fits

theorem SettledChildren.fits {path : List String} {children : List (String × Slot Element)}
    (h : SettledChildren policy path children) :
    ∀ child ∈ spacedOutChildren children,
      FitsSlot (policy.collects (path ++ [child.1])) child.1 child.2 := by
  induction children with
  | nil => simp [spacedOutChildren]
  | cons child children ih => exact List.forall_mem_cons.2 ⟨h.1.fits, ih h.2⟩

/-! ### What is assembled is settled -/

/-- A settled element is kept as settled content. -/
theorem Settled.toContent {path : List String} {e : Element} (h : e.Settled policy path) :
    SettledContent policy path e.name e.toContent := by
  have hparts : isName e.name = true ∧ collapse e.text = e.text := by
    obtain ⟨name, attributes, children, text, nodes⟩ := e
    exact ⟨h.1, h.2.2.1⟩
  rw [Element.toContent]
  split
  · exact hparts
  · next hscalar => exact ⟨rfl, Bool.eq_false_iff.2 hscalar, h⟩

/-- A slot that is kept of settled children is settled. -/
theorem settledSlot_pieceSlot {pieces : List (Content Element)} {path : List String} {name : String}
    (h : ∀ e, .element e ∈ pieces → e.Settled policy (path ++ [e.name]))
    (hname : name ∈ pieceNames pieces) :
    SettledSlot policy (path ++ [name]) name
      (pieceSlot (policy.collects (path ++ [name])) pieces name) := by
  have hvalues : ∀ value ∈ pieceValues pieces name,
      SettledContent policy (path ++ [name]) name value := by
    intro value hvalue
    obtain ⟨e, he, rfl, rfl⟩ := mem_pieceValues.1 hvalue
    exact (h e he).toContent
  have hne : pieceValues pieces name ≠ [] := by
    obtain ⟨e, he, hen⟩ := mem_pieceNames.1 hname
    exact List.ne_nil_of_mem (mem_pieceValues.2 ⟨e, he, hen, rfl⟩)
  cases hcollects : policy.collects (path ++ [name]) with
  | true => exact ⟨hcollects, hne, settledContents_iff.2 hvalues⟩
  | false =>
    refine ⟨hcollects, ?_⟩
    rw [List.getLastD_eq_getLast?, List.getLast?_eq_some_getLast hne]
    exact hvalues _ (List.getLast_mem hne)

/-- An element is settled if all elements that it is made of are. -/
theorem settled_ofPieces (hplain : policy.Plain) {pieces : List (Content Element)}
    {path : List String} {name : String} {attributes : Attributes} (hname : isName name = true)
    (hattributes : attributes.Proper)
    (h : ∀ e, .element e ∈ pieces → e.Settled policy (path ++ [e.name])) :
    (ofPieces policy path name attributes pieces).Settled policy path := by
  obtain ⟨hpreserves, hverbatim⟩ := hplain path
  rw [ofPieces, hpreserves, hverbatim]
  refine ⟨hname, hattributes, collapse_collapse _, rfl, ?_, ?_⟩
  · rw [Entries.names_table, List.map_id]
    exact nodup_eraseDups _
  · refine settledChildren_iff.2 fun child hchild => ?_
    obtain ⟨n, hn, rfl⟩ := List.mem_map.1 hchild
    exact settledSlot_pieceSlot h (List.mem_eraseDups.1 hn)

end Element

namespace Node

open Element

variable {policy : Policy}

mutual

/-- What is assembled of a node is settled. -/
theorem settled_assembled (hplain : policy.Plain) : ∀ (node : Node) {path : List String},
    (∀ token ∈ node.tokens, token.Proper) →
    ∀ e, node.assembled policy path = .element e → e.Settled policy (path ++ [e.name])
  | .text chunk, path, _, e, he => by cases he
  | .element name attributes content, path, h, e, he => by
    rw [tokens, List.forall_mem_cons, List.forall_mem_append] at h
    cases he
    exact settled_ofPieces hplain h.1.1 h.1.2 (settled_assembledAll hplain content h.2.1)

theorem settled_assembledAll (hplain : policy.Plain) : ∀ (nodes : List Node) {path : List String},
    (∀ token ∈ tokensAll nodes, token.Proper) →
    ∀ e, .element e ∈ assembledAll policy path nodes → e.Settled policy (path ++ [e.name])
  | node :: nodes, path, h, e, he => by
    rw [tokensAll, List.forall_mem_append] at h
    rcases List.mem_cons.1 he with he | he
    · exact settled_assembled hplain node h.1 e he.symm
    · exact settled_assembledAll hplain nodes h.2 e he

end

end Node

end XmlSieve
