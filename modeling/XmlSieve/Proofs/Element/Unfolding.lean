import XmlSieve.Proofs.Element.Reference

/-!
# Children one by one

The children in the slots of an element can be taken one by one, slot after slot
(`Element.unfolded`).  If every slot is as it would be after its values were stored in it
(`Element.FitsSlot`), an element that is made of just these children, and of its text after them, has
the same slots in the same order (`Element.ofPieces_unfolded`).
-/

namespace XmlSieve

/-- Neither order nor white space is preserved anywhere. -/
def Policy.Plain (policy : Policy) : Prop :=
  ∀ path, policy.preserves path = false ∧ policy.verbatim path = false

namespace Content

/-- The content as an element, which is named `name` if it is a text. -/
def named (name : String) : Content Element → Element
  | .text s => { name, text := s }
  | .element e => e

end Content

namespace Element

/-! ### Children one by one -/

/-- The children in all slots, one by one. -/
def unfolded (children : List (String × Slot Element)) : List Element :=
  children.flatMap fun child => child.2.values.map (·.named child.1)

/-- The value of a child that is kept as it is under its name. -/
def FitsValue (name : String) (value : Content Element) : Prop :=
  (value.named name).name = name ∧ (value.named name).toContent = value

/-- A slot that is as it would be if its values were stored in it again. -/
def FitsSlot (collect : Bool) (name : String) : Slot Element → Prop
  | .one value => collect = false ∧ FitsValue name value
  | .many values => collect = true ∧ values ≠ [] ∧ ∀ value ∈ values, FitsValue name value

variable {children : List (String × Slot Element)} {name : String} {slot : Slot Element}

theorem FitsSlot.values {collect : Bool} (h : FitsSlot collect name slot) :
    slot.values ≠ [] ∧ ∀ value ∈ slot.values, FitsValue name value := by
  cases slot with
  | one value => exact ⟨List.cons_ne_nil _ _, List.forall_mem_singleton.2 h.2⟩
  | many values => exact h.2

/-- The elements in a slot have its name. -/
theorem FitsSlot.name_eq {collect : Bool} (h : FitsSlot collect name slot) :
    ∀ e ∈ slot.values.map (·.named name), e.name = name := by
  intro e he
  obtain ⟨value, hvalue, rfl⟩ := List.mem_map.1 he
  exact (h.values.2 value hvalue).1

theorem unfolded_cons (name : String) (slot : Slot Element)
    (children : List (String × Slot Element)) :
    unfolded ((name, slot) :: children) = slot.values.map (·.named name) ++ unfolded children :=
  rfl

/-- The children have the names of the slots. -/
theorem name_of_mem_unfolded {collect : String → Bool}
    (h : ∀ child ∈ children, FitsSlot (collect child.1) child.1 child.2)
    {e : Element} (he : e ∈ unfolded children) : e.name ∈ Entries.names children := by
  obtain ⟨child, hchild, he⟩ := List.mem_flatMap.1 he
  rw [(h child hchild).name_eq e he]
  exact List.mem_map_of_mem hchild

/-- Names that come in groups occur first in the order of the groups. -/
theorem eraseDups_names_unfolded (collect : String → Bool)
    (hnodup : (Entries.names children).Nodup)
    (h : ∀ child ∈ children, FitsSlot (collect child.1) child.1 child.2) :
    ((unfolded children).map (·.name)).eraseDups = Entries.names children := by
  induction children with
  | nil => rfl
  | cons child children ih =>
    obtain ⟨name, slot⟩ := child
    obtain ⟨hchild, hchildren⟩ := List.forall_mem_cons.1 h
    rw [Entries.names_cons, List.nodup_cons] at hnodup
    obtain ⟨hnew, hnodup⟩ := hnodup
    have hnames : (slot.values.map (·.named name)).map (·.name) =
        List.replicate slot.values.length name := by
      rw [List.map_congr_left hchild.name_eq, List.map_const', List.length_map]
    have hlater : name ∉ (unfolded children).map (·.name) := by
      intro hmem
      obtain ⟨e, he, rfl⟩ := List.mem_map.1 hmem
      exact hnew (name_of_mem_unfolded hchildren he)
    rw [unfolded_cons, List.map_append, hnames, Entries.names_cons, ← ih hnodup hchildren]
    exact eraseDups_replicate_append (by simpa using hchild.values.1) hlater

/-- The values of the children of one name are those in its slot. -/
theorem pieceValues_unfolded (collect : String → Bool)
    (hnodup : (Entries.names children).Nodup)
    (h : ∀ child ∈ children, FitsSlot (collect child.1) child.1 child.2)
    (hslot : (name, slot) ∈ children) :
    ((unfolded children).filter (·.name = name)).map toContent = slot.values := by
  induction children with
  | nil => cases hslot
  | cons child children ih =>
    obtain ⟨first, other⟩ := child
    obtain ⟨hchild, hchildren⟩ := List.forall_mem_cons.1 h
    rw [Entries.names_cons, List.nodup_cons] at hnodup
    obtain ⟨hnew, hnodup⟩ := hnodup
    rw [unfolded_cons, List.filter_append, List.map_append]
    rcases List.mem_cons.1 hslot with heq | hmem
    · obtain ⟨rfl, rfl⟩ := Prod.mk.inj heq
      have hnone : (unfolded children).filter (·.name = name) = [] :=
        List.filter_eq_nil_iff.2 fun e he => by
          have hne : e.name ≠ name := fun heq => hnew (heq ▸ name_of_mem_unfolded hchildren he)
          simp [hne]
      have hall : (slot.values.map (·.named name)).filter (·.name = name) =
          slot.values.map (·.named name) :=
        List.filter_eq_self.2 fun e he => decide_eq_true (hchild.name_eq e he)
      have hkept (value : Content Element) (hvalue : value ∈ slot.values) :
          (value.named name).toContent = value := (hchild.values.2 value hvalue).2
      rw [hnone, hall, List.map_map, List.map_nil, List.append_nil]
      exact (List.map_congr_left hkept).trans (List.map_id _)
    · have hne : first ≠ name := by
        rintro rfl
        exact hnew (List.mem_map.2 ⟨_, hmem, rfl⟩)
      have hnone : (other.values.map (·.named first)).filter (·.name = name) = [] := by
        refine List.filter_eq_nil_iff.2 fun e he => ?_
        rw [hchild.name_eq e he]
        simp [hne]
      rw [hnone, List.map_nil, List.nil_append]
      exact ih hnodup hchildren hmem

/-- A slot that fits is what is kept of its values. -/
theorem pieceSlot_of_fits {pieces : List (Content Element)} {collect : Bool}
    (h : FitsSlot collect name slot) (hvalues : pieceValues pieces name = slot.values) :
    pieceSlot collect pieces name = slot := by
  cases slot with
  | one | many =>
    rw [h.1, pieceSlot, hvalues]
    rfl

section Pieces

variable {elements : List Element} {text : String}

/-- Elements, and a text after them if there is one. -/
def pieces (elements : List Element) (text : String) : List (Content Element) :=
  elements.map .element ++ if text = "" then [] else [.text text]

theorem filterMap_element?_pieces :
    (pieces elements text).filterMap Content.element? = elements := by
  have hnone : (if text = "" then [] else [Content.text text]).filterMap Content.element? = [] := by
    split <;> rfl
  rw [pieces, List.filterMap_append, hnone, List.filterMap_map, List.append_nil]
  exact List.filterMap_some

theorem pieceText_pieces : pieceText (pieces elements text) = text := by
  have hnone : (elements.map Content.element).filterMap Content.text? = [] := by
    rw [List.filterMap_map]
    exact List.filterMap_eq_nil_iff.2 fun _ _ => rfl
  rw [pieceText, pieces, List.filterMap_append, hnone, List.nil_append]
  split
  · next hempty =>
    rw [hempty]
    rfl
  · simp [Content.text?, String.join]

end Pieces

/-- An element with these children and this text, if they are as they would be if it was assembled
again. -/
theorem ofPieces_unfolded {policy : Policy} (hplain : policy.Plain) {path : List String}
    (name : String) (attributes : Attributes) {text : String} (htext : collapse text = text)
    (hnodup : (Entries.names children).Nodup)
    (h : ∀ child ∈ children, FitsSlot (policy.collects (path ++ [child.1])) child.1 child.2) :
    ofPieces policy path name attributes (pieces (unfolded children) text) =
      { name, attributes, children, text } := by
  have hchildren : (pieces (unfolded children) text).filterMap Content.element? =
      unfolded children := filterMap_element?_pieces
  have htexts : pieceText (pieces (unfolded children) text) = text := pieceText_pieces
  generalize pieces (unfolded children) text = pieces at hchildren htexts
  have hnames : (pieceNames pieces).eraseDups = Entries.names children := by
    rw [pieceNames, hchildren,
      eraseDups_names_unfolded (fun n => policy.collects (path ++ [n])) hnodup h]
  have hvalues (child : String × Slot Element) (hchild : child ∈ children) :
      pieceValues pieces child.1 = child.2.values := by
    rw [pieceValues, hchildren]
    exact pieceValues_unfolded (fun n => policy.collects (path ++ [n])) hnodup h hchild
  have htable : Entries.table id (fun n => pieceSlot (policy.collects (path ++ [n])) pieces n)
      (pieceNames pieces).eraseDups = children := by
    rw [hnames, Entries.table, Entries.names, List.map_map]
    refine (List.map_congr_left fun child hchild => ?_).trans (List.map_id _)
    exact Prod.ext rfl (pieceSlot_of_fits (h child hchild) (hvalues child hchild))
  obtain ⟨hpreserves, hverbatim⟩ := hplain path
  simp only [ofPieces, htable, htexts, hpreserves, hverbatim, Bool.false_eq_true, if_false, htext]

end Element

end XmlSieve
