import XmlSieve.Element.Children
import XmlSieve.Proofs.Entries
import XmlSieve.Proofs.Text.Collapse

/-!
# Elements as functions of documents

A `Node` is a text or an element with everything in it, as it stands in a document.  A `Policy` says
at which paths children are collected and at which order and white space are preserved.
`Node.assembled` is the element that a node amounts to: its children by name, in the order in which
their names first occur, its text, and its nodes where order is preserved.  `Element.ofPieces` says
it for one element, given what its content amounts to, and can be computed piece by piece
(`ofPieces_text`, `ofPieces_element`).
-/

namespace XmlSieve

/-- What is kept of elements, by the names from the root to them. -/
structure Policy where
  /-- Whether the parent keeps all of its children of this name. -/
  collects : List String → Bool
  /-- Whether the element keeps its content in document order. -/
  preserves : List String → Bool
  /-- Whether the element keeps its white space. -/
  verbatim : List String → Bool

/-- A text, or an element with its content. -/
inductive Node where
  | text (chunk : String)
  | element (name : String) (attributes : Attributes) (content : List Node)

namespace Element

/-! ### One element

The pieces of an element are its texts, as they stand in the document, and its children. -/

/-- All text directly in an element. -/
def pieceText (pieces : List (Content Element)) : String :=
  String.join (pieces.filterMap Content.text?)

/-- The names of the children. -/
def pieceNames (pieces : List (Content Element)) : List String :=
  (pieces.filterMap Content.element?).map (·.name)

/-- The values of the children of one name. -/
def pieceValues (pieces : List (Content Element)) (name : String) : List (Content Element) :=
  ((pieces.filterMap Content.element?).filter (·.name = name)).map toContent

/-- What is kept of the children of one name. -/
def pieceSlot (collect : Bool) (pieces : List (Content Element)) (name : String) : Slot Element :=
  if collect then .many (pieceValues pieces name)
  else .one ((pieceValues pieces name).getLastD placeholder)

/-- The node that a piece becomes; text of which nothing is left becomes none. -/
def pieceNode? (verbatim : Bool) : Content Element → Option (Content Element)
  | .text chunk =>
    let chunk := if verbatim then chunk else trim chunk
    if chunk.isEmpty then none else some (.text chunk)
  | .element e => some (.element e)

theorem mem_filterMap_element? {pieces : List (Content Element)} {e : Element} :
    e ∈ pieces.filterMap Content.element? ↔ .element e ∈ pieces := by
  rw [List.mem_filterMap]
  constructor
  · rintro ⟨piece, hpiece, he⟩
    cases piece with
    | text => cases he
    | element =>
      cases he
      exact hpiece
  · intro h
    exact ⟨_, h, rfl⟩

theorem mem_pieceNames {pieces : List (Content Element)} {name : String} :
    name ∈ pieceNames pieces ↔ ∃ e, .element e ∈ pieces ∧ e.name = name := by
  simp only [pieceNames, List.mem_map, mem_filterMap_element?]

theorem mem_pieceValues {pieces : List (Content Element)} {name : String}
    {value : Content Element} :
    value ∈ pieceValues pieces name ↔
      ∃ e, .element e ∈ pieces ∧ e.name = name ∧ e.toContent = value := by
  simp only [pieceValues, List.mem_map, List.mem_filter, mem_filterMap_element?, decide_eq_true_eq,
    and_assoc]

/-- The element at `path` with these pieces. -/
def ofPieces (policy : Policy) (path : List String) (name : String) (attributes : Attributes)
    (pieces : List (Content Element)) : Element where
  name
  attributes
  children := Entries.table id (fun n => pieceSlot (policy.collects (path ++ [n])) pieces n)
    (pieceNames pieces).eraseDups
  text := if policy.verbatim path then pieceText pieces else collapse (pieceText pieces)
  nodes :=
    if policy.preserves path then some (pieces.filterMap (pieceNode? (policy.verbatim path)))
    else none

end Element

namespace Node

mutual

/-- What a node below `path` amounts to: a text as it stands, or an element. -/
def assembled (policy : Policy) (path : List String) : Node → Content Element
  | .text chunk => .text chunk
  | .element name attributes content =>
    .element (Element.ofPieces policy (path ++ [name]) name attributes
      (assembledAll policy (path ++ [name]) content))

/-- What nodes below `path` amount to. -/
def assembledAll (policy : Policy) (path : List String) : List Node → List (Content Element)
  | [] => []
  | node :: nodes => assembled policy path node :: assembledAll policy path nodes

end

theorem assembledAll_append (policy : Policy) (path : List String) (nodes more : List Node) :
    assembledAll policy path (nodes ++ more) =
      assembledAll policy path nodes ++ assembledAll policy path more := by
  induction nodes with
  | nil => rw [List.nil_append, assembledAll, List.nil_append]
  | cons node nodes ih => rw [List.cons_append, assembledAll, ih, assembledAll, List.cons_append]

end Node

namespace Element

variable {policy : Policy} {path : List String} {name : String} {attributes : Attributes}
  {pieces : List (Content Element)}

/-! ### Piece by piece -/

theorem ofPieces_nil (policy : Policy) (path : List String) (name : String)
    (attributes : Attributes) :
    ofPieces policy path name attributes [] =
      { name, attributes, nodes := if policy.preserves path then some [] else none } := by
  have htext : collapse "" = "" := by decide
  simp [ofPieces, pieceNames, pieceText, Entries.table, htext, String.join]

theorem pieceText_concat (pieces : List (Content Element)) (chunk : String) :
    pieceText (pieces ++ [.text chunk]) = pieceText pieces ++ chunk := by
  simp [pieceText, List.filterMap_append, Content.text?, String.join, List.foldl_append]

theorem pieceText_element (pieces : List (Content Element)) (child : Element) :
    pieceText (pieces ++ [.element child]) = pieceText pieces := by
  rw [pieceText, List.filterMap_append]
  exact congrArg String.join (List.append_nil _)

/-- A text goes to the text of the element and to its nodes. -/
theorem ofPieces_text (policy : Policy) (path : List String) (name : String)
    (attributes : Attributes) (pieces : List (Content Element)) (chunk : String) :
    ofPieces policy path name attributes (pieces ++ [.text chunk]) =
      { ofPieces policy path name attributes pieces with
        text :=
          if policy.verbatim path then pieceText pieces ++ chunk
          else collapse (pieceText pieces ++ chunk)
        nodes := (ofPieces policy path name attributes pieces).nodes.map
          (· ++ (pieceNode? (policy.verbatim path) (.text chunk)).toList) } := by
  have hnames : pieceNames (pieces ++ [.text chunk]) = pieceNames pieces := by
    simp [pieceNames, List.filterMap_append, Content.element?]
  have hvalues (n : String) : pieceValues (pieces ++ [.text chunk]) n = pieceValues pieces n := by
    simp [pieceValues, List.filterMap_append, Content.element?]
  simp only [ofPieces, hnames, pieceText_concat, List.filterMap_append, Element.mk.injEq, true_and]
  constructor
  · exact Entries.table_congr fun n _ => by rw [pieceSlot, pieceSlot, hvalues]
  · cases policy.preserves path with
    | false => rfl
    | true => cases h : pieceNode? (policy.verbatim path) (.text chunk) <;> simp [h]

/-- Inserting a value under a name twice keeps the second. -/
theorem insert_insert {α : Type} (name : String) (v w : α) (entries : Entries α) :
    Entries.insert name w (Entries.insert name v entries) = Entries.insert name w entries := by
  induction entries with
  | nil => simp [Entries.insert]
  | cons entry entries ih =>
    simp only [Entries.insert]
    split
    · simp [Entries.insert, *]
    · simp [Entries.insert, *]

theorem get?_insert_self {α : Type} (name : String) (v : α) (entries : Entries α) :
    Entries.get? name (Entries.insert name v entries) = some v := by
  induction entries with
  | nil => simp [Entries.insert, Entries.get?]
  | cons entry entries ih =>
    simp only [Entries.insert]
    split
    · simp [Entries.get?, *]
    · simp [Entries.get?, *]

/-- The slot of a name before and after a child of that name. -/
theorem settle_reserve (collect : Bool) (pieces : List (Content Element)) (child : Element) :
    settle
        (some (reserve
          (if child.name ∈ (pieceNames pieces).eraseDups then
            some (pieceSlot collect pieces child.name) else none) collect))
        collect child.toContent =
      pieceSlot collect (pieces ++ [.element child]) child.name := by
  have hvalues : pieceValues (pieces ++ [.element child]) child.name =
      pieceValues pieces child.name ++ [child.toContent] := by
    simp [pieceValues, List.filterMap_append, Content.element?]
  have hnone (h : child.name ∉ (pieceNames pieces).eraseDups) :
      pieceValues pieces child.name = [] := by
    have hmem := mt List.mem_eraseDups.2 h
    simp only [pieceValues, List.map_eq_nil_iff, List.filter_eq_nil_iff, decide_eq_true_eq]
    exact fun e he hname => hmem (List.mem_map.2 ⟨e, he, hname⟩)
  cases collect with
  | false => simp [settle, reserve, pieceSlot, hvalues]
  | true =>
    split
    · simp [settle, reserve, pieceSlot, hvalues, Slot.values]
    · next h => simp [settle, reserve, pieceSlot, hvalues, hnone h]

theorem pieceNames_element (pieces : List (Content Element)) (child : Element) :
    pieceNames (pieces ++ [.element child]) = pieceNames pieces ++ [child.name] := by
  simp [pieceNames, List.filterMap_append, Content.element?]

/-- The children after one more of them. -/
theorem insert_child (collects : String → Bool) (pieces : List (Content Element))
    (child : Element) :
    Entries.insert child.name
        (pieceSlot (collects child.name) (pieces ++ [.element child]) child.name)
        (Entries.table id (fun n => pieceSlot (collects n) pieces n)
          (pieceNames pieces).eraseDups) =
      Entries.table id (fun n => pieceSlot (collects n) (pieces ++ [.element child]) n)
        (pieceNames (pieces ++ [.element child])).eraseDups := by
  have hvalues (n : String) (hn : n ≠ child.name) :
      pieceValues (pieces ++ [.element child]) n = pieceValues pieces n := by
    simp [pieceValues, List.filterMap_append, Content.element?, Ne.symm hn]
  have hslot (n : String) (hn : n ≠ child.name) :
      pieceSlot (collects n) pieces n = pieceSlot (collects n) (pieces ++ [.element child]) n := by
    rw [pieceSlot, pieceSlot, hvalues n hn]
  rw [pieceNames_element, eraseDups_concat]
  by_cases hmem : child.name ∈ pieceNames pieces
  · rw [if_pos hmem]
    refine (Entries.insert_table_of_mem _ (fun _ _ h => h) (nodup_eraseDups _)
      (List.mem_eraseDups.2 hmem)).trans (Entries.table_congr fun n _ => ?_)
    split
    · next heq => rw [heq]
    · next hn => exact hslot n hn
  · rw [if_neg hmem]
    have hnew (n : String) (hn : n ∈ (pieceNames pieces).eraseDups) : n ≠ child.name :=
      fun heq => hmem (heq ▸ List.mem_eraseDups.1 hn)
    refine (Entries.insert_table_of_not_mem _ hnew).trans ?_
    rw [Entries.table_congr fun n hn => hslot n (hnew n hn), Entries.table, Entries.table,
      List.map_append]
    rfl

/-- A child goes to its slot, which was reserved when it opened, and to the nodes. -/
theorem ofPieces_element (policy : Policy) (path : List String) (name : String)
    (attributes : Attributes) (pieces : List (Content Element)) (child : Element) :
    ofPieces policy path name attributes (pieces ++ [.element child]) =
      ({ (ofPieces policy path name attributes pieces).openChild child.name
            (policy.collects (path ++ [child.name])) with
          nodes := (ofPieces policy path name attributes pieces).nodes.map
            (· ++ [.element child]) } : Element).closeChild child.name
        (policy.collects (path ++ [child.name])) child.toContent := by
  have hget : Entries.get? child.name
      (Entries.table id (fun n => pieceSlot (policy.collects (path ++ [n])) pieces n)
        (pieceNames pieces).eraseDups) = _ := Entries.get?_table fun _ _ h => h
  have hinsert := insert_child (fun n => policy.collects (path ++ [n])) pieces child
  simp only [ofPieces, closeChild, openChild, slot?, get?_insert_self, insert_insert, hget,
    settle_reserve, hinsert, pieceText_element, Element.mk.injEq, true_and]
  cases policy.preserves path with
  | false => rfl
  | true => simp [List.filterMap_append, pieceNode?]

end Element

end XmlSieve
