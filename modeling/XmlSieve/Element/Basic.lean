import XmlSieve.Token

/-!
# Elements

What is assembled from a document: an `Element` has its attributes, its children by name (each a
`Slot`, holding the latest child of that name or all of them), its text and, where document order is
preserved, the list of its nodes.  Children and nodes are `Content`: an element that has nothing but
text is reduced to that text (`Element.toContent`).
-/

namespace XmlSieve

/-- A piece of content: text, or an element with more to it. -/
inductive Content (α : Type) where
  | text (text : String)
  | element (element : α)
  deriving DecidableEq, Repr

/-- What an element keeps of its children of one name. -/
inductive Slot (α : Type) where
  /-- The latest of them. -/
  | one (value : Content α)
  /-- All of them, in document order. -/
  | many (values : List (Content α))
  deriving DecidableEq, Repr

structure Element where
  name : String := ""
  attributes : Attributes := []
  children : List (String × Slot Element) := []
  text : String := ""
  /-- Text and elements in document order, where that is preserved. -/
  nodes : Option (List (Content Element)) := none

namespace Content

instance {α : Type} : Inhabited (Content α) := ⟨.text ""⟩

/-- The text, if that is all there is. -/
def text? : Content Element → Option String
  | .text s => some s
  | .element _ => none

/-- The element, if there is more than text. -/
def element? : Content Element → Option Element
  | .text _ => none
  | .element e => some e

/-- The text directly in the content. -/
def ownText : Content Element → String
  | .text s => s
  | .element e => e.text

end Content

namespace Slot

variable {α : Type}

instance : Inhabited (Slot α) := ⟨many []⟩

/-- The values in the slot, in document order. -/
def values : Slot α → List (Content α)
  | one value => [value]
  | many values => values

/-- The latest value in the slot. -/
def latest? (slot : Slot α) : Option (Content α) := slot.values.getLast?

end Slot

namespace Element

instance : Inhabited Element := ⟨{}⟩

/-- The value of an attribute. -/
def attribute? (e : Element) (name : String) : Option String := Entries.get? name e.attributes

/-- The children of one name. -/
def slot? (e : Element) (name : String) : Option (Slot Element) := Entries.get? name e.children

/-- The latest child of one name. -/
def child? (e : Element) (name : String) : Option (Content Element) :=
  (e.slot? name).bind Slot.latest?

/-- Whether there is nothing to the element but its text. -/
def isScalar (e : Element) : Bool := e.attributes.isEmpty && e.children.isEmpty && e.nodes.isNone

/-- The element as it is kept by its parent. -/
def toContent (e : Element) : Content Element := if e.isScalar then .text e.text else .element e

/-- The element reached through the latest child of each name in turn. -/
def descend? (e : Element) : List String → Option Element
  | [] => some e
  | name :: rest =>
    match (e.child? name).bind Content.element? with
    | some child => child.descend? rest
    | none => none

end Element

end XmlSieve
