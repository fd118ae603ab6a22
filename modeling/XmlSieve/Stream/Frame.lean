import XmlSieve.Element.Basic
import XmlSieve.Text.Spacing

/-!
# Frames

A `Frame` is an element under assembly together with what the stream has to remember until the
element ends.
-/

namespace XmlSieve

structure Frame where
  element : Element
  /-- The names from the root to the element, each after a slash, as they were in the document. -/
  path : String
  /-- Whether the parent keeps all children of this name. -/
  collected : Bool := false
  /-- Where collapsing the text of the element has got to. -/
  spacing : Spacing := .noContent
  /-- The requests to preserve order that apply since this element opened, each with whether it
  keeps white space too. -/
  preserved : List Bool := []
  /-- The update subscriptions that hold back output since this element opened. -/
  held : List Nat := []

instance : Inhabited Frame := ⟨{ element := {}, path := "" }⟩

namespace Frame

/-- The frame of an element that opens under the element at `parentPath`. -/
def opened (parentPath name : String) (attributes : Attributes) : Frame :=
  { element := { name, attributes }, path := parentPath ++ "/" ++ name }

/-- Gives the element an empty list of nodes, to be filled in document order. -/
def startNodes (f : Frame) : Frame := { f with element := { f.element with nodes := some [] } }

/-- Adds text as it stands. -/
def addVerbatim (f : Frame) (chunk : String) : Frame :=
  { f with element := { f.element with text := f.element.text ++ chunk } }

/-- Adds text with its white space collapsed. -/
def addCollapsed (f : Frame) (chunk : String) : Frame :=
  let (spacing, text) := f.spacing.push f.element.text chunk
  { f with spacing, element := { f.element with text } }

end Frame

end XmlSieve
