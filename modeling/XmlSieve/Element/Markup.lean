import XmlSieve.Element.Basic
import XmlSieve.Text.Escape

/-!
# Writing elements

`Element.markup` writes an element as a document.  Where document order is preserved the nodes are
written in their order; otherwise the children are written slot by slot, under the names of their
slots, and the text after them.
-/

namespace XmlSieve

namespace Markup

/-- An attribute, with the space before it. -/
def ofAttribute (name value : String) : String := " " ++ name ++ "=\x22" ++ escape value ++ "\x22"

def ofAttributes : Attributes → String
  | [] => ""
  | (name, value) :: rest => ofAttribute name value ++ ofAttributes rest

def startTag (name : String) (attributes : Attributes) : String :=
  "<" ++ name ++ ofAttributes attributes ++ ">"

def endTag (name : String) : String := "</" ++ name ++ ">"

mutual

/-- What stands between the tags of an element. -/
def body : Element → String
  | ⟨_, _, _, _, some nodes⟩ => ofNodes nodes
  | ⟨_, _, children, text, none⟩ => ofChildren children ++ escape text

/-- Children, slot by slot. -/
def ofChildren : List (String × Slot Element) → String
  | [] => ""
  | (name, slot) :: rest => ofSlot name slot ++ ofChildren rest

/-- The children in one slot, each as an element named `name`. -/
def ofSlot (name : String) : Slot Element → String
  | .one value => ofContent name value
  | .many values => ofContents name values

def ofContents (name : String) : List (Content Element) → String
  | [] => ""
  | value :: rest => ofContent name value ++ ofContents name rest

/-- Content, as an element named `name`. -/
def ofContent (name : String) : Content Element → String
  | .text text => startTag name [] ++ escape text ++ endTag name
  | .element e => startTag name e.attributes ++ body e ++ endTag name

/-- Nodes, each as it stands in the document. -/
def ofNodes : List (Content Element) → String
  | [] => ""
  | node :: rest => ofNode node ++ ofNodes rest

def ofNode : Content Element → String
  | .text text => escape text
  | .element e => startTag e.name e.attributes ++ body e ++ endTag e.name

end

/-- Content as an element named `name`, up to its end tag. -/
def openContent (name : String) : Content Element → String
  | .text text => startTag name [] ++ escape text
  | .element e => startTag name e.attributes ++ body e

end Markup

namespace Element

/-- The element up to its end tag. -/
def openMarkup (e : Element) : String := Markup.startTag e.name e.attributes ++ Markup.body e

/-- The element as a document. -/
def markup (e : Element) : String := e.openMarkup ++ Markup.endTag e.name

end Element

end XmlSieve
