import XmlSieve.Element.Basic

/-!
# Storing children

A child is entered in its parent twice: when it opens, `Element.openChild` reserves its slot, so
that names keep the order in which they first occurred; when it closes, `Element.closeChild` stores
its value.  A collected child is added to those of its name, any other replaces them.
-/

namespace XmlSieve

namespace Element

/-- What stands for a child that is still open. -/
def placeholder : Content Element := .text ""

/-- The slot of a name after a child of that name opened. -/
def reserve (slot : Option (Slot Element)) (collect : Bool) : Slot Element :=
  if collect then .many (((slot.map Slot.values).getD []) ++ [placeholder])
  else .one placeholder

/-- The slot of a name after the child that opened last in it closed with `value`. -/
def settle (slot : Option (Slot Element)) (collect : Bool) (value : Content Element) :
    Slot Element :=
  match slot, collect with
  | some (.many values), true => .many (values.dropLast ++ [value])
  | _, _ => .one value

/-- Reserves the slot for a child that opens. -/
def openChild (e : Element) (name : String) (collect : Bool) : Element :=
  { e with children := Entries.insert name (reserve (e.slot? name) collect) e.children }

/-- Stores the value of a child that closes. -/
def closeChild (e : Element) (name : String) (collect : Bool) (value : Content Element) : Element :=
  { e with children := Entries.insert name (settle (e.slot? name) collect value) e.children }

/-- Adds a node at the end, where document order is preserved. -/
def addNode (e : Element) (node : Content Element) : Element :=
  { e with nodes := e.nodes.map (· ++ [node]) }

end Element

end XmlSieve
