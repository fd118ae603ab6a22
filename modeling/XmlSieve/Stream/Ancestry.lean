import XmlSieve.Stream.Frame

/-!
# Ancestors

What a listener can see around the element it is told of: the open elements, and everything closed
that they still hold.  `Ancestry.bound?` finds an ancestor by name and `Ancestry.trace?` an element
by its path from the document.
-/

namespace XmlSieve

/-- The open elements around a match, innermost first, and the container of the root. -/
structure Ancestry where
  document : Element
  frames : List Frame

/-- Splits at slashes. -/
def segments : List Char → List (List Char)
  | [] => [[]]
  | c :: cs =>
    if c = '/' then [] :: segments cs
    else
      match segments cs with
      | [] => [[c]]
      | first :: rest => (c :: first) :: rest

/-- The names that lead from the path `base` to `path`, if `path` is at `base` or below it. -/
def namesBelow? : List Char → List Char → Option (List String)
  | [], [] => some []
  | [], c :: cs => if c = '/' then some ((segments cs).map String.ofList) else none
  | _ :: _, [] => none
  | b :: base, c :: cs => if b = c then namesBelow? base cs else none

namespace Ancestry

/-- The ancestors, innermost first. -/
def elements (a : Ancestry) : List Element := a.frames.map (·.element)

/-- The paths of the document and of the ancestors, outermost first. -/
def paths (a : Ancestry) : List String := "" :: (a.frames.map (·.path)).reverse

/-- The innermost ancestor named `name`, among those of which the parent keeps only the latest. -/
def bound? (a : Ancestry) (name : String) : Option Element :=
  (a.frames.find? fun f => !f.collected && f.element.name = name).map (·.element)

/-- Where the walk to a path starts: the ancestors, innermost first, and the document. -/
def anchors (a : Ancestry) : List (String × Element) :=
  a.frames.map (fun f => (f.path, f.element)) ++ [("", a.document)]

/-- The element at `path`.  The innermost ancestor that the path leads to or through decides; from
there on the path goes through the latest child of each name. -/
def trace? (a : Ancestry) (path : String) : Option Element :=
  match a.anchors.findSome? fun (base, e) =>
    (namesBelow? base.toList path.toList).map (e, ·) with
  | some (e, names) => e.descend? names
  | none => none

end Ancestry

end XmlSieve
