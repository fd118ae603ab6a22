import XmlSieve.Text.Blank

/-!
# Selectors

A selector describes paths of element names: names separated by white space, each of which may be
any number of levels below the one before, or by `>`, which asks for the next level.
`Selector.parse` reads any string as a selector and `Selector.canonical` writes it with one space
between its parts, which is the form by which equal selectors are recognised.
-/

namespace XmlSieve

/-- A part of a selector. -/
inductive Part where
  /-- The name of an element. -/
  | name (name : String)
  /-- The sign `>`. -/
  | child
  deriving DecidableEq, Repr, Inhabited

/-- How a part is written. -/
def Part.text : Part → String
  | .name word => word
  | .child => ">"

structure Selector where
  parts : List Part := []
  deriving DecidableEq, Repr, Inhabited

namespace Selector

/-- The part that the characters of `word` are, given backwards; there is none for no characters. -/
def wordPart (word : List Char) : List Part :=
  if word.isEmpty then [] else [.name (String.ofList word.reverse)]

/-- Reads the parts of a selector; `word` holds the characters of the name being read, backwards. -/
def partsFrom (word : List Char) : List Char → List Part
  | [] => wordPart word
  | c :: cs =>
    if isBlank c then wordPart word ++ partsFrom [] cs
    else if c = '>' then wordPart word ++ .child :: partsFrom [] cs
    else partsFrom (c :: word) cs

/-- Reads a selector. -/
def parse (s : String) : Selector := ⟨partsFrom [] s.toList⟩

/-- The parts with one space between them. -/
def canonical (selector : Selector) : String := " ".intercalate (selector.parts.map Part.text)

/-- Whether the selector has no parts; it then matches everywhere. -/
def isEmpty (selector : Selector) : Bool := selector.parts.isEmpty

end Selector

end XmlSieve
