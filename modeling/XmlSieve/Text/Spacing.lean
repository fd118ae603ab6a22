import XmlSieve.Text.Blank

/-!
# Collapsing white space

The text of an element arrives in chunks cut anywhere.  `Spacing` remembers, between chunks, whether
there was content and whether a space is owed, so that `Spacing.push` drops white space at the ends
and turns each inner run into one space wherever the cuts fall.
-/

namespace XmlSieve

/-- What the text pushed so far ends in. -/
inductive Spacing where
  /-- Nothing but white space so far. -/
  | noContent
  /-- The last character was content. -/
  | hadContent
  /-- White space followed content: a space is owed before more content. -/
  | pendingSpace
  deriving DecidableEq, Repr, Inhabited

namespace Spacing

/-- Pushes one character onto `text`. -/
def pushChar (state : Spacing × String) (c : Char) : Spacing × String :=
  let (spacing, text) := state
  if isBlank c then
    (if spacing = hadContent then pendingSpace else spacing, text)
  else
    (hadContent, (if spacing = pendingSpace then text.push ' ' else text).push c)

/-- Pushes `chunk` onto `text`, collapsing white space. -/
def push (spacing : Spacing) (text chunk : String) : Spacing × String :=
  chunk.toList.foldl pushChar (spacing, text)

end Spacing

end XmlSieve
