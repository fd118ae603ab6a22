import XmlSieve.Bytes.Search

/-!
# Cursors

A `Cursor` is a place in a byte string that is kept whole.  Its searches look from the place on and
answer offsets in the whole string.
-/

namespace XmlSieve

/-- The place `pos` in `input`. -/
structure Cursor where
  input : Bytes
  pos : Nat := 0

namespace Cursor

/-- The bytes from the place on. -/
def rest (c : Cursor) : Bytes := c.input.drop c.pos

def atEnd (c : Cursor) : Bool := c.input.length ≤ c.pos

/-- Moves on by `n` bytes. -/
def advance (c : Cursor) (n : Nat) : Cursor := { c with pos := c.pos + n }

/-- Moves past the blanks at the place. -/
def skipBlanks (c : Cursor) : Cursor := c.advance (c.rest.takeWhile isBlankByte).length

/-- Offset of the next `<`. -/
def tagStart? (c : Cursor) : Option Nat := c.rest.tagStart?.map (c.pos + ·)

/-- Offset of the next `>` outside quoted literals. -/
def tagEnd? (c : Cursor) : Option Nat := c.rest.tagEnd?.map (c.pos + ·)

/-- Offset of the next `>` outside quoted literals and brackets. -/
def declarationEnd? (c : Cursor) : Option Nat := c.rest.declarationEnd?.map (c.pos + ·)

/-- Offset of the next occurrence of `word`. -/
def indexOf? (c : Cursor) (word : Bytes) : Option Nat :=
  (Bytes.indexOf? word c.rest).map (c.pos + ·)

def startsWith (c : Cursor) (word : Bytes) : Bool := word.isPrefixOf c.rest

/-- Whether all that is left is a beginning of `word`, but not the whole of it. -/
def isProperPrefixOf (c : Cursor) (word : Bytes) : Bool := c.rest.isProperPrefix word

/-- The bytes from offset `start` up to offset `stop`. -/
def slice (c : Cursor) (start stop : Nat) : Bytes := (c.input.take stop).drop start

/-- Reads the name at the place, if a name starts there. -/
def readName? (c : Cursor) : Option (Bytes × Cursor) :=
  c.rest.splitName?.map fun (name, _) => (name, c.advance name.length)

end Cursor

end XmlSieve
