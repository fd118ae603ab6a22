import XmlSieve.Bytes

/-!
# Searching byte strings

Offsets of the places where markup ends.  `indexOf?` finds a terminator such as `-->`; `tagEnd?` and
`declarationEnd?` find the `>` that closes a tag or a declaration and pass over those inside quoted
literals and, for a declaration, inside its bracketed subset.  Each answers `none` when the place
is not among the bytes given, which says nothing about the bytes still to come.
-/

namespace XmlSieve

namespace Bytes

/-- Whether `bs` is a beginning of `word`, but not all of it. -/
def isProperPrefix : Bytes → Bytes → Bool
  | [], word => !word.isEmpty
  | _ :: _, [] => false
  | b :: bs, w :: word => b == w && isProperPrefix bs word

/-- Offset of the first occurrence of `word`. -/
def indexOf? (word : Bytes) : Bytes → Option Nat
  | [] => if word.isEmpty then some 0 else none
  | b :: bs => if word.isPrefixOf (b :: bs) then some 0 else (indexOf? word bs).map (· + 1)

/-- Offset of the first `<`. -/
def tagStart? (bs : Bytes) : Option Nat := bs.findIdx? (· == Byte.openAngle)

/-- The quote under which a literal is open after `b`: either quote opens a literal, and only the
quote that opened it closes it. -/
def quoteAfter : Option UInt8 → UInt8 → Option UInt8
  | none, b => if b == Byte.quote || b == Byte.apostrophe then some b else none
  | some q, b => if b == q then none else some q

/-- Offset of the first `>` outside quoted literals, where `under` is the quote under which a
literal is open at the head. -/
def tagEndFrom? (under : Option UInt8) : Bytes → Option Nat
  | [] => none
  | b :: bs =>
    if under.isNone && b == Byte.closeAngle then some 0
    else (tagEndFrom? (quoteAfter under b) bs).map (· + 1)

/-- Offset of the `>` that closes a tag: the first outside quoted literals. -/
def tagEnd? (bs : Bytes) : Option Nat := tagEndFrom? none bs

/-- Bracket depth after `b`, outside literals; a bracket closed too often does not count. -/
def bracketsAfter (depth : Nat) (b : UInt8) : Nat :=
  if b == Byte.openBracket then depth + 1
  else if b == Byte.closeBracket then depth - 1
  else depth

/-- Offset of the first `>` outside quoted literals and brackets, from inside a literal under
`under` and `depth` brackets. -/
def declarationEndFrom? (under : Option UInt8) (depth : Nat) : Bytes → Option Nat
  | [] => none
  | b :: bs =>
    if under.isNone && depth == 0 && b == Byte.closeAngle then some 0
    else
      let depth := if under.isNone then bracketsAfter depth b else depth
      (declarationEndFrom? (quoteAfter under b) depth bs).map (· + 1)

/-- Offset of the `>` that closes a declaration. -/
def declarationEnd? (bs : Bytes) : Option Nat := declarationEndFrom? none 0 bs

end Bytes

end XmlSieve
