import XmlSieve.Bytes

/-!
# Escaping

Five characters are written as references wherever text or the value of an attribute is output, so
that the result is safe in content and between quotes of either kind.  The search for them jumps:
`nextSpecial?` looks for a structural character first and for a quote only in front of it.
-/

namespace XmlSieve

namespace Escape

/-- The bytes that markup is structured by. -/
def isStructural (b : UInt8) : Bool :=
  b == Byte.openAngle || b == Byte.closeAngle || b == Byte.ampersand

def isQuote (b : UInt8) : Bool := b == Byte.quote || b == Byte.apostrophe

/-- The reference that is written for one of the five bytes. -/
def referenceTo (b : UInt8) : String :=
  if b == Byte.openAngle then "&lt;"
  else if b == Byte.closeAngle then "&gt;"
  else if b == Byte.ampersand then "&amp;"
  else if b == Byte.quote then "&quot;"
  else "&apos;"

/-- Offset of the next of the five bytes. -/
def nextSpecial? (bs : Bytes) : Option Nat :=
  match bs.findIdx? isStructural with
  | some n => some (((bs.take n).findIdx? isQuote).getD n)
  | none => bs.findIdx? isQuote

/-- Writes the text of which `bs` is the form at the end of `buffer`.  There is no answer if a cut
falls within a character. -/
def onto? (buffer : String) (bs : Bytes) : Option String :=
  match bs with
  | [] => some buffer
  | b :: bs =>
    match nextSpecial? (b :: bs) with
    | none => (Bytes.decode? (b :: bs)).map (buffer ++ ·)
    | some n =>
      have : ((b :: bs).drop (n + 1)).length < (b :: bs).length := by
        rw [List.length_drop, List.length_cons]
        omega
      do
        let plain ← Bytes.decode? ((b :: bs).take n)
        onto? (buffer ++ plain ++ referenceTo ((b :: bs).getD n 0)) ((b :: bs).drop (n + 1))
  termination_by bs.length

end Escape

/-- Writes `text` at the end of `buffer`, escaped. -/
def escapeOnto (buffer text : String) : String :=
  (Escape.onto? buffer (Bytes.encode text)).getD buffer

/-- `text` as it is written in content and in values. -/
def escape (text : String) : String :=
  if (Bytes.encode text).any fun b => Escape.isStructural b || Escape.isQuote b then
    escapeOnto "" text
  else text

end XmlSieve
