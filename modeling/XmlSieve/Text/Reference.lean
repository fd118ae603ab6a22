import XmlSieve.Bytes
import XmlSieve.Fault

/-!
# References

Text may name a character instead of writing it: `&lt;`, `&#60;` and `&#x3C;` all stand for `<`.
`Reference.resolve` is the meaning of one name and `Reference.expand` replaces every reference in a
byte string, left to right; what it writes is not read again.
-/

namespace XmlSieve

namespace Reference

/-- Whether `n` is the number of a character that a document may contain. -/
def isXmlChar (n : Nat) : Bool :=
  n == 0x9 || n == 0xA || n == 0xD || (0x20 ≤ n && n ≤ 0xD7FF) || (0xE000 ≤ n && n ≤ 0xFFFD) ||
    (0x10000 ≤ n && n ≤ 0x10FFFF)

/-- The value of a decimal digit. -/
def decimalDigit? (b : UInt8) : Option Nat :=
  if 0x30 ≤ b && b ≤ 0x39 then some (b.toNat - 0x30) else none

/-- The value of a hexadecimal digit, in either case. -/
def hexDigit? (b : UInt8) : Option Nat :=
  if 0x30 ≤ b && b ≤ 0x39 then some (b.toNat - 0x30)
  else if 0x41 ≤ b && b ≤ 0x46 then some (b.toNat - 0x41 + 10)
  else if 0x61 ≤ b && b ≤ 0x66 then some (b.toNat - 0x61 + 10)
  else none

/-- The number that `value` becomes when a digit is written after it, if 32 bits hold it. -/
def shifted? (radix value digit : Nat) : Option Nat :=
  let next := radix * value + digit
  if next < UInt32.size then some next else none

/-- The number that `digits` write in base `radix`.  There is none for no digits, and none where the
digits read so far are more than 32 bits hold. -/
def numeral? (radix : Nat) (digit? : UInt8 → Option Nat) (digits : Bytes) : Option Nat :=
  if digits.isEmpty then none
  else digits.foldlM (fun value b => (digit? b).bind (shifted? radix value)) 0

/-- The number that stands after the `#` of a reference: hexadecimal after an `x`, else decimal. -/
def number? : Bytes → Option Nat
  | [] => none
  | b :: digits =>
    if b == 'x'.toUInt8 || b == 'X'.toUInt8 then numeral? 16 hexDigit? digits
    else numeral? 10 decimalDigit? (b :: digits)

/-- The character that stands for the name between `&` and `;`. -/
def resolve (name : Bytes) : Except Malformation Char :=
  if name = Bytes.ascii ['l', 't'] then .ok '<'
  else if name = Bytes.ascii ['g', 't'] then .ok '>'
  else if name = Bytes.ascii ['a', 'm', 'p'] then .ok '&'
  else if name = Bytes.ascii ['q', 'u', 'o', 't'] then .ok '\x22'
  else if name = Bytes.ascii ['a', 'p', 'o', 's'] then .ok '\x27'
  else
    match name with
    | [] => .error .invalidToken
    | b :: digits =>
      if b == Byte.hash then
        match number? digits with
        | some n => if isXmlChar n then .ok (Char.ofNat n) else .error .invalidCharacterNumber
        | none => .error .invalidCharacterNumber
      else .error .undefinedEntity

/-- Replaces every reference by the character it stands for: what comes before the first ampersand is
taken over, what stands between it and the next semicolon is resolved, and the rest is read on. -/
def expand (bs : Bytes) : Except Malformation Bytes :=
  match hmark : bs.splitAt? Byte.ampersand with
  | none => .ok bs
  | some (plain, opened) =>
    match hclose : opened.splitAt? Byte.semicolon with
    | none => .error .invalidToken
    | some (name, rest) =>
      have : rest.length < bs.length :=
        Nat.lt_trans (Bytes.length_of_splitAt? hclose) (Bytes.length_of_splitAt? hmark)
      do
        let c ← resolve name
        let tail ← expand rest
        return plain ++ (String.utf8EncodeChar c ++ tail)
  termination_by bs.length

end Reference

end XmlSieve
