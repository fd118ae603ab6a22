import XmlSieve.Bytes
import XmlSieve.Fault
import XmlSieve.Text.Reference
import XmlSieve.Token

/-!
# Attribute lists

`Attributes.parse` reads what stands in a start tag after the name of the element: attributes, each
after at least one blank, each a name, an equals sign and a quoted value.  In a value a literal tab,
line feed or carriage return counts as a space, while the same character written as a reference
stays what it is.
-/

namespace XmlSieve

/-- One attribute as it is written: the bytes of its name and those between its quotes. -/
structure RawAttribute where
  name : Bytes
  value : Bytes

namespace RawAttribute

/-- Reads a quoted value, which may not contain `<`, and leaves what follows its closing quote. -/
def splitValue? : Bytes → Option (Bytes × Bytes)
  | [] => none
  | b :: bs =>
    if b == Byte.quote || b == Byte.apostrophe then
      (Bytes.splitAt? b bs).filter fun (value, _) => !value.contains Byte.openAngle
    else none

/-- Reads an equals sign with blanks around it and the value after it. -/
def splitAssigned? (bs : Bytes) : Option (Bytes × Bytes) :=
  match bs.skipBlanks with
  | [] => none
  | b :: rest => if b == Byte.equals then splitValue? (Bytes.skipBlanks rest) else none

/-- Reads one attribute and leaves what follows it. -/
def split? (bs : Bytes) : Option (RawAttribute × Bytes) := do
  let (name, afterName) ← bs.splitName?
  let (value, rest) ← splitAssigned? afterName
  return (⟨name, value⟩, rest)

/-- Literal tabs and line ends count as spaces. -/
def spaceOut (b : UInt8) : UInt8 :=
  if b == Byte.tab || b == Byte.lineFeed || b == Byte.carriageReturn then Byte.space else b

/-- The value the bytes between the quotes stand for. -/
def decodeValue (raw : Bytes) : Except Malformation String := do
  let expanded ← Reference.expand (raw.map spaceOut)
  match expanded.decode? with
  | some value => return value
  | none => throw .invalidToken

/-- Adds an attribute to those before it in the tag; a name may not occur twice. -/
def addTo (seen : Attributes) (raw : RawAttribute) : Except Malformation Attributes :=
  match raw.name.decode? with
  | none => throw .invalidToken
  | some name =>
    if (seen.get? name).isSome then throw .duplicateAttribute
    else do
      let value ← decodeValue raw.value
      return seen ++ [(name, value)]

/-! ### What is left gets shorter -/

theorem length_of_splitValue? {bs value rest : Bytes}
    (h : splitValue? bs = some (value, rest)) : rest.length < bs.length := by
  cases bs with
  | nil => simp [splitValue?] at h
  | cons b bs =>
    simp only [splitValue?] at h
    split at h
    · have := Bytes.length_of_splitAt? (Option.filter_eq_some_iff.1 h).1
      simp only [List.length_cons]
      omega
    · cases h

theorem length_of_splitAssigned? {bs value rest : Bytes}
    (h : splitAssigned? bs = some (value, rest)) : rest.length < bs.length := by
  unfold splitAssigned? at h
  split at h
  · cases h
  · next b after heq =>
    split at h
    · have h₁ := length_of_splitValue? h
      have h₂ := Bytes.length_skipBlanks_le after
      have h₃ := Bytes.length_skipBlanks_le bs
      rw [heq, List.length_cons] at h₃
      omega
    · cases h

theorem length_of_split? {bs rest : Bytes} {raw : RawAttribute}
    (h : split? bs = some (raw, rest)) : rest.length < bs.length := by
  simp only [split?, Option.bind_eq_bind, Option.bind_eq_some_iff] at h
  obtain ⟨⟨name, afterName⟩, hname, ⟨value, after⟩, hvalue, h⟩ := h
  simp only [Option.pure_def, Option.some.injEq, Prod.mk.injEq] at h
  obtain ⟨-, rfl⟩ := h
  have h₁ := congrArg List.length (Bytes.append_of_splitName? hname)
  have h₂ := length_of_splitAssigned? hvalue
  simp only [List.length_append] at h₁ h₂
  omega

end RawAttribute

namespace Attributes

/-- Reads the attributes that follow those `seen` so far. -/
def parseAfter (seen : Attributes) (bs : Bytes) : Except Malformation Attributes :=
  if bs.skipBlanks.isEmpty then .ok seen
  else if !bs.head?.any isBlankByte then .error .invalidToken
  else
    match h : RawAttribute.split? bs.skipBlanks with
    | none => .error .invalidToken
    | some (raw, rest) =>
      have : rest.length < bs.length :=
        Nat.lt_of_lt_of_le (RawAttribute.length_of_split? h) bs.length_skipBlanks_le
      do
        let seen ← raw.addTo seen
        parseAfter seen rest
  termination_by bs.length

/-- Reads an attribute list: what stands in a start tag after the name of the element. -/
def parse (bs : Bytes) : Except Malformation Attributes := parseAfter [] bs

end Attributes

end XmlSieve
