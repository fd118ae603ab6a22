/-!
# Bytes

Documents arrive as byte strings (`Bytes`).  This file names the bytes that markup is made of,
gives the classes that names and blanks are built from (`isNameStart`, `isNameByte`, `isBlankByte`),
and relates byte strings to text: `Bytes.encode` is the UTF-8 form of a string, `Bytes.decode?`
recovers the string and refuses bytes that are the form of none.
-/

namespace XmlSieve

/-- A byte string, in the order in which its bytes arrive. -/
abbrev Bytes := List UInt8

namespace Byte

abbrev tab : UInt8 := 0x09
abbrev lineFeed : UInt8 := 0x0A
abbrev carriageReturn : UInt8 := 0x0D
abbrev space : UInt8 := 0x20
abbrev bang : UInt8 := 0x21
abbrev quote : UInt8 := 0x22
abbrev hash : UInt8 := 0x23
abbrev ampersand : UInt8 := 0x26
abbrev apostrophe : UInt8 := 0x27
abbrev slash : UInt8 := 0x2F
abbrev semicolon : UInt8 := 0x3B
abbrev openAngle : UInt8 := 0x3C
abbrev equals : UInt8 := 0x3D
abbrev closeAngle : UInt8 := 0x3E
abbrev openBracket : UInt8 := 0x5B
abbrev closeBracket : UInt8 := 0x5D

end Byte

/-! ### Classes -/

/-- The blanks of markup: space, tab, line feed and carriage return. -/
def isBlankByte (b : UInt8) : Bool :=
  b == Byte.space || b == Byte.tab || b == Byte.lineFeed || b == Byte.carriageReturn

/-- Letters, underscore, colon, and every byte of a character beyond ASCII. -/
def isNameStart (b : UInt8) : Bool :=
  (0x41 ≤ b && b ≤ 0x5A) || (0x61 ≤ b && b ≤ 0x7A) || b == 0x5F || b == 0x3A || 0x80 ≤ b

/-- What may follow the first byte of a name: also digits, hyphen and full stop. -/
def isNameByte (b : UInt8) : Bool :=
  isNameStart b || (0x30 ≤ b && b ≤ 0x39) || b == 0x2D || b == 0x2E

namespace Bytes

/-! ### Text -/

/-- The bytes of an ASCII word. -/
def ascii (word : List Char) : Bytes := word.map Char.toUInt8

/-- The UTF-8 form of a string. -/
def encode (s : String) : Bytes := s.toList.flatMap String.utf8EncodeChar

/-- The string whose UTF-8 form this is, if there is one. -/
def decode? (bs : Bytes) : Option String := String.fromUTF8? bs.toByteArray

/-! ### Parts of a byte string -/

/-- How many lines end in `bs`. -/
def lineFeeds (bs : Bytes) : Nat := bs.count Byte.lineFeed

/-- `bs` without the blanks it begins with. -/
def skipBlanks (bs : Bytes) : Bytes := bs.dropWhile isBlankByte

/-- Splits off the name at the head of `bs`; there is none unless a name can start there. -/
def splitName? : Bytes → Option (Bytes × Bytes)
  | [] => none
  | b :: bs =>
    if isNameStart b then some (b :: bs.takeWhile isNameByte, bs.dropWhile isNameByte)
    else none

/-- Splits at the first `mark`, which belongs to neither part. -/
def splitAt? (mark : UInt8) (bs : Bytes) : Option (Bytes × Bytes) :=
  match bs.dropWhile (· != mark) with
  | [] => none
  | _ :: rest => some (bs.takeWhile (· != mark), rest)

theorem length_skipBlanks_le (bs : Bytes) : bs.skipBlanks.length ≤ bs.length :=
  (List.dropWhile_sublist _).length_le

theorem append_of_splitName? {bs name rest : Bytes} (h : bs.splitName? = some (name, rest)) :
    name ++ rest = bs := by
  cases bs with
  | nil => simp [splitName?] at h
  | cons b bs =>
    simp only [splitName?] at h
    split at h
    · simp only [Option.some.injEq, Prod.mk.injEq] at h
      obtain ⟨rfl, rfl⟩ := h
      simp
    · cases h

/-! ### Marks -/

theorem bne_of_not_mem {mark : UInt8} {bs : Bytes} (h : mark ∉ bs) :
    ∀ x ∈ bs, (x != mark) = true := by
  intro x hx
  rw [bne_iff_ne]
  rintro rfl
  exact h hx

theorem splitAt?_append {mark : UInt8} {front : Bytes} (h : mark ∉ front) (rest : Bytes) :
    splitAt? mark (front ++ mark :: rest) = some (front, rest) := by
  have hne := bne_of_not_mem h
  rw [splitAt?, List.dropWhile_append_of_pos hne, List.takeWhile_append_of_pos hne]
  simp

theorem splitAt?_of_not_mem {mark : UInt8} {bs : Bytes} (h : mark ∉ bs) :
    splitAt? mark bs = none := by
  have hdrop : (bs ++ []).dropWhile (· != mark) = [] :=
    List.dropWhile_append_of_pos (bne_of_not_mem h)
  rw [List.append_nil] at hdrop
  rw [splitAt?, hdrop]

/-- What is split is the front without the mark, the mark and the rest. -/
theorem splitAt?_eq_some_iff {mark : UInt8} {bs front rest : Bytes} :
    splitAt? mark bs = some (front, rest) ↔ mark ∉ front ∧ bs = front ++ mark :: rest := by
  constructor
  · intro h
    by_cases hmem : mark ∈ bs
    · obtain ⟨first, last, rfl, hfirst⟩ := List.eq_append_cons_of_mem hmem
      rw [splitAt?_append hfirst] at h
      cases h
      exact ⟨hfirst, rfl⟩
    · rw [splitAt?_of_not_mem hmem] at h
      cases h
  · rintro ⟨hfront, rfl⟩
    exact splitAt?_append hfront rest

theorem splitAt?_eq_none_iff {mark : UInt8} {bs : Bytes} :
    splitAt? mark bs = none ↔ mark ∉ bs := by
  refine ⟨fun h hmem => ?_, splitAt?_of_not_mem⟩
  obtain ⟨front, rest, rfl, hfront⟩ := List.eq_append_cons_of_mem hmem
  rw [splitAt?_append hfront] at h
  cases h

theorem length_of_splitAt? {mark : UInt8} {bs front rest : Bytes}
    (h : splitAt? mark bs = some (front, rest)) : rest.length < bs.length := by
  obtain ⟨-, rfl⟩ := splitAt?_eq_some_iff.1 h
  rw [List.length_append, List.length_cons]
  omega

end Bytes

end XmlSieve
