import Mathlib.Tactic.Common
import XmlSieve.Bytes

/-!
# Text and its bytes

`Bytes.encode` and `Bytes.decode?` are inverse to one another (`decode?_eq_some_iff`).  A character
of ASCII is one byte, which is its number (`utf8EncodeChar_ascii`), and the bytes of any other
character lie beyond ASCII (`le_of_mem_utf8EncodeChar`), so that a byte of markup is never a part of
some other character.  `isName` says of a string that it can name an element or an attribute.
-/

namespace XmlSieve

namespace Bytes

/-! ### Encoding and decoding -/

theorem toByteArray_encode (s : String) : (encode s).toByteArray = s.toByteArray :=
  String.utf8Encode_toList

/-- Bytes are decoded to the string that they are the form of, and to no other. -/
theorem decode?_eq_some_iff {bs : Bytes} {s : String} : bs.decode? = some s ↔ bs = encode s := by
  rw [decode?, ← List.toByteArray_inj, toByteArray_encode]
  unfold String.fromUTF8?
  split
  · next h =>
    rw [Option.some.injEq, ← String.toByteArray_inj]
    rfl
  · next h =>
    constructor
    · intro hs
      cases hs
    · intro hs
      exact absurd (hs ▸ s.isValidUTF8) h

theorem decode?_encode (s : String) : (encode s).decode? = some s := decode?_eq_some_iff.2 rfl

theorem encode_injective {s t : String} (h : encode s = encode t) : s = t := by
  have hs := decode?_encode s
  rw [h, decode?_encode] at hs
  exact (Option.some.inj hs).symm

@[simp] theorem encode_empty : encode "" = [] := rfl

@[simp] theorem encode_append (s t : String) : encode (s ++ t) = encode s ++ encode t := by
  simp [encode]

theorem encode_join (fragments : List String) :
    encode (String.join fragments) = fragments.flatMap encode := by
  induction fragments with
  | nil => rfl
  | cons fragment fragments ih =>
    rw [String.join_cons, encode_append, ih, List.flatMap_cons]

theorem length_encode (s : String) : (encode s).length = s.utf8ByteSize := by
  rw [← List.size_toByteArray, toByteArray_encode, String.size_toByteArray]

theorem encode_ofList (cs : List Char) :
    encode (String.ofList cs) = cs.flatMap String.utf8EncodeChar := by
  simp [encode]

/-- What follows the form of a string in the form of another one is the form of a string. -/
theorem encode_split {first whole : String} {bs : Bytes}
    (h : encode first ++ bs = encode whole) : ∃ last, bs = encode last ∧ whole = first ++ last := by
  have hbytes : first.toList.utf8Encode ++ bs.toByteArray = whole.toList.utf8Encode := by
    rw [String.utf8Encode_toList, String.utf8Encode_toList, ← toByteArray_encode,
      ← toByteArray_encode, ← h, List.toByteArray_append]
  obtain ⟨last, hlast⟩ := List.isPrefix_of_utf8Encode_append_eq_utf8Encode _ hbytes
  have hwhole : whole = first ++ String.ofList last := by
    rw [← String.ofList_toList (s := whole), ← hlast]
    simp
  refine ⟨String.ofList last, ?_, hwhole⟩
  rw [hwhole, encode_append] at h
  exact List.append_cancel_left h

/-! ### Characters within and beyond ASCII -/

theorem utf8EncodeChar_ascii {c : Char} (h : c.toNat < 0x80) :
    String.utf8EncodeChar c = [c.toUInt8] := by
  have hsize : c.utf8Size = 1 := by
    rw [Char.utf8Size_eq_one_iff, UInt32.le_iff_toNat_le]
    exact Nat.le_of_lt_succ h
  rw [String.utf8EncodeChar_eq_singleton hsize]
  rfl

/-- The bytes of a word of ASCII characters are their numbers. -/
theorem flatMap_utf8EncodeChar_ascii {cs : List Char} (h : ∀ c ∈ cs, c.toNat < 0x80) :
    cs.flatMap String.utf8EncodeChar = ascii cs := by
  induction cs with
  | nil => rfl
  | cons c cs ih =>
    rw [List.flatMap_cons, utf8EncodeChar_ascii (h c (by simp)), ih fun d hd => h d (by simp [hd])]
    rfl

theorem le_or_of_le {x y : UInt8} (h : 0x80 ≤ y) : 0x80 ≤ x ||| y := by
  rw [UInt8.le_iff_toNat_le] at h ⊢
  rw [UInt8.toNat_or]
  exact Nat.le_trans h Nat.right_le_or

/-- No byte of a character beyond ASCII is a byte of ASCII. -/
theorem le_of_mem_utf8EncodeChar {c : Char} {b : UInt8} (hc : 0x80 ≤ c.toNat)
    (hb : b ∈ String.utf8EncodeChar c) : 0x80 ≤ b := by
  rcases c.utf8Size_eq with h | h | h | h
  · have hle := Char.utf8Size_eq_one_iff.1 h
    rw [UInt32.le_iff_toNat_le] at hle
    exact absurd (Nat.lt_of_le_of_lt hle (by decide)) (Nat.not_lt.2 hc)
  · rw [String.utf8EncodeChar_eq_cons_cons h] at hb
    simp only [List.mem_cons, List.not_mem_nil, or_false] at hb
    rcases hb with rfl | rfl <;> exact le_or_of_le (by decide)
  · rw [String.utf8EncodeChar_eq_cons_cons_cons h] at hb
    simp only [List.mem_cons, List.not_mem_nil, or_false] at hb
    rcases hb with rfl | rfl | rfl <;> exact le_or_of_le (by decide)
  · rw [String.utf8EncodeChar_eq_cons_cons_cons_cons h] at hb
    simp only [List.mem_cons, List.not_mem_nil, or_false] at hb
    rcases hb with rfl | rfl | rfl | rfl <;> exact le_or_of_le (by decide)

/-- A byte of ASCII in the form of a character is that character. -/
theorem eq_of_mem_utf8EncodeChar {c : Char} {b : UInt8} (hb : b ∈ String.utf8EncodeChar c)
    (hlt : b < 0x80) : c.toNat < 0x80 ∧ b = c.toUInt8 := by
  by_cases hc : c.toNat < 0x80
  · rw [utf8EncodeChar_ascii hc, List.mem_singleton] at hb
    exact ⟨hc, hb⟩
  · have := le_of_mem_utf8EncodeChar (Nat.not_lt.1 hc) hb
    exact absurd hlt (UInt8.not_lt.2 this)

end Bytes

/-- A byte of ASCII among those of a character is not the one of another character. -/
theorem toUInt8_not_mem_utf8EncodeChar {c d : Char} (hd : d.toNat < 0x80) (hne : c ≠ d) :
    d.toUInt8 ∉ String.utf8EncodeChar c := by
  intro hmem
  have hlt : d.toUInt8 < 0x80 := by
    rw [UInt8.lt_iff_toNat_lt]
    show d.toNat % 256 < 128
    omega
  obtain ⟨hc, he⟩ := Bytes.eq_of_mem_utf8EncodeChar hmem hlt
  have hnat : d.toNat % 256 = c.toNat % 256 := congrArg UInt8.toNat he
  apply hne
  rw [← Char.ofNat_toNat c, ← Char.ofNat_toNat d, show c.toNat = d.toNat by omega]

/-! ### Names -/

/-- Whether `name` can name an element or an attribute: it is what can be read as a name. -/
def isName (name : String) : Bool :=
  match Bytes.encode name with
  | [] => false
  | b :: bs => isNameStart b && bs.all isNameByte

theorem isName_iff {name : String} :
    isName name = true ↔
      ∃ b bs, Bytes.encode name = b :: bs ∧ isNameStart b = true ∧ ∀ x ∈ bs, isNameByte x = true := by
  unfold isName
  cases Bytes.encode name <;> simp

theorem isNameByte_of_isNameStart {b : UInt8} (h : isNameStart b = true) : isNameByte b = true := by
  simp [isNameByte, h]

/-- Every byte of a name is one that names are made of. -/
theorem isNameByte_of_mem {name : String} (h : isName name = true) {b : UInt8}
    (hb : b ∈ Bytes.encode name) : isNameByte b = true := by
  obtain ⟨first, bs, he, hstart, hrest⟩ := isName_iff.1 h
  rw [he, List.mem_cons] at hb
  rcases hb with rfl | hb
  · exact isNameByte_of_isNameStart hstart
  · exact hrest b hb

namespace Bytes

/-- What is split off as a name is the form of a name, and all of the name that there is. -/
theorem splitName?_encode {name : String} (h : isName name = true) (rest : Bytes)
    (hrest : ∀ b ∈ rest.head?, isNameByte b = false) :
    splitName? (encode name ++ rest) = some (encode name, rest) := by
  obtain ⟨b, bs, he, hstart, hbytes⟩ := isName_iff.1 h
  have htake : rest.takeWhile isNameByte = [] := by
    cases rest with
    | nil => rfl
    | cons x rest => simp [hrest x (by simp)]
  have hdrop : rest.dropWhile isNameByte = rest := by
    cases rest with
    | nil => rfl
    | cons x rest => simp [hrest x (by simp)]
  rw [he, List.cons_append, splitName?, if_pos hstart, List.takeWhile_append_of_pos hbytes,
    List.dropWhile_append_of_pos hbytes, htake, hdrop, List.append_nil]

theorem isName_of_splitName? {bs raw rest : Bytes} {name : String}
    (h : bs.splitName? = some (raw, rest)) (hname : raw.decode? = some name) :
    isName name = true := by
  rw [decode?_eq_some_iff] at hname
  cases bs with
  | nil => cases h
  | cons b bs =>
    simp only [splitName?] at h
    split_ifs at h with hstart
    cases h
    exact isName_iff.2 ⟨b, _, hname.symm, hstart, List.all_eq_true.1 List.all_takeWhile⟩

end Bytes

end XmlSieve
