import Mathlib.Data.List.Forall2
import Mathlib.Data.Nat.Digits.Defs
import Mathlib.Tactic.IntervalCases
import XmlSieve.Proofs.Text.Encoding
import XmlSieve.Text.Reference

/-!
# The meaning of references

`Reference.Stands` says which character the name of a reference stands for, with the numbers of
characters taken as numbers of any size (`IsNumeral`).  A text is made of `Reference.Piece`s: bytes
other than `&`, and references.  `Reference.resolve`, which keeps numbers in 32 bits, answers exactly
with the character that the name stands for (`resolve_ok_iff`), and `Reference.expand`, which jumps
from one ampersand to the next, gives every piece its meaning (`expand_eq_ok_iff`).
-/

namespace XmlSieve

namespace Reference

/-! ### Numbers -/

/-- The digits of base 16 in order, of which those of base 10 are the first ten. -/
def lowerDigits : Bytes :=
  Bytes.ascii ['0', '1', '2', '3', '4', '5', '6', '7', '8', '9', 'a', 'b', 'c', 'd', 'e', 'f']

/-- The same digits with capital letters. -/
def upperDigits : Bytes :=
  Bytes.ascii ['0', '1', '2', '3', '4', '5', '6', '7', '8', '9', 'A', 'B', 'C', 'D', 'E', 'F']

/-- `b` is the digit of base `radix` that stands for `value`. -/
def IsDigit (radix : Nat) (b : UInt8) (value : Nat) : Prop :=
  value < radix ∧ (lowerDigits[value]? = some b ∨ upperDigits[value]? = some b)

instance (radix : Nat) (b : UInt8) (value : Nat) : Decidable (IsDigit radix b value) :=
  inferInstanceAs (Decidable (_ ∧ _))

/-- `digits` write `n` in base `radix`, with the units last. -/
def IsNumeral (radix : Nat) (digits : Bytes) (n : Nat) : Prop :=
  digits ≠ [] ∧
    ∃ values, List.Forall₂ (IsDigit radix) digits values ∧ n = Nat.ofDigits radix values.reverse

/-- `n` is the number of a character that a document may contain. -/
def IsXmlNumber (n : Nat) : Prop :=
  n = 0x9 ∨ n = 0xA ∨ n = 0xD ∨ (0x20 ≤ n ∧ n ≤ 0xD7FF) ∨ (0xE000 ≤ n ∧ n ≤ 0xFFFD) ∨
    (0x10000 ≤ n ∧ n ≤ 0x10FFFF)

theorem isXmlChar_iff {n : Nat} : isXmlChar n = true ↔ IsXmlNumber n := by
  simp [isXmlChar, IsXmlNumber, or_assoc]

theorem IsXmlNumber.lt {n : Nat} (h : IsXmlNumber n) : n < UInt32.size := by
  have hsize : UInt32.size = 0x100000000 := rfl
  unfold IsXmlNumber at h
  omega

theorem IsDigit.mem {radix value : Nat} {b : UInt8} (h : IsDigit radix b value) :
    b ∈ lowerDigits ++ upperDigits := by
  rw [List.mem_append]
  exact h.2.imp List.mem_of_getElem? List.mem_of_getElem?

theorem IsNumeral.mem {radix n : Nat} {digits : Bytes} (h : IsNumeral radix digits n) :
    ∀ b ∈ digits, b ∈ lowerDigits ++ upperDigits := by
  obtain ⟨-, values, hvalues, -⟩ := h
  induction hvalues with
  | nil => simp
  | cons hdigit _ ih => exact List.forall_mem_cons.2 ⟨hdigit.mem, ih⟩

/-- A byte between two others, by its distance from the lower one. -/
theorem exists_distance {b lo hi : UInt8} (h : (lo ≤ b && b ≤ hi) = true) :
    ∃ d ≤ hi.toNat - lo.toNat, b = UInt8.ofNat (lo.toNat + d) := by
  rw [Bool.and_eq_true, decide_eq_true_eq, decide_eq_true_eq, UInt8.le_iff_toNat_le,
    UInt8.le_iff_toNat_le] at h
  refine ⟨b.toNat - lo.toNat, by omega, ?_⟩
  rw [show lo.toNat + (b.toNat - lo.toNat) = b.toNat by omega, UInt8.ofNat_toNat]

theorem decimalDigit?_eq_some_iff {b : UInt8} {value : Nat} :
    decimalDigit? b = some value ↔ IsDigit 10 b value := by
  constructor
  · intro h
    unfold decimalDigit? at h
    split_ifs at h with hb
    obtain ⟨d, hd, rfl⟩ := exists_distance hb
    cases h
    change d ≤ 9 at hd
    interval_cases d <;> exact ⟨by decide, .inl rfl⟩
  · rintro ⟨hlt, h⟩
    interval_cases value <;> rcases h with h | h <;> cases h <;> rfl

theorem hexDigit?_eq_some_iff {b : UInt8} {value : Nat} :
    hexDigit? b = some value ↔ IsDigit 16 b value := by
  constructor
  · intro h
    unfold hexDigit? at h
    split_ifs at h with hdecimal hupper hlower
    · obtain ⟨d, hd, rfl⟩ := exists_distance hdecimal
      cases h
      change d ≤ 9 at hd
      interval_cases d <;> exact ⟨by decide, .inl rfl⟩
    · obtain ⟨d, hd, rfl⟩ := exists_distance hupper
      cases h
      change d ≤ 5 at hd
      interval_cases d <;> exact ⟨by decide, .inr rfl⟩
    · obtain ⟨d, hd, rfl⟩ := exists_distance hlower
      cases h
      change d ≤ 5 at hd
      interval_cases d <;> exact ⟨by decide, .inl rfl⟩
  · rintro ⟨hlt, h⟩
    interval_cases value <;> rcases h with h | h <;> cases h <;> rfl

section

variable {radix : Nat} {digit? : UInt8 → Option Nat}

theorem shifted?_eq_some_iff {value digit n : Nat} :
    shifted? radix value digit = some n ↔ n = radix * value + digit ∧ n < UInt32.size := by
  simp only [shifted?]
  split_ifs with h
  · rw [Option.some.injEq]
    omega
  · constructor
    · intro h
      cases h
    · omega

/-- Digits written after the number `start`.  That the result fits in 32 bits says that all numbers
on the way do, as none is greater. -/
theorem foldlM_shifted?_eq_some_iff (hradix : 0 < radix)
    (hdigit : ∀ b value, digit? b = some value ↔ IsDigit radix b value) {digits : Bytes}
    {start n : Nat} (hstart : start < UInt32.size) :
    digits.foldlM (fun value b => (digit? b).bind (shifted? radix value)) start = some n ↔
      (∃ values, List.Forall₂ (IsDigit radix) digits values ∧
        n = Nat.ofDigits radix values.reverse + radix ^ digits.length * start) ∧ n < UInt32.size := by
  induction digits generalizing start with
  | nil =>
    simp only [List.foldlM_nil, Option.pure_def, Option.some.injEq, List.forall₂_nil_left_iff,
      exists_eq_left, List.reverse_nil, Nat.ofDigits_nil, List.length_nil, pow_zero]
    omega
  | cons b digits ih =>
    have hvalue {value : Nat} {values : List Nat} (hlength : digits.length = values.length) :
        Nat.ofDigits radix (value :: values).reverse + radix ^ (b :: digits).length * start =
          Nat.ofDigits radix values.reverse + radix ^ digits.length * (radix * start + value) := by
      rw [List.reverse_cons, Nat.ofDigits_append, Nat.ofDigits_singleton, List.length_reverse,
        ← hlength, List.length_cons, pow_succ, Nat.mul_assoc, Nat.mul_add]
      omega
    simp only [List.foldlM_cons, Option.bind_eq_bind, Option.bind_eq_some_iff]
    constructor
    · rintro ⟨next, ⟨value, hb, hnext⟩, hrest⟩
      obtain ⟨rfl, hfits⟩ := shifted?_eq_some_iff.1 hnext
      obtain ⟨⟨values, hvalues, rfl⟩, hlt⟩ := (ih hfits).1 hrest
      exact ⟨⟨value :: values, .cons ((hdigit b value).1 hb) hvalues,
        (hvalue hvalues.length_eq).symm⟩, hlt⟩
    · rintro ⟨⟨values, hvalues, hn⟩, hlt⟩
      obtain ⟨value, values, hb, hrest, rfl⟩ := List.forall₂_cons_left_iff.1 hvalues
      rw [hvalue hrest.length_eq] at hn
      have hle : radix * start + value ≤ radix ^ digits.length * (radix * start + value) :=
        Nat.le_mul_of_pos_left _ (Nat.pow_pos hradix)
      have hfits : radix * start + value < UInt32.size := by omega
      exact ⟨_, ⟨value, (hdigit b value).2 hb, shifted?_eq_some_iff.2 ⟨rfl, hfits⟩⟩,
        (ih hfits).2 ⟨⟨values, hrest, hn⟩, hlt⟩⟩

/-- A numeral is read as the number that it writes if 32 bits hold that, and is not read else. -/
theorem numeral?_eq_some_iff (hradix : 0 < radix)
    (hdigit : ∀ b value, digit? b = some value ↔ IsDigit radix b value) {digits : Bytes} {n : Nat} :
    numeral? radix digit? digits = some n ↔ IsNumeral radix digits n ∧ n < UInt32.size := by
  unfold numeral?
  split_ifs with hempty
  · rw [List.isEmpty_iff] at hempty
    simp [IsNumeral, hempty]
  · rw [List.isEmpty_iff] at hempty
    rw [foldlM_shifted?_eq_some_iff hradix hdigit (by decide)]
    simp [IsNumeral, hempty]

end

/-! ### Names -/

/-- The name between `&` and `;` stands for a character. -/
inductive Stands : Bytes → Char → Prop
  | lt : Stands (Bytes.ascii ['l', 't']) '<'
  | gt : Stands (Bytes.ascii ['g', 't']) '>'
  | amp : Stands (Bytes.ascii ['a', 'm', 'p']) '&'
  | quot : Stands (Bytes.ascii ['q', 'u', 'o', 't']) '\x22'
  | apos : Stands (Bytes.ascii ['a', 'p', 'o', 's']) '\x27'
  | decimal {digits : Bytes} {n : Nat} (hvalue : IsNumeral 10 digits n) (hn : IsXmlNumber n) :
    Stands (Byte.hash :: digits) (Char.ofNat n)
  | hexadecimal {x : Char} {digits : Bytes} {n : Nat} (hx : x = 'x' ∨ x = 'X')
    (hvalue : IsNumeral 16 digits n) (hn : IsXmlNumber n) :
    Stands (Byte.hash :: x.toUInt8 :: digits) (Char.ofNat n)

/-- The name of a reference ends at the first semicolon. -/
theorem Stands.semicolon_not_mem {name : Bytes} {c : Char} (h : Stands name c) :
    Byte.semicolon ∉ name := by
  have hdigits {radix n : Nat} {digits : Bytes} (hn : IsNumeral radix digits n) :
      Byte.semicolon ∉ digits := fun hmem => absurd (hn.mem _ hmem) (by decide)
  cases h with
  | lt | gt | amp | quot | apos => decide
  | decimal hvalue _ => exact List.not_mem_cons_of_ne_of_not_mem (by decide) (hdigits hvalue)
  | hexadecimal hx hvalue _ =>
    apply List.not_mem_cons_of_ne_of_not_mem (by decide)
    apply List.not_mem_cons_of_ne_of_not_mem _ (hdigits hvalue)
    rcases hx with rfl | rfl <;> decide

theorem decimal_eq_some_iff {digits : Bytes} {n : Nat} :
    numeral? 10 decimalDigit? digits = some n ↔ IsNumeral 10 digits n ∧ n < UInt32.size :=
  numeral?_eq_some_iff (by decide) fun _ _ => decimalDigit?_eq_some_iff

theorem hexadecimal_eq_some_iff {digits : Bytes} {n : Nat} :
    numeral? 16 hexDigit? digits = some n ↔ IsNumeral 16 digits n ∧ n < UInt32.size :=
  numeral?_eq_some_iff (by decide) fun _ _ => hexDigit?_eq_some_iff

theorem number?_hexadecimal {x : Char} (hx : x = 'x' ∨ x = 'X') (digits : Bytes) :
    number? (x.toUInt8 :: digits) = numeral? 16 hexDigit? digits := by
  rcases hx with rfl | rfl <;> rfl

/-- No decimal numeral begins like a hexadecimal one. -/
theorem number?_decimal {digits : Bytes} {n : Nat} (h : IsNumeral 10 digits n) :
    number? digits = numeral? 10 decimalDigit? digits := by
  cases digits with
  | nil => exact absurd rfl h.1
  | cons b digits =>
    have hb := h.mem b (by simp)
    rw [number?, if_neg]
    intro hx
    rw [Bool.or_eq_true, beq_iff_eq, beq_iff_eq] at hx
    rcases hx with rfl | rfl <;> exact absurd hb (by decide)

/-- What follows a hash stands for the character with the number that it is. -/
theorem stands_hash_iff {digits : Bytes} {c : Char} :
    Stands (Byte.hash :: digits) c ↔
      ∃ n, number? digits = some n ∧ isXmlChar n = true ∧ c = Char.ofNat n := by
  constructor
  · intro h
    generalize hname : Byte.hash :: digits = name at h
    cases h with
    | lt | gt | amp | quot | apos => exact absurd (List.cons.inj hname).1 (by decide)
    | decimal hvalue hn =>
      cases hname
      exact ⟨_, (number?_decimal hvalue).trans (decimal_eq_some_iff.2 ⟨hvalue, hn.lt⟩),
        isXmlChar_iff.2 hn, rfl⟩
    | hexadecimal hx hvalue hn =>
      cases hname
      exact ⟨_, (number?_hexadecimal hx _).trans (hexadecimal_eq_some_iff.2 ⟨hvalue, hn.lt⟩),
        isXmlChar_iff.2 hn, rfl⟩
  · rintro ⟨n, hnumber, hxml, rfl⟩
    rw [isXmlChar_iff] at hxml
    cases digits with
    | nil => cases hnumber
    | cons x digits =>
      simp only [number?] at hnumber
      split_ifs at hnumber with hx
      · rw [Bool.or_eq_true, beq_iff_eq, beq_iff_eq] at hx
        have hvalue := (hexadecimal_eq_some_iff.1 hnumber).1
        rcases hx with rfl | rfl
        · exact .hexadecimal (.inl rfl) hvalue hxml
        · exact .hexadecimal (.inr rfl) hvalue hxml
      · exact .decimal (decimal_eq_some_iff.1 hnumber).1 hxml

theorem resolve_hash (digits : Bytes) :
    resolve (Byte.hash :: digits) =
      match number? digits with
      | some n => if isXmlChar n then .ok (Char.ofNat n) else .error .invalidCharacterNumber
      | none => .error .invalidCharacterNumber :=
  rfl

theorem resolve_hash_ok_iff {digits : Bytes} {c : Char} :
    resolve (Byte.hash :: digits) = .ok c ↔
      ∃ n, number? digits = some n ∧ isXmlChar n = true ∧ c = Char.ofNat n := by
  rw [resolve_hash]
  cases number? digits with
  | none => simp
  | some n =>
    simp only [Option.some.injEq, exists_eq_left']
    by_cases hxml : isXmlChar n = true
    · rw [if_pos hxml, Except.ok.injEq, eq_comm]
      exact (and_iff_right hxml).symm
    · rw [if_neg hxml]
      exact iff_of_false (by simp) fun h => hxml h.1

/-- A name is resolved to the character that it stands for, and to no other. -/
theorem resolve_ok_iff {name : Bytes} {c : Char} : resolve name = .ok c ↔ Stands name c := by
  constructor
  · intro h
    have hwhole := h
    unfold resolve at h
    split_ifs at h with hlt hgt hamp hquot hapos
    · cases h
      exact hlt ▸ .lt
    · cases h
      exact hgt ▸ .gt
    · cases h
      exact hamp ▸ .amp
    · cases h
      exact hquot ▸ .quot
    · cases h
      exact hapos ▸ .apos
    · cases name with
      | nil => cases h
      | cons b digits =>
        simp only at h
        split_ifs at h with hb
        rw [beq_iff_eq] at hb
        subst hb
        exact stands_hash_iff.2 (resolve_hash_ok_iff.1 hwhole)
  · intro h
    have hstands := h
    cases h with
    | lt | gt | amp | quot | apos => rfl
    | decimal | hexadecimal => exact resolve_hash_ok_iff.2 (stands_hash_iff.1 hstands)

/-! ### Texts -/

/-- A part of a text. -/
inductive Piece where
  /-- A byte that stands for itself. -/
  | plain (b : UInt8)
  /-- A reference by `name` to the character `c`. -/
  | reference (name : Bytes) (c : Char)

namespace Piece

/-- The bytes by which a piece is written. -/
def source : Piece → Bytes
  | plain b => [b]
  | reference name _ => Byte.ampersand :: name ++ [Byte.semicolon]

/-- The bytes that a piece stands for. -/
def meaning : Piece → Bytes
  | plain b => [b]
  | reference _ c => String.utf8EncodeChar c

def Valid : Piece → Prop
  | plain b => b ≠ Byte.ampersand
  | reference name c => Stands name c

end Piece

/-- `bs` is made of pieces that stand for `out`. -/
def Expands (bs out : Bytes) : Prop :=
  ∃ pieces : List Piece, (∀ piece ∈ pieces, piece.Valid) ∧
    bs = pieces.flatMap Piece.source ∧ out = pieces.flatMap Piece.meaning

theorem expands_nil : Expands [] [] := ⟨[], by simp, rfl, rfl⟩

theorem Expands.append {front back first last : Bytes} (hfront : Expands front first)
    (hback : Expands back last) : Expands (front ++ back) (first ++ last) := by
  obtain ⟨pieces, hvalid, rfl, rfl⟩ := hfront
  obtain ⟨more, hmore, rfl, rfl⟩ := hback
  exact ⟨pieces ++ more, List.forall_mem_append.2 ⟨hvalid, hmore⟩, by simp, by simp⟩

theorem expands_plain {bs : Bytes} (h : Byte.ampersand ∉ bs) : Expands bs bs := by
  induction bs with
  | nil => exact expands_nil
  | cons b bs ih =>
    rw [List.mem_cons, not_or] at h
    have hb : Expands [b] [b] := ⟨[.plain b], by simpa [Piece.Valid] using Ne.symm h.1, rfl, rfl⟩
    exact hb.append (ih h.2)

theorem expands_reference {name : Bytes} {c : Char} (h : Stands name c) :
    Expands (Byte.ampersand :: name ++ [Byte.semicolon]) (String.utf8EncodeChar c) :=
  ⟨[.reference name c], by simpa [Piece.Valid] using h, by simp [Piece.source],
    by simp [Piece.meaning]⟩

/-! ### Expanding -/

theorem expand_of_not_mem {bs : Bytes} (h : Byte.ampersand ∉ bs) : expand bs = .ok bs := by
  rw [expand]
  split
  · rfl
  · next hmark =>
    rw [Bytes.splitAt?_of_not_mem h] at hmark
    cases hmark

/-- What is before the first reference is taken over, and the reference is replaced. -/
theorem expand_first {plain name : Bytes} (hplain : Byte.ampersand ∉ plain)
    (hname : Byte.semicolon ∉ name) (rest : Bytes) :
    expand (plain ++ Byte.ampersand :: (name ++ Byte.semicolon :: rest)) = (do
      let c ← resolve name
      let tail ← expand rest
      return plain ++ (String.utf8EncodeChar c ++ tail)) := by
  rw [expand]
  split
  · next hmark =>
    rw [Bytes.splitAt?_append hplain] at hmark
    cases hmark
  · next plain' opened hmark =>
    rw [Bytes.splitAt?_append hplain] at hmark
    cases hmark
    split
    · next hclose =>
      rw [Bytes.splitAt?_append hname] at hclose
      cases hclose
    · next name' rest' hclose =>
      rw [Bytes.splitAt?_append hname] at hclose
      cases hclose
      rfl

/-- What is expanded is made of pieces. -/
theorem expands_of_expand {bs out : Bytes} (h : expand bs = .ok out) : Expands bs out := by
  fun_induction expand bs generalizing out with
  | case1 bs hmark =>
    cases h
    exact expands_plain (Bytes.splitAt?_eq_none_iff.1 hmark)
  | case2 bs plain opened hmark hclose => cases h
  | case3 bs plain opened hmark name rest hclose hlt ih =>
    obtain ⟨hplain, rfl⟩ := Bytes.splitAt?_eq_some_iff.1 hmark
    obtain ⟨-, rfl⟩ := Bytes.splitAt?_eq_some_iff.1 hclose
    cases hc : resolve name with
    | error cause =>
      rw [hc] at h
      cases h
    | ok c =>
      cases htail : expand rest with
      | error cause =>
        rw [hc, htail] at h
        cases h
      | ok tail =>
        rw [hc, htail] at h
        cases h
        have hfirst := expands_reference (resolve_ok_iff.1 hc)
        simpa using (expands_plain hplain).append (hfirst.append (ih htail))

/-- Pieces are expanded to what they stand for, after any bytes `plain` that no reference is in. -/
theorem expand_pieces {pieces : List Piece} (hvalid : ∀ piece ∈ pieces, piece.Valid) {plain : Bytes}
    (hplain : Byte.ampersand ∉ plain) :
    expand (plain ++ pieces.flatMap Piece.source) =
      .ok (plain ++ pieces.flatMap Piece.meaning) := by
  induction pieces generalizing plain with
  | nil => simpa using expand_of_not_mem hplain
  | cons piece pieces ih =>
    rw [List.forall_mem_cons] at hvalid
    rw [List.flatMap_cons, List.flatMap_cons]
    cases piece with
    | plain b =>
      rw [← List.append_assoc, ← List.append_assoc]
      refine ih hvalid.2 (List.not_mem_append hplain ?_)
      exact fun hb => hvalid.1 (List.mem_singleton.1 hb).symm
    | reference name c =>
      have hname : Byte.semicolon ∉ name := hvalid.1.semicolon_not_mem
      have hrest : expand (pieces.flatMap Piece.source) = .ok (pieces.flatMap Piece.meaning) :=
        ih hvalid.2 List.not_mem_nil
      have hfirst := expand_first hplain hname (pieces.flatMap Piece.source)
      rw [resolve_ok_iff.2 hvalid.1, hrest] at hfirst
      rw [Piece.source, List.append_assoc]
      exact hfirst

/-- A text of pieces stands for what they stand for. -/
theorem expand_of_expands {bs out : Bytes} (h : Expands bs out) : expand bs = .ok out := by
  obtain ⟨pieces, hvalid, rfl, rfl⟩ := h
  exact expand_pieces hvalid List.not_mem_nil

/-- A piece is read on its own, whatever follows it. -/
theorem expand_piece {piece : Piece} (hvalid : piece.Valid) {bs out : Bytes}
    (h : expand (piece.source ++ bs) = .ok out) :
    ∃ rest, expand bs = .ok rest ∧ out = piece.meaning ++ rest := by
  cases piece with
  | plain b =>
    obtain ⟨pieces, hpieces, hbs, rfl⟩ := expands_of_expand h
    cases pieces with
    | nil => cases hbs
    | cons first pieces =>
      rw [List.forall_mem_cons] at hpieces
      cases first with
      | plain b' =>
        cases hbs
        exact ⟨_, expand_of_expands ⟨pieces, hpieces.2, rfl, rfl⟩, rfl⟩
      | reference name c =>
        cases hbs
        exact absurd rfl hvalid
  | reference name c =>
    have hfirst := expand_first List.not_mem_nil hvalid.semicolon_not_mem bs
    rw [Piece.source, List.append_assoc] at h
    rw [resolve_ok_iff.2 hvalid] at hfirst
    cases hrest : expand bs with
    | error cause =>
      rw [hrest] at hfirst
      cases hfirst.symm.trans h
    | ok rest =>
      rw [hrest] at hfirst
      cases hfirst.symm.trans h
      exact ⟨rest, rfl, rfl⟩

/-- What is expanded after a part that is expanded on its own is the expansion of the rest. -/
theorem expand_split {front back out first : Bytes} (hall : expand (front ++ back) = .ok out)
    (hfront : expand front = .ok first) : ∃ rest, expand back = .ok rest ∧ out = first ++ rest := by
  obtain ⟨pieces, hvalid, rfl, rfl⟩ := expands_of_expand hfront
  clear hfront
  induction pieces generalizing out with
  | nil => exact ⟨out, hall, rfl⟩
  | cons piece pieces ih =>
    rw [List.forall_mem_cons] at hvalid
    rw [List.flatMap_cons, List.append_assoc] at hall
    obtain ⟨tail, htail, rfl⟩ := expand_piece hvalid.1 hall
    obtain ⟨rest, hrest, rfl⟩ := ih hvalid.2 htail
    exact ⟨rest, hrest, (List.append_assoc _ _ _).symm⟩

theorem Piece.meaning_ne_nil (piece : Piece) : piece.meaning ≠ [] := by
  cases piece with
  | plain b => exact List.cons_ne_nil b []
  | reference name c =>
    rw [← List.length_pos_iff, meaning, String.length_utf8EncodeChar]
    exact c.utf8Size_pos

theorem ne_nil_of_expand {bs out : Bytes} (hne : bs ≠ []) (h : expand bs = .ok out) :
    out ≠ [] := by
  obtain ⟨pieces, -, rfl, rfl⟩ := expands_of_expand h
  cases pieces with
  | nil => exact absurd rfl hne
  | cons piece pieces =>
    rw [List.flatMap_cons]
    exact List.append_ne_nil_of_left_ne_nil piece.meaning_ne_nil _

/-- The decoded text is exactly what the pieces of the input stand for, in order; an input that is
not made of pieces is refused. -/
theorem expand_eq_ok_iff (bs out : Bytes) :
    expand bs = .ok out ↔
      ∃ pieces : List Piece, (∀ piece ∈ pieces, piece.Valid) ∧
        bs = pieces.flatMap Piece.source ∧ out = pieces.flatMap Piece.meaning :=
  ⟨expands_of_expand, expand_of_expands⟩

/-- Leading zeros do not count, and neither does that the number before them would not fit. -/
example : expand (Bytes.ascii ['&', '#', '0', '0', '0', '0', '0', '0', '0', '0', '0', '6', '5', ';']) =
    .ok (Bytes.ascii ['A']) := by
  decide +kernel

end Reference

end XmlSieve
