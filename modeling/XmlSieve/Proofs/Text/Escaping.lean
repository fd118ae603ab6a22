import XmlSieve.Proofs.Text.References
import XmlSieve.Proofs.Text.Substitution
import XmlSieve.Token.Attributes

/-!
# Escaped text

What `escape` writes is read back by `Reference.expand` as the text that was escaped
(`expand_escape`), and it contains no byte that ends a text or a value (`ne_of_mem_escape`).
`spacedOut` is what a value becomes when it is written as it stands between quotes: tabs and line
ends count as spaces there.
-/

namespace XmlSieve

/-! ### One character -/

/-- A character is escaped by a name that stands for it, or it is written as it is. -/
theorem escapeChar_cases (c : Char) :
    (∃ name, escapeChar c = '&' :: name ++ [';'] ∧ (∀ x ∈ name, x.isAlpha = true) ∧
      Reference.Stands (Bytes.ascii name) c) ∨
    (escapeChar c = [c] ∧ c ∉ ['<', '>', '&', '\x22', '\x27']) := by
  unfold escapeChar
  split_ifs with hlt hgt hamp hquot hapos
  · exact .inl ⟨['l', 't'], rfl, List.all_eq_true.1 rfl, hlt ▸ .lt⟩
  · exact .inl ⟨['g', 't'], rfl, List.all_eq_true.1 rfl, hgt ▸ .gt⟩
  · exact .inl ⟨['a', 'm', 'p'], rfl, List.all_eq_true.1 rfl, hamp ▸ .amp⟩
  · exact .inl ⟨['q', 'u', 'o', 't'], rfl, List.all_eq_true.1 rfl, hquot ▸ .quot⟩
  · exact .inl ⟨['a', 'p', 'o', 's'], rfl, List.all_eq_true.1 rfl, hapos ▸ .apos⟩
  · exact .inr ⟨rfl, by simp [hlt, hgt, hamp, hquot, hapos]⟩

theorem lt_of_isAlpha {c : Char} (h : c.isAlpha = true) : c.toNat < 0x80 := by
  change (decide ('A'.val ≤ c.val ∧ c.val ≤ 'Z'.val) ||
    (decide ('a'.val ≤ c.val) && decide (c.val ≤ 'z'.val))) = true at h
  simp only [Bool.or_eq_true, Bool.and_eq_true, decide_eq_true_eq, UInt32.le_iff_toNat_le] at h
  rcases h with ⟨-, h⟩ | ⟨-, h⟩
  · exact Nat.lt_of_le_of_lt h (by decide)
  · exact Nat.lt_of_le_of_lt h (by decide)

/-- The bytes by which `c` is written. -/
def escapedBytes (c : Char) : Bytes := (escapeChar c).flatMap String.utf8EncodeChar

theorem encode_escape (text : String) :
    Bytes.encode (escape text) = text.toList.flatMap escapedBytes := by
  rw [escape_eq, Bytes.encode_ofList, List.flatMap_assoc]
  rfl

theorem escapedBytes_cases (c : Char) :
    (∃ name, escapedBytes c = Byte.ampersand :: Bytes.ascii name ++ [Byte.semicolon] ∧
      (∀ x ∈ name, x.isAlpha = true) ∧ Reference.Stands (Bytes.ascii name) c) ∨
    (escapedBytes c = String.utf8EncodeChar c ∧ c ∉ ['<', '>', '&', '\x22', '\x27']) := by
  rcases escapeChar_cases c with ⟨name, he, halpha, hc⟩ | ⟨he, hc⟩
  · refine .inl ⟨name, ?_, halpha, hc⟩
    rw [escapedBytes, he, List.cons_append, List.flatMap_cons, List.flatMap_append,
      Bytes.flatMap_utf8EncodeChar_ascii fun x hx => lt_of_isAlpha (halpha x hx)]
    rfl
  · exact .inr ⟨by simp [escapedBytes, he], hc⟩

theorem toUInt8_not_mem_ascii {name : List Char} {d : Char} (hd : d.toNat < 0x80)
    (hname : ∀ x ∈ name, x.isAlpha = true) (halpha : d.isAlpha = false) :
    d.toUInt8 ∉ Bytes.ascii name := by
  rw [← Bytes.flatMap_utf8EncodeChar_ascii fun x hx => lt_of_isAlpha (hname x hx),
    List.mem_flatMap]
  rintro ⟨x, hx, hmem⟩
  refine toUInt8_not_mem_utf8EncodeChar hd ?_ hmem
  rintro rfl
  rw [hname x hx] at halpha
  cases halpha

/-! ### Reading back -/

namespace Reference

/-- What is written for a character stands for it. -/
theorem expands_escapedBytes (c : Char) : Expands (escapedBytes c) (String.utf8EncodeChar c) := by
  rcases escapedBytes_cases c with ⟨name, he, -, hc⟩ | ⟨he, hc⟩
  · rw [he]
    exact expands_reference hc
  · rw [he]
    have hne : c ≠ '&' := by
      rintro rfl
      simp at hc
    exact expands_plain (toUInt8_not_mem_utf8EncodeChar (d := '&') (by decide) hne)

/-- Escaped text stands for the text. -/
theorem expand_escape (text : String) :
    expand (Bytes.encode (escape text)) = .ok (Bytes.encode text) := by
  apply expand_of_expands
  rw [encode_escape, Bytes.encode]
  induction text.toList with
  | nil => exact expands_nil
  | cons c cs ih => exact (expands_escapedBytes c).append ih

end Reference

/-! ### What escaped text does not contain -/

/-- Escaped text contains no angle bracket and no quote. -/
theorem toUInt8_not_mem_escape {d : Char} (hd : d ∈ ['<', '>', '\x22', '\x27']) (text : String) :
    d.toUInt8 ∉ Bytes.encode (escape text) := by
  obtain ⟨hascii, halpha, hne⟩ : d.toNat < 0x80 ∧ d.isAlpha = false ∧
      d.toUInt8 ≠ Byte.ampersand ∧ d.toUInt8 ≠ Byte.semicolon := by
    simp only [List.mem_cons, List.not_mem_nil, or_false] at hd
    rcases hd with rfl | rfl | rfl | rfl <;> decide
  rw [encode_escape, List.mem_flatMap]
  rintro ⟨c, -, hmem⟩
  rcases escapedBytes_cases c with ⟨name, he, hname, -⟩ | ⟨he, hc⟩
  · rw [he] at hmem
    simp only [List.cons_append, List.mem_cons, List.mem_append, List.not_mem_nil, or_false] at hmem
    rcases hmem with h | h | h
    · exact hne.1 h
    · exact toUInt8_not_mem_ascii hascii hname halpha h
    · exact hne.2 h
  · rw [he] at hmem
    refine toUInt8_not_mem_utf8EncodeChar hascii ?_ hmem
    rintro rfl
    simp only [List.mem_cons, List.not_mem_nil, or_false] at hd hc
    tauto

theorem escape_eq_empty_iff {text : String} : escape text = "" ↔ text = "" := by
  constructor
  · intro h
    have hexpand := Reference.expand_escape text
    rw [h, Bytes.encode_empty, Reference.expand_of_not_mem (by simp)] at hexpand
    exact Bytes.encode_injective (Except.ok.inj hexpand).symm
  · rintro rfl
    rw [escape_eq]
    rfl

theorem escape_append (s t : String) : escape (s ++ t) = escape s ++ escape t := by
  simp [escape_eq]

/-! ### The substitution -/

/-- No character that is written for another one is an angle bracket or a quote. -/
theorem not_mem_escapeChar {d : Char} (hd : d ∈ ['<', '>', '\x22', '\x27']) (c : Char) :
    d ∉ escapeChar c := by
  intro hmem
  rcases escapeChar_cases c with ⟨name, he, halpha, -⟩ | ⟨he, hc⟩
  · rw [he] at hmem
    simp only [List.mem_cons, List.mem_append, List.not_mem_nil, or_false] at hd hmem
    rcases hmem with (rfl | hmem) | rfl
    · exact absurd hd (by decide)
    · have hletter := halpha d hmem
      rcases hd with rfl | rfl | rfl | rfl <;> exact absurd hletter (by decide)
    · exact absurd hd (by decide)
  · rw [he, List.mem_singleton] at hmem
    subst hmem
    simp only [List.mem_cons, List.not_mem_nil, or_false] at hd hc
    tauto

/-- An ampersand that is written for a character is the first of what is written for it. -/
theorem special_of_ampersand {c : Char} {front back : List Char}
    (h : escapeChar c = front ++ '&' :: back) : c ∈ Escape.specials ∧ front = [] := by
  by_cases hc : c ∈ Escape.specials
  · have htail : '&' ∉ (escapeChar c).tail := by
      simp only [Escape.specials, List.mem_cons, List.not_mem_nil, or_false] at hc
      rcases hc with rfl | rfl | rfl | rfl | rfl <;> decide
    cases front with
    | nil => exact ⟨hc, rfl⟩
    | cons x front =>
      rw [h] at htail
      simp at htail
  · have hmem : '&' ∈ escapeChar c := by simp [h]
    rw [Escape.escapeChar_of_not_mem hc, List.mem_singleton] at hmem
    exact absurd (hmem ▸ by decide) hc

/-- Wherever an ampersand stands in escaped text, a reference to one of the five characters
begins. -/
theorem exists_reference_of_ampersand {cs front back : List Char}
    (h : cs.flatMap escapeChar = front ++ '&' :: back) :
    ∃ c ∈ Escape.specials, escapeChar c <+: '&' :: back := by
  induction cs generalizing front with
  | nil => simp at h
  | cons c cs ih =>
    rw [List.flatMap_cons] at h
    rcases List.append_eq_append_iff.1 h with ⟨middle, -, hrest⟩ | ⟨middle, hc, hback⟩
    · exact ih hrest
    · cases middle with
      | nil => exact @ih [] hback.symm
      | cons x middle =>
        obtain ⟨rfl, rfl⟩ := List.cons.inj hback
        obtain ⟨hspecial, rfl⟩ := special_of_ampersand hc
        exact ⟨c, hspecial, hc ▸ List.prefix_append _ _⟩

/-- Escaping, wherever its search jumps, replaces one character after the other and cuts none in two;
what it writes is safe, and stands for the text. -/
theorem escape_substitutes (buffer text : String) :
    Escape.onto? buffer (Bytes.encode text) = some (escapeOnto buffer text) ∧
    escapeOnto buffer text = buffer ++ String.ofList (text.toList.flatMap escapeChar) ∧
    escape text = String.ofList (text.toList.flatMap escapeChar) ∧
    (∀ c ∈ ['<', '>', '\x22', '\x27'], c ∉ (escape text).toList) ∧
    (∀ front back, (escape text).toList = front ++ '&' :: back →
      ∃ c ∈ Escape.specials, escapeChar c <+: '&' :: back) ∧
    Reference.expand (Bytes.encode (escape text)) = .ok (Bytes.encode text) := by
  have hlist : (escape text).toList = text.toList.flatMap escapeChar := by
    rw [escape_eq, String.toList_ofList]
  refine ⟨?_, escapeOnto_eq buffer text, escape_eq text, ?_, ?_, Reference.expand_escape text⟩
  · rw [Escape.onto?_encode, escapeOnto_eq]
  · intro c hc hmem
    rw [hlist, List.mem_flatMap] at hmem
    obtain ⟨d, -, hmem⟩ := hmem
    exact not_mem_escapeChar hc d hmem
  · intro front back h
    exact exists_reference_of_ampersand (hlist.symm.trans h)

/-! ### Tabs and line ends -/

/-- A tab or a line end counts as a space. -/
def spaceOutChar (c : Char) : Char := if c = '\t' ∨ c = '\n' ∨ c = '\r' then ' ' else c

/-- `value` with a space for every tab, line feed and carriage return. -/
def spacedOut (value : String) : String := String.ofList (value.toList.map spaceOutChar)

theorem spacedOut_eq_self_iff {value : String} :
    spacedOut value = value ↔ ∀ c ∈ value.toList, c ≠ '\t' ∧ c ≠ '\n' ∧ c ≠ '\r' := by
  have hmap : value.toList.map spaceOutChar = value.toList ↔
      ∀ c ∈ value.toList, spaceOutChar c = c := by
    conv_lhs => rw [← List.map_id value.toList, List.map_map]
    exact List.map_inj_left
  rw [spacedOut, ← String.toList_inj, String.toList_ofList, hmap]
  refine forall₂_congr fun c _ => ?_
  unfold spaceOutChar
  split_ifs with h
  · constructor
    · rintro rfl
      exact absurd h (by decide)
    · tauto
  · tauto

theorem spaceOut_of_le {b : UInt8} (h : 0x80 ≤ b) : RawAttribute.spaceOut b = b := by
  have hlt (x : UInt8) (hx : x < 0x80) : b ≠ x := by
    rintro rfl
    exact absurd h (UInt8.not_le.2 hx)
  simp [RawAttribute.spaceOut, hlt Byte.tab (by decide), hlt Byte.lineFeed (by decide),
    hlt Byte.carriageReturn (by decide)]

theorem spaceOut_toUInt8 {c : Char} (hc : c.toNat < 0x80) :
    RawAttribute.spaceOut c.toUInt8 = (spaceOutChar c).toUInt8 := by
  have h {d : Char} (hd : d.toNat < 0x80) (hne : c ≠ d) : c.toUInt8 ≠ d.toUInt8 := by
    intro he
    refine toUInt8_not_mem_utf8EncodeChar hd hne ?_
    rw [Bytes.utf8EncodeChar_ascii hc, he]
    exact List.mem_singleton_self _
  by_cases hb : c = '\t' ∨ c = '\n' ∨ c = '\r'
  · rcases hb with rfl | rfl | rfl <;> rfl
  · rw [spaceOutChar, if_neg hb]
    simp only [not_or] at hb
    have ht : c.toUInt8 ≠ Byte.tab := h (d := '\t') (by decide) hb.1
    have hn : c.toUInt8 ≠ Byte.lineFeed := h (d := '\n') (by decide) hb.2.1
    have hr : c.toUInt8 ≠ Byte.carriageReturn := h (d := '\r') (by decide) hb.2.2
    simp [RawAttribute.spaceOut, ht, hn, hr]

theorem map_spaceOut_utf8EncodeChar (c : Char) :
    (String.utf8EncodeChar c).map RawAttribute.spaceOut =
      String.utf8EncodeChar (spaceOutChar c) := by
  by_cases hc : c.toNat < 0x80
  · have hs : (spaceOutChar c).toNat < 0x80 := by
      unfold spaceOutChar
      split_ifs
      · decide
      · exact hc
    rw [Bytes.utf8EncodeChar_ascii hc, Bytes.utf8EncodeChar_ascii hs, List.map_singleton,
      spaceOut_toUInt8 hc]
  · have hself : spaceOutChar c = c := by
      refine if_neg ?_
      rintro (rfl | rfl | rfl) <;> exact hc (by decide)
    have hmap := List.map_congr_left fun b hb =>
      spaceOut_of_le (Bytes.le_of_mem_utf8EncodeChar (Nat.not_lt.1 hc) hb)
    rw [hself, hmap, List.map_id']

theorem escapeChar_spaceOutChar (c : Char) :
    (escapeChar c).map spaceOutChar = escapeChar (spaceOutChar c) := by
  by_cases h : c = '\t' ∨ c = '\n' ∨ c = '\r'
  · rcases h with rfl | rfl | rfl <;> decide
  · have hself : spaceOutChar c = c := if_neg h
    rw [hself]
    unfold escapeChar
    split_ifs
    · decide
    · decide
    · decide
    · decide
    · decide
    · rw [List.map_singleton, hself]

/-- Reading literal tabs and line ends as spaces is the same before escaping and after it. -/
theorem map_spaceOut_escape (value : String) :
    (Bytes.encode (escape value)).map RawAttribute.spaceOut =
      Bytes.encode (escape (spacedOut value)) := by
  simp only [escape_eq, spacedOut, Bytes.encode_ofList, String.toList_ofList, List.map_flatMap,
    List.flatMap_map, List.flatMap_assoc, map_spaceOut_utf8EncodeChar, ← escapeChar_spaceOutChar]

end XmlSieve
