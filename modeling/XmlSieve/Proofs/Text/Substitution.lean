import XmlSieve.Proofs.Text.Encoding
import XmlSieve.Text.Escape

/-!
# Escaping character by character

`escapeChar` says how one character is written.  The search for the characters to be escaped jumps
from one to the next in the bytes of a text; it finds each of them, in order, and cuts the text
nowhere else (`Escape.onto?_encode`).  Hence `escape` is a substitution (`escape_eq`).
-/

namespace XmlSieve

/-- How `c` is written in content and in values. -/
def escapeChar (c : Char) : List Char :=
  if c = '<' then ['&', 'l', 't', ';']
  else if c = '>' then ['&', 'g', 't', ';']
  else if c = '&' then ['&', 'a', 'm', 'p', ';']
  else if c = '\x22' then ['&', 'q', 'u', 'o', 't', ';']
  else if c = '\x27' then ['&', 'a', 'p', 'o', 's', ';']
  else [c]

namespace Escape

/-! ### The search -/

/-- Looking for `p` first, and for `q` in front of it, finds the first place of either. -/
theorem findIdx?_or {α : Type} (p q : α → Bool) (xs : List α) :
    (match xs.findIdx? p with
      | some n => some (((xs.take n).findIdx? q).getD n)
      | none => xs.findIdx? q) = xs.findIdx? fun x => p x || q x := by
  induction xs with
  | nil => rfl
  | cons x xs ih =>
    by_cases hp : p x = true
    · simp [List.findIdx?_cons, hp]
    · rw [Bool.not_eq_true] at hp
      simp only [List.findIdx?_cons, hp, Bool.false_or, Bool.false_eq_true, if_false]
      rw [← ih]
      by_cases hq : q x = true
      · cases hfirst : xs.findIdx? p with
        | none => simp [hq]
        | some n => simp [List.findIdx?_cons, hq]
      · cases hfirst : xs.findIdx? p with
        | none => simp [hq]
        | some n =>
          cases hquote : (xs.take n).findIdx? q <;> simp [List.findIdx?_cons, hq, hquote]

/-- Whether `b` is one of the five bytes. -/
def isSpecial (b : UInt8) : Bool := isStructural b || isQuote b

theorem nextSpecial?_eq (bs : Bytes) : nextSpecial? bs = bs.findIdx? isSpecial :=
  findIdx?_or isStructural isQuote bs

/-! ### Characters -/

/-- The characters that are escaped. -/
def specials : List Char := ['<', '>', '&', '\x22', '\x27']

theorem escapeChar_of_not_mem {c : Char} (h : c ∉ specials) : escapeChar c = [c] := by
  simp only [specials, List.mem_cons, List.not_mem_nil, or_false, not_or] at h
  obtain ⟨hlt, hgt, hamp, hquot, hapos⟩ := h
  simp [escapeChar, hlt, hgt, hamp, hquot, hapos]

/-- A character that is escaped is one byte, and its reference is the one for the byte. -/
theorem of_mem_specials {c : Char} (h : c ∈ specials) :
    String.utf8EncodeChar c = [c.toUInt8] ∧ isSpecial c.toUInt8 = true ∧
      referenceTo c.toUInt8 = String.ofList (escapeChar c) := by
  simp only [specials, List.mem_cons, List.not_mem_nil, or_false] at h
  rcases h with rfl | rfl | rfl | rfl | rfl <;> decide

/-- None of the five bytes is a part of a character that is not escaped. -/
theorem isSpecial_of_not_mem {c : Char} (h : c ∉ specials) {b : UInt8}
    (hb : b ∈ String.utf8EncodeChar c) : isSpecial b = false := by
  rw [Bool.eq_false_iff]
  intro hspecial
  have hexists : ∃ d ∈ specials, b = d.toUInt8 ∧ d.toNat < 0x80 := by
    simp only [isSpecial, isStructural, isQuote, Bool.or_eq_true, beq_iff_eq] at hspecial
    rcases hspecial with ((rfl | rfl) | rfl) | rfl | rfl
    · exact ⟨'<', by decide, rfl, by decide⟩
    · exact ⟨'>', by decide, rfl, by decide⟩
    · exact ⟨'&', by decide, rfl, by decide⟩
    · exact ⟨'\x22', by decide, rfl, by decide⟩
    · exact ⟨'\x27', by decide, rfl, by decide⟩
  obtain ⟨d, hd, rfl, hascii⟩ := hexists
  have hne : c ≠ d := by
    rintro rfl
    exact h hd
  exact toUInt8_not_mem_utf8EncodeChar hascii hne hb

theorem isSpecial_of_forall {cs : List Char} (h : ∀ c ∈ cs, c ∉ specials) :
    ∀ b ∈ cs.flatMap String.utf8EncodeChar, isSpecial b = false := by
  intro b hb
  obtain ⟨c, hc, hb⟩ := List.mem_flatMap.1 hb
  exact isSpecial_of_not_mem (h c hc) hb

theorem flatMap_escapeChar_of_forall {cs : List Char} (h : ∀ c ∈ cs, c ∉ specials) :
    cs.flatMap escapeChar = cs := by
  induction cs with
  | nil => rfl
  | cons c cs ih =>
    rw [List.forall_mem_cons] at h
    rw [List.flatMap_cons, escapeChar_of_not_mem h.1, ih h.2]
    rfl

/-! ### The loop -/

theorem onto?_of_none (buffer : String) {bs : Bytes} (h : nextSpecial? bs = none) :
    onto? buffer bs = bs.decode?.map (buffer ++ ·) := by
  cases bs with
  | nil =>
    have hempty : Bytes.decode? [] = some "" := Bytes.decode?_encode ""
    rw [onto?, hempty, Option.map_some, String.append_empty]
  | cons b bs => rw [onto?, h]

theorem onto?_of_some (buffer : String) {bs : Bytes} {n : Nat} (h : nextSpecial? bs = some n) :
    onto? buffer bs =
      (Bytes.decode? (bs.take n)).bind fun plain =>
        onto? (buffer ++ plain ++ referenceTo (bs.getD n 0)) (bs.drop (n + 1)) := by
  cases bs with
  | nil => cases h
  | cons b bs =>
    rw [onto?, h]
    rfl

/-- Without one of the five bytes, a text is written as it stands. -/
theorem onto?_plain (buffer : String) {cs : List Char} (h : ∀ c ∈ cs, c ∉ specials) :
    onto? buffer (cs.flatMap String.utf8EncodeChar) = some (buffer ++ String.ofList cs) := by
  have hnone : nextSpecial? (cs.flatMap String.utf8EncodeChar) = none := by
    rw [nextSpecial?_eq, List.findIdx?_eq_none_iff]
    exact isSpecial_of_forall h
  rw [onto?_of_none buffer hnone, ← Bytes.encode_ofList, Bytes.decode?_encode]
  rfl

/-- The text before the first of the five characters is written as it stands, and the loop goes on
behind the reference for the character. -/
theorem onto?_special (buffer : String) {plain : List Char} {c : Char} (rest : List Char)
    (hplain : ∀ x ∈ plain, x ∉ specials) (hc : c ∈ specials) :
    onto? buffer ((plain ++ c :: rest).flatMap String.utf8EncodeChar) =
      onto? (buffer ++ String.ofList plain ++ String.ofList (escapeChar c))
        (rest.flatMap String.utf8EncodeChar) := by
  obtain ⟨hbyte, hspecial, hreference⟩ := of_mem_specials hc
  have hbs : (plain ++ c :: rest).flatMap String.utf8EncodeChar =
      Bytes.encode (String.ofList plain) ++ c.toUInt8 :: rest.flatMap String.utf8EncodeChar := by
    rw [List.flatMap_append, List.flatMap_cons, hbyte, Bytes.encode_ofList]
    rfl
  have hnext : nextSpecial? ((plain ++ c :: rest).flatMap String.utf8EncodeChar) =
      some (Bytes.encode (String.ofList plain)).length := by
    have hfirst : (Bytes.encode (String.ofList plain)).findIdx? isSpecial = none := by
      rw [Bytes.encode_ofList, List.findIdx?_eq_none_iff]
      exact isSpecial_of_forall hplain
    rw [nextSpecial?_eq, hbs, List.findIdx?_append, hfirst, List.findIdx?_cons, if_pos hspecial]
    simp
  rw [onto?_of_some buffer hnext, hbs, List.take_left, Bytes.decode?_encode, Option.bind_some,
    ← hreference]
  simp

/-- The whole loop, after any text `plain` without one of the five characters. -/
theorem onto?_append (buffer : String) {plain : List Char} (hplain : ∀ c ∈ plain, c ∉ specials)
    (cs : List Char) :
    onto? buffer ((plain ++ cs).flatMap String.utf8EncodeChar) =
      some (buffer ++ String.ofList (plain ++ cs.flatMap escapeChar)) := by
  induction cs generalizing buffer plain with
  | nil => simpa using onto?_plain buffer hplain
  | cons c cs ih =>
    by_cases hc : c ∈ specials
    · have hrest := ih (buffer ++ String.ofList plain ++ String.ofList (escapeChar c))
        (fun _ h => absurd h List.not_mem_nil)
      rw [onto?_special buffer cs hplain hc]
      simpa [String.append_assoc] using hrest
    · have hlonger : ∀ x ∈ plain ++ [c], x ∉ specials :=
        List.forall_mem_append.2 ⟨hplain, by simpa using hc⟩
      have hrest := ih buffer hlonger
      rw [List.flatMap_cons, escapeChar_of_not_mem hc]
      simpa using hrest

theorem onto?_encode (buffer text : String) :
    onto? buffer (Bytes.encode text) =
      some (buffer ++ String.ofList (text.toList.flatMap escapeChar)) :=
  onto?_append buffer (fun _ h => absurd h List.not_mem_nil) text.toList

end Escape

theorem escapeOnto_eq (buffer text : String) :
    escapeOnto buffer text = buffer ++ String.ofList (text.toList.flatMap escapeChar) := by
  rw [escapeOnto, Escape.onto?_encode]
  rfl

/-- A text without the five bytes is left as it is, which is what the substitution makes of it. -/
theorem escape_eq (text : String) :
    escape text = String.ofList (text.toList.flatMap escapeChar) := by
  unfold escape
  split_ifs with hany
  · rw [escapeOnto_eq, String.empty_append]
  · have hplain : ∀ c ∈ text.toList, c ∉ Escape.specials := by
      intro c hc hspecial
      obtain ⟨hbyte, hb, -⟩ := Escape.of_mem_specials hspecial
      refine hany (List.any_eq_true.2 ⟨c.toUInt8, List.mem_flatMap.2 ⟨c, hc, ?_⟩, hb⟩)
      rw [hbyte]
      exact List.mem_singleton_self _
    rw [Escape.flatMap_escapeChar_of_forall hplain, String.ofList_toList]

end XmlSieve
