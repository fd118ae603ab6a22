import XmlSieve.Proofs.Text.Escaping

/-!
# Characters within byte strings

`Bytes.IsText` says of bytes that they are the form of some text.  Around a whole character bytes are
the form of a text exactly if the bytes before the character and those after it are
(`isText_around_char`): no character begins in the middle of another one.  A reference and the
character that it stands for are both whole characters, so that replacing the one by the other keeps
the form of a text in both directions (`Reference.Expands.isText_iff`).
-/

namespace XmlSieve

namespace Bytes

/-- `bs` is the form of some text. -/
def IsText (bs : Bytes) : Prop := ∃ text, bs = encode text

theorem isText_encode (text : String) : IsText (encode text) := ⟨text, rfl⟩

theorem isText_iff {bs : Bytes} :
    IsText bs ↔ ∃ cs : List Char, bs = cs.flatMap String.utf8EncodeChar := by
  constructor
  · rintro ⟨text, rfl⟩
    exact ⟨text.toList, rfl⟩
  · rintro ⟨cs, rfl⟩
    exact ⟨String.ofList cs, (encode_ofList cs).symm⟩

theorem IsText.append {front back : Bytes} (hfront : IsText front) (hback : IsText back) :
    IsText (front ++ back) := by
  obtain ⟨first, rfl⟩ := hfront
  obtain ⟨last, rfl⟩ := hback
  exact ⟨first ++ last, (encode_append first last).symm⟩

/-! ### Where characters begin -/

/-- Among the bytes of a character only the first can begin one. -/
theorem isUTF8FirstByte_iff {c : Char} {i : Nat} {b : UInt8}
    (h : (String.utf8EncodeChar c)[i]? = some b) : b.IsUTF8FirstByte ↔ i = 0 := by
  obtain ⟨hi, rfl⟩ := List.getElem?_eq_some_iff.1 h
  exact UInt8.isUTF8FirstByte_getElem_utf8EncodeChar

theorem flatMap_split {first whole : List Char} {bs : Bytes}
    (h : first.flatMap String.utf8EncodeChar ++ bs = whole.flatMap String.utf8EncodeChar) :
    IsText bs := by
  rw [← encode_ofList, ← encode_ofList] at h
  obtain ⟨last, hlast, -⟩ := encode_split h
  exact ⟨last, hlast⟩

/-- Wherever the bytes of a character are found in a text, the text falls in two around them. -/
theorem split_at_char {c : Char} {cs : List Char} {front back : Bytes}
    (h : front ++ (String.utf8EncodeChar c ++ back) = cs.flatMap String.utf8EncodeChar) :
    IsText front ∧ IsText back := by
  induction cs generalizing front with
  | nil => simp [String.utf8EncodeChar_ne_nil] at h
  | cons d cs ih =>
    have hd : IsText (String.utf8EncodeChar d) := isText_iff.2 ⟨[d], by simp⟩
    rw [List.flatMap_cons] at h
    rcases List.append_eq_append_iff.1 h with ⟨middle, hmiddle, hrest⟩ | ⟨middle, rfl, hrest⟩
    · cases hfront : front with
      | nil =>
        rw [hfront, List.nil_append] at h
        have hc : String.utf8EncodeChar c = [c].flatMap String.utf8EncodeChar := by simp
        rw [hc, ← List.flatMap_cons] at h
        exact ⟨isText_encode "", flatMap_split h⟩
      | cons x front' =>
        cases middle with
        | nil =>
          rw [List.append_nil] at hmiddle
          rw [List.nil_append] at hrest
          obtain ⟨-, hback⟩ := @ih [] hrest
          exact ⟨by rw [← hfront, ← hmiddle]; exact hd, hback⟩
        | cons b middle =>
          -- `b` lies within `d` and begins `c`
          have hwithin : (String.utf8EncodeChar d)[front.length]? = some b := by
            rw [hmiddle]
            simp
          have hfirst : (String.utf8EncodeChar c)[0]? = some b := by
            have hhead := congrArg List.head? hrest
            cases hc : String.utf8EncodeChar c with
            | nil => exact absurd hc String.utf8EncodeChar_ne_nil
            | cons y ys => simpa [hc] using hhead
          have hzero := (isUTF8FirstByte_iff hwithin).1 ((isUTF8FirstByte_iff hfirst).2 rfl)
          rw [hfront] at hzero
          cases hzero
    · obtain ⟨hfront, hback⟩ := ih hrest.symm
      exact ⟨hd.append hfront, hback⟩

/-- Around a character, bytes are a text exactly if they are on both sides. -/
theorem isText_around_char {front back : Bytes} {c : Char} :
    IsText (front ++ (String.utf8EncodeChar c ++ back)) ↔ IsText front ∧ IsText back := by
  constructor
  · intro h
    obtain ⟨cs, hcs⟩ := isText_iff.1 h
    exact split_at_char hcs
  · rintro ⟨hfront, hback⟩
    exact hfront.append (IsText.append (isText_iff.2 ⟨[c], by simp⟩) hback)

theorem utf8EncodeChar_ofUInt8 {b : UInt8} (h : b < 0x80) :
    String.utf8EncodeChar (Char.ofUInt8 b) = [b] := by
  have hlt : (Char.ofUInt8 b).toNat < 0x80 := UInt8.lt_iff_toNat_lt.1 h
  have hbyte : (Char.ofUInt8 b).toUInt8 = b := UInt8.toUInt8_toUInt32 b
  rw [utf8EncodeChar_ascii hlt, hbyte]

/-- Around a byte of ASCII, bytes are a text exactly if they are on both sides. -/
theorem isText_around {front back : Bytes} {b : UInt8} (h : b < 0x80) :
    IsText (front ++ b :: back) ↔ IsText front ∧ IsText back := by
  have hchar : IsText (front ++ (String.utf8EncodeChar (Char.ofUInt8 b) ++ back)) ↔ _ :=
    isText_around_char
  rwa [utf8EncodeChar_ofUInt8 h] at hchar

theorem isText_ascii_append {word back : Bytes} (h : ∀ b ∈ word, b < 0x80) :
    IsText (word ++ back) ↔ IsText back := by
  induction word with
  | nil => rfl
  | cons b word ih =>
    rw [List.forall_mem_cons] at h
    have haround : IsText ([] ++ b :: (word ++ back)) ↔ _ := isText_around h.1
    rw [ih h.2] at haround
    exact haround.trans (and_iff_right (isText_encode ""))

end Bytes

/-! ### References within texts -/

namespace Reference

/-- The name of a reference is made of ASCII. -/
theorem Stands.lt_of_mem {name : Bytes} {c : Char} (h : Stands name c) :
    ∀ b ∈ name, b < 0x80 := by
  have hascii : ∀ b ∈ lowerDigits ++ upperDigits, b < 0x80 := by decide +kernel
  cases h with
  | lt | gt | amp | quot | apos => decide +kernel
  | decimal hvalue _ =>
    exact List.forall_mem_cons.2 ⟨by decide, fun b hb => hascii b (hvalue.mem b hb)⟩
  | hexadecimal hx hvalue _ =>
    refine List.forall_mem_cons.2 ⟨by decide, List.forall_mem_cons.2 ⟨?_, ?_⟩⟩
    · rcases hx with rfl | rfl <;> decide
    · exact fun b hb => hascii b (hvalue.mem b hb)

theorem isText_pieces {pieces : List Piece} (hvalid : ∀ piece ∈ pieces, piece.Valid)
    (plain : Bytes) :
    Bytes.IsText (plain ++ pieces.flatMap Piece.source) ↔
      Bytes.IsText (plain ++ pieces.flatMap Piece.meaning) := by
  induction pieces generalizing plain with
  | nil => rfl
  | cons piece pieces ih =>
    rw [List.forall_mem_cons] at hvalid
    rw [List.flatMap_cons, List.flatMap_cons]
    cases piece with
    | plain b =>
      have hrest := ih hvalid.2 (plain ++ [b])
      rw [List.append_assoc, List.append_assoc] at hrest
      exact hrest
    | reference name c =>
      have hname : ∀ b ∈ name ++ [Byte.semicolon], b < 0x80 :=
        List.forall_mem_append.2 ⟨hvalid.1.lt_of_mem, by decide +kernel⟩
      have hsource : (Piece.reference name c).source ++ pieces.flatMap Piece.source =
          Byte.ampersand :: (name ++ [Byte.semicolon] ++ pieces.flatMap Piece.source) := rfl
      rw [Piece.meaning, Bytes.isText_around_char, hsource, Bytes.isText_around (by decide),
        Bytes.isText_ascii_append hname]
      exact and_congr_right fun _ => ih hvalid.2 []

/-- Text stands for text, and only text does. -/
theorem Expands.isText_iff {bs out : Bytes} (h : Expands bs out) :
    Bytes.IsText out ↔ Bytes.IsText bs := by
  obtain ⟨pieces, hvalid, rfl, rfl⟩ := h
  exact (isText_pieces hvalid []).symm

end Reference

/-! ### Blanks within texts -/

namespace RawAttribute

/-- Reading tabs and line ends as spaces leaves texts texts, and nothing else becomes one. -/
theorem isText_map_spaceOut (front bs : Bytes) :
    Bytes.IsText (front ++ bs.map spaceOut) ↔ Bytes.IsText (front ++ bs) := by
  induction bs generalizing front with
  | nil => rfl
  | cons b bs ih =>
    rw [List.map_cons]
    by_cases hb : b = Byte.tab ∨ b = Byte.lineFeed ∨ b = Byte.carriageReturn
    · have hascii : b < 0x80 ∧ spaceOut b < 0x80 := by
        rcases hb with rfl | rfl | rfl <;> decide
      rw [Bytes.isText_around hascii.1, Bytes.isText_around hascii.2]
      exact and_congr_right fun _ => ih []
    · have hself : spaceOut b = b := by
        rw [spaceOut, if_neg]
        simpa [or_assoc] using hb
      have hrest := ih (front ++ [b])
      rw [List.append_assoc, List.append_assoc] at hrest
      rw [hself]
      exact hrest

end RawAttribute

end XmlSieve
