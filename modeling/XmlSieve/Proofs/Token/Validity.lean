import XmlSieve.Proofs.Text.Splicing
import XmlSieve.Proofs.Token.AttributeForms
import XmlSieve.Token.Place

/-!
# Texts checked after their references are replaced

The bytes of a text and of an attribute value are read as UTF-8 only once their references are
replaced.  What comes of it is what came of it if the source bytes were checked: references that can
be replaced neither break a text nor mend bytes that are none (`Reference.validity_kept`).
-/

namespace XmlSieve

namespace Bytes

variable {bs front back : Bytes}

theorem decode?_eq_none_iff : bs.decode? = none ↔ ¬ IsText bs := by
  rw [Option.eq_none_iff_forall_ne_some, IsText, not_exists]
  exact forall_congr' fun text => not_congr decode?_eq_some_iff

end Bytes

namespace Reference

variable {raw out front name back : Bytes} {c : Char}

/-- What references are replaced in is a text exactly if what comes of it is. -/
theorem decode?_of_expand (h : expand raw = .ok out) : out.decode? = none ↔ raw.decode? = none := by
  rw [Bytes.decode?_eq_none_iff, Bytes.decode?_eq_none_iff, (expands_of_expand h).isText_iff]

/-- A reference is itself a text, so that it is the bytes on either side of it that make a text. -/
theorem isText_around_reference (h : Stands name c) :
    Bytes.IsText (front ++ Byte.ampersand :: (name ++ Byte.semicolon :: back)) ↔
      Bytes.IsText front ∧ Bytes.IsText back := by
  have hname : ∀ b ∈ name ++ [Byte.semicolon], b < 0x80 :=
    List.forall_mem_append.2 ⟨h.lt_of_mem, List.forall_mem_singleton.2 (by decide)⟩
  rw [Bytes.isText_around (by decide), List.append_cons, Bytes.isText_ascii_append hname]

end Reference

namespace Place

/-- Characters are refused for their encoding where their references can be replaced and their
bytes are no text. -/
theorem readCharacters_badEncoding (raw : Bytes) (innermost : String) (outer : List String) :
    (content innermost outer).read (.characters raw) = .error .badEncoding ↔
      (∃ out, Reference.expand raw = .ok out) ∧ raw.decode? = none := by
  rw [read, readCharacters, decodeCharacters]
  cases hexpand : Reference.expand raw with
  | error cause => simp
  | ok out =>
    rw [← Reference.decode?_of_expand hexpand]
    dsimp only [decodeText]
    cases out.decode? with
    | none => exact iff_of_true rfl ⟨⟨out, rfl⟩, rfl⟩
    | some text => simp

end Place

namespace RawAttribute

variable {raw out : Bytes} {seen : Attributes} {written : RawAttribute} {name : String}

theorem decode?_map_spaceOut (raw : Bytes) :
    Bytes.decode? (raw.map spaceOut) = none ↔ raw.decode? = none := by
  rw [Bytes.decode?_eq_none_iff, Bytes.decode?_eq_none_iff]
  exact not_congr (isText_map_spaceOut [] raw)

/-- A value is what the bytes that came of its references decode to. -/
theorem decodeValue_of_expand (h : Reference.expand (raw.map spaceOut) = .ok out) :
    (raw.decode? = none → decodeValue raw = .error .invalidToken) ∧
      (raw.decode? ≠ none → ∃ value, decodeValue raw = .ok value) := by
  rw [Ne, ← decode?_map_spaceOut, ← Reference.decode?_of_expand h, decodeValue, h]
  simp only [bind, Except.bind]
  cases out.decode? with
  | none => exact ⟨fun _ => rfl, fun hsome => absurd rfl hsome⟩
  | some value => exact ⟨by simp, fun _ => ⟨value, rfl⟩⟩

/-- An attribute whose name is new is refused where the bytes of its value are no text. -/
theorem addTo_of_expand (hname : written.name.decode? = some name)
    (hnew : seen.get? name = none)
    (h : Reference.expand (written.value.map spaceOut) = .ok out) :
    (written.value.decode? = none → written.addTo seen = .error .invalidToken) ∧
      (written.value.decode? ≠ none →
        ∃ value, written.addTo seen = .ok (seen ++ [(name, value)])) := by
  obtain ⟨hbad, hgood⟩ := decodeValue_of_expand h
  have hadd : written.addTo seen =
      (decodeValue written.value).map fun value => seen ++ [(name, value)] := by
    rw [addTo, hname]
    dsimp only
    rw [hnew, if_neg (by simp)]
    cases decodeValue written.value <;> rfl
  rw [hadd]
  constructor
  · intro hnone
    rw [hbad hnone]
    rfl
  · intro hsome
    obtain ⟨value, hvalue⟩ := hgood hsome
    exact ⟨value, by rw [hvalue]; rfl⟩

end RawAttribute

/-! ### Before or after -/

namespace Reference

/-- Where references can be replaced, it makes no difference whether bytes are checked to be UTF-8
before or after: what comes of them is valid exactly if they are.  A text is refused for its encoding
exactly if its source bytes are not valid, and so is an attribute value.  No reference mends the
bytes before it or those after it. -/
theorem validity_kept :
    (∀ raw out, expand raw = .ok out → (out.decode? = none ↔ raw.decode? = none)) ∧
    (∀ raw innermost outer,
      (Place.content innermost outer).read (.characters raw) = .error .badEncoding ↔
        (∃ out, expand raw = .ok out) ∧ raw.decode? = none) ∧
    (∀ (seen : Attributes) (written : RawAttribute) name out,
      written.name.decode? = some name → seen.get? name = none →
      expand (written.value.map RawAttribute.spaceOut) = .ok out →
      (written.value.decode? = none → written.addTo seen = .error .invalidToken) ∧
      (written.value.decode? ≠ none →
        ∃ value, written.addTo seen = .ok (seen ++ [(name, value)]))) ∧
    ∀ (front name : Bytes) c (back out : Bytes), Stands name c →
      expand (front ++ Byte.ampersand :: (name ++ Byte.semicolon :: back)) = .ok out →
      (out.decode? = none ↔ front.decode? = none ∨ back.decode? = none) := by
  refine ⟨fun _ _ => decode?_of_expand, Place.readCharacters_badEncoding,
    fun _ _ _ _ => RawAttribute.addTo_of_expand, fun front name c back out hname h => ?_⟩
  rw [decode?_of_expand h, Bytes.decode?_eq_none_iff, isText_around_reference hname,
    not_and_or, Bytes.decode?_eq_none_iff, Bytes.decode?_eq_none_iff]

/-- The first of two bytes of a character, and a reference after it: what the reference stands for
does not complete the character. -/
theorem validity_kept_broken :
    expand (0xC3 :: Bytes.ascii ['&', '#', '1', '6', '9', ';']) = .ok [0xC3, 0xC2, 0xA9] ∧
      Bytes.decode? [0xC3, 0xC2, 0xA9] = none ∧
      (Place.content "a" []).read
          (.characters (0xC3 :: Bytes.ascii ['&', '#', '1', '6', '9', ';'])) =
        .error .badEncoding ∧
      RawAttribute.addTo [] ⟨Bytes.ascii ['k'],
          0xC3 :: Bytes.ascii ['&', '#', '1', '6', '9', ';']⟩ = .error .invalidToken := by
  obtain ⟨hout, htext, hvalue, haround⟩ := validity_kept
  have hexpand : expand (0xC3 :: Bytes.ascii ['&', '#', '1', '6', '9', ';']) =
      .ok [0xC3, 0xC2, 0xA9] := by decide +kernel
  have hname : Stands (Bytes.ascii ['#', '1', '6', '9']) (Char.ofNat 169) :=
    resolve_ok_iff.1 (by decide +kernel)
  have hnone := (haround [0xC3] _ _ [] _ hname hexpand).2 (.inl (by decide +kernel))
  have hraw := (hout _ _ hexpand).1 hnone
  have hspaced : (0xC3 :: Bytes.ascii ['&', '#', '1', '6', '9', ';']).map RawAttribute.spaceOut =
      0xC3 :: Bytes.ascii ['&', '#', '1', '6', '9', ';'] := by decide +kernel
  have hadd := hvalue [] ⟨Bytes.ascii ['k'], 0xC3 :: Bytes.ascii ['&', '#', '1', '6', '9', ';']⟩
    "k" [0xC3, 0xC2, 0xA9] (by decide +kernel) rfl (hspaced ▸ hexpand)
  exact ⟨hexpand, hnone, (htext _ _ _).2 ⟨⟨_, hexpand⟩, hraw⟩, hadd.1 hraw⟩

end Reference

end XmlSieve
