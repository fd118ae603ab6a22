import XmlSieve.Proofs.Token.AttributeLists
import XmlSieve.Proofs.Token.TagForms

/-!
# Writing tokens

`Markup.ofTokens` writes tokens one after the other.  What is written of a start tag has the form of
one (`StartTagForm.exists_written`).  What is written of a tag is cut where it ends
(`Construct.cut?_startTag`, `Construct.cut?_endTag`), and what is written of text where the next tag
begins (`Construct.cut?_characters`).  At a place where the token can stand, what was cut amounts to
the token (`Place.read_startTag_written`, `Place.read_endTag_written`,
`Place.read_characters_written`).
-/

namespace XmlSieve

namespace Markup

def ofToken : Token → String
  | .startTag name attributes => startTag name attributes
  | .endTag name => endTag name
  | .text content => escape content

def ofTokens : List Token → String
  | [] => ""
  | token :: rest => ofToken token ++ ofTokens rest

theorem ofTokens_append (front back : List Token) :
    ofTokens (front ++ back) = ofTokens front ++ ofTokens back := by
  induction front with
  | nil => simp [ofTokens]
  | cons token front ih => simp [ofTokens, ih, String.append_assoc]

end Markup

/-! ### Cutting what was written -/

namespace Markup

theorem encode_startTag (name : String) (attributes : Attributes) :
    Bytes.encode (startTag name attributes) =
      Byte.openAngle :: (Bytes.encode name ++ Bytes.encode (ofAttributes attributes)) ++
        [Byte.closeAngle] := by
  have hopen : Bytes.encode "<" = [Byte.openAngle] := rfl
  have hclose : Bytes.encode ">" = [Byte.closeAngle] := rfl
  simp [startTag, hopen, hclose]

theorem encode_endTag (name : String) :
    Bytes.encode (endTag name) =
      Byte.openAngle :: Byte.slash :: Bytes.encode name ++ [Byte.closeAngle] := by
  have hopen : Bytes.encode "</" = [Byte.openAngle, Byte.slash] := rfl
  have hclose : Bytes.encode ">" = [Byte.closeAngle] := rfl
  simp [endTag, hopen, hclose]

end Markup

/-- A start tag is written in the form of one, without a slash. -/
theorem StartTagForm.exists_written {name : String} {attributes : Attributes}
    (hname : isName name = true) (hattributes : attributes.Proper) :
    ∃ f : StartTagForm,
      f.body = Bytes.encode name ++ Bytes.encode (Markup.ofAttributes attributes) ∧
      f.source = Bytes.encode (Markup.startTag name attributes) ∧
      ∀ p, f.reading p =
        .token (.startTag name attributes.spacedOut) (.content name p.openNames) := by
  obtain ⟨forms, hforms, hnames, hentries⟩ := Attributes.exists_written hattributes.isName
  have hnodup : (forms.map AttributeForm.name).Nodup := by
    rw [hnames]
    exact hattributes.nodup
  refine ⟨⟨name, forms, [], false, hname, hnodup, List.forall_mem_nil _⟩, ?_, ?_, fun p => ?_⟩
  · simp [StartTagForm.body, StartTagForm.core, hforms]
  · simp [StartTagForm.source, StartTagForm.body, StartTagForm.core, hforms, Markup.encode_startTag]
  · rw [← hentries]
    rfl

namespace Construct

/-- A start tag is cut where it ends. -/
theorem cut?_startTag {name : String} {attributes : Attributes} (hname : isName name = true)
    (hattributes : attributes.Proper) (bs : Bytes) :
    cut? true (Bytes.encode (Markup.startTag name attributes) ++ bs) =
      some (startTag (Bytes.encode name ++ Bytes.encode (Markup.ofAttributes attributes)),
        (Bytes.encode (Markup.startTag name attributes)).length) := by
  obtain ⟨f, hbody, hsource, -⟩ := StartTagForm.exists_written hname hattributes
  rw [← hbody, ← hsource]
  exact cut?_startTagForm f true bs

/-- An end tag is cut where it ends. -/
theorem cut?_endTag {name : String} (hname : isName name = true) (bs : Bytes) :
    cut? true (Bytes.encode (Markup.endTag name) ++ bs) =
      some (endTag (Bytes.encode name), (Bytes.encode (Markup.endTag name)).length) := by
  have hslash : Bytes.IsPassed [Byte.slash] :=
    Bytes.isPassed_singleton (by decide) (by decide) (by decide)
  have hend := Bytes.tagEnd?_passed
    (Bytes.isPassed_openAngle.append (hslash.append (Bytes.isPassed_name hname))) bs
  rw [Markup.encode_endTag, List.append_assoc, List.singleton_append]
  simp only [List.nil_append, List.cons_append] at hend ⊢
  rw [cut?, if_pos (by rfl), cutMarkup?_tag (by decide) (by decide), hend, Option.map_some,
    if_pos rfl]
  simp only [List.length_cons, List.take_succ_cons, List.take_left, List.drop_succ_cons,
    List.drop_zero]
  simp

/-- Characters are cut where markup begins. -/
theorem cut?_characters {raw : Bytes} (hne : raw ≠ []) (hopen : Byte.openAngle ∉ raw) (bs : Bytes) :
    cut? true (raw ++ Byte.openAngle :: bs) = some (characters raw, raw.length) := by
  have hstart : Bytes.tagStart? (raw ++ Byte.openAngle :: bs) = some raw.length := by
    have hnone : raw.findIdx? (· == Byte.openAngle) = none := by
      rw [List.findIdx?_eq_none_iff]
      intro x hx
      rw [beq_eq_false_iff_ne]
      rintro rfl
      exact hopen hx
    rw [Bytes.tagStart?, List.findIdx?_append, hnone, List.findIdx?_cons, if_pos (by rfl)]
    simp
  cases raw with
  | nil => exact absurd rfl hne
  | cons b raw =>
    simp only [List.mem_cons, not_or] at hopen
    have hb : (b == Byte.openAngle) = false := beq_false_of_ne (Ne.symm hopen.1)
    rw [List.cons_append, cut?, hb, if_neg (by simp), ← List.cons_append, cutCharacters?, hstart]
    simp

end Construct

/-! ### Reading what was written -/

namespace Place

theorem decodeCharacters_escape (s : String) :
    decodeCharacters (Bytes.encode (escape s)) = .ok s := by
  rw [decodeCharacters, Reference.expand_escape]
  exact decodeText_encode s

theorem read_startTag_written {p : Place} {name : String} {attributes : Attributes}
    (hname : isName name = true) (hattributes : attributes.Proper) (hp : p ≠ epilog) :
    p.read (.startTag (Bytes.encode name ++ Bytes.encode (Markup.ofAttributes attributes))) =
      .ok (.token (.startTag name attributes.spacedOut) (content name p.openNames)) := by
  obtain ⟨f, hbody, -, hreading⟩ := StartTagForm.exists_written hname hattributes
  rw [← hbody, ← hreading]
  exact readStartTag_form f hp

theorem read_endTag_written {name : String} {outer : List String} (hname : isName name = true) :
    (content name outer).read (.endTag (Bytes.encode name)) =
      .ok (.token (.endTag name) (inside outer)) := by
  have hsplit := Bytes.splitName?_encode hname [] (by simp)
  rw [List.append_nil] at hsplit
  have hend : endTagName? (Bytes.encode name) = some (Bytes.encode name) := by
    rw [endTagName?, hsplit]
    rfl
  simp only [read, readEndTag, hend, decodeText_encode]
  simp only [bind, Except.bind, if_true]

theorem read_characters_written {name : String} {outer : List String} (text : String) :
    (content name outer).read (.characters (Bytes.encode (escape text))) =
      .ok (.token (.text text) (content name outer)) := by
  rw [read, readCharacters, decodeCharacters_escape]
  rfl

end Place

end XmlSieve
