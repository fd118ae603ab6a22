import XmlSieve.Proofs.Token.AttributeForms
import XmlSieve.Token.Place

/-!
# The form of start tags

`StartTagForm` is a start tag in the form that its grammar gives it.  Looking for the end of a tag
passes over names, blanks and quoted values (`Bytes.IsPassed`), so that bytes of this form are cut
where they end (`Construct.cut?_startTagForm`).  What is between the brackets has no slash before the
one that it may end in (`Place.splitSlash_form`), and amounts to the name and the attributes
(`Place.readStartTag_form`).
-/

namespace XmlSieve

/-- A start tag: a name, attributes, blanks and, for an element without content, a slash. -/
structure StartTagForm where
  name : String
  attributes : List AttributeForm
  trail : Bytes
  /-- Whether there is a slash. -/
  empty : Bool
  isName_name : isName name = true
  nodup_names : (attributes.map AttributeForm.name).Nodup
  trail_blank : trail.IsBlank

namespace StartTagForm

/-- What stands between the angle brackets, before the slash. -/
def core (f : StartTagForm) : Bytes :=
  Bytes.encode f.name ++ (f.attributes.flatMap AttributeForm.source ++ f.trail)

def body (f : StartTagForm) : Bytes := f.core ++ if f.empty then [Byte.slash] else []

def source (f : StartTagForm) : Bytes := Byte.openAngle :: f.body ++ [Byte.closeAngle]

/-- What the attributes amount to, in order. -/
def entries (f : StartTagForm) : Attributes := f.attributes.map AttributeForm.entry

/-- What the start tag amounts to at the place `p`. -/
def reading (f : StartTagForm) (p : Place) : Reading :=
  if f.empty then .emptyElement f.name f.entries (.inside p.openNames)
  else .token (.startTag f.name f.entries) (.content f.name p.openNames)

end StartTagForm

/-! ### Finding the ends of tags -/

namespace Bytes

/-- Whether looking for the end of a tag passes over `front`, and is outside of literals after it. -/
def IsPassed (front : Bytes) : Prop :=
  ∀ bs, tagEnd? (front ++ bs) = (tagEnd? bs).map (front.length + ·)

theorem isPassed_nil : IsPassed [] := by
  intro bs
  simp

theorem IsPassed.append {front back : Bytes} (hfront : front.IsPassed) (hback : back.IsPassed) :
    (front ++ back).IsPassed := by
  intro bs
  rw [List.append_assoc, hfront, hback, Option.map_map, List.length_append]
  congr 1
  funext n
  simp only [Function.comp_apply]
  omega

theorem isPassed_singleton {b : UInt8} (hclose : b ≠ Byte.closeAngle) (hquote : b ≠ Byte.quote)
    (hapostrophe : b ≠ Byte.apostrophe) : IsPassed [b] := by
  intro bs
  have hb : (b == Byte.closeAngle) = false := beq_false_of_ne hclose
  have hafter : quoteAfter none b = none := by simp [quoteAfter, hquote, hapostrophe]
  rw [List.singleton_append, tagEnd?, tagEndFrom?, hb, hafter, Bool.and_false, if_neg (by simp)]
  congr 1
  funext n
  exact Nat.add_comm n 1

theorem isPassed_of_forall {front : Bytes}
    (h : ∀ b ∈ front, b ≠ Byte.closeAngle ∧ b ≠ Byte.quote ∧ b ≠ Byte.apostrophe) :
    front.IsPassed := by
  induction front with
  | nil => exact isPassed_nil
  | cons b front ih =>
    obtain ⟨hclose, hquote, hapostrophe⟩ := h b (by simp)
    exact (isPassed_singleton hclose hquote hapostrophe).append (ih fun x hx => h x (by simp [hx]))

/-- A literal ends at the first quote that is the one it began with. -/
theorem tagEndFrom?_literal {mark : UInt8} {value : Bytes} (h : mark ∉ value) (bs : Bytes) :
    tagEndFrom? (some mark) (value ++ mark :: bs) = (tagEnd? bs).map (value.length + 1 + ·) := by
  induction value with
  | nil =>
    simp only [List.nil_append, tagEndFrom?, Option.isNone_some, Bool.false_and, quoteAfter, tagEnd?]
    rw [if_neg (by simp), if_pos (by simp)]
    congr 1
    funext n
    simp only [List.length_nil]
    omega
  | cons b value ih =>
    simp only [List.mem_cons, not_or] at h
    simp only [List.cons_append, tagEndFrom?, Option.isNone_some, Bool.false_and, quoteAfter]
    rw [if_neg (by simp), if_neg (by simpa using Ne.symm h.1), ih h.2, Option.map_map]
    congr 1
    funext n
    simp only [Function.comp_apply, List.length_cons]
    omega

/-- A quoted literal is passed over, whichever of the quotes it stands between. -/
theorem isPassed_literal {mark : UInt8} {value : Bytes}
    (hmark : mark = Byte.quote ∨ mark = Byte.apostrophe) (h : mark ∉ value) :
    IsPassed (mark :: value ++ [mark]) := by
  intro bs
  have hafter : quoteAfter none mark = some mark := by
    rcases hmark with rfl | rfl <;> decide
  have hclose : (mark == Byte.closeAngle) = false := by
    rcases hmark with rfl | rfl <;> decide
  rw [List.append_assoc, List.cons_append, List.singleton_append, tagEnd?, tagEndFrom?, hafter,
    hclose, Bool.and_false, if_neg (by simp), tagEndFrom?_literal h, Option.map_map]
  congr 1
  funext n
  simp only [Function.comp_apply, List.length_append, List.length_cons, List.length_nil]
  omega

/-- The end of what was passed over, where a tag is closed. -/
theorem tagEnd?_passed {front : Bytes} (h : front.IsPassed) (bs : Bytes) :
    tagEnd? (front ++ Byte.closeAngle :: bs) = some front.length := by
  have hclose : tagEnd? (Byte.closeAngle :: bs) = some 0 := rfl
  rw [h, hclose, Option.map_some, Nat.add_zero]

theorem isPassed_openAngle : IsPassed [Byte.openAngle] :=
  isPassed_singleton (by decide) (by decide) (by decide)

theorem isPassed_name {name : String} (h : isName name = true) : IsPassed (encode name) := by
  apply isPassed_of_forall
  intro b hb
  have hbyte := isNameByte_of_mem h hb
  exact ⟨ne_of_isNameByte hbyte (by decide), ne_of_isNameByte hbyte (by decide),
    ne_of_isNameByte hbyte (by decide)⟩

theorem isPassed_blank {bs : Bytes} (h : bs.IsBlank) : bs.IsPassed := by
  apply isPassed_of_forall
  intro b hb
  have hne {d : UInt8} (hd : isBlankByte d = false) : b ≠ d := by
    rintro rfl
    rw [h b hb] at hd
    cases hd
  exact ⟨hne rfl, hne rfl, hne rfl⟩

theorem isPassed_attributeForm (a : AttributeForm) : a.source.IsPassed := by
  have hequals : IsPassed [Byte.equals] := isPassed_singleton (by decide) (by decide) (by decide)
  have hvalue := isPassed_literal a.isQuote_mark a.mark_not_mem
  have hall := (isPassed_blank a.lead_blank).append ((isPassed_name a.isName_name).append
    ((isPassed_blank a.beforeSign_blank).append (hequals.append
      ((isPassed_blank a.afterSign_blank).append hvalue))))
  simpa [AttributeForm.source, AttributeForm.body] using hall

theorem isPassed_attributeForms (forms : List AttributeForm) :
    IsPassed (forms.flatMap AttributeForm.source) := by
  induction forms with
  | nil => exact isPassed_nil
  | cons a forms ih => exact (isPassed_attributeForm a).append ih

/-- Neither a quote nor a bracket within a value hides the end of a start tag, or pretends to be
one. -/
theorem tagEnd?_startTagForm (f : StartTagForm) (rest : Bytes) :
    tagEnd? (f.source ++ rest) = some (f.body.length + 1) := by
  have hslash : IsPassed (if f.empty then [Byte.slash] else []) := by
    cases f.empty with
    | true => exact isPassed_singleton (by decide) (by decide) (by decide)
    | false => exact isPassed_nil
  have hbody : IsPassed f.body :=
    ((isPassed_name f.isName_name).append ((isPassed_attributeForms f.attributes).append
      (isPassed_blank f.trail_blank))).append hslash
  have hend := tagEnd?_passed (isPassed_openAngle.append hbody) rest
  simpa [StartTagForm.source, Nat.add_comm] using hend

end Bytes

namespace Construct

/-- Markup that begins neither with an exclamation mark nor with a question mark is a tag. -/
theorem cutMarkup?_tag {b : UInt8} (hbang : b ≠ Byte.bang) (hquestion : b ≠ '?'.toUInt8)
    (bs : Bytes) :
    cutMarkup? (Byte.openAngle :: b :: bs) =
      (Bytes.tagEnd? (Byte.openAngle :: b :: bs)).map fun n =>
        (if b = Byte.slash then endTag (((Byte.openAngle :: b :: bs).take n).drop 2)
          else startTag (((Byte.openAngle :: b :: bs).take n).drop 1), n + 1) := by
  have hopen : '<'.toUInt8 = Byte.openAngle := rfl
  have hbang' : '!'.toUInt8 = Byte.bang := rfl
  have hslash' : '/'.toUInt8 = Byte.slash := rfl
  by_cases hslash : b = Byte.slash
  · subst hslash
    simp [cutMarkup?, Bytes.isProperPrefix, commentOpen, literalOpen, instructionOpen,
      declarationOpen, endTagOpen, Bytes.ascii, hopen, hbang', hslash', hbang,
      hbang.symm, hquestion.symm]
  · simp [cutMarkup?, Bytes.isProperPrefix, commentOpen, literalOpen, instructionOpen,
      declarationOpen, endTagOpen, Bytes.ascii, hopen, hbang', hslash', hbang, hbang.symm,
      hquestion.symm, hslash, Ne.symm hslash]

/-- A start tag is cut where it ends. -/
theorem cut?_startTagForm (f : StartTagForm) (final : Bool) (rest : Bytes) :
    cut? final (f.source ++ rest) = some (startTag f.body, f.source.length) := by
  obtain ⟨b, bs, hname, hb, -⟩ := isName_iff.1 f.isName_name
  have hne {d : UInt8} (hd : isNameStart d = false) : b ≠ d := by
    rintro rfl
    rw [hb] at hd
    cases hd
  obtain ⟨tail, hbody⟩ : ∃ tail, f.body = b :: tail :=
    ⟨_, by rw [StartTagForm.body, StartTagForm.core, hname]; rfl⟩
  have hsource : f.source ++ rest = Byte.openAngle :: b :: (tail ++ Byte.closeAngle :: rest) := by
    simp [StartTagForm.source, hbody]
  have hend := Bytes.tagEnd?_startTagForm f rest
  rw [hsource] at hend ⊢
  rw [cut?, if_pos (by rfl), cutMarkup?_tag (hne (by decide)) (hne (by decide)), hend,
    Option.map_some, if_neg (hne (by decide))]
  simp [StartTagForm.source, hbody]

end Construct

/-! ### Reading what is between the brackets -/

/-- What does not end in a slash. -/
def Bytes.EndsOpen (bs : Bytes) : Prop := bs.getLast? ≠ some Byte.slash

namespace Bytes

theorem endsOpen_nil : EndsOpen [] := by
  intro h
  cases h

theorem EndsOpen.append {front back : Bytes} (hfront : front.EndsOpen) (hback : back.EndsOpen) :
    (front ++ back).EndsOpen := by
  unfold EndsOpen at *
  rw [List.getLast?_append]
  cases hlast : back.getLast? with
  | none => exact hfront
  | some b =>
    rw [hlast] at hback
    exact hback

theorem endsOpen_of_forall {bs : Bytes} (h : ∀ b ∈ bs, b ≠ Byte.slash) : bs.EndsOpen :=
  fun hlast => h _ (List.mem_of_getLast? hlast) rfl

theorem endsOpen_attributeForms (forms : List AttributeForm) :
    EndsOpen (forms.flatMap AttributeForm.source) := by
  induction forms with
  | nil => exact endsOpen_nil
  | cons a forms ih =>
    refine EndsOpen.append ?_ ih
    have hlast : a.source.getLast? = some a.mark := by
      simp [AttributeForm.source, AttributeForm.body, List.getLast?_append, List.getLast?_cons]
    rw [EndsOpen, hlast]
    rcases a.isQuote_mark with h | h <;> rw [h] <;> decide

end Bytes

namespace Place

variable {p : Place}

theorem decodeText_encode (s : String) : decodeText (Bytes.encode s) = .ok s := by
  rw [decodeText, Bytes.decode?_encode]

/-- What comes before the slash, or before the end, does not end in a slash. -/
theorem splitSlash_form (f : StartTagForm) : splitSlash f.body = (f.core, f.empty) := by
  have hname : Bytes.EndsOpen (Bytes.encode f.name) :=
    Bytes.endsOpen_of_forall fun b hb =>
      ne_of_isNameByte (isNameByte_of_mem f.isName_name hb) (by decide)
  have htrail : f.trail.EndsOpen := by
    apply Bytes.endsOpen_of_forall
    rintro b hb rfl
    cases f.trail_blank _ hb
  have hcore : f.core.EndsOpen :=
    hname.append ((Bytes.endsOpen_attributeForms f.attributes).append htrail)
  cases hempty : f.empty with
  | true => simp [splitSlash, StartTagForm.body, hempty]
  | false =>
    rw [StartTagForm.body, hempty, splitSlash]
    simp only [Bool.false_eq_true, if_false, List.append_nil]
    exact if_neg hcore

theorem readStartTag_form (f : StartTagForm) (hp : p ≠ epilog) :
    p.readStartTag f.body = .ok (f.reading p) := by
  have hhead : ∀ b ∈ (f.attributes.flatMap AttributeForm.source ++ f.trail).head?,
      isNameByte b = false := by
    intro b hb
    apply isNameByte_of_isBlankByte
    cases hforms : f.attributes with
    | nil =>
      rw [hforms, List.flatMap_nil, List.nil_append] at hb
      exact f.trail_blank b (List.mem_of_head? hb)
    | cons a forms =>
      cases hlead : a.lead with
      | nil => exact absurd hlead a.lead_ne_nil
      | cons x lead =>
        have hx : isBlankByte x = true := a.lead_blank x (by simp [hlead])
        simp only [hforms, List.flatMap_cons, AttributeForm.source, hlead, List.cons_append,
          List.head?_cons, Option.mem_some_iff] at hb
        rwa [← hb]
  have hparse : Attributes.parse (f.attributes.flatMap AttributeForm.source ++ f.trail) =
      .ok f.entries := Attributes.parse_forms f.trail_blank f.nodup_names
  simp only [readStartTag, splitSlash_form, StartTagForm.core,
    Bytes.splitName?_encode f.isName_name _ hhead, if_neg hp, decodeText_encode, hparse]
  unfold StartTagForm.reading
  cases f.empty <;> rfl

end Place

end XmlSieve
