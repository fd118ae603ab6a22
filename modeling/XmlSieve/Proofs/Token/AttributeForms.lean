import Mathlib.Data.List.Nodup
import XmlSieve.Proofs.Text.Splicing

/-!
# The form of attribute lists

`AttributeForm` is one attribute in the form that the grammar of start tags gives it, with the blanks
before it and inside it, its quotes, and what stands between them.  `Attributes.parse` reads the
bytes of such attributes one after the other, with blanks after the last (`Attributes.parse_forms`),
and it reads nothing else (`Attributes.exists_forms_of_parse`).
-/

namespace XmlSieve

/-! ### Bytes around names and values -/

theorem ne_of_isNameByte {b d : UInt8} (hb : isNameByte b = true) (hd : isNameByte d = false) :
    b ≠ d := by
  rintro rfl
  rw [hb] at hd
  cases hd

theorem isBlankByte_of_isNameByte {b : UInt8} (hb : isNameByte b = true) :
    isBlankByte b = false := by
  have hspace : b ≠ Byte.space := ne_of_isNameByte hb (by decide)
  have htab : b ≠ Byte.tab := ne_of_isNameByte hb (by decide)
  have hfeed : b ≠ Byte.lineFeed := ne_of_isNameByte hb (by decide)
  have hreturn : b ≠ Byte.carriageReturn := ne_of_isNameByte hb (by decide)
  simp [isBlankByte, hspace, htab, hfeed, hreturn]

namespace Bytes

theorem skipBlanks_cons {b : UInt8} (h : isBlankByte b = false) (bs : Bytes) :
    skipBlanks (b :: bs) = b :: bs := by
  simp [skipBlanks, h]

end Bytes

/-! ### The form of an attribute -/

/-- Blanks in any number. -/
def Bytes.IsBlank (bs : Bytes) : Prop := ∀ b ∈ bs, isBlankByte b = true

/-- An attribute as it stands in a start tag: blanks, the name, a sign of equality with blanks around
it, and the value between quotes. -/
structure AttributeForm where
  lead : Bytes
  name : String
  beforeSign : Bytes
  afterSign : Bytes
  /-- The quote before and after the value. -/
  mark : UInt8
  /-- The bytes between the quotes. -/
  inside : Bytes
  /-- What these stand for, with tabs and line ends counted as spaces. -/
  value : String
  lead_ne_nil : lead ≠ []
  lead_blank : lead.IsBlank
  isName_name : isName name = true
  beforeSign_blank : beforeSign.IsBlank
  afterSign_blank : afterSign.IsBlank
  isQuote_mark : mark = Byte.quote ∨ mark = Byte.apostrophe
  mark_not_mem : mark ∉ inside
  openAngle_not_mem : Byte.openAngle ∉ inside
  isText_inside : inside.IsText
  expands_inside : Reference.Expands (inside.map RawAttribute.spaceOut) (Bytes.encode value)

namespace AttributeForm

/-- The attribute from its name on. -/
def body (a : AttributeForm) : Bytes :=
  Bytes.encode a.name ++
    (a.beforeSign ++ Byte.equals :: (a.afterSign ++ a.mark :: (a.inside ++ [a.mark])))

def source (a : AttributeForm) : Bytes := a.lead ++ a.body

/-- What the attribute amounts to. -/
def entry (a : AttributeForm) : String × String := (a.name, a.value)

end AttributeForm

/-- No blank is part of a name. -/
theorem isNameByte_of_isBlankByte {b : UInt8} (h : isBlankByte b = true) : isNameByte b = false := by
  rw [Bool.eq_false_iff]
  intro hname
  rw [isBlankByte_of_isNameByte hname] at h
  cases h

namespace Bytes

theorem skipBlanks_append {blanks rest : Bytes} (h : blanks.IsBlank)
    (hrest : ∀ b ∈ rest.head?, isBlankByte b = false) : skipBlanks (blanks ++ rest) = rest := by
  rw [skipBlanks, List.dropWhile_append_of_pos h]
  cases rest with
  | nil => rfl
  | cons b rest => exact skipBlanks_cons (hrest b rfl) rest

/-- A name is split off only where one begins. -/
theorem exists_head_of_splitName? {bs raw rest : Bytes} (h : bs.splitName? = some (raw, rest)) :
    ∃ b tail, bs = b :: tail ∧ isNameStart b = true := by
  cases bs with
  | nil => cases h
  | cons b tail =>
    simp only [splitName?] at h
    split_ifs at h with hb
    exact ⟨b, tail, rfl, hb⟩

/-- Bytes are the blanks that they begin with and what follows these. -/
theorem exists_blanks (bs : Bytes) : ∃ blanks, blanks.IsBlank ∧ bs = blanks ++ bs.skipBlanks :=
  ⟨bs.takeWhile isBlankByte, List.all_eq_true.1 List.all_takeWhile,
    (List.takeWhile_append_dropWhile).symm⟩

end Bytes

/-! ### One attribute -/

theorem Entries.get?_eq_none_iff {α : Type} {entries : Entries α} {name : String} :
    entries.get? name = none ↔ name ∉ entries.names := by
  induction entries with
  | nil => simp [Entries.get?, Entries.names]
  | cons entry entries ih =>
    by_cases h : entry.1 = name
    · simp [Entries.get?, Entries.names, h]
    · simp [Entries.get?, Entries.names, h, Ne.symm h, ih]

namespace RawAttribute

variable {bs rest value : Bytes}

theorem exists_of_splitValue? (h : splitValue? bs = some (value, rest)) :
    ∃ mark, (mark = Byte.quote ∨ mark = Byte.apostrophe) ∧ mark ∉ value ∧ Byte.openAngle ∉ value ∧
      bs = mark :: (value ++ mark :: rest) := by
  cases bs with
  | nil => cases h
  | cons b bs =>
    simp only [splitValue?] at h
    split_ifs at h with hb
    obtain ⟨hsplit, hopen⟩ := Option.filter_eq_some_iff.1 h
    obtain ⟨hmark, rfl⟩ := Bytes.splitAt?_eq_some_iff.1 hsplit
    exact ⟨b, by simpa using hb, hmark, by simpa using hopen, rfl⟩

theorem exists_of_splitAssigned? (h : splitAssigned? bs = some (value, rest)) :
    ∃ before after quoted, Bytes.IsBlank before ∧ Bytes.IsBlank after ∧
      bs = before ++ Byte.equals :: (after ++ quoted) ∧ splitValue? quoted = some (value, rest) := by
  obtain ⟨before, hbefore, hbs⟩ := bs.exists_blanks
  unfold splitAssigned? at h
  cases hskip : bs.skipBlanks with
  | nil =>
    rw [hskip] at h
    cases h
  | cons b assigned =>
    rw [hskip] at h
    simp only at h
    split_ifs at h with hb
    obtain ⟨after, hafter, hassigned⟩ := Bytes.exists_blanks assigned
    refine ⟨before, after, _, hbefore, hafter, ?_, h⟩
    rw [← hassigned, ← beq_iff_eq.1 hb, ← hskip]
    exact hbs

theorem splitAssigned?_form (a : AttributeForm) (rest : Bytes) :
    splitAssigned? (a.beforeSign ++ Byte.equals ::
        (a.afterSign ++ a.mark :: (a.inside ++ a.mark :: rest))) = some (a.inside, rest) := by
  have hmark : isBlankByte a.mark = false := by
    rcases a.isQuote_mark with h | h <;> rw [h] <;> rfl
  rw [splitAssigned?, Bytes.skipBlanks_append a.beforeSign_blank (by simp; rfl)]
  simp only [BEq.rfl, if_true]
  rw [Bytes.skipBlanks_append a.afterSign_blank (by simpa using hmark), splitValue?,
    if_pos (by simpa using a.isQuote_mark), Bytes.splitAt?_append a.mark_not_mem, Option.filter_some,
    if_pos (by simpa using a.openAngle_not_mem)]

/-- An attribute is split off as its name and the bytes between its quotes. -/
theorem split?_form (a : AttributeForm) (rest : Bytes) :
    split? (a.body ++ rest) = some (⟨Bytes.encode a.name, a.inside⟩, rest) := by
  have hbody : a.body ++ rest = Bytes.encode a.name ++ (a.beforeSign ++
      Byte.equals :: (a.afterSign ++ a.mark :: (a.inside ++ a.mark :: rest))) := by
    simp [AttributeForm.body]
  have hhead : ∀ b ∈ (a.beforeSign ++
      Byte.equals :: (a.afterSign ++ a.mark :: (a.inside ++ a.mark :: rest))).head?,
      isNameByte b = false := by
    intro b hb
    cases hsign : a.beforeSign with
    | nil =>
      rw [hsign] at hb
      cases hb
      rfl
    | cons x blanks =>
      have hx : isBlankByte x = true := a.beforeSign_blank x (by simp [hsign])
      rw [hsign] at hb
      cases hb
      exact isNameByte_of_isBlankByte hx
  rw [hbody, split?, Bytes.splitName?_encode a.isName_name _ hhead]
  simp only [Option.bind_eq_bind, Option.bind_some]
  rw [splitAssigned?_form]
  rfl

theorem decodeValue_ok_iff {raw : Bytes} {value : String} :
    decodeValue raw = .ok value ↔ Reference.Expands (raw.map spaceOut) (Bytes.encode value) := by
  rw [decodeValue]
  constructor
  · intro h
    cases hexpand : Reference.expand (raw.map spaceOut) with
    | error cause =>
      rw [hexpand] at h
      cases h
    | ok expanded =>
      rw [hexpand] at h
      simp only [bind, Except.bind] at h
      cases htext : expanded.decode? with
      | none =>
        rw [htext] at h
        cases h
      | some text =>
        rw [htext] at h
        cases h
        rw [← Bytes.decode?_eq_some_iff.1 htext]
        exact Reference.expands_of_expand hexpand
  · intro h
    rw [Reference.expand_of_expands h]
    simp only [bind, Except.bind]
    rw [Bytes.decode?_encode]
    rfl

theorem addTo_form {seen : Attributes} {a : AttributeForm} (hnew : a.name ∉ Entries.names seen) :
    addTo seen ⟨Bytes.encode a.name, a.inside⟩ = .ok (seen ++ [a.entry]) := by
  have hvalue : decodeValue a.inside = .ok a.value := decodeValue_ok_iff.2 a.expands_inside
  rw [← Entries.get?_eq_none_iff] at hnew
  simp only [addTo, Bytes.decode?_encode, hnew, hvalue]
  rfl

/-- What is added is the name and what the value stands for. -/
theorem exists_of_addTo {seen attributes : Attributes} {raw : RawAttribute}
    (h : raw.addTo seen = .ok attributes) :
    ∃ name value, raw.name = Bytes.encode name ∧ name ∉ Entries.names seen ∧
      Reference.Expands (raw.value.map spaceOut) (Bytes.encode value) ∧
      attributes = seen ++ [(name, value)] := by
  unfold addTo at h
  cases hname : raw.name.decode? with
  | none =>
    rw [hname] at h
    cases h
  | some name =>
    rw [hname] at h
    simp only at h
    split_ifs at h with hknown
    cases hvalue : decodeValue raw.value with
    | error cause =>
      rw [hvalue] at h
      cases h
    | ok value =>
      rw [hvalue] at h
      cases h
      exact ⟨name, value, Bytes.decode?_eq_some_iff.1 hname,
        Entries.get?_eq_none_iff.1 (Option.not_isSome_iff_eq_none.1 hknown),
        decodeValue_ok_iff.1 hvalue, rfl⟩

/-- What is split off after blanks, and can be added, has the form of an attribute. -/
theorem exists_form {seen attributes : Attributes} {raw : RawAttribute}
    (hblank : bs.head?.any isBlankByte = true) (hsplit : split? bs.skipBlanks = some (raw, rest))
    (hadd : raw.addTo seen = .ok attributes) :
    ∃ a : AttributeForm, bs = a.source ++ rest ∧ a.name ∉ Entries.names seen ∧
      attributes = seen ++ [a.entry] := by
  obtain ⟨name, value, hraw, hnew, hvalue, rfl⟩ := exists_of_addTo hadd
  obtain ⟨lead, hlead, hbs⟩ := bs.exists_blanks
  simp only [split?, Option.bind_eq_bind, Option.bind_eq_some_iff] at hsplit
  obtain ⟨⟨first, afterName⟩, hfirst, ⟨inside, after⟩, hassigned, hsplit⟩ := hsplit
  cases hsplit
  obtain ⟨before, sign, quoted, hbefore, hsign, rfl, hquoted⟩ := exists_of_splitAssigned? hassigned
  obtain ⟨mark, hmark, hown, hopen, rfl⟩ := exists_of_splitValue? hquoted
  have hne : lead ≠ [] := by
    rintro rfl
    obtain ⟨b, tail, hskip, hb⟩ := Bytes.exists_head_of_splitName? hfirst
    rw [hbs, List.nil_append, hskip] at hblank
    have hname := isBlankByte_of_isNameByte (isNameByte_of_isNameStart hb)
    simp [hname] at hblank
  have htext : inside.IsText := by
    have hspaced := (isText_map_spaceOut [] inside).1
    exact hspaced (hvalue.isText_iff.1 (Bytes.isText_encode value))
  have hname : isName name = true :=
    Bytes.isName_of_splitName? hfirst (Bytes.decode?_eq_some_iff.2 hraw)
  have happend := Bytes.append_of_splitName? hfirst
  change first = Bytes.encode name at hraw
  rw [← happend, hraw] at hbs
  refine ⟨⟨lead, name, before, sign, mark, inside, value, hne, hlead, hname, hbefore, hsign, hmark,
    hown, hopen, htext, hvalue⟩, hbs.trans ?_, hnew, rfl⟩
  simp [AttributeForm.source, AttributeForm.body]

end RawAttribute

/-! ### Lists -/

namespace Attributes

/-- Reading goes on after an attribute that was split off. -/
theorem parseAfter_of_split {seen : Attributes} {bs rest : Bytes} {raw : RawAttribute}
    (hblank : bs.head?.any isBlankByte = true)
    (hsplit : RawAttribute.split? bs.skipBlanks = some (raw, rest)) :
    parseAfter seen bs = (raw.addTo seen).bind (parseAfter · rest) := by
  have hne : bs.skipBlanks.isEmpty = false := by
    cases h : bs.skipBlanks with
    | nil =>
      rw [h] at hsplit
      cases hsplit
    | cons => rfl
  rw [parseAfter, hne, hblank]
  simp only [Bool.false_eq_true, if_false, Bool.not_true]
  split
  · next hnone =>
    rw [hsplit] at hnone
    cases hnone
  · next raw' rest' hsome =>
    rw [hsplit] at hsome
    cases hsome
    rfl

theorem parseAfter_form {seen : Attributes} {a : AttributeForm}
    (hnew : a.name ∉ Entries.names seen) (rest : Bytes) :
    parseAfter seen (a.source ++ rest) = parseAfter (seen ++ [a.entry]) rest := by
  obtain ⟨b, body, hbody, hstart, -⟩ := isName_iff.1 a.isName_name
  have hskip : Bytes.skipBlanks (a.source ++ rest) = a.body ++ rest := by
    rw [AttributeForm.source, List.append_assoc]
    refine Bytes.skipBlanks_append a.lead_blank ?_
    simpa [AttributeForm.body, hbody] using
      isBlankByte_of_isNameByte (isNameByte_of_isNameStart hstart)
  have hblank : (a.source ++ rest).head?.any isBlankByte = true := by
    cases hlead : a.lead with
    | nil => exact absurd hlead a.lead_ne_nil
    | cons x lead =>
      have hx : isBlankByte x = true := a.lead_blank x (by simp [hlead])
      simpa [AttributeForm.source, hlead] using hx
  rw [parseAfter_of_split hblank (hskip ▸ RawAttribute.split?_form a rest),
    RawAttribute.addTo_form hnew]
  rfl

/-- Attributes in their form are read one after the other. -/
theorem parseAfter_forms {seen : Attributes} {forms : List AttributeForm} {trail : Bytes}
    (htrail : trail.IsBlank)
    (hnames : (Entries.names seen ++ forms.map AttributeForm.name).Nodup) :
    parseAfter seen (forms.flatMap AttributeForm.source ++ trail) =
      .ok (seen ++ forms.map AttributeForm.entry) := by
  induction forms generalizing seen with
  | nil =>
    have hskip : Bytes.skipBlanks (trail ++ []) = [] := Bytes.skipBlanks_append htrail (by simp)
    rw [List.append_nil] at hskip
    rw [List.flatMap_nil, List.nil_append, parseAfter, if_pos (by rw [hskip]; rfl)]
    simp
  | cons a forms ih =>
    have hnew : a.name ∉ Entries.names seen := by
      intro hmem
      rw [List.map_cons, List.nodup_append] at hnames
      exact hnames.2.2 a.name hmem a.name List.mem_cons_self rfl
    have hlonger : (Entries.names (seen ++ [a.entry]) ++ forms.map AttributeForm.name).Nodup := by
      simpa [Entries.names, AttributeForm.entry] using hnames
    rw [List.flatMap_cons, List.append_assoc, parseAfter_form hnew, ih hlonger]
    simp

/-- Whatever is read has the form of attributes with blanks after the last. -/
theorem exists_forms_of_parseAfter {seen attributes : Attributes} {bs : Bytes}
    (hseen : (Entries.names seen).Nodup) (h : parseAfter seen bs = .ok attributes) :
    ∃ (forms : List AttributeForm) (trail : Bytes), trail.IsBlank ∧
      bs = forms.flatMap AttributeForm.source ++ trail ∧
      (Entries.names seen ++ forms.map AttributeForm.name).Nodup ∧
      attributes = seen ++ forms.map AttributeForm.entry := by
  fun_induction parseAfter seen bs with
  | case1 seen bs hblank =>
    cases h
    obtain ⟨trail, htrail, hbs⟩ := bs.exists_blanks
    rw [List.isEmpty_iff.1 hblank, List.append_nil] at hbs
    exact ⟨[], trail, htrail, by simpa using hbs, by simpa using hseen, by simp⟩
  | case2 | case3 => cases h
  | case4 seen bs hblank hhead raw rest hsplit hlt ih =>
    cases hadd : raw.addTo seen with
    | error cause =>
      rw [hadd] at h
      cases h
    | ok longer =>
      rw [hadd] at h
      rw [Bool.not_eq_true, Bool.not_eq_false'] at hhead
      obtain ⟨a, rfl, hnew, rfl⟩ := RawAttribute.exists_form hhead hsplit hadd
      have hlonger : (Entries.names (seen ++ [a.entry])).Nodup := by
        rw [Entries.names, List.map_append, List.map_singleton, ← List.concat_eq_append]
        exact hseen.concat hnew
      obtain ⟨forms, trail, htrail, rfl, hnames, rfl⟩ := ih _ hlonger h
      refine ⟨a :: forms, trail, htrail, by simp, ?_, by simp⟩
      simpa [Entries.names, AttributeForm.entry] using hnames

theorem parse_forms {forms : List AttributeForm} {trail : Bytes} (htrail : trail.IsBlank)
    (hnames : (forms.map AttributeForm.name).Nodup) :
    parse (forms.flatMap AttributeForm.source ++ trail) = .ok (forms.map AttributeForm.entry) :=
  parseAfter_forms htrail hnames

theorem exists_forms_of_parse {attributes : Attributes} {bs : Bytes}
    (h : parse bs = .ok attributes) :
    ∃ (forms : List AttributeForm) (trail : Bytes), trail.IsBlank ∧
      bs = forms.flatMap AttributeForm.source ++ trail ∧
      (forms.map AttributeForm.name).Nodup ∧ attributes = forms.map AttributeForm.entry := by
  have hnone : (Entries.names ([] : Attributes)).Nodup := List.nodup_nil
  exact exists_forms_of_parseAfter hnone h

end Attributes

end XmlSieve
