import XmlSieve.Element.Markup
import XmlSieve.Proofs.Token.AttributeForms

/-!
# Attribute lists, written and read

`Markup.ofAttributes` writes the attributes of a start tag and `Attributes.parse` reads them.  What
is written has one of the forms that can be read (`Attributes.exists_written`), and what is read is
what was written, except that a tab or a line end in a value comes back as a space
(`parse_ofAttributes`): it is written as it stands, and as it stands it counts as a space.  In the
other direction, whatever is read has names that are names, each of them once
(`Attributes.parse_proper`).
-/

namespace XmlSieve

namespace Attributes

/-- Names that can be written, each of them once. -/
structure Proper (attributes : Attributes) : Prop where
  isName : ∀ entry ∈ attributes, isName entry.1 = true
  nodup : (Entries.names attributes).Nodup

/-- The attributes with spaces for the tabs and line ends in their values. -/
def spacedOut (attributes : Attributes) : Attributes :=
  attributes.map fun (name, value) => (name, XmlSieve.spacedOut value)

/-- Attributes are as they were exactly if no value contains a tab or a line end. -/
theorem spacedOut_eq_self_iff {attributes : Attributes} :
    attributes.spacedOut = attributes ↔
      ∀ entry ∈ attributes, ∀ c ∈ entry.2.toList, c ≠ '\t' ∧ c ≠ '\n' ∧ c ≠ '\r' := by
  induction attributes with
  | nil => simp [spacedOut]
  | cons entry attributes ih =>
    rw [List.forall_mem_cons, ← ih, ← XmlSieve.spacedOut_eq_self_iff]
    simp [spacedOut, Prod.ext_iff]

theorem encode_ofAttributes_cons (name value : String) (rest : Attributes) :
    Bytes.encode (Markup.ofAttributes ((name, value) :: rest)) =
      Byte.space :: (Bytes.encode name ++ Byte.equals :: Byte.quote ::
        Bytes.encode (escape value) ++ Byte.quote :: Bytes.encode (Markup.ofAttributes rest)) := by
  have hspace : Bytes.encode " " = [Byte.space] := rfl
  have hequals : Bytes.encode "=\x22" = [Byte.equals, Byte.quote] := rfl
  have hquote : Bytes.encode "\x22" = [Byte.quote] := rfl
  simp [Markup.ofAttributes, Markup.ofAttribute, hspace, hequals, hquote]

end Attributes

/-- An attribute as it is written: a space before it, no blanks inside it, and double quotes around
the escaped value. -/
def AttributeForm.written (name value : String) (hname : isName name = true) : AttributeForm where
  lead := [Byte.space]
  name := name
  beforeSign := []
  afterSign := []
  mark := Byte.quote
  inside := Bytes.encode (escape value)
  value := spacedOut value
  lead_ne_nil := List.cons_ne_nil _ _
  lead_blank := List.forall_mem_singleton.2 rfl
  isName_name := hname
  beforeSign_blank := List.forall_mem_nil _
  afterSign_blank := List.forall_mem_nil _
  isQuote_mark := .inl rfl
  mark_not_mem := toUInt8_not_mem_escape (d := '\x22') (by decide) value
  openAngle_not_mem := toUInt8_not_mem_escape (d := '<') (by decide) value
  isText_inside := Bytes.isText_encode _
  expands_inside := by
    rw [map_spaceOut_escape]
    exact Reference.expands_of_expand (Reference.expand_escape _)

namespace Attributes

/-- What is written has the form of attributes. -/
theorem exists_written {attributes : Attributes}
    (hnames : ∀ entry ∈ attributes, isName entry.1 = true) :
    ∃ forms : List AttributeForm,
      Bytes.encode (Markup.ofAttributes attributes) = forms.flatMap AttributeForm.source ∧
      forms.map AttributeForm.name = Entries.names attributes ∧
      forms.map AttributeForm.entry = attributes.spacedOut := by
  induction attributes with
  | nil => exact ⟨[], rfl, rfl, rfl⟩
  | cons entry attributes ih =>
    obtain ⟨name, value⟩ := entry
    obtain ⟨hname, hrest⟩ := List.forall_mem_cons.1 hnames
    obtain ⟨forms, hsource, hforms, hentries⟩ := ih hrest
    refine ⟨.written name value hname :: forms, ?_, ?_, ?_⟩
    · rw [encode_ofAttributes_cons, hsource]
      simp [AttributeForm.source, AttributeForm.body, AttributeForm.written]
    · exact congrArg (name :: ·) hforms
    · exact congrArg ((name, XmlSieve.spacedOut value) :: ·) hentries

theorem parseAfter_ofAttributes {seen attributes : Attributes}
    (hnames : ∀ entry ∈ attributes, isName entry.1 = true)
    (hdistinct : (Entries.names (seen ++ attributes)).Nodup) :
    parseAfter seen (Bytes.encode (Markup.ofAttributes attributes)) =
      .ok (seen ++ attributes.spacedOut) := by
  obtain ⟨forms, hsource, hforms, hentries⟩ := exists_written hnames
  have hnodup : (Entries.names seen ++ forms.map AttributeForm.name).Nodup := by
    rwa [hforms, Entries.names, Entries.names, ← List.map_append]
  have hread := parseAfter_forms (List.forall_mem_nil _) hnodup
  rwa [List.append_nil, ← hsource, hentries] at hread

/-- Whatever is read can be written: its names are names, and none occurs twice. -/
theorem parse_proper {attributes : Attributes} {bs : Bytes} (h : parse bs = .ok attributes) :
    attributes.Proper := by
  obtain ⟨forms, trail, -, -, hnames, rfl⟩ := exists_forms_of_parse h
  refine ⟨fun entry hentry => ?_, ?_⟩
  · obtain ⟨a, -, rfl⟩ := List.mem_map.1 hentry
    exact a.isName_name
  · rwa [Entries.names, List.map_map]

/-- Attributes with distinct names, as they are written in a start tag, are read in the same order
with the same names and values, but with a space for every tab and line end in a value.  Hence
exactly the attributes without these are read as they were. -/
theorem parse_ofAttributes (attributes : Attributes)
    (hnames : ∀ entry ∈ attributes, isName entry.1 = true)
    (hdistinct : (Entries.names attributes).Nodup) :
    parse (Bytes.encode (Markup.ofAttributes attributes)) =
        .ok (attributes.map fun (name, value) => (name, XmlSieve.spacedOut value)) ∧
      (parse (Bytes.encode (Markup.ofAttributes attributes)) = .ok attributes ↔
        ∀ entry ∈ attributes, ∀ c ∈ entry.2.toList, c ≠ '\t' ∧ c ≠ '\n' ∧ c ≠ '\r') := by
  have hread : parse (Bytes.encode (Markup.ofAttributes attributes)) = .ok attributes.spacedOut :=
    parseAfter_ofAttributes hnames hdistinct
  refine ⟨hread, ?_⟩
  rw [hread, Except.ok.injEq]
  exact spacedOut_eq_self_iff

/-- Two attributes with markup in their values, of which one ends in a line feed. -/
theorem parse_ofAttributes_line_feed :
    parse (Bytes.encode (Markup.ofAttributes [("a", "<&\x22é"), ("b:c", "x\n")])) =
        .ok ([("a", "<&\x22é"), ("b:c", "x\n")].map fun (name, value) =>
          (name, XmlSieve.spacedOut value)) ∧
      (parse (Bytes.encode (Markup.ofAttributes [("a", "<&\x22é"), ("b:c", "x\n")])) =
          .ok [("a", "<&\x22é"), ("b:c", "x\n")] ↔
        ∀ entry ∈ [("a", "<&\x22é"), ("b:c", "x\n")], ∀ c ∈ entry.2.toList,
          c ≠ '\t' ∧ c ≠ '\n' ∧ c ≠ '\r') :=
  parse_ofAttributes _ (by decide +kernel) (by decide)

/-- A tab is not read as it was written. -/
theorem parse_ofAttributes_tab :
    isName "a" = true ∧ (Entries.names [("a", "\t")]).Nodup ∧
      parse (Bytes.encode (Markup.ofAttributes [("a", "\t")])) ≠ .ok [("a", "\t")] := by
  refine ⟨by decide +kernel, by decide, ?_⟩
  decide +kernel

end Attributes

end XmlSieve
