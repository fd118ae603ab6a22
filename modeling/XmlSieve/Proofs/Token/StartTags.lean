import XmlSieve.Proofs.Token.Rereading

/-!
# Start tags

Three passes go over a start tag: the search for its end, the look for a slash before the end, and
the reading of the name and the attributes.  They agree on its form (`StartTagForm`): a tokenizer
before which an element may start answers with a start tag exactly for bytes of this form, takes
these bytes and no other, and gives the end of the element next exactly if there is a slash
(`Tokenizer.next_startTag_iff`).
-/

namespace XmlSieve

/-! ### What is read has the form -/

namespace Place

variable {p : Place} {body core : Bytes} {empty : Bool} {r : Reading}

theorem eq_of_splitSlash (h : splitSlash body = (core, empty)) :
    body = core ++ if empty then [Byte.slash] else [] := by
  unfold splitSlash at h
  split_ifs at h with hlast
  · cases h
    exact (List.dropLast_append_getLast? _ hlast).symm
  · cases h
    simp

/-- Whatever is read between the brackets has the form of a start tag. -/
theorem exists_form_of_readStartTag (h : p.readStartTag body = .ok r) :
    ∃ f : StartTagForm, body = f.body ∧ r = f.reading p := by
  obtain ⟨raw, rest, name, attributes, hsplit, -, hname, hparse, rfl⟩ := exists_of_readStartTag h
  rcases hslash : splitSlash body with ⟨core, empty⟩
  rw [hslash] at hsplit
  have hraw := decode?_of_decodeText hname
  have hisName : isName name = true := Bytes.isName_of_splitName? hsplit hraw
  have hcore : raw ++ rest = core := Bytes.append_of_splitName? hsplit
  rw [Bytes.decode?_eq_some_iff.1 hraw] at hcore
  obtain ⟨forms, trail, htrail, rfl, hnames, rfl⟩ := Attributes.exists_forms_of_parse hparse
  refine ⟨⟨name, forms, trail, empty, hisName, hnames, htrail⟩, ?_, ?_⟩
  · rw [eq_of_splitSlash hslash, ← hcore]
    rfl
  · cases empty <;> rfl

end Place

/-! ### The tokenizer -/

namespace Tokenizer

variable {t u : Tokenizer} {front rest : Bytes}

/-- An element may start next: no fault was met, no end is owed, the root has not ended, and what is
unread begins with a bracket that opens no other markup. -/
structure AwaitsElement (t : Tokenizer) : Prop where
  failed : t.failed = false
  owed : t.owed = none
  place : t.place ≠ .epilog
  opens : t.unread.head? = some Byte.openAngle
  opens_tag : ∀ b ∈ t.unread.tail.head?, b ≠ Byte.bang ∧ b ≠ '?'.toUInt8 ∧ b ≠ Byte.slash

namespace AwaitsElement

/-- No byte order mark is passed before a bracket. -/
theorem next_eq (h : t.AwaitsElement) : t.next = { t with started := true }.scan := by
  obtain ⟨bs, hbs⟩ : ∃ bs, t.unread = Byte.openAngle :: bs := List.head?_eq_some_iff.1 h.opens
  have hmark : t.awaitsMark = false := by
    have hprefix : t.unread.isProperPrefix byteOrderMark = false := by rw [hbs]; rfl
    rw [awaitsMark, hprefix, Bool.and_false]
  have hstart : t.start = { t with started := true } := by
    have hno : byteOrderMark.isPrefixOf t.unread = false := by rw [hbs]; rfl
    cases hstarted : t.started with
    | true => rw [start_of_started hstarted, ← hstarted]
    | false => rw [start, if_neg (by simp [hstarted]), if_neg (by simp [hno])]
  rw [next_scan h.failed h.owed hmark, hstart]

/-- What is unread is cut as a start tag, if its end is there. -/
theorem cut?_eq (h : t.AwaitsElement) (final : Bool) :
    Construct.cut? final t.unread =
      t.unread.tagEnd?.map fun n => (.startTag ((t.unread.take n).drop 1), n + 1) := by
  obtain ⟨bs, hbs⟩ : ∃ bs, t.unread = Byte.openAngle :: bs := List.head?_eq_some_iff.1 h.opens
  cases bs with
  | nil =>
    rw [hbs]
    rfl
  | cons b bs =>
    obtain ⟨hbang, hquestion, hslash⟩ := h.opens_tag b (by simp [hbs])
    rw [hbs, Construct.cut?, if_pos (by simp), Construct.cutMarkup?_tag hbang hquestion]
    simp only [if_neg hslash]

/-- The bytes up to the end of a tag are its brackets and what is between them. -/
theorem unread_eq (h : t.AwaitsElement) {n : Nat} (hend : t.unread.tagEnd? = some n) :
    t.unread = Byte.openAngle :: (t.unread.take n).drop 1 ++ [Byte.closeAngle] ++
      t.unread.drop (n + 1) := by
  obtain ⟨bs, hbs⟩ : ∃ bs, t.unread = Byte.openAngle :: bs := List.head?_eq_some_iff.1 h.opens
  have hclose := Bytes.getElem?_of_tagEndFrom? hend
  rw [hbs] at hclose ⊢
  cases n with
  | zero => cases hclose
  | succ n =>
    rw [List.getElem?_cons_succ] at hclose
    obtain ⟨hlt, hget⟩ := List.getElem?_eq_some_iff.1 hclose
    have hdrop := List.drop_eq_getElem_cons hlt
    rw [hget] at hdrop
    have hsplit := List.take_append_drop n bs
    rw [hdrop] at hsplit
    simp [hsplit]

/-- Bytes of the form are taken, and no other. -/
theorem next_form (h : t.AwaitsElement) (f : StartTagForm) (hf : t.unread = f.source ++ rest) :
    ∃ u, t.next = (.ok (some (.startTag f.name f.entries)), u) ∧ u.unread = rest ∧
      u.started = true ∧ u.failed = false ∧ u.owed = if f.empty then some f.name else none := by
  have hrest : t.unread.drop f.source.length = rest := by rw [hf, List.drop_left]
  have hcut : Construct.cut? t.finished t.unread = some (.startTag f.body, f.source.length) := by
    rw [hf]
    exact Construct.cut?_startTagForm f t.finished rest
  have hread : t.place.read (.startTag f.body) = .ok (f.reading t.place) :=
    Place.readStartTag_form f h.place
  rw [h.next_eq, scan_of_cut (t := { t with started := true }) hcut]
  simp only [hread]
  unfold StartTagForm.reading
  cases f.empty with
  | true => exact ⟨_, rfl, hrest, rfl, h.failed, rfl⟩
  | false => exact ⟨_, rfl, hrest, rfl, h.failed, h.owed⟩

/-- Whatever is taken for a token has the form of a start tag. -/
theorem exists_form_of_next (h : t.AwaitsElement) {token : Token}
    (hnext : t.next = (.ok (some token), u)) :
    ∃ f : StartTagForm, t.unread = f.source ++ u.unread ∧ token = .startTag f.name f.entries := by
  rw [h.next_eq] at hnext
  have hcut := h.cut?_eq t.finished
  cases hend : t.unread.tagEnd? with
  | none =>
    rw [hend] at hcut
    rw [scan_of_none (t := { t with started := true }) hcut] at hnext
    exact absurd hnext wait_not_token
  | some n =>
    have hunread := h.unread_eq hend
    rw [hend, Option.map_some] at hcut
    rw [scan_of_cut (t := { t with started := true }) hcut] at hnext
    cases hread : t.place.read (.startTag ((t.unread.take n).drop 1)) with
    | error fault =>
      simp only [hread] at hnext
      cases hnext
    | ok r =>
      obtain ⟨f, hbody, rfl⟩ := Place.exists_form_of_readStartTag hread
      refine ⟨f, ?_⟩
      rw [hbody] at hunread
      simp only [hread] at hnext
      unfold StartTagForm.reading at hnext
      cases hempty : f.empty with
      | true | false =>
        rw [hempty] at hnext
        cases hnext
        exact ⟨hunread, rfl⟩

end AwaitsElement

/-- The end of an element is given without taking bytes exactly if it is owed. -/
theorem next_endTag_iff {name : String} {empty : Bool} (hstarted : u.started = true)
    (hfailed : u.failed = false) (howed : u.owed = if empty then some name else none) :
    u.next = (.ok (some (.endTag name)), { u with owed := none }) ↔ empty = true := by
  cases empty with
  | true =>
    have hnext : u.next = (.ok (some (.endTag name)), { u with owed := none }) := by
      simp only [next, hfailed, howed]
      rfl
    simp [hnext]
  | false =>
    rw [next_scan hfailed (howed.trans (by simp)) (awaitsMark_of_started hstarted),
      start_of_started hstarted]
    constructor
    · intro hscan
      exact absurd (unread_scan_lt hscan) (Nat.lt_irrefl _)
    · intro hfalse
      cases hfalse

/-- Before a tokenizer where an element may start, the bytes `front` are answered by a start tag
exactly if they have the form of one; the answer is the name and the attributes in order, and the end
of the element follows at once, before any other byte, exactly if the form has a slash. -/
theorem next_startTag_iff (h : t.AwaitsElement) (hsplit : t.unread = front ++ rest) :
    (∀ name attributes,
      (∃ u, t.next = (.ok (some (.startTag name attributes)), u) ∧ u.unread = rest) ↔
        ∃ f : StartTagForm, front = f.source ∧ name = f.name ∧ attributes = f.entries) ∧
    ∀ f : StartTagForm, front = f.source →
      ∃ u, t.next = (.ok (some (.startTag f.name f.entries)), u) ∧ u.unread = rest ∧
        (u.next = (.ok (some (.endTag f.name)), { u with owed := none }) ↔ f.empty = true) := by
  constructor
  · intro name attributes
    constructor
    · rintro ⟨u, hnext, hrest⟩
      obtain ⟨f, hunread, htoken⟩ := h.exists_form_of_next hnext
      cases htoken
      rw [hrest, hsplit] at hunread
      exact ⟨f, List.append_cancel_right hunread, rfl, rfl⟩
    · rintro ⟨f, rfl, rfl, rfl⟩
      obtain ⟨u, hnext, hrest, -⟩ := h.next_form f hsplit
      exact ⟨u, hnext, hrest⟩
  · rintro f rfl
    obtain ⟨u, hnext, hrest, hstarted, hfailed, howed⟩ := h.next_form f hsplit
    exact ⟨u, hnext, hrest, next_endTag_iff hstarted hfailed howed⟩

/-- A closing bracket and the other quote in a value, and a slash after it. -/
theorem next_startTag_quoted :
    AwaitsElement { unread := Bytes.encode "<a b='>\x22' />c" } ∧
    Bytes.encode "<a b='>\x22' />c" = Bytes.encode "<a b='>\x22' />" ++ Bytes.encode "c" ∧
    ∃ f : StartTagForm, Bytes.encode "<a b='>\x22' />" = f.source ∧ "a" = f.name ∧
      [("b", ">\x22")] = f.entries := by
  have hawaits : AwaitsElement { unread := Bytes.encode "<a b='>\x22' />c" } :=
    ⟨rfl, rfl, by decide, by decide +kernel, by decide +kernel⟩
  have hsplit : Bytes.encode "<a b='>\x22' />c" =
      Bytes.encode "<a b='>\x22' />" ++ Bytes.encode "c" := by decide +kernel
  have hnext : Tokenizer.next { unread := Bytes.encode "<a b='>\x22' />c" } =
      (.ok (some (.startTag "a" [("b", ">\x22")])),
        (Tokenizer.next { unread := Bytes.encode "<a b='>\x22' />c" }).2) :=
    Prod.ext (by decide +kernel) rfl
  exact ⟨hawaits, hsplit, ((next_startTag_iff hawaits hsplit).1 "a" [("b", ">\x22")]).1
    ⟨_, hnext, by decide +kernel⟩⟩

end Tokenizer

end XmlSieve
