import XmlSieve.Bytes.Search

/-!
# Constructs

`Construct.cut?` finds the construct of markup at the head of the unread bytes and says how many
bytes it takes.  The decision looks at the bytes alone, never at the elements that are open, and it
is taken only when the construct is complete: `none` means that its end is still to come.
-/

namespace XmlSieve

/-- The constructs of markup, with the bytes in them that matter. -/
inductive Construct where
  /-- A comment or a processing instruction. -/
  | aside
  /-- A declaration such as the document type. -/
  | declaration
  /-- The content of a section in which no markup is recognised. -/
  | literal (content : Bytes)
  /-- What stands between `</` and `>`. -/
  | endTag (body : Bytes)
  /-- What stands between `<` and `>`. -/
  | startTag (body : Bytes)
  /-- Everything up to the next `<`. -/
  | characters (raw : Bytes)
  deriving DecidableEq, Repr, Inhabited

namespace Construct

/-! ### Openers and terminators -/

def commentOpen : Bytes := Bytes.ascii ['<', '!', '-', '-']
def commentClose : Bytes := Bytes.ascii ['-', '-', '>']
def literalOpen : Bytes := Bytes.ascii ['<', '!', '[', 'C', 'D', 'A', 'T', 'A', '[']
def literalClose : Bytes := Bytes.ascii [']', ']', '>']
def instructionOpen : Bytes := Bytes.ascii ['<', '?']
def instructionClose : Bytes := Bytes.ascii ['?', '>']
def declarationOpen : Bytes := Bytes.ascii ['<', '!']
def endTagOpen : Bytes := Bytes.ascii ['<', '/']

/-! ### Cutting -/

/-- The construct that begins with the `<` at the head.  A terminator is looked for from the head
on, so that `<!-->` is a whole comment and `<?>` a whole instruction. -/
def cutMarkup? (bs : Bytes) : Option (Construct × Nat) :=
  if bs.isProperPrefix commentOpen || bs.isProperPrefix literalOpen then none
  else if commentOpen.isPrefixOf bs then
    (Bytes.indexOf? commentClose bs).map fun n => (aside, n + commentClose.length)
  else if literalOpen.isPrefixOf bs then
    (Bytes.indexOf? literalClose bs).map fun n =>
      (literal ((bs.take n).drop literalOpen.length), n + literalClose.length)
  else if instructionOpen.isPrefixOf bs then
    (Bytes.indexOf? instructionClose bs).map fun n => (aside, n + instructionClose.length)
  else if declarationOpen.isPrefixOf bs then
    bs.declarationEnd?.map fun n => (declaration, n + 1)
  else if endTagOpen.isPrefixOf bs then
    bs.tagEnd?.map fun n => (endTag ((bs.take n).drop endTagOpen.length), n + 1)
  else
    bs.tagEnd?.map fun n => (startTag ((bs.take n).drop 1), n + 1)

/-- The characters at the head.  They end where markup begins or, when no more input is to come
(`final`), with the input. -/
def cutCharacters? (final : Bool) (bs : Bytes) : Option (Construct × Nat) :=
  match bs.tagStart? with
  | some n => some (characters (bs.take n), n)
  | none => if final then some (characters bs, bs.length) else none

/-- The construct at the head of `bs` and the number of bytes it takes. -/
def cut? (final : Bool) (bs : Bytes) : Option (Construct × Nat) :=
  match bs with
  | [] => none
  | b :: _ => if b == Byte.openAngle then cutMarkup? bs else cutCharacters? final bs

/-! ### A construct takes at least one byte -/

theorem cutMarkup?_pos {bs : Bytes} {c : Construct} {n : Nat} (h : cutMarkup? bs = some (c, n)) :
    0 < n := by
  unfold cutMarkup? at h
  repeat' split at h
  all_goals first
    | cases h
    | (simp only [Option.map_eq_some_iff, Prod.mk.injEq] at h
       obtain ⟨m, -, -, rfl⟩ := h
       simp [commentClose, literalClose, instructionClose, Bytes.ascii])

theorem cutCharacters?_pos {final : Bool} {b : UInt8} {bs : Bytes} {c : Construct} {n : Nat}
    (hb : (b == Byte.openAngle) = false)
    (h : cutCharacters? final (b :: bs) = some (c, n)) : 0 < n := by
  unfold cutCharacters? at h
  split at h
  · next m hm =>
    simp only [Option.some.injEq, Prod.mk.injEq] at h
    obtain ⟨-, rfl⟩ := h
    simp only [Bytes.tagStart?, List.findIdx?_cons, hb, Bool.false_eq_true, ↓reduceIte,
      Option.map_eq_some_iff] at hm
    obtain ⟨k, -, rfl⟩ := hm
    omega
  · split at h
    · simp only [Option.some.injEq, Prod.mk.injEq] at h
      rw [← h.2]
      simp
    · cases h

theorem cut?_pos {final : Bool} {bs : Bytes} {c : Construct} {n : Nat}
    (h : cut? final bs = some (c, n)) : 0 < n := by
  cases bs with
  | nil => cases h
  | cons b bs =>
    simp only [cut?] at h
    split at h
    · exact cutMarkup?_pos h
    · next hb => exact cutCharacters?_pos (by simpa using hb) h

/-- Taking a construct off leaves fewer bytes. -/
theorem length_drop_cut? {final : Bool} {bs : Bytes} {c : Construct} {n : Nat}
    (h : cut? final bs = some (c, n)) : (bs.drop n).length < bs.length := by
  have hn := cut?_pos h
  cases bs with
  | nil => cases h
  | cons b bs =>
    simp only [List.length_drop, List.length_cons]
    omega

end Construct

end XmlSieve
