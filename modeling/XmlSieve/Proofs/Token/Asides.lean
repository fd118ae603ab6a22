import XmlSieve.Proofs.Token.Boundaries

/-!
# Comments and processing instructions

A comment and a processing instruction (`IsAside`) are passed over wherever they stand.  The end of
a comment is looked for from its opener on, so that a comment is one construct unless its opener
closes it (`Construct.cut?_comment`): of `<!-->` and `<!--->` nothing but these bytes is taken, and
the rest is read as what it is taken for there.  Every other comment, and every instruction, is
transparent: put at a boundary of a document, it changes nothing but where texts are cut
(`Document.accepted_aside`).
-/

namespace XmlSieve

namespace Markup

def comment (body : Bytes) : Bytes :=
  Construct.commentOpen ++ body ++ Construct.commentClose

def instruction (body : Bytes) : Bytes :=
  Construct.instructionOpen ++ body ++ Construct.instructionClose

/-- What may stand in a comment: no two hyphens next to one another, and no hyphen at the end. -/
structure IsCommentBody (body : Bytes) : Prop where
  hyphens : ¬ Bytes.ascii ['-', '-'] <:+: body
  last : body.getLast? ≠ some '-'.toUInt8

/-- What may stand in a processing instruction: its target, which begins as a name does, and no end
of an instruction. -/
structure IsInstructionBody (body : Bytes) : Prop where
  target : ∃ b ∈ body.head?, isNameStart b = true
  close : ¬ Construct.instructionClose <:+: body

inductive IsAside : Bytes → Prop where
  | comment {body : Bytes} (hbody : IsCommentBody body) : IsAside (comment body)
  | instruction {body : Bytes} (hbody : IsInstructionBody body) : IsAside (instruction body)

/-- Whether the opener of a comment closes it. -/
def ClosedByOpener (piece : Bytes) : Prop :=
  Bytes.ascii ['<', '!', '-', '-', '>'] <+: piece ∨
    Bytes.ascii ['<', '!', '-', '-', '-', '>'] <+: piece

end Markup

namespace Markup

variable {body : Bytes}

theorem IsCommentBody.tail {b : UInt8} (h : IsCommentBody (b :: body)) : IsCommentBody body where
  hyphens := fun hinfix => h.hyphens (List.infix_cons hinfix)
  last := by
    have hlast := h.last
    cases body with
    | nil => simp
    | cons c body => rwa [List.getLast?_cons_cons] at hlast

/-- A hyphen in a comment has something else than a hyphen after it. -/
theorem IsCommentBody.exists_of_hyphen (h : IsCommentBody ('-'.toUInt8 :: body)) :
    ∃ c rest, body = c :: rest ∧ c ≠ '-'.toUInt8 := by
  cases body with
  | nil => exact absurd rfl h.last
  | cons c rest =>
    refine ⟨c, rest, rfl, ?_⟩
    rintro rfl
    exact h.hyphens ⟨[], rest, rfl⟩

end Markup

namespace Construct

open Markup

variable {body : Bytes}

/-! ### Looking for the ends -/

theorem indexOf?_cons_of_not_begins {word bs : Bytes} {b : UInt8} (h : ¬ word <+: b :: bs) :
    Bytes.indexOf? word (b :: bs) = (Bytes.indexOf? word bs).map (· + 1) := by
  rw [Bytes.indexOf?, if_neg (mt List.isPrefixOf_iff_prefix.1 h)]

theorem indexOf?_of_begins {word bs : Bytes} (h : word <+: bs) :
    Bytes.indexOf? word bs = some 0 := by
  cases bs with
  | nil => rw [List.prefix_nil.1 h]; rfl
  | cons b bs => rw [Bytes.indexOf?, if_pos (List.isPrefixOf_iff_prefix.2 h)]

/-- The end of a comment is not found in its body. -/
theorem indexOf?_commentClose (h : IsCommentBody body) (bs : Bytes) :
    Bytes.indexOf? commentClose (body ++ (commentClose ++ bs)) = some body.length := by
  induction body with
  | nil => exact indexOf?_of_begins (List.prefix_append _ _)
  | cons b body ih =>
    have hhead : ¬ commentClose <+: b :: (body ++ (commentClose ++ bs)) := by
      intro hclose
      obtain ⟨hb, hrest⟩ := List.cons_prefix_cons.1 hclose
      subst hb
      obtain ⟨c, rest, rfl, hc⟩ := h.exists_of_hyphen
      exact hc (List.cons_prefix_cons.1 hrest).1.symm
    rw [List.cons_append, indexOf?_cons_of_not_begins hhead, ih h.tail]
    rfl

/-- Nor is it found in the opener, unless the body begins with `>` or with `->`. -/
theorem indexOf?_comment (h : IsCommentBody body) (bs : Bytes) :
    Bytes.indexOf? commentClose (comment body ++ bs) =
      if Bytes.ascii ['>'] <+: body then some 2
      else if Bytes.ascii ['-', '>'] <+: body then some 3
      else some (commentOpen.length + body.length) := by
  have hsign : '>'.toUInt8 ≠ '-'.toUInt8 := by decide
  have hthird : commentClose <+: '-'.toUInt8 :: '-'.toUInt8 :: (body ++ (commentClose ++ bs)) ↔
      Bytes.ascii ['>'] <+: body := by
    cases body <;> simp [commentClose, Bytes.ascii, hsign]
  have hfourth : commentClose <+: '-'.toUInt8 :: (body ++ (commentClose ++ bs)) ↔
      Bytes.ascii ['-', '>'] <+: body := by
    rcases body with _ | ⟨b, _ | ⟨c, body⟩⟩ <;> simp [commentClose, Bytes.ascii, hsign]
  have hopen : comment body ++ bs =
      '<'.toUInt8 :: '!'.toUInt8 :: '-'.toUInt8 :: '-'.toUInt8 :: (body ++ (commentClose ++ bs)) := by
    simp [comment, commentOpen, Bytes.ascii]
  have hfar (b : UInt8) (rest : Bytes) (hb : b ≠ '-'.toUInt8) : ¬ commentClose <+: b :: rest :=
    fun hclose => hb (List.cons_prefix_cons.1 hclose).1.symm
  rw [hopen, indexOf?_cons_of_not_begins (hfar _ _ (by decide)),
    indexOf?_cons_of_not_begins (hfar _ _ (by decide))]
  split_ifs with h₁ h₂
  · rw [indexOf?_of_begins (hthird.2 h₁)]
    rfl
  · rw [indexOf?_cons_of_not_begins (mt hthird.1 h₁), indexOf?_of_begins (hfourth.2 h₂)]
    rfl
  · rw [indexOf?_cons_of_not_begins (mt hthird.1 h₁), indexOf?_cons_of_not_begins (mt hfourth.1 h₂),
      indexOf?_commentClose h]
    simp only [Option.map_some, commentOpen, Bytes.ascii, List.length_map, List.length_cons,
      List.length_nil, Option.some.injEq]
    omega

/-- The end of an instruction is not found in its body. -/
theorem indexOf?_instructionClose (h : ¬ instructionClose <:+: body) (bs : Bytes) :
    Bytes.indexOf? instructionClose (body ++ (instructionClose ++ bs)) = some body.length := by
  have hsign : '>'.toUInt8 ≠ '?'.toUInt8 := by decide
  induction body with
  | nil => exact indexOf?_of_begins (List.prefix_append _ _)
  | cons b body ih =>
    have hhead : ¬ instructionClose <+: b :: (body ++ (instructionClose ++ bs)) := by
      intro hclose
      obtain ⟨rfl, hrest⟩ := List.cons_prefix_cons.1 hclose
      cases body with
      | nil => exact hsign (List.cons_prefix_cons.1 hrest).1
      | cons c body =>
        obtain ⟨rfl, -⟩ := List.cons_prefix_cons.1 hrest
        exact h ⟨[], body, rfl⟩
    rw [List.cons_append, indexOf?_cons_of_not_begins hhead,
      ih fun hinfix => h (List.infix_cons hinfix)]
    rfl

theorem indexOf?_instruction (h : IsInstructionBody body) (bs : Bytes) :
    Bytes.indexOf? instructionClose (instruction body ++ bs) =
      some (instructionOpen.length + body.length) := by
  obtain ⟨b, hb, hstart⟩ := h.target
  obtain ⟨rest, rfl⟩ := List.head?_eq_some_iff.1 hb
  have hopen : instruction (b :: rest) ++ bs =
      '<'.toUInt8 :: '?'.toUInt8 :: (b :: rest ++ (instructionClose ++ bs)) := by
    simp [instruction, instructionOpen, Bytes.ascii]
  have hfirst (tail : Bytes) : ¬ instructionClose <+: '<'.toUInt8 :: tail := by
    intro hclose
    exact absurd (List.cons_prefix_cons.1 hclose).1 (by decide)
  have hsecond : ¬ instructionClose <+:
      '?'.toUInt8 :: (b :: rest ++ (instructionClose ++ bs)) := by
    intro hclose
    obtain ⟨rfl, -⟩ := List.cons_prefix_cons.1 (List.cons_prefix_cons.1 hclose).2
    cases hstart
  rw [hopen, indexOf?_cons_of_not_begins (hfirst _), indexOf?_cons_of_not_begins hsecond,
    indexOf?_instructionClose h.close]
  simp only [Option.map_some, instructionOpen, Bytes.ascii, List.length_map, List.length_cons,
    List.length_nil, Option.some.injEq]
  omega

/-! ### Cutting -/

theorem cut?_of_commentOpen (bs : Bytes) :
    cut? true (commentOpen ++ bs) =
      (Bytes.indexOf? commentClose (commentOpen ++ bs)).map fun n =>
        (aside, n + commentClose.length) := by
  have hopen : commentOpen ++ bs = '<'.toUInt8 :: '!'.toUInt8 :: '-'.toUInt8 :: '-'.toUInt8 :: bs := rfl
  have hne : '-'.toUInt8 ≠ '['.toUInt8 := by decide
  rw [hopen, cut?, if_pos (by rfl), cutMarkup?]
  simp [Bytes.isProperPrefix, Bytes.isProperPrefix_nil, commentOpen, literalOpen, Bytes.ascii, hne]

theorem cut?_of_instructionOpen (bs : Bytes) :
    cut? true (instructionOpen ++ bs) =
      (Bytes.indexOf? instructionClose (instructionOpen ++ bs)).map fun n =>
        (aside, n + instructionClose.length) := by
  have hopen : instructionOpen ++ bs = '<'.toUInt8 :: '?'.toUInt8 :: bs := rfl
  have hne : '?'.toUInt8 ≠ '!'.toUInt8 := by decide
  rw [hopen, cut?, if_pos (by rfl), cutMarkup?]
  simp [Bytes.isProperPrefix, commentOpen, literalOpen, instructionOpen, Bytes.ascii, hne, hne.symm]

/-- How much of a comment is one construct: all of it, unless its opener closes it. -/
theorem cut?_comment (h : IsCommentBody body) (bs : Bytes) :
    cut? true (comment body ++ bs) =
      some (aside,
        if Bytes.ascii ['>'] <+: body then 5
        else if Bytes.ascii ['-', '>'] <+: body then 6
        else (comment body).length) := by
  have hcut := cut?_of_commentOpen (body ++ commentClose ++ bs)
  rw [← List.append_assoc, ← List.append_assoc, ← comment, indexOf?_comment h] at hcut
  rw [hcut]
  split_ifs
  · rfl
  · rfl
  · simp [comment, Nat.add_assoc]

theorem cut?_instruction (h : IsInstructionBody body) (bs : Bytes) :
    cut? true (instruction body ++ bs) = some (aside, (instruction body).length) := by
  have hcut := cut?_of_instructionOpen (body ++ instructionClose ++ bs)
  rw [← List.append_assoc, ← List.append_assoc, ← instruction, indexOf?_instruction h] at hcut
  rw [hcut]
  simp [instruction, Nat.add_assoc]

theorem cut?_aside {piece : Bytes} (h : IsAside piece) (hopen : ¬ ClosedByOpener piece)
    (bs : Bytes) : cut? true (piece ++ bs) = some (aside, piece.length) := by
  cases h with
  | instruction hbody => exact cut?_instruction hbody bs
  | @comment body hbody =>
    have hfront (front : List Char) (hbegins : Bytes.ascii front <+: body) :
        commentOpen ++ Bytes.ascii front <+: comment body := by
      rw [comment, List.append_assoc, List.prefix_append_right_inj]
      exact hbegins.trans (List.prefix_append _ _)
    rw [cut?_comment hbody, if_neg fun h => hopen (.inl (hfront ['>'] h)),
      if_neg fun h => hopen (.inr (hfront ['-', '>'] h))]

end Construct

namespace Document

open Markup

/-! ### Transparency -/

theorem skips_aside {piece : Bytes} (h : IsAside piece) (hopen : ¬ ClosedByOpener piece)
    (p : Place) : p.Skips piece where
  opens := by cases h <;> rfl
  skipped := ⟨.aside, Construct.cut?_aside h hopen, rfl⟩

/-- A comment that its opener does not close, or a processing instruction, put at any boundary of a
document after its byte order mark: these bytes are taken and nothing else, they tell nothing, and
the document is accepted with the same tokens, where a text in which they stand is told in two
pieces. -/
theorem accepted_aside {mark front back piece : Bytes} {told tokens : List Token} {p : Place}
    (hmark : withoutMark (mark ++ (front ++ back)) = front ++ back)
    (hboundary : Reads .prolog front told p)
    (haccepted : Accepted (mark ++ (front ++ back)) tokens)
    (hpiece : IsAside piece) (hopen : ¬ ClosedByOpener piece) :
    Construct.cut? true (piece ++ back) = some (.aside, piece.length) ∧
      Reads .prolog (front ++ piece) told p ∧
      ∃ tokens', Accepted (mark ++ (front ++ (piece ++ back))) tokens' ∧
        Token.merge tokens' = Token.merge tokens := by
  obtain ⟨halone, tokens', hall, hmerge, -⟩ :=
    haccepted.insert hmark hboundary (skips_aside hpiece hopen p)
  exact ⟨Construct.cut?_aside hpiece hopen back, halone, tokens', hall, hmerge⟩

theorem accepted_aside_markup :
    Construct.cut? true (Bytes.encode "<!-- <b c='>-->" ++ Bytes.encode "y</a>") =
        some (.aside, 15) ∧
      ∃ tokens', Accepted (Bytes.encode "<a>x" ++ (Bytes.encode "<!-- <b c='>-->" ++
          Bytes.encode "y</a>")) tokens' ∧
        Token.merge tokens' = [.startTag "a" [], .text "xy", .endTag "a"] := by
  have hpiece : IsAside (comment (Bytes.encode " <b c='>")) :=
    .comment ⟨by decide +kernel, by decide +kernel⟩
  have hwritten : comment (Bytes.encode " <b c='>") = Bytes.encode "<!-- <b c='>-->" := by
    decide +kernel
  rw [hwritten] at hpiece
  have hboundary : Reads .prolog (Bytes.encode "<a>x") [.startTag "a" [], .text "x"]
      (.content "a" []) :=
    .cons (r := .token (.startTag "a" []) (.content "a" []))
      (by decide +kernel : Construct.cut? true (Bytes.encode "<a>x") =
        some (.startTag (Bytes.encode "a"), 3)) (by decide +kernel)
      (.cons (r := .token (.text "x") (.content "a" []))
        (by decide +kernel : Construct.cut? true (Bytes.encode "x") =
          some (.characters (Bytes.encode "x"), 1)) (by decide +kernel) (.nil _))
  have haccepted : Accepted ([] ++ (Bytes.encode "<a>x" ++ Bytes.encode "y</a>"))
      [.startTag "a" [], .text "xy", .endTag "a"] := by
    rw [Accepted, Tokenizer.hear_document]
    exact congrArg _ (by decide +kernel)
  obtain ⟨hcut, -, tokens', hall, hmerge⟩ := accepted_aside (by decide +kernel)
    hboundary haccepted hpiece (by unfold ClosedByOpener; decide +kernel)
  exact ⟨hcut.trans (by decide +kernel), tokens', hall, hmerge.trans (by decide +kernel)⟩

/-- The opener of a comment closes it, and what follows is read as text. -/
theorem accepted_comment_text :
    IsAside (comment (Bytes.encode ">x")) ∧
      Reads .prolog (Bytes.encode "<a>") [.startTag "a" []] (.content "a" []) ∧
      Accepted (Bytes.encode "<a>" ++ Bytes.encode "</a>") [.startTag "a" [], .endTag "a"] ∧
      Accepted (Bytes.encode "<a>" ++ (comment (Bytes.encode ">x") ++ Bytes.encode "</a>"))
        [.startTag "a" [], .text "x-->", .endTag "a"] ∧
      ¬ ∃ tokens', Accepted (Bytes.encode "<a>" ++ (comment (Bytes.encode ">x") ++
          Bytes.encode "</a>")) tokens' ∧
        Token.merge tokens' = Token.merge [.startTag "a" [], .endTag "a"] := by
  have haccepted : Accepted (Bytes.encode "<a>" ++ (comment (Bytes.encode ">x") ++
      Bytes.encode "</a>")) [.startTag "a" [], .text "x-->", .endTag "a"] := by
    rw [Accepted, Tokenizer.hear_document]
    exact congrArg _ (by decide +kernel)
  refine ⟨.comment ⟨by decide +kernel, by decide +kernel⟩, ?_, ?_, haccepted, ?_⟩
  · exact .cons (r := .token (.startTag "a" []) (.content "a" []))
      (by decide +kernel : Construct.cut? true (Bytes.encode "<a>") =
        some (.startTag (Bytes.encode "a"), 3)) (by decide +kernel) (.nil _)
  · rw [Accepted, Tokenizer.hear_document]
    exact congrArg _ (by decide +kernel)
  · rintro ⟨tokens', hall, hmerge⟩
    rw [Accepted, haccepted] at hall
    cases hall
    exact absurd hmerge (by decide)

end Document

end XmlSieve
