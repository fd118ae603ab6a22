import XmlSieve.Proofs.Token.Rereading

/-!
# Boundaries in a document

`Document.Reads p bs tokens q` says that the bytes `bs`, read from the place `p` on, are whole
constructs that tell `tokens` and lead to the place `q`.  The front of a document that is read to
some place in this way ends at a boundary: between two constructs, or within characters, where
neither a character nor a reference is cut (`Reads.split`).  Markup that is passed over at the place
(`Place.Skips`) can be put there.  It takes none of what follows, and the tokens of the document
stay the same, but that a text within which it stands is given in two pieces (`accepts_insert`).
-/

namespace XmlSieve

/-! ### Parts of characters -/

namespace Place

variable {p : Place} {front back : Bytes}

theorem decodeCharacters_ok {raw : Bytes} {text : String} :
    decodeCharacters raw = .ok text ↔ Reference.expand raw = .ok (Bytes.encode text) := by
  unfold decodeCharacters
  cases hexpand : Reference.expand raw with
  | error cause => simp
  | ok expanded =>
    simp only [Except.ok.injEq]
    constructor
    · exact fun h => Bytes.decode?_eq_some_iff.1 (decode?_of_decodeText h)
    · rintro rfl
      exact decodeText_encode text

/-- Characters of which a part is a text: so is the rest. -/
theorem decodeCharacters_split {whole first : String}
    (hall : decodeCharacters (front ++ back) = .ok whole)
    (hfront : decodeCharacters front = .ok first) :
    ∃ last, decodeCharacters back = .ok last ∧ whole = first ++ last := by
  rw [decodeCharacters_ok] at hall hfront
  obtain ⟨rest, hrest, hout⟩ := Reference.expand_split hall hfront
  obtain ⟨last, rfl, hwhole⟩ := Bytes.encode_split hout.symm
  exact ⟨last, decodeCharacters_ok.2 hrest, hwhole⟩

end Place

/-! ### Cutting longer input -/

namespace Construct

variable {bs front back : Bytes} {c : Construct} {n : Nat}

/-- What stands before the first `<`. -/
def run (bs : Bytes) : Bytes := bs.takeWhile (· != Byte.openAngle)

theorem cutCharacters?_final (bs : Bytes) :
    cutCharacters? true bs = some (characters (run bs), (run bs).length) := by
  have hrun : run bs = bs.take (bs.findIdx (· == Byte.openAngle)) :=
    List.takeWhile_eq_take_findIdx_not.trans (by simp [bne])
  unfold cutCharacters? Bytes.tagStart?
  rw [List.findIdx?_eq_guard_findIdx_lt]
  by_cases hlt : bs.findIdx (· == Byte.openAngle) < bs.length
  · rw [Option.guard_eq_some_iff.2 ⟨rfl, by simpa using hlt⟩, hrun, List.length_take,
      Nat.min_eq_left hlt.le]
  · have hnone : Option.guard (fun i => decide (i < bs.length))
        (bs.findIdx (· == Byte.openAngle)) = none :=
      Option.guard_eq_none_iff.2 (decide_eq_false hlt)
    rw [hnone, hrun, List.take_of_length_le (Nat.not_lt.1 hlt)]
    rfl

/-- At the end of the input, what does not begin with `<` is cut where `<` follows, or all of it. -/
theorem cut?_final {b : UInt8} (hb : b ≠ Byte.openAngle) (bs : Bytes) :
    cut? true (b :: bs) = some (characters (run (b :: bs)), (run (b :: bs)).length) := by
  rw [cut?, if_neg (by simpa using hb), cutCharacters?_final]

/-- A construct at the head of a front that was cut as if the input ended there.  When more follows
it is the same, unless it is characters that reach to the end of the front and go on. -/
theorem cut?_front (back : Bytes) (h : cut? true front = some (c, n)) :
    (cut? true (front ++ back) = some (c, n) ∧ n ≤ front.length) ∨
      (c = characters front ∧ n = front.length ∧ run back ≠ [] ∧
        cut? true (front ++ back) =
          some (characters (front ++ run back), front.length + (run back).length) ∧
        cut? true back = some (characters (run back), (run back).length)) := by
  cases front with
  | nil => cases h
  | cons b front =>
    by_cases hb : b = Byte.openAngle
    · have hopen : (b == Byte.openAngle) = true := by simpa using hb
      rw [cut?, if_pos hopen] at h
      rw [List.cons_append, cut?, if_pos hopen]
      exact .inl ⟨cutMarkup?_append h, cutMarkup?_le h⟩
    rw [cut?_final hb] at h
    cases h
    have hlong := cut?_final hb (front ++ back)
    rw [← List.cons_append, run, List.takeWhile_append, ← run] at hlong
    by_cases hall : (run (b :: front)).length = (b :: front).length
    · rw [if_pos hall, ← run, List.length_append] at hlong
      have hrun : run (b :: front) = b :: front :=
        (List.takeWhile_prefix _).eq_of_length hall
      rw [hrun]
      by_cases hback : run back = []
      · rw [hback, List.append_nil, List.length_nil, Nat.add_zero] at hlong
        exact .inl ⟨hlong, Nat.le_refl _⟩
      · refine .inr ⟨rfl, rfl, hback, hlong, ?_⟩
        cases back with
        | nil => exact absurd rfl hback
        | cons d back =>
          refine cut?_final ?_ back
          rintro rfl
          exact hback rfl
    · rw [if_neg hall] at hlong
      exact .inl ⟨hlong, (List.takeWhile_prefix _).length_le⟩

/-- Markup follows: nothing goes on. -/
theorem cut?_front_markup (hback : ∀ b ∈ back.head?, b = Byte.openAngle)
    (h : cut? true front = some (c, n)) :
    cut? true (front ++ back) = some (c, n) ∧ n ≤ front.length := by
  rcases cut?_front back h with hsame | ⟨-, -, hrun, -⟩
  · exact hsame
  · cases back with
    | nil => exact absurd rfl hrun
    | cons b back =>
      rw [hback b rfl] at hrun
      exact absurd rfl hrun

end Construct

/-! ### Texts told in pieces -/

namespace Token

theorem merge_append_congr {tokens more : List Token} (front : List Token)
    (h : merge tokens = merge more) : merge (front ++ tokens) = merge (front ++ more) := by
  rw [merge, merge, List.foldr_append, List.foldr_append]
  exact congrArg (front.foldr mergeOnto) h

theorem merge_texts (s t : String) (tokens : List Token) :
    merge (text s :: text t :: tokens) = merge (text (s ++ t) :: tokens) := by
  rw [merge_cons, merge_cons, merge_cons]
  cases merge tokens with
  | nil => rfl
  | cons token rest => cases token <;> simp [mergeOnto, String.append_assoc]

end Token

/-! ### Reading a part of a document -/

namespace Reading

/-- The tokens that a construct amounts to. -/
def tokens : Reading → List Token
  | nothing _ => []
  | token given _ => [given]
  | emptyElement name attributes _ => [.startTag name attributes, .endTag name]

/-- The place after a construct. -/
def after : Reading → Place
  | nothing place | token _ place | emptyElement _ _ place => place

end Reading

namespace Document

/-- The bytes, cut as if they ended the document, are constructs that tell these tokens, and lead
from the first place to the second. -/
inductive Reads : Place → Bytes → List Token → Place → Prop where
  | nil (p : Place) : Reads p [] [] p
  | cons {p q : Place} {bs : Bytes} {c : Construct} {n : Nat} {r : Reading} {tokens : List Token}
      (cut : Construct.cut? true bs = some (c, n)) (read : p.read c = .ok r)
      (rest : Reads r.after (bs.drop n) tokens q) : Reads p bs (r.tokens ++ tokens) q

variable {p q z : Place} {bs front back piece : Bytes} {c : Construct} {n : Nat}
  {tokens told rest : List Token}

theorem reads_nil : Reads p [] tokens q ↔ tokens = [] ∧ q = p := by
  constructor
  · intro h
    generalize hbs : ([] : Bytes) = bs at h
    cases h with
    | nil => exact ⟨rfl, rfl⟩
    | cons cut _ _ =>
      rw [← hbs] at cut
      cases cut
  · rintro ⟨rfl, rfl⟩
    exact .nil _

theorem reads_of_cut (hcut : Construct.cut? true bs = some (c, n)) :
    Reads p bs tokens q ↔
      ∃ r more, p.read c = .ok r ∧ tokens = r.tokens ++ more ∧
        Reads r.after (bs.drop n) more q := by
  constructor
  · intro h
    cases h with
    | nil => cases hcut
    | cons cut read rest =>
      rw [hcut] at cut
      cases cut
      exact ⟨_, _, read, rfl, rest⟩
  · rintro ⟨r, more, hread, rfl, hrest⟩
    exact .cons hcut hread hrest

/-- A document is read without an error if it is constructs that lead to the part after the root. -/
theorem readFrom_eq_iff (line : Nat) :
    readFrom p line bs = ⟨tokens, none⟩ ↔ Reads p bs tokens .epilog := by
  have hcons (r : Transcript) (token : Token) (tokens : List Token) :
      r.cons token = ⟨tokens, none⟩ ↔ ∃ more, tokens = token :: more ∧ r = ⟨more, none⟩ := by
    obtain ⟨more, error⟩ := r
    simp only [Transcript.cons, Transcript.mk.injEq]
    constructor
    · rintro ⟨rfl, rfl⟩
      exact ⟨more, rfl, rfl, rfl⟩
    · rintro ⟨_, rfl, rfl, rfl⟩
      exact ⟨rfl, rfl⟩
  fun_induction readFrom p line bs generalizing tokens with
  | case1 place line bs hcut hne =>
    refine iff_of_false (by simp) fun h => ?_
    cases h with
    | nil => cases hne
    | cons cut _ _ =>
      rw [hcut] at cut
      cases cut
  | case2 line bs hcut hempty =>
    obtain rfl : bs = [] := by simpa using hempty
    rw [reads_nil]
    simp [eq_comm]
  | case3 place line bs hcut hempty hplace =>
    obtain rfl : bs = [] := by simpa using hempty
    rw [reads_nil]
    exact iff_of_false (by simp) fun h => hplace h.2.symm
  | case4 place line bs c n hcut hlt fault hread =>
    rw [reads_of_cut hcut, hread]
    simp
  | case5 place line bs c n hcut hlt after hread ih =>
    rw [reads_of_cut hcut, hread]
    simp [Reading.tokens, Reading.after, ih]
  | case6 place line bs c n hcut hlt token after hread ih =>
    rw [hcons, reads_of_cut hcut, hread]
    simp [Reading.tokens, Reading.after, ih]
  | case7 place line bs c n hcut hlt name attributes after hread ih =>
    rw [hcons, reads_of_cut hcut, hread]
    simp only [hcons, ih]
    simp [Reading.tokens, Reading.after]

/-! ### Boundaries -/

theorem Reads.append (hfront : Reads p front told q) (hback : Reads q back rest z)
    (hopen : ∀ b ∈ back.head?, b = Byte.openAngle) : Reads p (front ++ back) (told ++ rest) z := by
  induction hfront with
  | nil => exact hback
  | cons cut read _ ih =>
    obtain ⟨hcut, hle⟩ := Construct.cut?_front_markup hopen cut
    rw [List.append_assoc]
    refine .cons hcut read ?_
    rw [List.drop_append_of_le_length hle]
    exact ih hback

/-- Characters of which a part is read on its own: so is the rest, and what both tell differs from
what they tell together by the two pieces of the text, if any. -/
theorem readCharacters_split {r first : Reading} (hall : p.readCharacters (front ++ back) = .ok r)
    (hfront : p.readCharacters front = .ok first) :
    ∃ last, first.after.readCharacters back = .ok last ∧ last.after = r.after ∧
      (∀ more, Token.merge (r.tokens ++ more) =
        Token.merge (first.tokens ++ (last.tokens ++ more))) ∧
      (first.after.depth = 0 → r.tokens = first.tokens ++ last.tokens) := by
  cases p with
  | content innermost outer =>
    obtain ⟨whole, hwhole, hall⟩ := exists_of_bind_eq_ok hall
    obtain ⟨text, htext, hfront⟩ := exists_of_bind_eq_ok hfront
    cases hall
    cases hfront
    obtain ⟨last, hlast, rfl⟩ := Place.decodeCharacters_split hwhole htext
    refine ⟨.token (.text last) (.content innermost outer), ?_, rfl, fun more => ?_, ?_⟩
    · rw [Reading.after, Place.readCharacters, hlast]
      rfl
    · exact (Token.merge_texts text last more).symm
    · intro h
      cases h
  | prolog | epilog =>
    simp only [Place.readCharacters] at hall hfront
    split_ifs at hall hfront with hblank
    cases hall
    cases hfront
    rw [List.all_append, Bool.and_eq_true] at hblank
    exact ⟨_, if_pos hblank.2, rfl, fun _ => rfl, fun _ => rfl⟩

/-- What follows a front that is read on its own is read from the place to which the front leads,
and a text within which the front ends is told in two pieces. -/
theorem Reads.split (hfront : Reads p front told q) (hall : Reads p (front ++ back) tokens z) :
    ∃ rest, Reads q back rest z ∧ Token.merge tokens = Token.merge (told ++ rest) ∧
      (q.depth = 0 → tokens = told ++ rest) := by
  induction hfront generalizing tokens with
  | nil => exact ⟨tokens, hall, rfl, fun _ => rfl⟩
  | @cons p q front c n r told cut read hrest ih =>
    rcases Construct.cut?_front back cut with ⟨hcut, hle⟩ | ⟨rfl, rfl, -, hcut, hback⟩
    · obtain ⟨r', more, hread, rfl, hmore⟩ := (reads_of_cut hcut).1 hall
      rw [read] at hread
      cases hread
      rw [List.drop_append_of_le_length hle] at hmore
      obtain ⟨rest, hback, hmerge, heq⟩ := ih hmore
      refine ⟨rest, hback, ?_, fun hdepth => ?_⟩
      · rw [List.append_assoc]
        exact Token.merge_append_congr _ hmerge
      · rw [heq hdepth, List.append_assoc]
    · -- The front ends within characters: the rest of them begins what follows.
      obtain ⟨r', more, hread, rfl, hmore⟩ := (reads_of_cut hcut).1 hall
      rw [List.drop_length, reads_nil] at hrest
      obtain ⟨rfl, rfl⟩ := hrest
      obtain ⟨last, hlast, hafter, hmerge, heq⟩ := readCharacters_split hread read
      rw [← List.drop_drop, List.drop_left, ← hafter] at hmore
      refine ⟨last.tokens ++ more, .cons hback hlast hmore, ?_, fun hdepth => ?_⟩
      · rw [List.append_nil]
        exact hmerge more
      · rw [heq hdepth, List.append_nil, List.append_assoc]

end Document

/-! ### Insertion -/

/-- Markup that is passed over at a place, and that takes nothing of what follows it. -/
structure Place.Skips (p : Place) (piece : Bytes) : Prop where
  opens : piece.head? = some Byte.openAngle
  skipped : ∃ c, (∀ bs, Construct.cut? true (piece ++ bs) = some (c, piece.length)) ∧
    p.read c = .ok (.nothing p)

namespace Document

variable {p q z : Place} {front back piece : Bytes} {tokens told : List Token}

theorem Reads.skip (h : q.Skips piece) (hback : Reads q back tokens z) :
    Reads q (piece ++ back) tokens z := by
  obtain ⟨c, hcut, hread⟩ := h.skipped
  refine .cons (r := .nothing q) (hcut back) hread ?_
  rwa [List.drop_left]

/-- Markup that is passed over can be put after a front that is read on its own.  Nothing but this
markup is taken, and the tokens stay the same but for a text that it stands in. -/
theorem Reads.insert (hfront : Reads p front told q) (h : q.Skips piece)
    (hall : Reads p (front ++ back) tokens z) :
    Reads p (front ++ piece) told q ∧
      ∃ tokens', Reads p (front ++ (piece ++ back)) tokens' z ∧
        Token.merge tokens' = Token.merge tokens ∧ (q.depth = 0 → tokens' = tokens) := by
  obtain ⟨b, piece, rfl⟩ : ∃ b rest, piece = b :: rest := by
    cases piece with
    | nil => cases h.opens
    | cons b piece => exact ⟨b, piece, rfl⟩
  have hopen : ∀ x ∈ (b :: piece).head?, x = Byte.openAngle := fun x hx =>
    Option.some.inj (hx.symm.trans h.opens)
  obtain ⟨rest, hback, hmerge, heq⟩ := hfront.split hall
  have halone := hfront.append (Reads.skip h (.nil q)) (by simpa using hopen)
  rw [List.append_nil, List.append_nil] at halone
  exact ⟨halone, told ++ rest, hfront.append (.skip h hback) hopen, hmerge.symm,
    fun hdepth => (heq hdepth).symm⟩

/-! ### Documents -/

/-- A tokenizer that is fed the document gives these tokens and no error. -/
def Accepted (document : Bytes) (tokens : List Token) : Prop :=
  Tokenizer.hear [.feed document, .finish, .drain] = .ok ⟨tokens, none⟩

theorem accepted_iff {document : Bytes} :
    Accepted document tokens ↔ Reads .prolog (withoutMark document) tokens .epilog := by
  rw [Accepted, Tokenizer.hear_document, Except.ok.injEq, transcript, readFrom_eq_iff]

theorem withoutMark_mark (bs : Bytes) :
    withoutMark (Tokenizer.byteOrderMark ++ bs) = bs := by
  rw [withoutMark, if_pos (by simp), List.drop_left]

/-- What precedes a document without its mark is the mark, or nothing where there is no mark. -/
theorem mark_cases {mark bs : Bytes} (h : withoutMark (mark ++ bs) = bs) :
    mark = Tokenizer.byteOrderMark ∨ mark = [] := by
  unfold withoutMark at h
  split_ifs at h with hmark
  · obtain ⟨rest, hrest⟩ := List.isPrefixOf_iff_prefix.1 hmark
    rw [← hrest, List.drop_left] at h
    rw [h] at hrest
    exact .inl (List.append_cancel_right hrest).symm
  · exact .inr (List.append_left_eq_self.1 h)

/-- What is read before the root does not begin with the first byte of a mark. -/
theorem Reads.head_ne_mark {b : UInt8} {bs : Bytes} (h : Reads .prolog (b :: bs) told q) :
    b ≠ 0xEF := by
  rintro rfl
  have hcut := Construct.cut?_final (b := 0xEF) (by decide) bs
  obtain ⟨r, more, hread, -⟩ := (reads_of_cut hcut).1 h
  have hrun : Construct.run (0xEF :: bs) = 0xEF :: Construct.run bs :=
    List.takeWhile_cons_of_pos (by decide)
  have hblank : isBlankByte 0xEF = false := by decide
  simp [hrun, Place.read, Place.readCharacters, hblank] at hread

/-- The mark stays the mark when markup is put after a front that is read on its own. -/
theorem withoutMark_insert {mark : Bytes}
    (hmark : withoutMark (mark ++ (front ++ back)) = front ++ back)
    (hfront : Reads .prolog front told q) (hopen : piece.head? = some Byte.openAngle) :
    withoutMark (mark ++ (front ++ (piece ++ back))) = front ++ (piece ++ back) := by
  rcases mark_cases hmark with rfl | rfl
  · exact withoutMark_mark _
  · rw [List.nil_append, withoutMark, if_neg]
    cases front with
    | nil =>
      cases piece with
      | nil => cases hopen
      | cons b piece =>
        rw [Option.some.inj hopen]
        exact Bool.false_ne_true
    | cons b front =>
      have hb := hfront.head_ne_mark
      simp [Tokenizer.byteOrderMark, hb.symm]

/-- Markup that is passed over at a boundary of a document can be put there: what precedes the
boundary, with the markup, is read as before, and the document is accepted with the same tokens, but
that a text in which the markup stands is told in two pieces. -/
theorem Accepted.insert {mark : Bytes}
    (hmark : withoutMark (mark ++ (front ++ back)) = front ++ back)
    (hfront : Reads .prolog front told q) (hpiece : q.Skips piece)
    (haccepted : Accepted (mark ++ (front ++ back)) tokens) :
    Reads .prolog (front ++ piece) told q ∧
      ∃ tokens', Accepted (mark ++ (front ++ (piece ++ back))) tokens' ∧
        Token.merge tokens' = Token.merge tokens ∧ (q.depth = 0 → tokens' = tokens) := by
  rw [accepted_iff, hmark] at haccepted
  obtain ⟨halone, tokens', hall, hmerge, heq⟩ := hfront.insert hpiece haccepted
  refine ⟨halone, tokens', ?_, hmerge, heq⟩
  rwa [accepted_iff, withoutMark_insert hmark hfront hpiece.opens]

end Document

end XmlSieve
