import Mathlib.Data.List.Chain
import XmlSieve.Proofs.Token.Nesting
import XmlSieve.Proofs.Token.Schedule
import XmlSieve.Proofs.Token.Writing

/-!
# Reading what was written

Tokens that can be written (`Token.Proper`) and that follow one another from before the root to
after it are read back from what was written of them (`Document.transcript_ofTokens`).  What is told
are the tokens that were written, with adjacent texts merged (`Token.merge`) and spaces for the tabs
and line ends in the values of attributes (`Token.spacedOut`).  The tokens of a document can all be
written (`Document.transcript_proper`).
-/

namespace XmlSieve

namespace Token

/-- A token that can be written: what names something is a name, and text is not empty. -/
def Proper : Token → Prop
  | startTag name attributes => isName name = true ∧ attributes.Proper
  | endTag name => isName name = true
  | text content => content ≠ ""

def isText : Token → Bool
  | text _ => true
  | startTag _ _ | endTag _ => false

/-- The token with spaces for the tabs and line ends in the values of its attributes. -/
def spacedOut : Token → Token
  | startTag name attributes => startTag name attributes.spacedOut
  | endTag name => endTag name
  | text content => text content

/-- Puts a token in front of others, where text becomes one with text that follows it. -/
def mergeOnto : Token → List Token → List Token
  | text s, text t :: rest => text (s ++ t) :: rest
  | token, rest => token :: rest

/-- The tokens with adjacent texts merged. -/
def merge (tokens : List Token) : List Token := tokens.foldr mergeOnto []

end Token

namespace Document

theorem readFrom_token {place after : Place} {token : Token} {c : Construct} {front : Bytes}
    (line : Nat) (bs : Bytes) (hcut : Construct.cut? true (front ++ bs) = some (c, front.length))
    (hread : place.read c = .ok (.token token after)) :
    readFrom place line (front ++ bs) =
      (readFrom after (line + Bytes.lineFeeds front) bs).cons token := by
  rw [readFrom]
  split
  · next hnone =>
    rw [hcut] at hnone
    cases hnone
  · next c' n hsome =>
    rw [hcut] at hsome
    cases hsome
    rw [hread]
    simp only [List.take_left, List.drop_left]

/-- Whether text stands next to text nowhere. -/
def Separated (tokens : List Token) : Prop :=
  tokens.IsChain fun token next => token.isText = false ∨ next.isText = false

/-- A tag begins with an angle bracket. -/
theorem encode_tag {token : Token} (h : token.isText = false) :
    ∃ bs, Bytes.encode (Markup.ofToken token) = Byte.openAngle :: bs := by
  cases token with
  | startTag name attributes => exact ⟨_, Markup.encode_startTag name attributes⟩
  | endTag name => exact ⟨_, Markup.encode_endTag name⟩
  | text content => cases h

/-- A token that can follow is read as it was written, where text does not go on after it. -/
theorem readFrom_written {place after : Place} {token : Token} {bs : Bytes} (line : Nat)
    (hproper : token.Proper) (hafter : place.follow token = some after)
    (hbs : token.isText = true → ∃ rest, bs = Byte.openAngle :: rest) :
    readFrom place line (Bytes.encode (Markup.ofToken token) ++ bs) =
      (readFrom after (line + Bytes.lineFeeds (Bytes.encode (Markup.ofToken token))) bs).cons
        token.spacedOut := by
  cases Place.follow_eq_some_iff.1 hafter with
  | startTag name attributes hplace =>
    exact readFrom_token line bs (Construct.cut?_startTag hproper.1 hproper.2 bs)
      (Place.read_startTag_written hproper.1 hproper.2 hplace)
  | endTag =>
    exact readFrom_token line bs (Construct.cut?_endTag hproper bs)
      (Place.read_endTag_written hproper)
  | text content =>
    obtain ⟨rest, rfl⟩ := hbs rfl
    have hne : Bytes.encode (escape content) ≠ [] := by
      intro h
      exact hproper (escape_eq_empty_iff.1 (Bytes.encode_injective h))
    exact readFrom_token line _ (Construct.cut?_characters hne
      (toUInt8_not_mem_escape (d := '<') (by decide) content) rest)
      (Place.read_characters_written content)

/-- Tokens that lead to the end of the document are read as they were written. -/
theorem readFrom_ofTokens {place : Place} {tokens : List Token} (line : Nat)
    (hproper : ∀ token ∈ tokens, token.Proper) (hseparated : Separated tokens)
    (hfollow : place.followAll tokens = some .epilog) :
    readFrom place line (Bytes.encode (Markup.ofTokens tokens)) =
      ⟨tokens.map Token.spacedOut, none⟩ := by
  induction tokens generalizing place line with
  | nil =>
    cases hfollow
    rw [readFrom]
    rfl
  | cons token tokens ih =>
    obtain ⟨htoken, hrest⟩ := List.forall_mem_cons.1 hproper
    obtain ⟨after, hafter, hfollow⟩ := Place.exists_of_followAll_cons hfollow
    have hbs (htext : token.isText = true) :
        ∃ rest, Bytes.encode (Markup.ofTokens tokens) = Byte.openAngle :: rest := by
      cases tokens with
      | nil =>
        -- A text does not end the document.
        cases hfollow
        cases token with
        | startTag | endTag => cases htext
        | text content => cases place <;> cases hafter
      | cons next tokens =>
        have hnext : next.isText = false :=
          (List.isChain_cons_cons.1 hseparated).1.resolve_left (by simp [htext])
        obtain ⟨bs, hbs⟩ := encode_tag hnext
        rw [Markup.ofTokens, Bytes.encode_append, hbs]
        exact ⟨_, rfl⟩
    rw [Markup.ofTokens, Bytes.encode_append, readFrom_written line htoken hafter hbs,
      ih _ hrest (List.IsChain.tail hseparated) hfollow]
    rfl

end Document

/-! ### Merging adjacent texts -/

namespace Token

theorem merge_cons (token : Token) (tokens : List Token) :
    merge (token :: tokens) = token.mergeOnto (merge tokens) := rfl

theorem mergeOnto_cases (token : Token) (tokens : List Token) :
    (∃ s t rest, token = .text s ∧ tokens = .text t :: rest ∧
      token.mergeOnto tokens = .text (s ++ t) :: rest) ∨
    (token.mergeOnto tokens = token :: tokens ∧
      ∀ next ∈ tokens.head?, token.isText = false ∨ next.isText = false) := by
  cases token with
  | startTag | endTag => exact .inr ⟨rfl, fun _ _ => .inl rfl⟩
  | text s =>
    cases tokens with
    | nil => exact .inr ⟨rfl, by simp⟩
    | cons next rest =>
      cases next with
      | startTag | endTag => exact .inr ⟨rfl, by simp [isText]⟩
      | text t => exact .inl ⟨s, t, rest, rfl, rfl, rfl⟩

theorem separated_merge (tokens : List Token) : Document.Separated (merge tokens) := by
  induction tokens with
  | nil => exact .nil
  | cons token tokens ih =>
    rw [merge_cons]
    rcases mergeOnto_cases token (merge tokens) with ⟨s, t, rest, -, hrest, he⟩ | ⟨he, hnext⟩
    · rw [hrest] at ih
      rw [he]
      exact ih.imp_head (x := text t) (y := text (s ++ t)) fun h => h
    · rw [he]
      exact List.isChain_cons.2 ⟨hnext, ih⟩

theorem proper_merge {tokens : List Token} (h : ∀ token ∈ tokens, token.Proper) :
    ∀ token ∈ merge tokens, token.Proper := by
  induction tokens with
  | nil => simp [merge]
  | cons token tokens ih =>
    obtain ⟨htoken, htokens⟩ := List.forall_mem_cons.1 h
    have hrest := ih htokens
    rw [merge_cons]
    rcases mergeOnto_cases token (merge tokens) with ⟨s, t, rest, rfl, he, hmerged⟩ | ⟨hmerged, -⟩
    · rw [he] at hrest
      rw [hmerged]
      refine List.forall_mem_cons.2 ⟨?_, (List.forall_mem_cons.1 hrest).2⟩
      intro hempty
      exact htoken (String.append_eq_empty_iff.1 hempty).1
    · rw [hmerged]
      exact List.forall_mem_cons.2 ⟨htoken, hrest⟩

theorem ofTokens_merge (tokens : List Token) :
    Markup.ofTokens (merge tokens) = Markup.ofTokens tokens := by
  induction tokens with
  | nil => rfl
  | cons token tokens ih =>
    rw [merge_cons, Markup.ofTokens, ← ih]
    rcases mergeOnto_cases token (merge tokens) with ⟨s, t, rest, rfl, he, hmerged⟩ | ⟨hmerged, -⟩
    · rw [hmerged, he]
      simp [Markup.ofTokens, Markup.ofToken, escape_append, String.append_assoc]
    · rw [hmerged]
      rfl

/-- Text does not lead to another place. -/
theorem followAll_merge (place : Place) (tokens : List Token) :
    place.followAll (merge tokens) = place.followAll tokens := by
  induction tokens generalizing place with
  | nil => rfl
  | cons token tokens ih =>
    rw [merge_cons, Place.followAll_cons, ← funext ih]
    rcases mergeOnto_cases token (merge tokens) with ⟨s, t, rest, rfl, he, hmerged⟩ | ⟨hmerged, -⟩
    · rw [hmerged, he, Place.followAll_cons]
      cases place <;> rfl
    · rw [hmerged, Place.followAll_cons]

theorem isText_spacedOut (token : Token) : token.spacedOut.isText = token.isText := by
  cases token <;> rfl

theorem map_spacedOut_merge (tokens : List Token) :
    (merge tokens).map spacedOut = merge (tokens.map spacedOut) := by
  induction tokens with
  | nil => rfl
  | cons token tokens ih =>
    rw [merge_cons, List.map_cons, merge_cons, ← ih]
    rcases mergeOnto_cases token (merge tokens) with ⟨s, t, rest, rfl, he, hmerged⟩ | ⟨hmerged, hnext⟩
    · rw [hmerged, he]
      rfl
    · rw [hmerged, List.map_cons]
      rcases mergeOnto_cases token.spacedOut ((merge tokens).map spacedOut) with
        ⟨s, t, rest, hs, ht, -⟩ | ⟨hspaced, -⟩
      · -- Text next to text would have been merged before.
        cases hmerge : merge tokens with
        | nil =>
          rw [hmerge] at ht
          cases ht
        | cons next more =>
          rw [hmerge, List.map_cons] at ht
          have htoken : token.isText = true := by
            rw [← isText_spacedOut, hs]
            rfl
          have hnextText : next.isText = true := by
            rw [← isText_spacedOut, (List.cons.inj ht).1]
            rfl
          rcases hnext next (by simp [hmerge]) with h | h
          · rw [htoken] at h
            cases h
          · rw [hnextText] at h
            cases h
      · rw [hspaced]

end Token

namespace Document

/-- Tokens that form a document are read back from what was written of them: adjacent texts are
merged, and the tabs and line ends in the values of attributes are spaces. -/
theorem transcript_ofTokens {tokens : List Token} (hproper : ∀ token ∈ tokens, token.Proper)
    (hfollow : Place.prolog.followAll tokens = some .epilog) :
    transcript (Bytes.encode (Markup.ofTokens tokens)) =
      ⟨Token.merge (tokens.map Token.spacedOut), none⟩ := by
  -- The first token is a start tag, so that there is no byte order mark.
  have hmark : withoutMark (Bytes.encode (Markup.ofTokens tokens)) =
      Bytes.encode (Markup.ofTokens tokens) := by
    obtain ⟨token, more, rfl⟩ : ∃ token more, tokens = token :: more := by
      cases tokens with
      | nil => cases hfollow
      | cons token more => exact ⟨token, more, rfl⟩
    have htag : token.isText = false := by
      cases token with
      | startTag | endTag => rfl
      | text => cases hfollow
    obtain ⟨bs, hbs⟩ := encode_tag htag
    have hne : (0xEF : UInt8) ≠ Byte.openAngle := by decide
    rw [Markup.ofTokens, Bytes.encode_append, hbs, withoutMark, if_neg]
    simp [Tokenizer.byteOrderMark, hne]
  rw [transcript, hmark, ← Token.ofTokens_merge, ← Token.map_spacedOut_merge]
  rw [← Token.followAll_merge] at hfollow
  exact readFrom_ofTokens 1 (Token.proper_merge hproper) (Token.separated_merge tokens) hfollow

end Document

/-! ### The tokens of a document -/

/-- A construct that was cut: its characters are not empty. -/
theorem Construct.ne_nil_of_cut? {final : Bool} {bs raw : Bytes} {n : Nat}
    (h : cut? final bs = some (characters raw, n)) : raw ≠ [] := by
  have hpos := cut?_pos h
  have hraw : raw = bs.take n ∧ n ≤ bs.length := by
    cases bs with
    | nil => cases h
    | cons b bs =>
      simp only [cut?] at h
      split_ifs at h with hb
      · unfold cutMarkup? at h
        split_ifs at h <;> obtain ⟨m, -, e⟩ := Option.map_eq_some_iff.1 h <;> cases e
      · unfold cutCharacters? at h
        cases hstart : Bytes.tagStart? (b :: bs) with
        | none =>
          rw [hstart] at h
          cases final <;> cases h
          exact ⟨by simp, Nat.le_refl _⟩
        | some m =>
          rw [hstart] at h
          cases h
          exact ⟨rfl, Nat.le_of_lt (Bytes.tagStart?_lt hstart)⟩
  rintro rfl
  have hlen := congrArg List.length hraw.1
  rw [List.length_take, List.length_nil] at hlen
  omega

/-- A reading of which every token can be written. -/
def Reading.Proper : Reading → Prop
  | nothing _ => True
  | token given _ => given.Proper
  | emptyElement name attributes _ => isName name = true ∧ attributes.Proper

namespace Place

variable {p : Place} {r : Reading}

theorem decode?_of_decodeText {bs : Bytes} {s : String} (h : decodeText bs = .ok s) :
    bs.decode? = some s := by
  unfold decodeText at h
  cases hs : bs.decode? with
  | none =>
    rw [hs] at h
    cases h
  | some text =>
    rw [hs] at h
    cases h
    rfl

theorem readLiteral_proper {bs : Bytes} (h : p.readLiteral bs = .ok r) : r.Proper := by
  cases p with
  | prolog | epilog => cases h
  | content innermost outer =>
    obtain ⟨text, -, h⟩ := exists_of_bind_eq_ok h
    cases h
    split_ifs with hempty
    · trivial
    · intro htext
      exact hempty (by rw [htext]; rfl)

theorem readCharacters_proper {raw : Bytes} (hne : raw ≠ []) (h : p.readCharacters raw = .ok r) :
    r.Proper := by
  cases p with
  | prolog | epilog =>
    simp only [readCharacters] at h
    split_ifs at h
    cases h
    trivial
  | content innermost outer =>
    obtain ⟨text, htext, h⟩ := exists_of_bind_eq_ok h
    cases h
    unfold decodeCharacters at htext
    cases hexpand : Reference.expand raw with
    | error cause =>
      rw [hexpand] at htext
      cases htext
    | ok expanded =>
      rw [hexpand] at htext
      have hbytes := Bytes.decode?_eq_some_iff.1 (decode?_of_decodeText htext)
      rintro rfl
      exact Reference.ne_nil_of_expand hne hexpand hbytes

theorem exists_of_endTagName? {body raw : Bytes} (h : endTagName? body = some raw) :
    ∃ rest, body.splitName? = some (raw, rest) := by
  unfold endTagName? at h
  cases hsplit : body.splitName? with
  | none =>
    rw [hsplit] at h
    cases h
  | some split =>
    rw [hsplit] at h
    simp only [Option.ite_none_right_eq_some, Option.some.injEq] at h
    exact ⟨split.2, by rw [← h.2]⟩

theorem readEndTag_proper {body : Bytes} (h : p.readEndTag body = .ok r) : r.Proper := by
  obtain ⟨raw, name, outer, hbody, hname, -, rfl⟩ := exists_of_readEndTag h
  obtain ⟨rest, hsplit⟩ := exists_of_endTagName? hbody
  exact Bytes.isName_of_splitName? hsplit (decode?_of_decodeText hname)

theorem readStartTag_proper {body : Bytes} (h : p.readStartTag body = .ok r) : r.Proper := by
  obtain ⟨raw, rest, name, attributes, hsplit, -, hname, hattributes, rfl⟩ :=
    exists_of_readStartTag h
  have hproper := Bytes.isName_of_splitName? hsplit (decode?_of_decodeText hname)
  split_ifs <;> exact ⟨hproper, Attributes.parse_proper hattributes⟩

/-- Whatever a construct amounts to can be written. -/
theorem read_proper {final : Bool} {bs : Bytes} {c : Construct} {n : Nat}
    (hcut : Construct.cut? final bs = some (c, n)) (h : p.read c = .ok r) : r.Proper := by
  cases c with
  | aside =>
    cases h
    trivial
  | declaration =>
    cases p <;> cases h
    trivial
  | literal bs => exact readLiteral_proper h
  | endTag body => exact readEndTag_proper h
  | startTag body => exact readStartTag_proper h
  | characters raw => exact readCharacters_proper (Construct.ne_nil_of_cut? hcut) h

end Place

namespace Document

theorem readFrom_proper {place : Place} {line : Nat} {bs : Bytes} :
    ∀ token ∈ (readFrom place line bs).tokens, token.Proper := by
  fun_induction readFrom place line bs with
  | case1 | case2 | case3 | case4 => simp
  | case5 place line bs c n hcut hlt after hread ih => exact ih
  | case6 place line bs c n hcut hlt token after hread ih =>
    exact List.forall_mem_cons.2 ⟨Place.read_proper hcut hread, ih⟩
  | case7 place line bs c n hcut hlt name attributes after hread ih =>
    have hproper := Place.read_proper hcut hread
    exact List.forall_mem_cons.2 ⟨hproper, List.forall_mem_cons.2 ⟨hproper.1, ih⟩⟩

/-- Every token of a document can be written. -/
theorem transcript_proper (document : Bytes) :
    ∀ token ∈ (transcript document).tokens, token.Proper :=
  readFrom_proper

/-- A document without an error is read back from what is written of its tokens. -/
theorem transcript_rewritten {document : Bytes} (h : (transcript document).error = none) :
    transcript (Bytes.encode (Markup.ofTokens (transcript document).tokens)) =
      ⟨Token.merge ((transcript document).tokens.map Token.spacedOut), none⟩ := by
  obtain ⟨after, hfollow, hend⟩ := follow_transcript document
  rw [hend h] at hfollow
  exact transcript_ofTokens (transcript_proper document) hfollow

end Document

namespace Tokenizer

variable {t u : Tokenizer}

/-- What is scanned can be written, also where the input may go on. -/
theorem scan_proper {token : Token} (h : t.scan = (.ok (some token), u)) : token.Proper := by
  obtain ⟨v, -, hstops⟩ := scan_cases h
  cases hstops with
  | token hcut hread | emptyElement hcut hread => exact Place.read_proper hcut hread

/-- Start tags that are given can be written. -/
theorem next_startTag_proper {name : String} {attributes : Attributes}
    (h : t.next = (.ok (some (.startTag name attributes)), u)) :
    (Token.startTag name attributes).Proper := by
  cases next_gives h with
  | scanned _ _ _ hscan => exact scan_proper hscan

end Tokenizer

end XmlSieve
