import XmlSieve.Proofs.Token.Reading

/-!
# Tokens nest

`Place.follow` is the rule by which tokens form a document: one root, every end tag closes the
innermost open element, text stands inside the root.  A tokenizer that has given some tokens stands
at a place (`Tokenizer.standing`), which an owed end keeps one level below the place its input has
reached.  Each token that it gives follows the place it stands at (`next_follow`), and a document
read without an error leads from before the root to after it (`follow_transcript`).
-/

namespace XmlSieve

namespace Place

/-- The place after a token, if the token can stand here. -/
def follow (p : Place) : Token → Option Place
  | .startTag name _ => if p = epilog then none else some (content name p.openNames)
  | .endTag name =>
    match p with
    | content innermost outer => if innermost = name then some (inside outer) else none
    | prolog | epilog => none
  | .text _ =>
    match p with
    | content innermost outer => some (content innermost outer)
    | prolog | epilog => none

/-- The place after tokens that follow one another. -/
def followAll (p : Place) (tokens : List Token) : Option Place := tokens.foldlM follow p

/-- The ways in which a token leads from one place to another. -/
inductive Leads : Place → Token → Place → Prop where
  | startTag {p : Place} (name : String) (attributes : Attributes) (h : p ≠ epilog) :
    Leads p (.startTag name attributes) (content name p.openNames)
  | text (chunk innermost : String) (outer : List String) :
    Leads (content innermost outer) (.text chunk) (content innermost outer)
  | endTag (name : String) (outer : List String) :
    Leads (content name outer) (.endTag name) (inside outer)

variable {p q : Place} {token : Token} {tokens : List Token}

theorem follow_eq_some_iff : p.follow token = some q ↔ p.Leads token q := by
  constructor
  · intro h
    cases token with
    | startTag name attributes =>
      rw [follow] at h
      split_ifs at h with hp
      cases h
      exact .startTag name attributes hp
    | text chunk =>
      cases p with
      | prolog | epilog => cases h
      | content innermost outer =>
        cases h
        exact .text chunk innermost outer
    | endTag name =>
      cases p with
      | prolog | epilog => cases h
      | content innermost outer =>
        rw [follow] at h
        split_ifs at h with hname
        cases h
        exact hname ▸ .endTag innermost outer
  · intro h
    cases h with
    | startTag name attributes h => exact if_neg h
    | text => rfl
    | endTag => exact if_pos rfl

theorem followAll_cons :
    p.followAll (token :: tokens) = (p.follow token).bind (·.followAll tokens) := by
  rw [followAll, List.foldlM_cons]
  rfl

theorem exists_of_followAll_cons (h : p.followAll (token :: tokens) = some q) :
    ∃ r, p.follow token = some r ∧ r.followAll tokens = some q :=
  Option.bind_eq_some_iff.1 (followAll_cons ▸ h)

theorem followAll_append {front : List Token} (h : p.followAll front = some q)
    (back : List Token) : p.followAll (front ++ back) = q.followAll back := by
  rw [followAll] at h
  rw [followAll, List.foldlM_append, h]
  rfl

/-- Tokens that are followed by others follow one another themselves. -/
theorem exists_of_followAll_prefix {front : List Token} (hfront : front <+: tokens)
    (h : p.followAll tokens = some q) : ∃ r, p.followAll front = some r := by
  obtain ⟨back, rfl⟩ := hfront
  rw [followAll, List.foldlM_append] at h
  obtain ⟨r, hr, -⟩ := Option.bind_eq_some_iff.1 h
  exact ⟨r, hr⟩

theorem openNames_inside (names : List String) : (inside names).openNames = names := by
  cases names <;> rfl

theorem inside_openNames (h : p ≠ prolog) : inside p.openNames = p := by
  cases p with
  | prolog => exact absurd rfl h
  | content | epilog => rfl

theorem inside_ne_prolog (names : List String) : inside names ≠ prolog := by
  cases names <;> simp [inside]

end Place

theorem exists_of_bind_eq_ok {ε α β : Type} {x : Except ε α} {f : α → Except ε β} {b : β}
    (h : x >>= f = .ok b) : ∃ a, x = .ok a ∧ f a = .ok b := by
  cases x with
  | error e => cases h
  | ok a => exact ⟨a, rfl, h⟩

/-! ### What constructs amount to -/

/-- A reading that is in place: what it tells follows, and leads to the place after it. -/
def Reading.Fits (p : Place) : Reading → Prop
  | nothing after => after = p
  | token given after => p.follow given = some after
  | emptyElement _ _ after => p ≠ .epilog ∧ after = .inside p.openNames

namespace Place

variable {p q : Place} {r : Reading}

theorem readLiteral_fits {bs : Bytes} (h : p.readLiteral bs = .ok r) : r.Fits p := by
  cases p with
  | prolog | epilog => cases h
  | content innermost outer =>
    obtain ⟨text, -, h⟩ := exists_of_bind_eq_ok h
    cases h
    split_ifs <;> rfl

theorem readCharacters_fits {raw : Bytes} (h : p.readCharacters raw = .ok r) : r.Fits p := by
  cases p with
  | content innermost outer =>
    obtain ⟨text, -, h⟩ := exists_of_bind_eq_ok h
    cases h
    rfl
  | prolog | epilog =>
    simp only [readCharacters] at h
    split_ifs at h
    cases h
    rfl

theorem readDeclaration_fits (h : p.readDeclaration = .ok r) : r.Fits p := by
  cases p <;> cases h
  rfl

/-- An end tag that is read has the name of the innermost open element. -/
theorem exists_of_readEndTag {body : Bytes} (h : p.readEndTag body = .ok r) :
    ∃ raw name outer, endTagName? body = some raw ∧ decodeText raw = .ok name ∧
      p = .content name outer ∧ r = .token (.endTag name) (.inside outer) := by
  unfold readEndTag at h
  cases hbody : endTagName? body with
  | none =>
    rw [hbody] at h
    cases h
  | some raw =>
    rw [hbody] at h
    obtain ⟨name, hname, h⟩ := exists_of_bind_eq_ok h
    cases p with
    | prolog | epilog => cases h
    | content innermost outer =>
      simp only at h
      split_ifs at h with heq
      cases h
      exact ⟨raw, name, outer, rfl, hname, by rw [heq], rfl⟩

/-- A start tag that is read has a name and attributes, and an element may start before it. -/
theorem exists_of_readStartTag {body : Bytes} (h : p.readStartTag body = .ok r) :
    ∃ raw rest name attributes, (splitSlash body).1.splitName? = some (raw, rest) ∧
      p ≠ .epilog ∧ decodeText raw = .ok name ∧ Attributes.parse rest = .ok attributes ∧
      r = if (splitSlash body).2 then .emptyElement name attributes (.inside p.openNames)
        else .token (.startTag name attributes) (.content name p.openNames) := by
  simp only [readStartTag] at h
  cases hsplit : (splitSlash body).1.splitName? with
  | none =>
    rw [hsplit] at h
    cases h
  | some split =>
    simp only [hsplit] at h
    by_cases hp : p = epilog
    · rw [if_pos hp] at h
      cases h
    · rw [if_neg hp] at h
      obtain ⟨name, hname, h⟩ := exists_of_bind_eq_ok h
      cases hattributes : Attributes.parse split.2 with
      | error cause =>
        simp only [hattributes] at h
        cases h
      | ok attributes =>
        simp only [hattributes] at h
        refine ⟨split.1, split.2, name, attributes, rfl, hp, hname, hattributes, ?_⟩
        split_ifs at h ⊢ <;> exact (Except.ok.inj h).symm

theorem readEndTag_fits {body : Bytes} (h : p.readEndTag body = .ok r) : r.Fits p := by
  obtain ⟨raw, name, outer, -, -, rfl, rfl⟩ := exists_of_readEndTag h
  exact if_pos rfl

theorem readStartTag_fits {body : Bytes} (h : p.readStartTag body = .ok r) : r.Fits p := by
  obtain ⟨raw, rest, name, attributes, -, hp, -, -, rfl⟩ := exists_of_readStartTag h
  split_ifs
  · exact ⟨hp, rfl⟩
  · exact if_neg hp

/-- Whatever a construct amounts to at a place is in place there. -/
theorem read_fits {c : Construct} (h : p.read c = .ok r) : r.Fits p := by
  cases c with
  | aside =>
    cases h
    rfl
  | declaration => exact readDeclaration_fits h
  | literal bs => exact readLiteral_fits h
  | endTag body => exact readEndTag_fits h
  | startTag body => exact readStartTag_fits h
  | characters raw => exact readCharacters_fits h

end Place

namespace Document

/-- What a document tells from a place on leads, if there is no error, to the place after the
root. -/
theorem follow_readFrom {place : Place} {line : Nat} {bs : Bytes} :
    ∃ after, place.followAll (readFrom place line bs).tokens = some after ∧
      ((readFrom place line bs).error = none → after = .epilog) := by
  fun_induction readFrom place line bs with
  | case1 place line bs => exact ⟨place, rfl, by simp⟩
  | case2 line bs => exact ⟨.epilog, rfl, fun _ => rfl⟩
  | case3 place line bs => exact ⟨place, rfl, by simp⟩
  | case4 place line bs => exact ⟨place, rfl, by simp⟩
  | case5 place line bs c n hcut hlt after hread ih =>
    have hfits := Place.read_fits hread
    cases hfits
    exact ih
  | case6 place line bs c n hcut hlt token after hread ih =>
    obtain ⟨last, hlast, herr⟩ := ih
    refine ⟨last, ?_, herr⟩
    rw [Transcript.cons, Place.followAll_cons, show place.follow token = some after from
      Place.read_fits hread]
    exact hlast
  | case7 place line bs c n hcut hlt name attributes after hread ih =>
    obtain ⟨hplace, rfl⟩ := Place.read_fits hread
    obtain ⟨last, hlast, herr⟩ := ih
    refine ⟨last, ?_, herr⟩
    simp only [Transcript.cons, Place.followAll_cons, Place.follow, if_neg hplace, if_pos,
      Option.bind_some]
    exact hlast

theorem follow_transcript (document : Bytes) :
    ∃ after, Place.prolog.followAll (transcript document).tokens = some after ∧
      ((transcript document).error = none → after = .epilog) :=
  follow_readFrom

end Document

namespace Tokenizer

variable {t u : Tokenizer} {token : Token}

/-! ### Where a tokenizer stands -/

/-- The place after the tokens given so far: where the input has got to, unless the end of an
element is owed, in which that element is still open. -/
def standing (t : Tokenizer) : Place :=
  match t.owed with
  | some name => .content name t.place.openNames
  | none => t.place

/-- The root has started when an end is owed. -/
def RootStarted (t : Tokenizer) : Prop := t.owed.isSome = true → t.place ≠ .prolog

theorem standing_of_none (h : t.owed = none) : t.standing = t.place := by
  simp [standing, h]

theorem Passes.place_eq (h : t.Passes u) : u.place = t.place := by
  induction h with
  | refl => rfl
  | @skip t u c n after hcut hread _ ih =>
    have hfits : after = t.place := Place.read_fits hread
    exact ih.trans hfits

theorem scan_follow (ho : t.owed = none) (h : t.scan = (.ok (some token), u)) :
    t.place.follow token = some u.standing ∧ u.RootStarted := by
  obtain ⟨v, hpasses, hstops⟩ := scan_cases h
  have hv : v.owed = none := hpasses.kept.owed.trans ho
  rw [← hpasses.place_eq]
  cases hstops with
  | @token c n token after hcut hread =>
    refine ⟨?_, by simp [RootStarted, take, hv]⟩
    rw [standing_of_none (t := v.take n after) hv]
    exact Place.read_fits hread
  | @emptyElement c n name attributes after hcut hread =>
    obtain ⟨hplace, rfl⟩ := Place.read_fits hread
    refine ⟨?_, fun _ => Place.inside_ne_prolog _⟩
    simp [Place.follow, hplace, standing, take, Place.openNames_inside]

theorem scan_place {answer : Answer} (ho : t.owed = none) (h : t.scan = (answer, u))
    (hne : ∀ token, answer ≠ .ok (some token)) : u.place = t.place ∧ u.owed = none := by
  obtain ⟨v, hpasses, hstops⟩ := scan_cases h
  cases hstops with
  | waits | short | fault => exact ⟨hpasses.place_eq, hpasses.kept.owed.trans ho⟩
  | token | emptyElement => exact absurd rfl (hne _)

theorem start_place (t : Tokenizer) : t.start.place = t.place := by
  unfold start
  split_ifs <;> rfl

/-- Every token follows the place that the tokenizer stands at. -/
theorem next_follow (ht : t.RootStarted) (h : t.next = (.ok (some token), u)) :
    t.standing.follow token = some u.standing ∧ u.RootStarted := by
  cases next_gives h with
  | ended _ ho =>
    have hplace := Place.inside_openNames (ht (by rw [ho]; rfl))
    exact ⟨by simp [standing, ho, Place.follow, hplace], by simp [RootStarted]⟩
  | scanned _ ho _ hscan =>
    rw [standing_of_none ho, ← start_place]
    exact scan_follow (by rw [start_owed, ho]) hscan

/-- An answer that is no token leaves the tokenizer where it stands. -/
theorem next_standing {answer : Answer} (ht : t.RootStarted) (h : t.next = (answer, u))
    (hne : ∀ token, answer ≠ .ok (some token)) : u.standing = t.standing ∧ u.RootStarted := by
  cases next_gives h with
  | closed | awaiting => exact ⟨rfl, ht⟩
  | ended => exact absurd rfl (hne _)
  | scanned _ ho _ hscan =>
    obtain ⟨hplace, howed⟩ := scan_place (by rw [start_owed, ho]) hscan hne
    refine ⟨?_, by simp [RootStarted, howed]⟩
    rw [standing_of_none ho, standing_of_none howed, hplace, start_place]

end Tokenizer

end XmlSieve
