import Mathlib.Tactic.Common
import XmlSieve.Token.Construct

/-!
# Cuts are final

A construct that was cut from the bytes read so far stays the construct at their head whatever
bytes follow, and whether or not input is still to come (`cut?_append`).  Each search of
`Bytes.Search` keeps the place it found, and the openers that could still grow into a longer one
are those that `isProperPrefix` holds back.
-/

namespace XmlSieve

namespace Bytes

variable {bs rest word : Bytes} {n : Nat}

/-! ### Openers -/

theorem isProperPrefix_iff :
    bs.isProperPrefix word = true ↔ bs <+: word ∧ bs.length < word.length := by
  induction bs generalizing word with
  | nil => cases word <;> simp [isProperPrefix]
  | cons b bs ih =>
    cases word with
    | nil => simp [isProperPrefix]
    | cons w word => simp [isProperPrefix, ih, List.cons_prefix_cons, and_assoc]

theorem isProperPrefix_nil (bs : Bytes) : bs.isProperPrefix [] = false := by
  cases bs <;> rfl

/-- Bytes that are no beginning of a word do not become one when more follow. -/
theorem isProperPrefix_append (h : bs.isProperPrefix word = false) :
    (bs ++ rest).isProperPrefix word = false := by
  rw [Bool.eq_false_iff] at h ⊢
  intro hlong
  obtain ⟨hpre, hlt⟩ := isProperPrefix_iff.1 hlong
  rw [List.length_append] at hlt
  exact h (isProperPrefix_iff.2 ⟨(List.prefix_append bs rest).trans hpre, by omega⟩)

/-- Whether bytes begin with a word is decided unless they are a part of it. -/
theorem isPrefixOf_append (rest : Bytes) (h : bs.isProperPrefix word = false) :
    word.isPrefixOf (bs ++ rest) = word.isPrefixOf bs := by
  rw [Bool.eq_iff_iff, List.isPrefixOf_iff_prefix, List.isPrefixOf_iff_prefix]
  constructor
  · intro hword
    by_cases hlen : word.length ≤ bs.length
    · exact List.prefix_of_prefix_length_le hword (List.prefix_append bs rest) hlen
    · have hbs : bs <+: word :=
        List.prefix_of_prefix_length_le (List.prefix_append bs rest) hword (by omega)
      rw [isProperPrefix_iff.2 ⟨hbs, by omega⟩] at h
      cases h
  · intro hword
    exact hword.trans (List.prefix_append bs rest)

/-! ### Searches -/

/-- A byte that does not occur in the front part stands behind it. -/
theorem length_le_of_getElem? {front : Bytes} {b : UInt8} (hfront : front.isPrefixOf bs = true)
    (hb : b ∉ front) (h : bs[n]? = some b) : front.length ≤ n := by
  obtain ⟨back, rfl⟩ := List.isPrefixOf_iff_prefix.1 hfront
  by_contra hlt
  rw [List.getElem?_append_left (by omega)] at h
  exact hb (List.mem_of_getElem? h)

theorem indexOf?_le (h : indexOf? word bs = some n) : n + word.length ≤ bs.length := by
  induction bs generalizing n with
  | nil =>
    simp only [indexOf?] at h
    split at h
    · next hw => cases h; simp [List.isEmpty_iff.1 hw]
    · cases h
  | cons b bs ih =>
    simp only [indexOf?] at h
    split at h
    · next hw =>
      cases h
      simpa using (List.isPrefixOf_iff_prefix.1 hw).length_le
    · obtain ⟨m, hm, rfl⟩ := Option.map_eq_some_iff.1 h
      have := ih hm
      rw [List.length_cons]
      omega

theorem getElem?_of_indexOf? {b : UInt8} (h : indexOf? (b :: word) bs = some n) :
    bs[n]? = some b := by
  induction bs generalizing n with
  | nil => cases h
  | cons d bs ih =>
    simp only [indexOf?] at h
    split_ifs at h with hw
    · cases h
      rw [List.isPrefixOf_cons_cons, Bool.and_eq_true, beq_iff_eq] at hw
      rw [List.getElem?_cons_zero, hw.1]
    · obtain ⟨m, hm, rfl⟩ := Option.map_eq_some_iff.1 h
      rw [List.getElem?_cons_succ]
      exact ih hm

theorem indexOf?_append (h : indexOf? word bs = some n) : indexOf? word (bs ++ rest) = some n := by
  induction bs generalizing n with
  | nil =>
    simp only [indexOf?] at h
    split at h
    · next hw =>
      cases h
      cases rest <;> simp [indexOf?, List.isEmpty_iff.1 hw]
    · cases h
  | cons b bs ih =>
    -- The word fits into the bytes that were searched, so that its absence at the head is final.
    have hle := indexOf?_le h
    have hfits : isProperPrefix (b :: bs) word = false := by
      rw [Bool.eq_false_iff]
      intro hpart
      have := (isProperPrefix_iff.1 hpart).2
      omega
    have hhead := isPrefixOf_append rest hfits
    rw [List.cons_append] at hhead ⊢
    simp only [indexOf?, hhead] at h ⊢
    split at h
    · next hw => rwa [if_pos hw]
    · next hw =>
      obtain ⟨m, hm, rfl⟩ := Option.map_eq_some_iff.1 h
      rw [if_neg hw, ih hm]
      rfl

theorem tagStart?_lt (h : bs.tagStart? = some n) : n < bs.length :=
  (List.findIdx?_eq_some_iff_getElem.1 h).1

theorem tagStart?_append (h : bs.tagStart? = some n) : tagStart? (bs ++ rest) = some n := by
  unfold tagStart? at h ⊢
  rw [List.findIdx?_append, h]
  rfl

theorem tagEndFrom?_lt {under : Option UInt8} (h : tagEndFrom? under bs = some n) :
    n < bs.length := by
  induction bs generalizing under n with
  | nil => cases h
  | cons b bs ih =>
    simp only [tagEndFrom?] at h
    split at h
    · cases h
      simp
    · obtain ⟨m, hm, rfl⟩ := Option.map_eq_some_iff.1 h
      have := ih hm
      rw [List.length_cons]
      omega

theorem getElem?_of_tagEndFrom? {under : Option UInt8} (h : tagEndFrom? under bs = some n) :
    bs[n]? = some Byte.closeAngle := by
  induction bs generalizing under n with
  | nil => cases h
  | cons b bs ih =>
    simp only [tagEndFrom?] at h
    split_ifs at h with hb
    · cases h
      rw [Bool.and_eq_true, beq_iff_eq] at hb
      rw [List.getElem?_cons_zero, hb.2]
    · obtain ⟨m, hm, rfl⟩ := Option.map_eq_some_iff.1 h
      rw [List.getElem?_cons_succ]
      exact ih hm

theorem tagEndFrom?_append {under : Option UInt8} (h : tagEndFrom? under bs = some n) :
    tagEndFrom? under (bs ++ rest) = some n := by
  induction bs generalizing under n with
  | nil => cases h
  | cons b bs ih =>
    simp only [tagEndFrom?, List.cons_append] at h ⊢
    split at h
    · next hb => rwa [if_pos hb]
    · next hb =>
      obtain ⟨m, hm, rfl⟩ := Option.map_eq_some_iff.1 h
      rw [if_neg hb, ih hm]
      rfl

theorem declarationEndFrom?_lt {under : Option UInt8} {depth : Nat}
    (h : declarationEndFrom? under depth bs = some n) : n < bs.length := by
  induction bs generalizing under depth n with
  | nil => cases h
  | cons b bs ih =>
    simp only [declarationEndFrom?] at h
    split at h
    · cases h
      simp
    · obtain ⟨m, hm, rfl⟩ := Option.map_eq_some_iff.1 h
      have := ih hm
      rw [List.length_cons]
      omega

theorem declarationEndFrom?_append {under : Option UInt8} {depth : Nat}
    (h : declarationEndFrom? under depth bs = some n) :
    declarationEndFrom? under depth (bs ++ rest) = some n := by
  induction bs generalizing under depth n with
  | nil => cases h
  | cons b bs ih =>
    simp only [declarationEndFrom?, List.cons_append] at h ⊢
    split at h
    · next hb => rwa [if_pos hb]
    · next hb =>
      obtain ⟨m, hm, rfl⟩ := Option.map_eq_some_iff.1 h
      rw [if_neg hb, ih hm]
      rfl

end Bytes

namespace Construct

variable {bs rest : Bytes} {c : Construct} {n : Nat} {final : Bool}

/-! ### Constructs -/

theorem cutMarkup?_le (h : cutMarkup? bs = some (c, n)) : n ≤ bs.length := by
  unfold cutMarkup? at h
  split_ifs at h
  all_goals
    obtain ⟨m, hm, e⟩ := Option.map_eq_some_iff.1 h
    cases e
  · exact Bytes.indexOf?_le hm
  · exact Bytes.indexOf?_le hm
  · exact Bytes.indexOf?_le hm
  · exact Bytes.declarationEndFrom?_lt hm
  · exact Bytes.tagEndFrom?_lt hm
  · exact Bytes.tagEndFrom?_lt hm

/-- What is no part of the opener of a comment is no part of an opener of two bytes either. -/
theorem isProperPrefix_pair (b : UInt8) (h : bs.isProperPrefix commentOpen = false) :
    bs.isProperPrefix [Byte.openAngle, b] = false := by
  match bs, h with
  | [], h => cases h
  | [x], h =>
    have hx : x ≠ Byte.openAngle := by
      rintro rfl
      cases h
    simp [Bytes.isProperPrefix, hx]
  | _ :: _ :: _, _ => simp [Bytes.isProperPrefix, Bytes.isProperPrefix_nil]

theorem cutMarkup?_append (h : cutMarkup? bs = some (c, n)) :
    cutMarkup? (bs ++ rest) = some (c, n) := by
  have hle := cutMarkup?_le h
  unfold cutMarkup? at h ⊢
  by_cases hpart : (bs.isProperPrefix commentOpen || bs.isProperPrefix literalOpen) = true
  · rw [if_pos hpart] at h
    cases h
  obtain ⟨hcomment, hliteral⟩ := Bool.or_eq_false_iff.1 (Bool.eq_false_iff.2 hpart)
  have hinstruction : bs.isProperPrefix instructionOpen = false := isProperPrefix_pair _ hcomment
  have hdeclaration : bs.isProperPrefix declarationOpen = false := isProperPrefix_pair _ hcomment
  have hendTag : bs.isProperPrefix endTagOpen = false := isProperPrefix_pair _ hcomment
  rw [if_neg hpart] at h
  rw [Bytes.isProperPrefix_append hcomment, Bytes.isProperPrefix_append hliteral,
    Bytes.isPrefixOf_append _ hcomment, Bytes.isPrefixOf_append _ hliteral,
    Bytes.isPrefixOf_append rest hinstruction,
    Bytes.isPrefixOf_append rest hdeclaration,
    Bytes.isPrefixOf_append rest hendTag,
    if_neg (by simp)]
  split_ifs at h ⊢
  all_goals
    obtain ⟨m, hm, e⟩ := Option.map_eq_some_iff.1 h
    cases e
  · rw [Bytes.indexOf?_append hm]
    rfl
  · rw [Bytes.indexOf?_append hm, Option.map_some, List.take_append_of_le_length (by omega)]
  · rw [Bytes.indexOf?_append hm]
    rfl
  · rw [Bytes.declarationEnd?, Bytes.declarationEndFrom?_append hm]
    rfl
  · rw [Bytes.tagEnd?, Bytes.tagEndFrom?_append hm, Option.map_some,
      List.take_append_of_le_length (by omega)]
  · rw [Bytes.tagEnd?, Bytes.tagEndFrom?_append hm, Option.map_some,
      List.take_append_of_le_length (by omega)]

theorem cutCharacters?_append (h : cutCharacters? false bs = some (c, n)) :
    cutCharacters? final (bs ++ rest) = some (c, n) ∧ n ≤ bs.length := by
  unfold cutCharacters? at h ⊢
  split at h
  · next m hm =>
    have hle := Nat.le_of_lt (Bytes.tagStart?_lt hm)
    cases h
    rw [Bytes.tagStart?_append hm]
    exact ⟨by simp only [List.take_append_of_le_length hle], hle⟩
  · cases h

theorem cutCharacters?_le (h : cutCharacters? final bs = some (c, n)) : n ≤ bs.length := by
  unfold cutCharacters? at h
  split at h
  · next m hm =>
    cases h
    exact Nat.le_of_lt (Bytes.tagStart?_lt hm)
  · split_ifs at h
    cases h
    exact Nat.le_refl _

/-- A construct lies within the bytes from which it is cut. -/
theorem cut?_le (h : cut? final bs = some (c, n)) : n ≤ bs.length := by
  cases bs with
  | nil => cases h
  | cons b bs =>
    simp only [cut?] at h
    split at h
    · exact cutMarkup?_le h
    · exact cutCharacters?_le h

/-- A construct that was cut before the input ended is the one at the head of any longer input. -/
theorem cut?_append (final : Bool) (h : cut? false bs = some (c, n)) :
    cut? final (bs ++ rest) = some (c, n) ∧ n ≤ bs.length := by
  cases bs with
  | nil => cases h
  | cons b bs =>
    simp only [cut?, List.cons_append] at h ⊢
    split at h
    · next hb =>
      rw [if_pos hb]
      exact ⟨cutMarkup?_append h, cutMarkup?_le h⟩
    · next hb =>
      rw [if_neg hb]
      exact cutCharacters?_append h

end Construct

end XmlSieve
