import Mathlib.Tactic.Common
import XmlSieve.Selector.Subscription

/-!
# Canonical forms

The canonical form of a selector that was read reads as the same selector (`parse_canonical`), and
so does the canonical name of an event (`parse?_name`).  Equal forms therefore stand for equal
selectors and subscriptions, which is what the automaton and the table of listeners rely on.  How
much white space separates the parts, and whether any stands next to `>`, does not matter
(`parse_run`, `parse_sign`).
-/

namespace XmlSieve

/-- A part that can be read: the name of an element is not empty and has neither white space nor the
sign `>` in it. -/
def Part.Proper : Part → Prop
  | .child => True
  | .name word => word.toList ≠ [] ∧ ∀ c ∈ word.toList, isBlank c = false ∧ c ≠ '>'

namespace Selector

/-- A selector all of whose parts can be read. -/
def Proper (s : Selector) : Prop := ∀ part ∈ s.parts, part.Proper

/-! ### What is read is proper -/

theorem wordPart_proper {word : List Char} (h : ∀ c ∈ word, isBlank c = false ∧ c ≠ '>') :
    ∀ part ∈ wordPart word, part.Proper := by
  unfold wordPart
  split
  · simp
  · next hne =>
    intro part hpart
    rw [List.mem_singleton.1 hpart]
    refine ⟨?_, fun c hc => h c ?_⟩
    · simpa using hne
    · simpa using hc

theorem partsFrom_proper {word cs : List Char} (h : ∀ c ∈ word, isBlank c = false ∧ c ≠ '>') :
    ∀ part ∈ partsFrom word cs, part.Proper := by
  induction cs generalizing word with
  | nil => exact wordPart_proper h
  | cons c cs ih =>
    simp only [partsFrom]
    split
    · intro part hpart
      rcases List.mem_append.1 hpart with hpart | hpart
      · exact wordPart_proper h part hpart
      · exact ih (by simp) part hpart
    · next hc =>
      split
      · intro part hpart
        rcases List.mem_append.1 hpart with hpart | hpart
        · exact wordPart_proper h part hpart
        · rcases List.mem_cons.1 hpart with rfl | hpart
          · trivial
          · exact ih (by simp) part hpart
      · next hsign =>
        refine ih fun d hd => ?_
        rcases List.mem_cons.1 hd with rfl | hd
        · exact ⟨by simpa using hc, hsign⟩
        · exact h d hd

theorem parse_proper (text : String) : (parse text).Proper := partsFrom_proper (by simp)

/-! ### Reading a canonical form -/

theorem partsFrom_append (word cs : List Char) {name : List Char}
    (h : ∀ c ∈ name, isBlank c = false ∧ c ≠ '>') :
    partsFrom word (name ++ cs) = partsFrom (name.reverse ++ word) cs := by
  induction name generalizing word with
  | nil => rfl
  | cons c name ih =>
    obtain ⟨hblank, hsign⟩ := h c (by simp)
    rw [List.cons_append, partsFrom, if_neg (by simp [hblank]), if_neg hsign,
      ih _ fun d hd => h d (by simp [hd])]
    simp

theorem partsFrom_space {word cs : List Char} :
    partsFrom word (' ' :: cs) = wordPart word ++ partsFrom [] cs := by
  rw [partsFrom, if_pos (by decide)]

theorem wordPart_reverse {name : String} (h : name.toList ≠ []) :
    wordPart (name.toList.reverse ++ []) = [.name name] := by
  rw [wordPart, if_neg (by simpa using h)]
  simp

/-- A part and a space are read as the part. -/
theorem partsFrom_part {part : Part} {cs : List Char} (h : part.Proper) :
    partsFrom [] (part.text.toList ++ ' ' :: cs) = part :: partsFrom [] cs := by
  cases part with
  | child =>
    show partsFrom [] ('>' :: ' ' :: cs) = _
    rw [partsFrom, if_neg (by decide), if_pos rfl, partsFrom_space]
    rfl
  | name word =>
    rw [Part.text, partsFrom_append _ _ h.2, partsFrom_space, wordPart_reverse h.1]
    rfl

/-- A part at the end is read as the part. -/
theorem partsFrom_last {part : Part} (h : part.Proper) :
    partsFrom [] part.text.toList = [part] := by
  cases part with
  | child => rfl
  | name word =>
    have hword := partsFrom_append [] [] h.2
    rw [List.append_nil] at hword
    rw [Part.text, hword, partsFrom, wordPart_reverse h.1]

theorem parse_canonical {s : Selector} (h : s.Proper) : parse s.canonical = s := by
  obtain ⟨parts⟩ := s
  rw [parse, canonical]
  congr 1
  induction parts with
  | nil => rfl
  | cons part parts ih =>
    have hpart : part.Proper := h part (by simp)
    cases parts with
    | nil => simpa using partsFrom_last hpart
    | cons next parts =>
      have hrest := ih fun p hp => h p (List.mem_cons_of_mem _ hp)
      simp only [List.map_cons, String.intercalate_cons_cons, String.toList_append,
        List.append_assoc] at hrest ⊢
      show partsFrom [] (part.text.toList ++ ' ' :: _) = _
      rw [partsFrom_part hpart]
      exact congrArg (part :: ·) hrest

theorem canonical_injective {s t : Selector} (hs : s.Proper) (ht : t.Proper)
    (h : s.canonical = t.canonical) : s = t := by
  rw [← parse_canonical hs, h, parse_canonical ht]

/-! ### White space -/

section Spacing

variable {word cs cs' run run' : List Char}

theorem partsFrom_blank {c : Char} (h : isBlank c = true) :
    partsFrom word (c :: cs) = wordPart word ++ partsFrom [] cs := by
  rw [partsFrom, if_pos h]

/-- Blanks between parts are passed over. -/
theorem partsFrom_blanks (h : ∀ c ∈ run, isBlank c = true) :
    partsFrom [] (run ++ cs) = partsFrom [] cs := by
  induction run with
  | nil => rfl
  | cons c run ih =>
    obtain ⟨hc, hrun⟩ := List.forall_mem_cons.1 h
    rw [List.cons_append, partsFrom_blank hc, ih hrun]
    rfl

/-- One blank or more end a name. -/
theorem partsFrom_run (word cs : List Char) (hne : run ≠ []) (h : ∀ c ∈ run, isBlank c = true) :
    partsFrom word (run ++ cs) = wordPart word ++ partsFrom [] cs := by
  cases run with
  | nil => exact absurd rfl hne
  | cons c run =>
    obtain ⟨hc, hrun⟩ := List.forall_mem_cons.1 h
    rw [List.cons_append, partsFrom_blank hc, partsFrom_blanks hrun]

/-- Blanks at the end are passed over. -/
theorem partsFrom_trail (h : ∀ c ∈ run, isBlank c = true) : partsFrom word run = wordPart word := by
  cases run with
  | nil => rfl
  | cons c run =>
    have hrun := partsFrom_run word [] (List.cons_ne_nil c run) h
    rw [List.append_nil] at hrun
    rw [hrun]
    exact List.append_nil _

/-- The sign `>` ends a name, with blanks around it or without. -/
theorem partsFrom_sign (word cs : List Char) (h : ∀ c ∈ run, isBlank c = true)
    (h' : ∀ c ∈ run', isBlank c = true) :
    partsFrom word (run ++ '>' :: (run' ++ cs)) = wordPart word ++ .child :: partsFrom [] cs := by
  have hsign (word : List Char) :
      partsFrom word ('>' :: (run' ++ cs)) = wordPart word ++ .child :: partsFrom [] cs := by
    rw [partsFrom, if_neg (by decide), if_pos rfl, partsFrom_blanks h']
  by_cases hne : run = []
  · rw [hne]
    exact hsign word
  · rw [partsFrom_run _ _ hne h, hsign]
    rfl

/-- What is read alike after any part of a name is read alike after any characters. -/
theorem partsFrom_congr (h : ∀ word, partsFrom word cs = partsFrom word cs')
    (word front : List Char) :
    partsFrom word (front ++ cs) = partsFrom word (front ++ cs') := by
  induction front generalizing word with
  | nil => exact h word
  | cons c front ih =>
    simp only [List.cons_append, partsFrom, ih]

end Spacing

/-- A string of nothing but white space. -/
def IsBlank (s : String) : Prop := ∀ c ∈ s.toList, isBlank c = true

instance (s : String) : Decidable (IsBlank s) :=
  decidable_of_iff (s.toList.all isBlank = true) List.all_eq_true

variable {front back run run' : String}

theorem parse_congr (h : ∀ word, partsFrom word run.toList = partsFrom word run'.toList) :
    parse (front ++ run) = parse (front ++ run') := by
  rw [parse, parse, String.toList_append, String.toList_append, partsFrom_congr h]

/-- It does not matter what white space stands between parts. -/
theorem parse_run (hne : run ≠ "") (hne' : run' ≠ "") (h : IsBlank run) (h' : IsBlank run') :
    parse (front ++ (run ++ back)) = parse (front ++ (run' ++ back)) := by
  refine parse_congr fun word => ?_
  rw [String.toList_append, String.toList_append, partsFrom_run _ _ (by simpa using hne) h,
    partsFrom_run _ _ (by simpa using hne') h']

/-- White space at the ends does not matter. -/
theorem parse_ends {s : String} (h : IsBlank run) (h' : IsBlank run') :
    parse (run ++ (s ++ run')) = parse s := by
  rw [parse, parse, String.toList_append, String.toList_append, partsFrom_blanks h]
  have htrail (word : List Char) : partsFrom word run'.toList = partsFrom word [] :=
    partsFrom_trail h'
  rw [partsFrom_congr htrail, List.append_nil]

/-- White space next to the sign `>` does not matter. -/
theorem parse_sign (h : IsBlank run) (h' : IsBlank run') :
    parse (front ++ (run ++ ">" ++ (run' ++ back))) = parse (front ++ (">" ++ back)) := by
  have hnone : ∀ c ∈ ([] : List Char), isBlank c = true := by simp
  refine parse_congr fun word => ?_
  have hspaced := partsFrom_sign word back.toList h h'
  have hplain := partsFrom_sign word back.toList hnone hnone
  simpa using hspaced.trans hplain.symm

end Selector

namespace Subscription

variable {s t : Subscription}

/-! ### Names of events -/

theorem selectorAfter?_proper {cs : List Char} {selector : Selector}
    (h : selectorAfter? cs = some selector) : selector.Proper := by
  cases cs with
  | nil =>
    cases h
    exact Selector.parse_proper _
  | cons c cs =>
    simp only [selectorAfter?] at h
    split_ifs at h
    cases h
    exact Selector.parse_proper _

theorem parse?_proper {event : String} (h : parse? event = some s) : s.selector.Proper := by
  unfold parse? at h
  split at h
  · next kind rest _ =>
    obtain ⟨selector, hselector, rfl⟩ := Option.map_eq_some_iff.1 h
    exact selectorAfter?_proper hselector
  · cases h

/-- No word for a kind of event is the beginning of another, so that the kind can be told. -/
theorem findKind (kind : EventKind) (rest : List Char) :
    (EventKind.all.findSome? fun k =>
      (afterWord? k.word.toList (kind.word.toList ++ rest)).map (k, ·)) = some (kind, rest) := by
  cases kind <;> simp [EventKind.all, EventKind.word, afterWord?]

theorem parse?_name (h : s.selector.Proper) : parse? s.name = some s := by
  obtain ⟨kind, selector⟩ := s
  unfold parse? name
  by_cases hempty : selector.isEmpty = true
  · have hselector : selector = Selector.parse "" := by
      obtain ⟨parts⟩ := selector
      rw [Selector.isEmpty, List.isEmpty_iff] at hempty
      rw [show parts = [] from hempty]
      rfl
    have hfind := findKind kind []
    rw [List.append_nil] at hfind
    simp only [if_pos hempty, hfind]
    rw [hselector]
    rfl
  · have hchars : (kind.word ++ ": " ++ selector.canonical).toList =
        kind.word.toList ++ (':' :: ' ' :: selector.canonical.toList) := by
      simp
    have hread : Selector.parse (String.ofList (' ' :: selector.canonical.toList)) = selector := by
      rw [Selector.parse, String.toList_ofList, Selector.partsFrom_space]
      exact Selector.parse_canonical h
    simp only [if_neg hempty, hchars, findKind, selectorAfter?, if_pos, hread]
    rfl

theorem name_injective (hs : s.selector.Proper) (ht : t.selector.Proper) (h : s.name = t.name) :
    s = t := by
  have hparse := parse?_name hs
  rw [h, parse?_name ht] at hparse
  exact (Option.some.inj hparse).symm

end Subscription

end XmlSieve
