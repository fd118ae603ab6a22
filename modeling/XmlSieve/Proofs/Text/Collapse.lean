import Mathlib.Data.List.Basic
import Mathlib.Data.List.Induction
import XmlSieve.Text.Spacing

/-!
# Collapsed text

The `words` of a text are what is left of it between white space, and `collapse` writes them with
one space between them.  Pushing a text in chunks, cut anywhere, collapses the whole of it
(`push_append`, `push_collapse`), and what is remembered between two chunks is how all of the text
so far ends (`pushAll_exact`).  What was collapsed stays as it is when it is collapsed again
(`collapse_collapse`).
-/

namespace XmlSieve

/-- The longest parts without white space, in their order. -/
def words (cs : List Char) : List (List Char) := (cs.splitOnP isBlank).filter (!·.isEmpty)

/-- `text` without white space at its ends, and with one space for every other run of it. -/
def collapse (text : String) : String := String.ofList ([' '].intercalate (words text.toList))

/-- Words with a space before each. -/
def spaced (ws : List (List Char)) : List Char := ws.flatMap (' ' :: ·)

theorem intercalate_cons (w : List Char) (ws : List (List Char)) :
    [' '].intercalate (w :: ws) = w ++ spaced ws := by
  induction ws generalizing w with
  | nil => simp [spaced]
  | cons w' ws ih =>
    rw [List.intercalate_cons_cons, ih]
    simp [spaced]

theorem words_blank {c : Char} {cs : List Char} (h : isBlank c = true) :
    words (c :: cs) = words cs := by
  simp [words, List.splitOnP_cons_eq_if_modifyHead, h]

/-- Text begins with what continues the word before it; the other words follow. -/
theorem exists_splitOnP (cs : List Char) :
    ∃ first rest, cs.splitOnP isBlank = first :: rest :=
  List.exists_cons_of_ne_nil (List.splitOnP_ne_nil _ _)

/-- There are no words where there is nothing but white space. -/
theorem words_eq_nil_iff {cs : List Char} : words cs = [] ↔ ∀ c ∈ cs, isBlank c = true := by
  induction cs with
  | nil => simp [words]
  | cons c cs ih =>
    by_cases hc : isBlank c = true
    · rw [words_blank hc, ih, List.forall_mem_cons]
      exact ⟨fun h => ⟨hc, h⟩, And.right⟩
    · obtain ⟨first, rest, hsplit⟩ := exists_splitOnP cs
      have hwords : words (c :: cs) ≠ [] := by
        simp [words, List.splitOnP_cons_eq_if_modifyHead, hc, hsplit]
      exact iff_of_false hwords fun h => hc (h c (by simp))

/-! ### Collapsing twice -/

/-- There is no white space in a part that was split off at it. -/
theorem isBlank_of_mem_splitOnP {cs part : List Char} (h : part ∈ cs.splitOnP isBlank) :
    ∀ c ∈ part, isBlank c = false := by
  induction cs generalizing part with
  | nil => simp_all
  | cons c cs ih =>
    obtain ⟨first, rest, hsplit⟩ := exists_splitOnP cs
    rw [List.splitOnP_cons_eq_if_modifyHead] at h
    split at h
    · rcases List.mem_cons.1 h with rfl | h
      · simp
      · exact ih h
    · next hc =>
      rw [hsplit, List.modifyHead_cons] at h
      rcases List.mem_cons.1 h with rfl | h
      · exact List.forall_mem_cons.2 ⟨Bool.eq_false_iff.2 hc, ih (by rw [hsplit]; simp)⟩
      · exact ih (by rw [hsplit]; exact List.mem_cons_of_mem _ h)

/-- What can be a word. -/
def IsWord (w : List Char) : Prop := w ≠ [] ∧ ∀ c ∈ w, isBlank c = false

theorem isWord_of_mem_words {cs w : List Char} (h : w ∈ words cs) : IsWord w := by
  obtain ⟨hmem, hne⟩ := List.mem_filter.1 h
  exact ⟨by simpa using hne, isBlank_of_mem_splitOnP hmem⟩

/-- Words with spaces between them are found again. -/
theorem words_spaced {w : List Char} {ws : List (List Char)} (hw : IsWord w)
    (hws : ∀ v ∈ ws, IsWord v) : words (w ++ spaced ws) = w :: ws := by
  have hkept : (!w.isEmpty) = true := by simpa using hw.1
  induction ws generalizing w with
  | nil => simp [words, spaced, List.splitOnP_eq_singleton hw.2, hw.1]
  | cons v ws ih =>
    obtain ⟨hv, hws⟩ := List.forall_mem_cons.1 hws
    have hrest := ih hv hws (by simpa using hv.1)
    have hcons : w ++ spaced (v :: ws) = w ++ ' ' :: (v ++ spaced ws) := by simp [spaced]
    rw [hcons, words, List.splitOnP_append_cons_of_forall_mem hw.2 _ (by decide),
      List.filter_cons, if_pos hkept]
    exact congrArg (w :: ·) hrest

theorem collapse_collapse (text : String) : collapse (collapse text) = collapse text := by
  have hwords : words (collapse text).toList = words text.toList := by
    have hall : ∀ w ∈ words text.toList, IsWord w := fun w hw => isWord_of_mem_words hw
    rw [collapse, String.toList_ofList]
    cases hws : words text.toList with
    | nil => rfl
    | cons w ws =>
      rw [hws] at hall
      obtain ⟨hw, hrest⟩ := List.forall_mem_cons.1 hall
      rw [intercalate_cons, words_spaced hw hrest]
  rw [collapse, hwords]
  rfl

namespace Spacing

/-- What pushing characters adds to a text, by what the text ends in. -/
theorem foldl_pushChar (cs : List Char) (text : String) :
    (cs.foldl pushChar (noContent, text)).2.toList = text.toList ++ [' '].intercalate (words cs) ∧
    (cs.foldl pushChar (pendingSpace, text)).2.toList = text.toList ++ spaced (words cs) ∧
    ∀ first rest, cs.splitOnP isBlank = first :: rest →
      (cs.foldl pushChar (hadContent, text)).2.toList =
        text.toList ++ first ++ spaced (rest.filter (!·.isEmpty)) := by
  induction cs generalizing text with
  | nil => simp [words, spaced]
  | cons c cs ih =>
    obtain ⟨first, rest, hsplit⟩ := exists_splitOnP cs
    by_cases hc : isBlank c = true
    · have hsplit' : (c :: cs).splitOnP isBlank = [] :: cs.splitOnP isBlank := by
        rw [List.splitOnP_cons_eq_if_modifyHead, if_pos hc]
      rw [words_blank hc]
      simp only [List.foldl_cons, pushChar, hc, if_true, reduceCtorEq, if_false]
      refine ⟨(ih text).1, (ih text).2.1, ?_⟩
      intro first' rest' heq
      rw [hsplit'] at heq
      cases heq
      rw [List.append_nil]
      exact (ih text).2.1
    · have hsplit' : (c :: cs).splitOnP isBlank = (c :: first) :: rest := by
        rw [List.splitOnP_cons_eq_if_modifyHead, if_neg hc, hsplit]
        rfl
      have hwords : words (c :: cs) = (c :: first) :: rest.filter (!·.isEmpty) := by
        rw [words, hsplit']
        rfl
      simp only [List.foldl_cons, pushChar, hc, if_true, reduceCtorEq, if_false, Bool.false_eq_true]
      refine ⟨?_, ?_, ?_⟩
      · rw [(ih _).2.2 first rest hsplit, hwords, intercalate_cons]
        simp
      · rw [(ih _).2.2 first rest hsplit, hwords]
        simp [spaced]
      · intro first' rest' heq
        rw [hsplit'] at heq
        cases heq
        rw [(ih _).2.2 first rest hsplit]
        simp

/-- Pushing a text onto nothing collapses it. -/
theorem push_collapse (text : String) : (push .noContent "" text).2 = collapse text := by
  have h := (foldl_pushChar text.toList "").1
  rw [String.toList_empty, List.nil_append] at h
  rw [push, collapse, ← h, String.ofList_toList]

/-- Where a text is cut does not matter. -/
theorem push_append (spacing : Spacing) (text first second : String) :
    push spacing text (first ++ second) =
      push (push spacing text first).1 (push spacing text first).2 second := by
  simp [push, List.foldl_append]

/-- How characters end: in content, in white space after content, or without any content. -/
def ending (cs : List Char) : Spacing :=
  if cs.all isBlank then noContent
  else if cs.getLast?.any isBlank then pendingSpace
  else hadContent

theorem ending_content {cs : List Char} {c : Char} (hc : isBlank c = false) :
    ending (cs ++ [c]) = hadContent := by
  simp [ending, hc]

theorem ending_blank {cs : List Char} {c : Char} (hc : isBlank c = true) :
    ending (cs ++ [c]) = if cs.all isBlank then noContent else pendingSpace := by
  simp [ending, hc]

/-- What is remembered of characters is how they end, whatever text they are pushed onto. -/
theorem spacing_foldl_pushChar (cs : List Char) (text : String) :
    (cs.foldl pushChar (noContent, text)).1 = ending cs := by
  induction cs using List.reverseRecOn with
  | nil => rfl
  | append_singleton cs c ih =>
    rw [List.foldl_append, List.foldl_cons, List.foldl_nil, pushChar, ih]
    cases hc : isBlank c with
    | false => simp [ending_content hc]
    | true =>
      -- White space after content is remembered, and any other changes nothing.
      rw [ending_blank hc, if_pos rfl, ending]
      split_ifs <;> simp_all

theorem ending_eq_noContent_iff {cs : List Char} : ending cs = noContent ↔ words cs = [] := by
  rw [words_eq_nil_iff, ← List.all_eq_true, ending]
  split_ifs <;> simp_all

theorem ending_eq_hadContent_iff {cs : List Char} :
    ending cs = hadContent ↔ ∃ c, cs.getLast? = some c ∧ isBlank c = false := by
  rcases List.eq_nil_or_concat' cs with rfl | ⟨cs, c, rfl⟩
  · simp [ending]
  · cases hc : isBlank c with
    | false => simp [ending_content hc, hc]
    | true =>
      rw [ending_blank hc]
      split_ifs <;> simp [hc]

theorem ending_eq_pendingSpace_iff {cs : List Char} :
    ending cs = pendingSpace ↔
      words cs ≠ [] ∧ ∃ c, cs.getLast? = some c ∧ isBlank c = true := by
  rw [Ne, words_eq_nil_iff]
  rcases List.eq_nil_or_concat' cs with rfl | ⟨cs, c, rfl⟩
  · simp [ending]
  · cases hc : isBlank c with
    | false => simp [ending_content hc, hc]
    | true => simp [ending_blank hc, hc]

/-- Pushes chunks one after the other onto nothing. -/
def pushAll (chunks : List String) : Spacing × String :=
  chunks.foldl (fun (spacing, text) chunk => push spacing text chunk) (noContent, "")

/-- Chunks amount to the text that they are cut from. -/
theorem pushAll_join (chunks : List String) :
    pushAll chunks = push noContent "" (String.join chunks) := by
  induction chunks using List.reverseRecOn with
  | nil => rfl
  | append_singleton chunks chunk ih =>
    have hjoin : String.join (chunks ++ [chunk]) = String.join chunks ++ chunk := by simp
    rw [hjoin, push_append, ← ih, pushAll, List.foldl_append]
    rfl

/-- Pushing chunks one after the other onto nothing collapses the text that they are cut from.  What
is remembered then is whether this text has no word, ends in content, or ends in white space after
content.  So other cuts of the same text lead to the same. -/
theorem pushAll_exact (chunks : List String) :
    (pushAll chunks).2 = collapse (String.join chunks) ∧
      ((pushAll chunks).1 = noContent ↔ words (String.join chunks).toList = []) ∧
      ((pushAll chunks).1 = hadContent ↔
        ∃ c, (String.join chunks).toList.getLast? = some c ∧ isBlank c = false) ∧
      ((pushAll chunks).1 = pendingSpace ↔ words (String.join chunks).toList ≠ [] ∧
        ∃ c, (String.join chunks).toList.getLast? = some c ∧ isBlank c = true) ∧
      ∀ others, String.join others = String.join chunks → pushAll others = pushAll chunks := by
  have hspacing : (pushAll chunks).1 = ending (String.join chunks).toList := by
    rw [pushAll_join]
    exact spacing_foldl_pushChar _ _
  rw [hspacing]
  refine ⟨?_, ending_eq_noContent_iff, ending_eq_hadContent_iff, ending_eq_pendingSpace_iff, ?_⟩
  · rw [pushAll_join, push_collapse]
  · intro others hjoin
    rw [pushAll_join, hjoin, ← pushAll_join]

example : pushAll [" a", "", "\t ", "b\n"] = (pendingSpace, "a b") := by decide

end Spacing

end XmlSieve
