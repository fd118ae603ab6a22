import XmlSieve.Proofs.Selector.Dispatch

/-!
# Selectors by positions

`Step.Placed steps path position` puts every step at a level of a path: the elements of the steps
are at ascending levels, the last at the end of the path, and an adjacent step goes down one level.
Steps lead along a path exactly if they can be placed on it (`Step.leads_iff_placed`), so that
`Selector.MatchesPlaced` says in terms of levels what a selector matches.

An automaton that was built for any list of selectors, `Automaton.ofSelectors`, keeps the state of
each of them while others are compiled (`finalState?_ofSelectors`), and this state is active after
the paths that its selector matches, whatever the other selectors are (`ofSelectors_recognizes`).
-/

namespace XmlSieve

namespace Step

/-! ### The signs between names -/

/-- The parts that are names with the given number of signs `>` before each. -/
def signed (names : List (Nat × String)) : List Part :=
  names.flatMap fun (signs, name) => List.replicate signs .child ++ [.name name]

/-- The step to a name that has so many signs before it: it is adjacent if there is one. -/
def ofSigned (named : Nat × String) : Step := ⟨decide (0 < named.1), named.2⟩

theorem ofParts_child (adjacent : Bool) (signs : Nat) (parts : List Part) :
    ofParts adjacent (List.replicate signs .child ++ parts) =
      ofParts (adjacent || decide (0 < signs)) parts := by
  induction signs generalizing adjacent with
  | zero => simp
  | succ signs ih =>
    rw [List.replicate_succ, List.cons_append, ofParts, ih]
    simp

/-- Several signs say what one says, and signs after the last name say nothing. -/
theorem ofParts_signed (names : List (Nat × String)) (trailing : Nat) :
    ofParts false (signed names ++ List.replicate trailing .child) =
      names.map ofSigned := by
  induction names with
  | nil =>
    have hrest := ofParts_child false trailing []
    rw [List.append_nil] at hrest
    exact hrest
  | cons named names ih =>
    obtain ⟨signs, name⟩ := named
    rw [signed, List.flatMap_cons, ← signed, List.append_assoc, List.append_assoc, ofParts_child,
      List.singleton_append, ofParts, ih, Bool.false_or, List.map_cons, ofSigned]

/-- Parts are names with signs before them, and signs at the end. -/
theorem exists_signed (parts : List Part) :
    ∃ names trailing, parts = signed names ++ List.replicate trailing .child := by
  induction parts with
  | nil => exact ⟨[], 0, rfl⟩
  | cons part parts ih =>
    obtain ⟨names, trailing, rfl⟩ := ih
    cases part with
    | name name => exact ⟨(0, name) :: names, trailing, rfl⟩
    | child =>
      cases names with
      | nil => exact ⟨[], trailing + 1, by simp [signed, List.replicate_succ]⟩
      | cons named names =>
        exact ⟨(named.1 + 1, named.2) :: names, trailing, by
          simp [signed, List.replicate_succ]⟩

/-! ### Steps on a path -/

/-- Every step at its level of a path, where levels are counted from the document, level 0, and the
element of the last step is the end of the path. -/
structure Placed (steps : List Step) (path : List String) (position : Nat → Nat) : Prop where
  first : position 0 = 0
  ascending : ∀ j < steps.length, position j < position (j + 1)
  last : position steps.length = path.length
  named : ∀ j (h : j < steps.length), path[position (j + 1) - 1]? = some steps[j].name
  adjacent : ∀ j (h : j < steps.length),
    steps[j].adjacent = true → position (j + 1) = position j + 1

variable {step : Step} {steps : List Step} {path passed : List String} {position : Nat → Nat}

theorem Placed.monotone (h : Placed steps path position) {i j : Nat} (hij : i ≤ j)
    (hj : j ≤ steps.length) : position i ≤ position j := by
  induction j, hij using Nat.le_induction with
  | base => exact Nat.le_refl _
  | succ j _ ih => exact (ih (by omega)).trans (h.ascending j (by omega)).le

/-- The positions with that of a first step put before them, when it passes over some levels. -/
def below (passed : Nat) (position : Nat → Nat) : Nat → Nat
  | 0 => 0
  | j + 1 => passed + 1 + position j

theorem Placed.cons (h : Placed steps path position)
    (hadjacent : step.adjacent = true → passed = []) :
    Placed (step :: steps) (passed ++ step.name :: path) (below passed.length position) where
  first := rfl
  ascending j hj := by
    cases j with
    | zero => simp only [below]; omega
    | succ j => exact Nat.add_lt_add_left (h.ascending j (by simpa using hj)) _
  last := by
    rw [List.length_cons, below, h.last, List.length_append, List.length_cons]
    omega
  named j hj := by
    cases j with
    | zero => simp [below, h.first]
    | succ j =>
      have hj' : j < steps.length := by simpa using hj
      have hlt := h.ascending j hj'
      have hindex : passed.length + 1 + position (j + 1) - 1 =
          passed.length + (position (j + 1) - 1 + 1) := by omega
      rw [below, hindex, List.getElem?_append_right (Nat.le_add_right _ _),
        Nat.add_sub_cancel_left, List.getElem?_cons_succ, h.named j hj', List.getElem_cons_succ]
  adjacent j hj hstep := by
    cases j with
    | zero => simp [below, h.first, hadjacent hstep]
    | succ j =>
      have hnext := h.adjacent j (by simpa using hj) hstep
      simp only [below, hnext, Nat.add_assoc]

/-- Below the element of the first step, the other steps are placed. -/
theorem Placed.tail (h : Placed (step :: steps) path position) :
    Placed steps (path.drop (position 1)) fun j => position (j + 1) - position 1 where
  first := Nat.sub_self _
  ascending j hj := by
    have hle := h.monotone (Nat.le_add_left 1 j) (by simpa using hj.le)
    have hlt := h.ascending (j + 1) (by simpa using hj)
    omega
  last := by
    have hlast := h.last
    rw [List.length_cons] at hlast
    rw [List.length_drop, hlast]
  named j hj := by
    have hle := h.monotone (Nat.le_add_left 1 j) (by simpa using hj.le)
    have hlt := h.ascending (j + 1) (by simpa using hj)
    have hnamed := h.named (j + 1) (by simpa using hj)
    rw [List.getElem?_drop, ← List.getElem_cons_succ step steps j (by simpa using hj), ← hnamed]
    congr 1
    omega
  adjacent j hj hstep := by
    have hle := h.monotone (Nat.le_add_left 1 j) (by simpa using hj.le)
    have hnext := h.adjacent (j + 1) (by simpa using hj) hstep
    omega

/-- A path on which steps are placed is what the first step passes over, its element, and the rest.
-/
theorem Placed.split (h : Placed (step :: steps) path position) :
    path = path.take (position 1 - 1) ++ step.name :: path.drop (position 1) := by
  have hpos : position 0 < position 1 := h.ascending 0 (by simp)
  obtain ⟨hlt, hname⟩ := List.getElem?_eq_some_iff.1 (h.named 0 (by simp))
  have hdrop := List.drop_eq_getElem_cons hlt
  rw [hname, Nat.zero_add, Nat.sub_add_cancel (Nat.one_le_of_lt hpos)] at hdrop
  calc path = path.take (position 1 - 1) ++ path.drop (position 1 - 1) :=
        (List.take_append_drop _ _).symm
    _ = _ := by rw [hdrop, List.getElem_cons_zero]

theorem leads_iff_placed (steps : List Step) (path : List String) :
    Leads steps path ↔ ∃ position, Placed steps path position := by
  constructor
  · intro h
    induction h with
    | nil => exact ⟨fun _ => 0, rfl, by simp, rfl, by simp, by simp⟩
    | cons hadjacent _ ih =>
      obtain ⟨position, hplaced⟩ := ih
      exact ⟨_, hplaced.cons hadjacent⟩
  · rintro ⟨position, h⟩
    induction steps generalizing path position with
    | nil =>
      have hlast : position 0 = path.length := h.last
      rw [h.first] at hlast
      rw [List.length_eq_zero_iff.1 hlast.symm]
      exact .nil
    | cons step steps ih =>
      rw [h.split]
      refine .cons (fun hstep => ?_) (ih _ _ h.tail)
      have hnext := h.adjacent 0 (by simp) hstep
      rw [h.first] at hnext
      rw [hnext, List.take_zero]

end Step

namespace Selector

/-- Whether a selector matches a path, by the positions of its names: there are names, and elements
with these names at ascending levels of the path, where a name with a sign before it is on the level
after that of the name before, or on the first.  A selector without parts matches every path. -/
def MatchesPlaced (s : Selector) (path : List String) : Prop :=
  s.parts = [] ∨ ∃ names trailing, s.parts = Step.signed names ++ List.replicate trailing .child ∧
    names ≠ [] ∧ ∃ position, Step.Placed (names.map Step.ofSigned) path position

theorem matches_iff_placed (s : Selector) {path : List String} (hpath : path ≠ []) :
    s.Matches path ↔ s.MatchesPlaced path := by
  have hsteps {names : List (Nat × String)} {trailing : Nat}
      (hparts : s.parts = Step.signed names ++ List.replicate trailing .child) :
      s.steps = names.map Step.ofSigned := by
    rw [steps, hparts, Step.ofParts_signed]
  rw [Matches, MatchesPlaced, isEmpty, List.isEmpty_iff]
  refine or_congr_right ?_
  constructor
  · intro h
    obtain ⟨names, trailing, hparts⟩ := Step.exists_signed s.parts
    rw [hsteps hparts] at h
    refine ⟨names, trailing, hparts, ?_, (Step.leads_iff_placed _ _).1 h⟩
    rintro rfl
    exact hpath (Step.leads_nil.1 h)
  · rintro ⟨names, trailing, hparts, -, hplaced⟩
    rw [hsteps hparts]
    exact (Step.leads_iff_placed _ _).2 hplaced

end Selector

namespace Automaton

variable {η : Type} {a : Automaton η}

/-! ### Automata of many selectors -/

/-- Compiles selectors in the given order. -/
def compileAll (a : Automaton η) (texts : List String) : Automaton η :=
  texts.foldl (fun a text => (a.compile (Selector.parse text)).2) a

/-- The automaton of a list of selectors. -/
def ofSelectors (texts : List String) : Automaton η := compileAll {} texts

theorem compileAll_append (a : Automaton η) (texts others : List String) :
    a.compileAll (texts ++ others) = (a.compileAll texts).compileAll others :=
  List.foldl_append

/-- What compiling a selector gives is the state that stands for it. -/
theorem finalState?_compile_self (a : Automaton η) (selector : Selector) :
    (a.compile selector).2.finalState? selector.canonical = some (a.compile selector).1 := by
  unfold compile
  cases hknown : a.finalState? selector.canonical with
  | some state => exact hknown
  | none =>
    rw [finalState?] at hknown
    simp only [addSelector_eq, finalState?, List.lookup_append, hknown, Option.none_or,
      List.lookup_cons_self]

/-- A state that stands for a selector keeps standing for it while others are compiled. -/
theorem finalState?_compile {canonical : String} {state : StateId}
    (h : a.finalState? canonical = some state) (selector : Selector) :
    (a.compile selector).2.finalState? canonical = some state := by
  unfold compile
  cases a.finalState? selector.canonical with
  | some _ => exact h
  | none =>
    rw [finalState?] at h
    simp only [addSelector_eq, finalState?, List.lookup_append, h, Option.some_or]

theorem finalState?_compileAll {canonical : String} {state : StateId}
    (h : a.finalState? canonical = some state) (texts : List String) :
    (a.compileAll texts).finalState? canonical = some state := by
  induction texts generalizing a with
  | nil => exact h
  | cons text texts ih => exact ih (finalState?_compile h _)

/-- The state of a selector of the list is what compiling it, in its turn, gives. -/
theorem finalState?_ofSelectors (before rest : List String) (text : String) :
    (ofSelectors (before ++ text :: rest) : Automaton η).finalState?
        (Selector.parse text).canonical =
      some ((ofSelectors before : Automaton η).compile (Selector.parse text)).1 := by
  rw [ofSelectors, compileAll_append]
  exact finalState?_compileAll (finalState?_compile_self _ _) rest

theorem Serves.compileAll {states : List (Selector × StateId)} {requests : List (HookRequest η)}
    (h : a.Serves states requests) (texts : List String) :
    ∃ states', (a.compileAll texts).Serves states' requests := by
  induction texts generalizing a states with
  | nil => exact ⟨states, h⟩
  | cons text texts ih =>
    obtain ⟨_, hcompiled, -, -⟩ := h.compile (Selector.parse_proper text)
    exact ih hcompiled

/-- The state that stands for a selector is active after the paths that the selector matches. -/
theorem Serves.mem_after_iff {states : List (Selector × StateId)}
    {requests : List (HookRequest η)} (h : a.Serves states requests) {selector : Selector}
    (hselector : selector.Proper) {state : StateId}
    (hstate : a.finalState? selector.canonical = some state) (path : List String) :
    state ∈ a.after path ↔ selector.Matches path := by
  rw [h.finalState?_eq hselector] at hstate
  obtain ⟨before, rest, rfl, -⟩ := List.lookup_eq_some_iff.1 hstate
  exact h.recognizes (selector, state) (by simp) path

theorem mem_after_ofSelectors {texts : List String} {text : String} {state : StateId}
    (hstate : (ofSelectors texts : Automaton η).finalState? (Selector.parse text).canonical =
      some state) (path : List String) :
    state ∈ (ofSelectors texts : Automaton η).after path ↔ (Selector.parse text).Matches path := by
  obtain ⟨states, hserves⟩ := (Serves.empty (η := η)).compileAll texts
  exact hserves.mem_after_iff (Selector.parse_proper text) hstate path

/-- After any list of selectors was compiled, the state that compiling one of them gave stands for
it, and following the names of a path from the initial states makes this state active exactly if the
selector matches the path, as it would if no other selector had been compiled. -/
theorem ofSelectors_recognizes (before rest : List String) (text : String) {path : List String}
    (hpath : path ≠ []) :
    let a : Automaton η := ofSelectors (before ++ text :: rest)
    let alone : Automaton η := ofSelectors [text]
    ∃ state stateAlone,
      ((ofSelectors before : Automaton η).compile (Selector.parse text)).1 = state ∧
      a.finalState? (Selector.parse text).canonical = some state ∧
      alone.finalState? (Selector.parse text).canonical = some stateAlone ∧
      (state ∈ path.foldl a.transition a.initial ↔ (Selector.parse text).MatchesPlaced path) ∧
      (state ∈ path.foldl a.transition a.initial ↔
        stateAlone ∈ path.foldl alone.transition alone.initial) := by
  have hstate := finalState?_ofSelectors (η := η) before rest text
  have halone := finalState?_ofSelectors (η := η) [] [] text
  have hmatches := mem_after_ofSelectors hstate path
  refine ⟨_, _, rfl, hstate, halone, ?_, ?_⟩
  · rw [← Selector.matches_iff_placed _ hpath]
    exact hmatches
  · exact hmatches.trans (mem_after_ofSelectors halone path).symm

theorem ofSelectors_recognizes_shared :
    let a : Automaton Unit := ofSelectors ["item", "a>b c", "> c"]
    a.finalState? "a > b c" = some 5 ∧
      5 ∈ ["x", "a", "b", "y", "c"].foldl a.transition a.initial ∧
      (Selector.parse "a>b c").MatchesPlaced ["x", "a", "b", "y", "c"] := by
  obtain ⟨state, _, hcompiled, hstate, -, hactive, -⟩ :=
    ofSelectors_recognizes (η := Unit) ["item"] ["> c"] "a>b c"
      (by decide : ["x", "a", "b", "y", "c"] ≠ [])
  have hfive : state = 5 := hcompiled.symm.trans (by decide +kernel)
  have hplaced : (Selector.parse "a>b c").MatchesPlaced ["x", "a", "b", "y", "c"] :=
    (Selector.matches_iff_placed _ (by decide)).1 (by decide +kernel)
  rw [hfive] at hstate hactive
  exact ⟨(by decide +kernel : (Selector.parse "a>b c").canonical = "a > b c") ▸ hstate,
    hactive.2 hplaced, hplaced⟩

end Automaton

end XmlSieve
