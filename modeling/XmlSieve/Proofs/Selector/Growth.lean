import XmlSieve.Proofs.Selector.Dispatch

/-!
# Automata that grow

Selectors may be compiled while elements are open.  `Grown root m` says that `m` was made out of
`root` by compiling: what was added leads nowhere from the states of `root`, so that the states that
were active in open elements go on as if nothing had been added (`Grown.transition`).  A selector
that was compiled later therefore has no state there: of the selectors of `m` those are recognized
that `root` had (`Grown.mem_after_iff`), whatever is registered for them and whenever it was
(`Grown.fire_after`).
-/

namespace XmlSieve

namespace Automaton

variable {η : Type} {root m : Automaton η} {selector : Selector} {state : StateId}
  {states rootStates : List (Selector × StateId)} {requests rootRequests : List (HookRequest η)}

/-- The states active after a path are states of the automaton. -/
theorem Bounded.after_lt (h : m.Bounded) {path : List String} : ∀ s ∈ m.after path, s < m.size := by
  intro s hs
  obtain ⟨entry, hentry, hrun⟩ := mem_after.1 hs
  exact ((Run.iff_below (fun e he _ => (h.edges e he).2) (fun _ _ => Iff.rfl)
    (h.initial entry hentry)).1 hrun).2

/-- The final states are those that stand for selectors. -/
theorem Serves.mem_finals (h : m.Serves states requests) (hselector : selector.Proper) :
    (selector.canonical, state) ∈ m.finals ↔ (selector, state) ∈ states := by
  rw [h.finals, List.mem_map]
  constructor
  · rintro ⟨⟨other, state'⟩, hother, heq⟩
    obtain ⟨hcanonical, rfl⟩ := Prod.mk.inj heq
    have hsame : other = selector :=
      Selector.canonical_injective (h.proper _ hother) hselector hcanonical
    rwa [hsame] at hother
  · exact fun hmem => ⟨_, hmem, rfl⟩

/-- The automaton `m` has what `root` had, and more that begins in new states. -/
structure Grown (root m : Automaton η) : Prop where
  size : root.size ≤ m.size
  edges : ∃ more, m.edges = root.edges ++ more ∧ ∀ e ∈ more, root.size ≤ e.source
  finals : ∃ more, m.finals = root.finals ++ more ∧ ∀ f ∈ more, root.size ≤ f.2

namespace Grown

theorem refl (m : Automaton η) : Grown m m :=
  ⟨Nat.le_refl _, ⟨[], by simp, by simp⟩, ⟨[], by simp, by simp⟩⟩

/-- Neither hooks nor what is open matters. -/
theorem congr {m' : Automaton η} (h : root.Grown m) (hsize : m'.size = m.size)
    (hedges : m'.edges = m.edges) (hfinals : m'.finals = m.finals) : root.Grown m' :=
  ⟨hsize ▸ h.size, hedges ▸ h.edges, hfinals ▸ h.finals⟩

theorem addSelector (h : root.Grown m) (selector : Selector) :
    root.Grown (m.addSelector selector).2 := by
  obtain ⟨edges, hedges, hsources⟩ := h.edges
  obtain ⟨finals, hfinals, hstates⟩ := h.finals
  rw [addSelector_eq]
  refine ⟨h.size.trans ?_, ⟨edges ++ edgesOf m.size selector, ?_, ?_⟩,
    ⟨finals ++ [(selector.canonical, m.size + selector.steps.length)], ?_, ?_⟩⟩
  · simp only
    omega
  · rw [← List.append_assoc, ← hedges]
  · intro e he
    rcases List.mem_append.1 he with he | he
    · exact hsources e he
    · exact h.size.trans (mem_edgesOf_le he).1
  · rw [← List.append_assoc, ← hfinals]
  · intro f hf
    rcases List.mem_append.1 hf with hf | hf
    · exact hstates f hf
    · rw [List.mem_singleton.1 hf]
      exact h.size.trans (Nat.le_add_right _ _)

theorem compile (h : root.Grown m) (selector : Selector) :
    root.Grown (m.compile selector).2 := by
  unfold Automaton.compile
  split
  · exact h
  · exact h.addSelector selector

theorem foldl_on (h : root.Grown m) (state : StateId) (hooks : List (Occasion × η)) :
    root.Grown (hooks.foldl (fun m (occasion, hook) => m.on occasion state hook) m) := by
  induction hooks generalizing m with
  | nil => exact h
  | cons hook hooks ih => exact ih (h.congr rfl rfl rfl)

/-- From the states of `root`, the steps are those of `root`. -/
theorem transition (h : root.Grown m) {set : StateSet} (hset : ∀ s ∈ set, s < root.size)
    (name : String) : m.transition set name = root.transition set name := by
  obtain ⟨more, hedges, hsources⟩ := h.edges
  have hnone : more.filter (·.fires set name) = [] := by
    refine List.filter_eq_nil_iff.2 fun e he hfires => ?_
    exact Nat.not_lt.2 (hsources e he) (hset _ (Edge.fires_iff.1 hfires).1)
  rw [Automaton.transition, Automaton.transition, hedges, List.filter_append, hnone,
    List.append_nil]

/-- A state of `root` that stands for a selector stood for it there. -/
theorem mem_root (h : root.Grown m) (hm : m.Serves states requests)
    (hroot : root.Serves rootStates rootRequests) (hmem : (selector, state) ∈ states)
    (hlt : state < root.size) : (selector, state) ∈ rootStates := by
  have hproper := hm.proper _ hmem
  obtain ⟨more, hfinals, hnew⟩ := h.finals
  have hfinal := (hm.mem_finals hproper).2 hmem
  rw [hfinals, List.mem_append] at hfinal
  rcases hfinal with hfinal | hfinal
  · exact (hroot.mem_finals hproper).1 hfinal
  · exact absurd hlt (Nat.not_lt.2 (hnew _ hfinal))

/-- The state that stood for a selector stands for it. -/
theorem mem_of_root (h : root.Grown m) (hm : m.Serves states requests)
    (hroot : root.Serves rootStates rootRequests) (hold : (selector, state) ∈ rootStates) :
    (selector, state) ∈ states := by
  have hproper := hroot.proper _ hold
  obtain ⟨more, hfinals, -⟩ := h.finals
  have hfinal := (hroot.mem_finals hproper).2 hold
  refine (hm.mem_finals hproper).1 ?_
  rw [hfinals]
  exact List.mem_append_left _ hfinal

/-- Of the selectors of `m`, those that `root` had are recognized in the elements that were entered
by `root`. -/
theorem mem_after_iff (h : root.Grown m) (hm : m.Serves states requests)
    (hroot : root.Serves rootStates rootRequests) (hmem : (selector, state) ∈ states)
    (path : List String) :
    state ∈ root.after path ↔ selector ∈ rootStates.map (·.1) ∧ selector.Matches path := by
  constructor
  · intro hactive
    have hold := h.mem_root hm hroot hmem (hroot.bounded.after_lt state hactive)
    exact ⟨List.mem_map_of_mem hold, (hroot.recognizes _ hold path).1 hactive⟩
  · rintro ⟨hknown, hmatch⟩
    obtain ⟨⟨_, state'⟩, hold, rfl⟩ := List.mem_map.1 hknown
    rw [hm.state_unique hmem (h.mem_of_root hm hroot hold)]
    exact (hroot.recognizes _ hold path).2 hmatch

/-- What is due after a path that was entered by `root` is what was requested for the selectors that
`root` had and that match the path. -/
theorem fire_after (h : root.Grown m) (hm : m.Serves states requests)
    (hroot : root.Serves rootStates rootRequests) (occasion : Occasion) (path : List String) :
    m.hooks.fire occasion (root.after path) =
      ((states.map (·.1)).filter fun s =>
        s ∈ rootStates.map (·.1) ∧ s.Matches path).flatMap
          (HookRequest.hooksFor requests occasion) :=
  hm.fire_set (fun _ hq => (h.mem_after_iff hm hroot hq path).trans decide_eq_true_iff.symm)
    occasion

end Grown

end Automaton

end XmlSieve
