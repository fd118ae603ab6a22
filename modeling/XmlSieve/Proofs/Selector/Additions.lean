import XmlSieve.Proofs.Selector.Dispatch

/-!
# Additions to an automaton

`Automaton.Contains extra m m'` says that `m'` is `m` with states of its own and hooks among
`extra`.  Compiling selectors and registering such hooks keep this up, whatever elements are open
(`Contains.compile`, `Contains.on`), and so do entering and leaving the same elements.  Below the
size of `m` the same states are active in both, so that both have the same hooks due in the same
order, but for the extra ones (`Contains.fire`).
-/

namespace XmlSieve

/-- The states of `set` are those of `set'` below `n`. -/
def StateSet.Lower (n : Nat) (set set' : StateSet) : Prop := ∀ s, s ∈ set ↔ s ∈ set' ∧ s < n

theorem StateSet.Lower.refl {n : Nat} {set : StateSet} (h : ∀ s ∈ set, s < n) : Lower n set set :=
  fun s => ⟨fun hs => ⟨hs, h s hs⟩, And.left⟩

theorem StateSet.Lower.toList_eq {n : Nat} {set set' : StateSet} (h : Lower n set set') :
    set.toList = set'.toList.filter (· < n) := by
  refine List.Pairwise.eq_of_mem_iff set.ascending (set'.ascending.filter _) fun s => ?_
  rw [List.mem_filter, decide_eq_true_eq]
  exact h s

namespace Automaton

open StateSet

variable {η : Type} {extra : η → Bool} {m m' : Automaton η} {selector : Selector}
  {occasion : Occasion}

/-- The automaton `m'` is `m` with more states and with extra hooks. -/
structure Contains (extra : η → Bool) (m m' : Automaton η) : Prop where
  bounded : m.Bounded
  size : m.size ≤ m'.size
  edges : ∀ e, e.source < m.size → (e ∈ m'.edges ↔ e ∈ m.edges)
  /-- No edge leads back from a state that was added. -/
  apart : ∀ e ∈ m'.edges, m.size ≤ e.source → m.size ≤ e.target
  initial : Lower m.size m.initial m'.initial
  active : List.Forall₂ (Lower m.size) m.active m'.active
  hooks : ∀ occasion state, state < m.size →
    (m'.hooks.hooksAt occasion state).filter (!extra ·) =
      (m.hooks.hooksAt occasion state).filter (!extra ·)
  others : ∀ occasion state, m.size ≤ state →
    (m'.hooks.hooksAt occasion state).filter (!extra ·) = []

namespace Contains

/-- Where only states of the automaton are active, nothing is an addition. -/
theorem refl {states : List (Selector × StateId)} {requests : List (HookRequest η)}
    (h : m.Serves states requests) (hactive : ∀ set ∈ m.active, ∀ s ∈ set, s < m.size) :
    Contains extra m m where
  bounded := h.bounded
  size := Nat.le_refl _
  edges _ _ := Iff.rfl
  apart e he hle := absurd (h.bounded.edges e he).1 (Nat.not_lt.2 hle)
  initial := .refl h.bounded.initial
  active := List.forall₂_same.2 fun set hset => .refl (hactive set hset)
  hooks _ _ _ := rfl
  others := by
    intro occasion state hle
    have hnone : state ∉ states.map (·.2) := by
      intro hmem
      obtain ⟨p, hp, rfl⟩ := List.mem_map.1 hmem
      exact Nat.not_lt.2 hle (h.below p hp)
    rw [h.hooksAt_of_not_mem occasion hnone, List.filter_nil]

/-! ### Adding -/

theorem compile (h : Contains extra m m') (selector : Selector) :
    Contains extra m (m'.compile selector).2 := by
  unfold Automaton.compile
  split
  · exact h
  · rw [addSelector_eq]
    have hadded {e : Edge} (he : e ∈ edgesOf m'.size selector) :
        m.size ≤ e.source ∧ m.size ≤ e.target :=
      ⟨h.size.trans (mem_edgesOf_le he).1, h.size.trans (mem_edgesOf_le he).2.1⟩
    refine ⟨h.bounded, ?_, ?_, ?_, ?_, h.active, h.hooks, h.others⟩
    · exact h.size.trans (by simp only; omega)
    · intro e hlt
      rw [List.mem_append, or_iff_left fun he => Nat.not_lt.2 (hadded he).1 hlt]
      exact h.edges e hlt
    · intro e he hle
      exact (List.mem_append.1 he).elim (h.apart e · hle) fun he => (hadded he).2
    · intro s
      -- The new entry state is not below the states of `m`.
      rw [mem_insert, h.initial s, or_and_right, or_iff_right]
      rintro ⟨rfl, hlt⟩
      exact Nat.not_lt.2 h.size hlt

theorem on (h : Contains extra m m') {hook : η} (hextra : extra hook = true)
    (occasion : Occasion) (state : StateId) :
    Contains extra m (m'.on occasion state hook) := by
  have hadds (occasion' : Occasion) (state' : StateId) :
      ((m'.on occasion state hook).hooks.hooksAt occasion' state').filter (!extra ·) =
        (m'.hooks.hooksAt occasion' state').filter (!extra ·) := by
    rw [hooksAt_on, List.filter_append]
    split <;> simp [hextra]
  refine ⟨h.bounded, h.size, h.edges, h.apart, h.initial, h.active, fun o s hlt => ?_,
    fun o s hle => ?_⟩
  · rw [hadds, h.hooks o s hlt]
  · rw [hadds, h.others o s hle]

/-! ### Running -/

/-- Neither automaton changes but in what is active. -/
theorem reopen (h : Contains extra m m') {active active' : List StateSet}
    (hactive : List.Forall₂ (Lower m.size) active active') :
    Contains extra { m with active } { m' with active := active' } :=
  ⟨⟨h.bounded.edges, h.bounded.initial⟩, h.size, h.edges, h.apart, h.initial, hactive, h.hooks,
    h.others⟩

theorem current (h : Contains extra m m') : Lower m.size m.current m'.current := by
  have hactive := h.active
  rw [Automaton.current, Automaton.current]
  generalize m.active = active, m'.active = active' at hactive
  cases hactive with
  | nil => exact h.initial
  | cons hset _ => exact hset

theorem transition (h : Contains extra m m') {set set' : StateSet} (hset : Lower m.size set set')
    (name : String) : Lower m.size (m.transition set name) (m'.transition set' name) := by
  intro t
  rw [mem_transition, mem_transition]
  constructor
  · rintro ⟨e, he, hs, hadmits, rfl⟩
    obtain ⟨hlt, ht⟩ := h.bounded.edges e he
    exact ⟨⟨e, (h.edges e hlt).2 he, ((hset _).1 hs).1, hadmits, rfl⟩, ht⟩
  · rintro ⟨⟨e, he, hs, hadmits, rfl⟩, ht⟩
    have hlt : e.source < m.size := by
      by_contra hle
      exact Nat.not_lt.2 (h.apart e he (Nat.not_lt.1 hle)) ht
    exact ⟨e, (h.edges e hlt).1 he, (hset _).2 ⟨hs, hlt⟩, hadmits, rfl⟩

/-- The same hooks are due in the same order, but for the extra ones. -/
theorem fire (h : Contains extra m m') {set set' : StateSet} (hset : Lower m.size set set')
    (occasion : Occasion) :
    (m'.hooks.fire occasion set').filter (!extra ·) =
      (m.hooks.fire occasion set).filter (!extra ·) := by
  rw [HookTable.fire, HookTable.fire, List.filter_flatMap, List.filter_flatMap, hset.toList_eq,
    ← flatMap_filter_of_eq_nil (p := (· < m.size)) fun s _ hs => ?_]
  · refine List.flatMap_congr fun s hs => ?_
    exact h.hooks occasion s (of_decide_eq_true (List.mem_filter.1 hs).2)
  · exact h.others occasion s (by simpa using hs)

theorem due (h : Contains extra m m') (occasion : Occasion) :
    (m'.due occasion).filter (!extra ·) = (m.due occasion).filter (!extra ·) :=
  h.fire h.current occasion

theorem enter (h : Contains extra m m') (name : String) :
    Contains extra (m.enter name).2 (m'.enter name).2 :=
  h.reopen (.cons (h.transition h.current name) h.active)

end Contains

end Automaton

end XmlSieve
