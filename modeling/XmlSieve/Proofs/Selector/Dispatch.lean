import Mathlib.Data.List.Sort
import XmlSieve.Proofs.Selector.Canonical
import XmlSieve.Proofs.Selector.Recognition

/-!
# Dispatch

`Automaton.Serves a states requests` says that `a` was built for the selectors in `states`, each
with the state that stands for it, and with the hooks in `requests`.  Compiling a selector and
registering a hook keep this up (`Serves.compile`, `Serves.on`).  What such an automaton has due
after a path is what was requested for the selectors that match it: selectors in the order in which
they were first compiled, and for each the hooks in the order of their registration
(`Serves.fire_after`).
-/

namespace XmlSieve

/-- A hook that is asked for in the elements that a selector matches. -/
structure HookRequest (η : Type) where
  selector : Selector
  occasion : Occasion
  hook : η

/-- The hooks that requests ask for, on one occasion and for one selector. -/
def HookRequest.hooksFor {η : Type} (requests : List (HookRequest η)) (occasion : Occasion)
    (selector : Selector) : List η :=
  (requests.filter fun r => r.occasion = occasion ∧ r.selector = selector).map (·.hook)

/-- Where a function gives nothing for the elements that are filtered out, these do not matter. -/
theorem flatMap_filter_of_eq_nil {α β : Type} {f : α → List β} {p : α → Bool} {xs : List α}
    (h : ∀ x ∈ xs, p x = false → f x = []) : (xs.filter p).flatMap f = xs.flatMap f := by
  induction xs with
  | nil => rfl
  | cons x xs ih =>
    rw [List.flatMap_cons, ← ih fun y hy => h y (List.mem_cons_of_mem x hy), List.filter_cons]
    split
    · rw [List.flatMap_cons]
    · next hp => rw [h x List.mem_cons_self (by simpa using hp), List.nil_append]

namespace Automaton

variable {η : Type} {a : Automaton η} {states : List (Selector × StateId)}
  {requests : List (HookRequest η)} {selector : Selector} {state : StateId}

/-- A hook is put behind those that are registered for its occasion and its state. -/
theorem hooksAt_on (a : Automaton η) (occasion occasion' : Occasion) (state state' : StateId)
    (hook : η) : (a.on occasion state hook).hooks.hooksAt occasion' state' =
      a.hooks.hooksAt occasion' state' ++
        if occasion = occasion' ∧ state = state' then [hook] else [] := by
  simp only [Automaton.on, HookTable.register, HookTable.hooksAt, List.filter_append,
    List.map_append]
  by_cases h : occasion = occasion' ∧ state = state' <;> simp [h]

/-- An automaton that has these states for selectors and these hooks in them. -/
structure Serves (a : Automaton η) (states : List (Selector × StateId))
    (requests : List (HookRequest η)) : Prop where
  bounded : a.Bounded
  finals : a.finals = states.map fun (selector, state) => (selector.canonical, state)
  proper : ∀ p ∈ states, p.1.Proper
  distinct : (states.map (·.1)).Nodup
  below : ∀ p ∈ states, p.2 < a.size
  ascending : (states.map (·.2)).Pairwise (· < ·)
  recognizes : ∀ p ∈ states, ∀ path, p.2 ∈ a.after path ↔ p.1.Matches path
  known : ∀ r ∈ requests, r.selector ∈ states.map (·.1)
  hooks : ∀ occasion state, a.hooks.hooksAt occasion state =
    (requests.filter fun r => r.occasion = occasion ∧ (r.selector, state) ∈ states).map (·.hook)

namespace Serves

theorem empty : Serves ({} : Automaton η) [] [] where
  bounded := ⟨by simp, fun s hs => absurd hs List.not_mem_nil⟩
  finals := rfl
  proper := by simp
  distinct := List.nodup_nil
  below := by simp
  ascending := .nil
  recognizes := by simp
  known := by simp
  hooks := fun _ _ => rfl

/-- A selector has one state. -/
theorem state_unique (h : a.Serves states requests) {t : StateId} (hs : (selector, state) ∈ states)
    (ht : (selector, t) ∈ states) : state = t :=
  congrArg Prod.snd (List.inj_on_of_nodup_map h.distinct hs ht rfl)

/-- A state stands for one selector. -/
theorem selector_unique (h : a.Serves states requests) {other : Selector}
    (hs : (selector, state) ∈ states) (ht : (other, state) ∈ states) : other = selector :=
  congrArg Prod.fst (List.inj_on_of_nodup_map h.ascending.nodup ht hs rfl)

/-! ### Compiling -/

theorem lookup_canonical (hproper : ∀ p ∈ states, p.1.Proper) (hselector : selector.Proper) :
    (states.map fun (selector, state) => (selector.canonical, state)).lookup selector.canonical =
      states.lookup selector := by
  induction states with
  | nil => rfl
  | cons p states ih =>
    obtain ⟨other, state⟩ := p
    have hp := hproper (other, state) (by simp)
    have hrest := ih fun q hq => hproper q (by simp [hq])
    simp only [List.map_cons, List.lookup_cons]
    by_cases heq : selector = other
    · simp [heq]
    · have hne : selector.canonical ≠ other.canonical :=
        fun hc => heq (Selector.canonical_injective hselector hp hc)
      simp only [beq_eq_false_iff_ne.2 hne, beq_eq_false_iff_ne.2 heq]
      exact hrest

theorem finalState?_eq (h : a.Serves states requests) (hselector : selector.Proper) :
    a.finalState? selector.canonical = states.lookup selector := by
  rw [finalState?, h.finals]
  exact lookup_canonical h.proper hselector

/-- A selector that is new gets a state of its own, above all others. -/
theorem addSelector (h : a.Serves states requests) (hselector : selector.Proper)
    (hnew : selector ∉ states.map (·.1)) :
    (a.addSelector selector).2.Serves (states ++ [(selector, (a.addSelector selector).1)])
      requests := by
  have hfinal : (a.addSelector selector).1 = a.size + selector.steps.length := by
    rw [addSelector_eq]
  have hsize : (a.addSelector selector).1 < (a.addSelector selector).2.size := by
    rw [hfinal, addSelector_eq]
    simp
  have hbelow (p : Selector × StateId) (hp : p ∈ states) : p.2 < (a.addSelector selector).1 := by
    rw [hfinal]
    exact Nat.lt_of_lt_of_le (h.below p hp) (Nat.le_add_right _ _)
  have hmem (r : HookRequest η) (hr : r ∈ requests) (state : StateId) :
      (r.selector, state) ∈ states ++ [(selector, (a.addSelector selector).1)] ↔
        (r.selector, state) ∈ states := by
    rw [List.mem_append, or_iff_left]
    intro hlast
    rw [List.mem_singleton, Prod.mk.injEq] at hlast
    exact hnew (hlast.1 ▸ h.known r hr)
  constructor
  · exact h.bounded.addSelector selector
  · rw [List.map_append, ← h.finals, hfinal, addSelector_eq]
    rfl
  · exact List.forall_mem_append.2 ⟨h.proper, List.forall_mem_singleton.2 hselector⟩
  · rw [List.map_append, List.map_singleton, ← List.concat_eq_append]
    exact h.distinct.concat hnew
  · exact List.forall_mem_append.2
      ⟨fun p hp => (hbelow p hp).trans hsize, List.forall_mem_singleton.2 hsize⟩
  · rw [List.map_append, List.map_singleton, List.pairwise_append]
    refine ⟨h.ascending, List.pairwise_singleton _ _, List.forall_mem_map.2 fun p hp => ?_⟩
    exact List.forall_mem_singleton.2 (hbelow p hp)
  · refine List.forall_mem_append.2 ⟨fun p hp path => ?_, List.forall_mem_singleton.2 fun path => ?_⟩
    · rw [mem_after_addSelector_old h.bounded (h.below p hp)]
      exact h.recognizes p hp path
    · exact mem_after_addSelector_final h.bounded
  · intro r hr
    rw [List.map_append]
    exact List.mem_append_left _ (h.known r hr)
  · intro occasion state
    rw [show (a.addSelector selector).2.hooks = a.hooks by rw [addSelector_eq], h.hooks]
    congr 1
    refine List.filter_congr fun r hr => ?_
    simp only [hmem r hr]

/-- Compiling gives the state that stands for the selector. -/
theorem compile (h : a.Serves states requests) (hselector : selector.Proper) :
    ∃ states', (a.compile selector).2.Serves states' requests ∧
      (selector, (a.compile selector).1) ∈ states' ∧
      states'.map (·.1) =
        if selector ∈ states.map (·.1) then states.map (·.1)
        else states.map (·.1) ++ [selector] := by
  unfold Automaton.compile
  rw [h.finalState?_eq hselector]
  cases hlookup : states.lookup selector with
  | some state =>
    have hmem : (selector, state) ∈ states := by
      obtain ⟨before, after, heq, -⟩ := List.lookup_eq_some_iff.1 hlookup
      simp [heq]
    refine ⟨states, h, hmem, ?_⟩
    rw [if_pos (List.mem_map_of_mem hmem)]
  | none =>
    have hnew : selector ∉ states.map (·.1) := by
      intro hmem
      obtain ⟨p, hp, rfl⟩ := List.mem_map.1 hmem
      simpa using List.lookup_eq_none_iff.1 hlookup p hp
    refine ⟨_, h.addSelector hselector hnew, by simp, ?_⟩
    rw [if_neg hnew, List.map_append]
    rfl

/-- Registering a hook adds a request. -/
theorem on (h : a.Serves states requests) (hmem : (selector, state) ∈ states)
    (occasion : Occasion) (hook : η) :
    (a.on occasion state hook).Serves states (requests ++ [⟨selector, occasion, hook⟩]) where
  bounded := ⟨h.bounded.edges, h.bounded.initial⟩
  finals := h.finals
  proper := h.proper
  distinct := h.distinct
  below := h.below
  ascending := h.ascending
  recognizes := h.recognizes
  known := by
    intro r hr
    rcases List.mem_append.1 hr with hr | hr
    · exact h.known r hr
    · rw [List.mem_singleton.1 hr]
      exact List.mem_map_of_mem hmem
  hooks := by
    intro occasion' state'
    have hstate : (selector, state') ∈ states ↔ state = state' :=
      ⟨fun h' => h.state_unique hmem h', fun h' => h' ▸ hmem⟩
    rw [hooksAt_on, h.hooks, List.filter_append, List.map_append]
    by_cases ho : occasion = occasion' <;> by_cases hs : state = state' <;> simp [ho, hs, hstate]

/-! ### What is due -/

/-- The states of a set that stand for selectors, in ascending order, where `p` tells which these
are. -/
theorem filter_set (h : a.Serves states requests) {set : StateSet} {p : Selector → Bool}
    (hset : ∀ q ∈ states, q.2 ∈ set ↔ p q.1 = true) :
    set.toList.filter (· ∈ states.map (·.2)) = (states.filter (p ·.1)).map (·.2) := by
  refine List.Pairwise.eq_of_mem_iff (set.ascending.filter _) ?_ fun state => ?_
  · exact h.ascending.sublist (List.filter_sublist.map _)
  · simp only [List.mem_filter, List.mem_map, decide_eq_true_eq]
    constructor
    · rintro ⟨hactive, q, hq, rfl⟩
      exact ⟨q, ⟨hq, (hset q hq).1 hactive⟩, rfl⟩
    · rintro ⟨q, ⟨hq, hp⟩, rfl⟩
      exact ⟨(hset q hq).2 hp, q, hq, rfl⟩

theorem hooksAt_of_not_mem (h : a.Serves states requests) (occasion : Occasion)
    (hs : state ∉ states.map (·.2)) : a.hooks.hooksAt occasion state = [] := by
  rw [h.hooks, List.map_eq_nil_iff, List.filter_eq_nil_iff]
  intro r _ hr
  exact hs (List.mem_map_of_mem (of_decide_eq_true hr).2)

theorem hooksAt_of_mem (h : a.Serves states requests) (occasion : Occasion)
    (hs : (selector, state) ∈ states) :
    a.hooks.hooksAt occasion state = HookRequest.hooksFor requests occasion selector := by
  rw [h.hooks, HookRequest.hooksFor]
  congr 1
  refine List.filter_congr fun r _ => ?_
  have hiff : (r.selector, state) ∈ states ↔ r.selector = selector :=
    ⟨fun hr => h.selector_unique hs hr, fun hr => hr ▸ hs⟩
  simp only [hiff]

/-- In a set of states, what was requested for the selectors is due that have their states in it. -/
theorem fire_set (h : a.Serves states requests) {set : StateSet} {p : Selector → Bool}
    (hset : ∀ q ∈ states, q.2 ∈ set ↔ p q.1 = true) (occasion : Occasion) :
    a.hooks.fire occasion set =
      ((states.map (·.1)).filter p).flatMap (HookRequest.hooksFor requests occasion) := by
  have hother : ∀ state ∈ set.toList, decide (state ∈ states.map (·.2)) = false →
      a.hooks.hooksAt occasion state = [] :=
    fun state _ hs => h.hooksAt_of_not_mem occasion (of_decide_eq_false hs)
  rw [HookTable.fire, ← flatMap_filter_of_eq_nil hother, h.filter_set hset, List.filter_map, List.flatMap_map,
    List.flatMap_map]
  have hmem (q : Selector × StateId) (hq : q ∈ states.filter (p ·.1)) : q ∈ states :=
    (List.mem_filter.1 hq).1
  exact List.flatMap_congr fun q hq => h.hooksAt_of_mem occasion (hmem q hq)

/-- After a path, what was requested for the selectors that match it is due. -/
theorem fire_after (h : a.Serves states requests) (occasion : Occasion) (path : List String) :
    a.hooks.fire occasion (a.after path) =
      ((states.map (·.1)).filter (·.Matches path)).flatMap
        (HookRequest.hooksFor requests occasion) :=
  h.fire_set (fun q hq => (h.recognizes q hq path).trans decide_eq_true_iff.symm) occasion

end Serves

end Automaton

end XmlSieve
