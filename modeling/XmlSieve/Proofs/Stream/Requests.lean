import Mathlib.Data.List.Infix
import XmlSieve.Proofs.Stream.Framing
import XmlSieve.Proofs.Stream.Setup

/-!
# What registrations request

The requests of a list of registrations, for one selector and one occasion: to tell of the
subscriptions to the selector, in their order (`told_hooksFor`), to collect its elements, and to
preserve order in them.  `Registration.policy` is the policy that follows from the latter two, and
an automaton that serves the requests has due what the policy says (`policy_agrees`).
-/

namespace XmlSieve

/-- The occasion on which listeners for this kind of event are told. -/
def EventKind.occasion : EventKind → Occasion
  | startElement => .enter
  | endElement | updateElement => .leave
  | text => .inside

namespace Registration

variable {σ : Type}

/-- The selector whose elements are collected, if it is a registration for that. -/
def collect? : Registration σ → Option Selector
  | collect selector => some (Selector.parse selector)
  | on _ _ | preserve _ _ | data _ | atEnd _ | atError _ => none

/-- The selector in whose elements order is preserved, and whether white space is, if it is a
registration for that. -/
def preserve? : Registration σ → Option (Selector × Bool)
  | preserve selector whitespace => some (Selector.parse selector, whitespace)
  | on _ _ | collect _ | data _ | atEnd _ | atError _ => none

/-- The paths of an element and of the elements around it, outermost first. -/
def pathsTo (path : List String) : List (List String) := path.inits.tail

/-- What is kept of elements: children are collected where a `collect` matches them, and order and
white space are preserved where a `preserve` matches the element or one around it. -/
def policy (registrations : List (Registration σ)) : Policy where
  collects path := decide (∃ selector ∈ registrations.filterMap collect?, selector.Matches path)
  preserves path := decide (∃ around ∈ pathsTo path, ∃ request ∈ registrations.filterMap preserve?,
    request.1.Matches around)
  verbatim path := decide (∃ around ∈ pathsTo path, ∃ request ∈ registrations.filterMap preserve?,
    request.1.Matches around ∧ request.2 = true)

theorem pathsTo_concat (path : List String) (name : String) :
    pathsTo (path ++ [name]) = pathsTo path ++ [path ++ [name]] := by
  rw [pathsTo, List.inits_append, List.tail_append_of_ne_nil (by cases path <;> simp)]
  rfl

variable {registrations : List (Registration σ)} {selector : Selector} {occasion : Occasion}

/-! ### One registration after the other -/

theorem hooksFor_append (requests more : List (HookRequest Effect)) (occasion : Occasion)
    (selector : Selector) :
    HookRequest.hooksFor (requests ++ more) occasion selector =
      HookRequest.hooksFor requests occasion selector ++
        HookRequest.hooksFor more occasion selector := by
  rw [HookRequest.hooksFor, List.filter_append, List.map_append]
  rfl

theorem hooksFor_concat (registrations : List (Registration σ)) (r : Registration σ)
    (occasion : Occasion) (selector : Selector) :
    HookRequest.hooksFor (requests (registrations ++ [r])) occasion selector =
      HookRequest.hooksFor (requests registrations) occasion selector ++
        HookRequest.hooksFor (r.requested (subscriptions registrations)) occasion selector := by
  rw [requests_concat, hooksFor_append]

/-- Two ways of picking out of the requested effects agree if they do for every registration. -/
theorem filterMap_hooksFor_congr {β : Type} {pick pick' : Effect → Option β}
    {occasion' : Occasion}
    (h : ∀ known (r : Registration σ),
      (HookRequest.hooksFor (requested known r) occasion selector).filterMap pick =
        (HookRequest.hooksFor (requested known r) occasion' selector).filterMap pick')
    (registrations : List (Registration σ)) :
    (HookRequest.hooksFor (requests registrations) occasion selector).filterMap pick =
      (HookRequest.hooksFor (requests registrations) occasion' selector).filterMap pick' := by
  induction registrations using List.reverseRecOn with
  | nil => rfl
  | append_singleton registrations r ih =>
    rw [hooksFor_concat, hooksFor_concat, List.filterMap_append, List.filterMap_append, ih, h]

/-- An effect is requested if one of the registrations requests it. -/
theorem mem_hooksFor {effect : Effect} {p : Registration σ → Prop}
    (h : ∀ known r, effect ∈ HookRequest.hooksFor (requested known r) occasion selector ↔ p r)
    (registrations : List (Registration σ)) :
    effect ∈ HookRequest.hooksFor (requests registrations) occasion selector ↔
      ∃ r ∈ registrations, p r := by
  induction registrations using List.reverseRecOn with
  | nil => simp [requests, requestsAfter, HookRequest.hooksFor]
  | append_singleton registrations r ih =>
    simp [hooksFor_concat, ih, h, or_and_right, exists_or]

/-- The effects that a new subscription requests for a selector. -/
theorem hooksFor_subscription (s : Subscription) (id : Nat) (occasion : Occasion)
    (selector : Selector) :
    HookRequest.hooksFor ((Assembly.subscriptionEffects s.kind id).map fun (occasion, effect) =>
        ⟨s.selector, occasion, effect⟩) occasion selector =
      if s.selector = selector then
        ((Assembly.subscriptionEffects s.kind id).filter (·.1 = occasion)).map (·.2)
      else [] := by
  rw [HookRequest.hooksFor, List.filter_map, List.map_map]
  by_cases hs : s.selector = selector
  · simp [hs, Function.comp_def]
  · simp [hs, Function.comp_def]

theorem filterMap_hooksFor_eq_nil {β : Type} {pick : Effect → Option β}
    {requests : List (HookRequest Effect)} (h : ∀ request ∈ requests, pick request.hook = none) :
    (HookRequest.hooksFor requests occasion selector).filterMap pick = [] := by
  refine List.filterMap_eq_nil_iff.2 fun effect he => ?_
  obtain ⟨request, hr, rfl⟩ := List.mem_map.1 he
  exact h request (List.mem_filter.1 hr).1

/-! ### What is told -/

theorem requested_of_subscription {known : List Subscription} {r : Registration σ}
    {s : Subscription} (h : r.subscription? = some s) :
    requested known r =
      if s ∈ known then []
      else (Assembly.subscriptionEffects s.kind known.length).map fun (occasion, effect) =>
        ⟨s.selector, occasion, effect⟩ := by
  cases r with
  | on event listener =>
    rw [requested, show Subscription.parse? event = some s from h]
  | collect | preserve | data | atEnd | atError => cases h

theorem told?_requested {known : List Subscription} {r : Registration σ}
    (h : r.subscription? = none) : ∀ request ∈ requested known r, request.hook.told? = none := by
  cases r with
  | on event listener =>
    rw [requested, show Subscription.parse? event = none from h]
    simp
  | collect | preserve | data | atEnd | atError => simp [requested, Effect.told?]

/-- The places of the subscriptions to a selector that are picked out of what is due on an occasion,
where it depends on the kind of a subscription whether it is picked. -/
theorem picked_hooksFor {pick : Effect → Option Nat} {p : EventKind → Bool}
    (hnone : ∀ known (r : Registration σ), r.subscription? = none →
      ∀ request ∈ requested known r, pick request.hook = none)
    (hpick : ∀ kind id, (((Assembly.subscriptionEffects kind id).filter (·.1 = occasion)).map
      (·.2)).filterMap pick = if p kind then [id] else [])
    (registrations : List (Registration σ)) (selector : Selector) :
    (HookRequest.hooksFor (requests registrations) occasion selector).filterMap pick =
      ((subscriptions registrations).zipIdx.filter fun (s, _) =>
        s.selector = selector ∧ p s.kind).map (·.2) := by
  induction registrations using List.reverseRecOn with
  | nil => rfl
  | append_singleton registrations r ih =>
    rw [hooksFor_concat, List.filterMap_append, ih, subscriptions_concat]
    cases hr : r.subscription? with
    | none => rw [filterMap_hooksFor_eq_nil (hnone _ r hr), List.append_nil]
    | some s =>
      rw [requested_of_subscription hr]
      by_cases hknown : s ∈ subscriptions registrations
      · simp [hknown, HookRequest.hooksFor]
      · simp only [if_neg hknown, hooksFor_subscription, List.zipIdx_append, List.filter_append,
          List.map_append, Nat.zero_add, List.zipIdx_singleton, List.append_cancel_left_eq]
        have hpicked := hpick s.kind (subscriptions registrations).length
        by_cases hs : s.selector = selector
        · rw [if_pos hs, hpicked]
          by_cases hkind : p s.kind <;> simp [hs, hkind]
        · simp [hs]

/-- Subscriptions to a selector that are told of on an occasion, each by its place. -/
theorem told_hooksFor (registrations : List (Registration σ)) (occasion : Occasion)
    (selector : Selector) :
    (HookRequest.hooksFor (requests registrations) occasion selector).filterMap Effect.told? =
      ((subscriptions registrations).zipIdx.filter fun (s, _) =>
        s.selector = selector ∧ s.kind.occasion = occasion).map (·.2) := by
  have hpick (kind : EventKind) (id : Nat) :
      (((Assembly.subscriptionEffects kind id).filter (·.1 = occasion)).map (·.2)).filterMap
        Effect.told? = if decide (kind.occasion = occasion) then [id] else [] := by
    cases kind <;> cases occasion <;> rfl
  simpa using picked_hooksFor (fun _ _ => told?_requested) hpick registrations selector

/-- Subscriptions to updates of what a selector matches, each by its place. -/
theorem flush_hooksFor (registrations : List (Registration σ)) (selector : Selector) :
    (HookRequest.hooksFor (requests registrations) .leave selector).filterMap Effect.flush? =
      ((subscriptions registrations).zipIdx.filter fun (s, _) =>
        s.selector = selector ∧ s.kind = .updateElement).map (·.2) := by
  have hnone (known : List Subscription) (r : Registration σ) (hr : r.subscription? = none) :
      ∀ request ∈ requested known r, request.hook.flush? = none := by
    intro request hrequest
    have htold := told?_requested hr request hrequest
    cases hhook : request.hook with
    | flush id =>
      rw [hhook] at htold
      cases htold
    | collect | preserve | release | hold | notify => rfl
  have hpick (kind : EventKind) (id : Nat) :
      (((Assembly.subscriptionEffects kind id).filter (·.1 = .leave)).map (·.2)).filterMap
        Effect.flush? = if decide (kind = .updateElement) then [id] else [] := by
    cases kind <;> rfl
  simpa using picked_hooksFor hnone hpick registrations selector

/-! ### What else is due -/

theorem requested_fits (known : List Subscription) (r : Registration σ) :
    ∀ request ∈ requested known r, request.hook.Fits request.occasion := by
  cases r with
  | on event listener =>
    rw [requested]
    cases Subscription.parse? event with
    | none => simp
    | some s =>
      simp only
      split
      · simp
      · cases s.kind <;> simp [Assembly.subscriptionEffects, Effect.Fits]
  | collect | preserve | data | atEnd | atError => simp [requested, Effect.Fits]

theorem requests_fit (registrations : List (Registration σ)) :
    ∀ request ∈ requests registrations, request.hook.Fits request.occasion := by
  induction registrations using List.reverseRecOn with
  | nil => simp [requests, requestsAfter]
  | append_singleton registrations r ih =>
    rw [requests_concat]
    intro request hr
    rcases List.mem_append.1 hr with hr | hr
    · exact ih request hr
    · exact requested_fits _ r request hr

/-- A subscription requests nothing but to hold output back, to flush it and to tell. -/
theorem requested_on {event : String} {listener : Listener σ} {known : List Subscription} :
    ∀ request ∈ requested known (.on event listener), request.hook ≠ .collect ∧
      request.hook.preserve? = none ∧ request.hook.release? = none := by
  rw [requested]
  cases Subscription.parse? event with
  | none => simp
  | some s =>
    simp only
    split
    · simp
    · cases s.kind <;> simp [Assembly.subscriptionEffects, Effect.preserve?, Effect.release?]

theorem collect_mem_hooksFor :
    .collect ∈ HookRequest.hooksFor (requests registrations) .flag selector ↔
      selector ∈ registrations.filterMap collect? := by
  rw [List.mem_filterMap]
  refine mem_hooksFor (fun known r => ?_) registrations
  cases r with
  | on event listener =>
    refine ⟨fun h => ?_, fun h => by cases h⟩
    obtain ⟨request, hr, he⟩ := List.mem_map.1 h
    exact absurd he (requested_on request (List.mem_filter.1 hr).1).1
  | collect text =>
    by_cases h : Selector.parse text = selector <;>
      simp [requested, HookRequest.hooksFor, collect?, h]
  | preserve | data | atEnd | atError => simp [requested, HookRequest.hooksFor, collect?]

theorem preserve_mem_hooksFor {whitespace : Bool} :
    .preserve whitespace ∈ HookRequest.hooksFor (requests registrations) .enter selector ↔
      (selector, whitespace) ∈ registrations.filterMap preserve? := by
  rw [List.mem_filterMap]
  refine mem_hooksFor (fun known r => ?_) registrations
  cases r with
  | on event listener =>
    refine ⟨fun h => ?_, fun h => by cases h⟩
    obtain ⟨request, hr, he⟩ := List.mem_map.1 h
    have hnone := (requested_on request (List.mem_filter.1 hr).1).2.1
    rw [he] at hnone
    cases hnone
  | preserve text kept =>
    by_cases h : Selector.parse text = selector <;>
      simp [requested, HookRequest.hooksFor, preserve?, h, eq_comm (a := whitespace)]
  | collect | data | atEnd | atError => simp [requested, HookRequest.hooksFor, preserve?]

/-- What begins to preserve order in an element ends with it. -/
theorem released_hooksFor (registrations : List (Registration σ)) (selector : Selector) :
    (HookRequest.hooksFor (requests registrations) .leave selector).filterMap Effect.release? =
      (HookRequest.hooksFor (requests registrations) .enter selector).filterMap
        Effect.preserve? := by
  refine filterMap_hooksFor_congr (fun known r => ?_) registrations
  cases r with
  | on event listener =>
    rw [filterMap_hooksFor_eq_nil fun request hr => (requested_on request hr).2.2,
      filterMap_hooksFor_eq_nil fun request hr => (requested_on request hr).2.1]
  | preserve text whitespace =>
    by_cases h : Selector.parse text = selector <;>
      simp [requested, HookRequest.hooksFor, h, Effect.release?, Effect.preserve?]
  | collect | data | atEnd | atError => simp [requested, HookRequest.hooksFor]

/-- What is held back for an update of an element is flushed when it ends. -/
theorem flushed_hooksFor (registrations : List (Registration σ)) (selector : Selector) :
    (HookRequest.hooksFor (requests registrations) .leave selector).filterMap Effect.flush? =
      (HookRequest.hooksFor (requests registrations) .enter selector).filterMap Effect.hold? := by
  refine filterMap_hooksFor_congr (fun known r => ?_) registrations
  cases hr : r.subscription? with
  | none =>
    cases r with
    | on event listener =>
      rw [requested, show Subscription.parse? event = none from hr]
      rfl
    | collect | preserve | data | atEnd | atError =>
      rw [filterMap_hooksFor_eq_nil (by simp [requested, Effect.flush?]),
        filterMap_hooksFor_eq_nil (by simp [requested, Effect.hold?])]
  | some s =>
    rw [requested_of_subscription hr]
    by_cases hknown : s ∈ known
    · simp [hknown, HookRequest.hooksFor]
    · rw [if_neg hknown, hooksFor_subscription, hooksFor_subscription]
      split
      · cases s.kind <;> rfl
      · rfl

/-! ### The policy -/

variable {m : Automaton Effect} {states : List (Selector × StateId)}

theorem mem_dueAt (h : m.Serves states (requests registrations)) {path : List String}
    {effect : Effect} :
    effect ∈ m.dueAt occasion path ↔ ∃ selector, selector.Matches path ∧
      effect ∈ HookRequest.hooksFor (requests registrations) occasion selector := by
  rw [Automaton.dueAt, h.fire_after, List.mem_flatMap]
  constructor
  · rintro ⟨selector, hs, he⟩
    exact ⟨selector, of_decide_eq_true (List.mem_filter.1 hs).2, he⟩
  · rintro ⟨selector, hs, he⟩
    refine ⟨selector, List.mem_filter.2 ⟨?_, decide_eq_true hs⟩, he⟩
    obtain ⟨request, hr, -⟩ := List.mem_map.1 he
    obtain ⟨hmem, hrequest⟩ := List.mem_filter.1 hr
    rw [← (of_decide_eq_true hrequest).2]
    exact h.known request hmem

/-- What agrees on the hooks of each selector agrees on what is due. -/
theorem filterMap_dueAt_congr {α : Type} {f g : Effect → Option α} {first second : Occasion}
    (h : m.Serves states (requests registrations))
    (hfg : ∀ selector, (HookRequest.hooksFor (requests registrations) first selector).filterMap f =
      (HookRequest.hooksFor (requests registrations) second selector).filterMap g)
    (path : List String) : (m.dueAt first path).filterMap f = (m.dueAt second path).filterMap g := by
  rw [Automaton.dueAt, Automaton.dueAt, h.fire_after, h.fire_after, List.filterMap_flatMap,
    List.filterMap_flatMap]
  simp only [hfg]

theorem mem_preserve?_dueAt (h : m.Serves states (requests registrations)) {path : List String}
    {whitespace : Bool} :
    whitespace ∈ (m.dueAt .enter path).filterMap Effect.preserve? ↔
      ∃ selector, (selector, whitespace) ∈ registrations.filterMap preserve? ∧
        selector.Matches path := by
  have hpick (effect : Effect) :
      effect.preserve? = some whitespace ↔ effect = .preserve whitespace := by
    cases effect <;> simp [Effect.preserve?]
  simp only [List.mem_filterMap (f := Effect.preserve?), hpick, exists_eq_right]
  simp only [mem_dueAt h, preserve_mem_hooksFor, and_comm]

/-- What is due in an automaton that serves the requests is what the policy says. -/
theorem policy_agrees (h : m.Serves states (requests registrations)) :
    (policy registrations).Agrees m where
  fits := by
    intro occasion path effect he
    obtain ⟨selector, -, he⟩ := (mem_dueAt h).1 he
    obtain ⟨request, hr, rfl⟩ := List.mem_map.1 he
    obtain ⟨hmem, hrequest⟩ := List.mem_filter.1 hr
    have hfits := requests_fit registrations request hmem
    rwa [(of_decide_eq_true hrequest).1] at hfits
  collects := by
    intro path name
    refine decide_eq_decide.2 ?_
    simp only [mem_dueAt h, collect_mem_hooksFor, and_comm]
  preserves_nil := rfl
  preserves := by
    intro path name
    rw [Bool.eq_iff_iff, Bool.or_eq_true]
    simp only [policy, decide_eq_true_eq, pathsTo_concat, List.mem_append, List.mem_singleton,
      or_and_right, exists_or, exists_eq_left, Bool.not_eq_true',
      List.isEmpty_eq_false_iff_exists_mem, mem_preserve?_dueAt h]
    refine or_congr_right ⟨?_, ?_⟩
    · rintro ⟨⟨selector, whitespace⟩, hmem, hmatch⟩
      exact ⟨whitespace, selector, hmem, hmatch⟩
    · rintro ⟨whitespace, selector, hmem, hmatch⟩
      exact ⟨(selector, whitespace), hmem, hmatch⟩
  verbatim_nil := rfl
  verbatim := by
    intro path name
    rw [Bool.eq_iff_iff, Bool.or_eq_true]
    simp only [policy, decide_eq_true_eq, pathsTo_concat, List.mem_append, List.mem_singleton,
      or_and_right, exists_or, exists_eq_left, List.contains_iff_mem, mem_preserve?_dueAt h]
    refine or_congr_right ⟨?_, ?_⟩
    · rintro ⟨⟨selector, _⟩, hmem, hmatch, rfl⟩
      exact ⟨selector, hmem, hmatch⟩
    · rintro ⟨selector, hmem, hmatch⟩
      exact ⟨(selector, true), hmem, hmatch, rfl⟩
  released := filterMap_dueAt_congr h (released_hooksFor registrations)
  flushed := filterMap_dueAt_congr h (flushed_hooksFor registrations)

end Registration

end XmlSieve
