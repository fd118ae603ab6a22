import XmlSieve.Proofs.Stream.Matching
import XmlSieve.Proofs.Stream.Rooted

/-!
# Calls of listeners

How often a token calls a listener, whatever listeners do to elements.  Effects call the listeners
of the events that they tell of (`applyAll_calls`), and which these are is a matter of what was
registered and of the selectors that were known when the root opened.  So a listener is called once
by a token that it subscribed to, in an element that a known selector matches, and never else
(`Underway.accept_calls`).
-/

namespace XmlSieve

variable {σ : Type}

/-- The numbers of the listeners that were told of matches, in the order in which they were. -/
def Journal.told (j : Journal σ) : List Nat := j.sightings.map (·.id)

/-- A listener that is told under the number `id`, whatever it does. -/
def Listener.Tells (listener : Listener (Journal σ)) (id : Nat) : Prop :=
  ∀ m j, (listener m j).env.told = j.told ++ [id]

theorem tells_listen (listener : Listener σ) (id : Nat) :
    (Journal.listen id listener).Tells id := by
  intro m j
  simp [Journal.listen, Journal.add, Journal.told, Journal.sightings, Notice.sighting?,
    Match.sighting]

theorem tellAll_told {listeners : List (Listener (Journal σ))} {ids : List Nat}
    (h : List.Forall₂ Listener.Tells listeners ids) (m : Match) (j : Journal σ) :
    (Listener.tellAll listeners m j).env.told = j.told ++ ids := by
  refine Listener.tellAll_induction (P := fun ids _ env => env.told = j.told ++ ids) h m j
    (List.append_nil _).symm ?_
  intro ids listener id e env hlistener hold
  rw [hlistener, hold, List.append_assoc]

namespace Assembly

variable {a b : Assembly (Journal σ)} {ids : List (List Nat)} {frame : Frame}
  {chunk : Option String} {id : Nat}

/-- The listeners of each event are told under the numbers in the list for it, and sinks tell
nobody. -/
structure Calls (a : Assembly (Journal σ)) (ids : List (List Nat)) : Prop where
  listeners :
    List.Forall₂ (fun entry ids => List.Forall₂ Listener.Tells entry.2 ids) a.listeners ids
  sinks : ∀ sink ∈ a.sinks, ∀ fragment j, (sink fragment j).told = j.told

theorem Calls.congr (h : a.Calls ids) (hlisteners : b.listeners = a.listeners)
    (hsinks : b.sinks = a.sinks) : b.Calls ids := by
  constructor
  · rw [hlisteners]
    exact h.listeners
  · rw [hsinks]
    exact h.sinks

theorem Calls.same (h : a.Calls ids) (hs : SameSetting a b) : b.Calls ids :=
  h.congr hs.listeners hs.sinks

/-! ### Effects -/

theorem emit_told (h : a.Calls ids) (fragment : String) :
    (a.emit fragment).env.told = a.env.told :=
  emit_shows h.sinks fragment

theorem notify_told (h : a.Calls ids) (place : Nat) (frame : Frame) (chunk : Option String) :
    (a.notify place frame chunk).1.env.told = a.env.told ++ ids[place]?.getD [] := by
  unfold notify
  obtain ⟨hlength, hget⟩ := List.forall₂_iff_get.1 h.listeners
  by_cases hplace : place < a.listeners.length
  · rw [List.getElem?_eq_getElem hplace, List.getElem?_eq_getElem (hlength ▸ hplace)]
    exact tellAll_told (hget place hplace (hlength ▸ hplace)) _ _
  · rw [List.getElem?_eq_none (Nat.le_of_not_lt hplace),
      List.getElem?_eq_none (hlength ▸ Nat.le_of_not_lt hplace)]
    exact (List.append_nil _).symm

/-- An update that the listener did not subscribe to does not call it. -/
theorem flush_calls (h : a.Calls ids) (frame : Frame) {place : Nat}
    (hid : id ∉ ids[place]?.getD []) :
    (a.flush frame place).1.env.told.count id = a.env.told.count id := by
  unfold flush
  split
  · have htold := notify_told h place { frame with held := frame.held.erase place } none
    have hsame := a.notify_same place { frame with held := frame.held.erase place } none
    generalize a.notify place { frame with held := frame.held.erase place } none = told
      at htold hsame ⊢
    have hcalls : Calls { told.1 with holding := told.1.holding - 1 } ids :=
      h.congr hsame.listeners hsame.sinks
    simp only [emit_told hcalls]
    rw [htold, List.count_append, List.count_eq_zero_of_not_mem hid, Nat.add_zero]
  · rfl

theorem apply_calls {effect : Effect} (h : a.Calls ids) (frame : Frame) (chunk : Option String)
    (hflush : ∀ place, effect = .flush place → id ∉ ids[place]?.getD []) :
    (apply chunk (a, frame) effect).1.env.told.count id =
      a.env.told.count id + (effect.told?.toList.flatMap (ids[·]?.getD [])).count id := by
  cases effect with
  | collect | preserve | release | hold =>
    rw [apply_quiet_env rfl]
    rfl
  | flush place =>
    have hid := hflush place rfl
    rw [apply, flush_calls h frame hid]
    simp [Effect.told?, List.count_eq_zero_of_not_mem hid]
  | notify place =>
    rw [apply, notify_told h place frame chunk, List.count_append]
    simp [Effect.told?]

/-- Effects call a listener once for each time that they tell of its event, if they flush nothing
that it subscribed to. -/
theorem applyAll_calls {effects : List Effect} (h : a.Calls ids) (frame : Frame)
    (chunk : Option String) (hflush : ∀ place, .flush place ∈ effects → id ∉ ids[place]?.getD []) :
    (a.applyAll frame chunk effects).1.env.told.count id =
      a.env.told.count id +
        ((effects.filterMap Effect.told?).flatMap (ids[·]?.getD [])).count id := by
  induction effects generalizing a frame with
  | nil => rfl
  | cons effect effects ih =>
    have hfirst := apply_calls h frame chunk fun place he => hflush place (he ▸ List.mem_cons_self)
    have hrest := ih (h.same (a.apply_same frame chunk effect))
      (apply chunk (a, frame) effect).2 fun place hmem => hflush place (by simp [hmem])
    rw [applyAll, List.foldl_cons]
    refine hrest.trans ?_
    rw [hfirst, Nat.add_assoc, ← List.count_append, ← List.flatMap_append, List.filterMap_cons]
    cases effect.told? <;> rfl

theorem completed_told (h : a.Calls ids) (frame : Frame) (token : Token) :
    (completed (a, frame) token).env.told = a.env.told :=
  completed_shows h.sinks frame token

end Assembly

/-! ### What was registered -/

namespace Registration

variable {registrations : List (Registration σ)} {occasion : Occasion} {path : List String}
  {id : Nat} {s : Subscription}

/-- Who is told where only the selectors in `known` are recognized. -/
def audienceAmong (known : List Selector) (registrations : List (Registration σ))
    (occasion : Occasion) (path : List String) : List (Nat × Subscription) :=
  (audience registrations occasion path).filter fun (_, s) => s.selector ∈ known

theorem count_audienceAmong (known : List Selector) (occasion : Occasion) (path : List String)
    (hid : registrations[id]?.bind subscription? = some s) :
    ((audienceAmong known registrations occasion path).map (·.1)).count id =
      if s.selector ∈ known ∧ s.kind.occasion = occasion ∧ s.selector.Matches path then 1
      else 0 := by
  have hentry (entry : Nat × Subscription) (he : entry ∈ audienceAmong known registrations occasion
      path) : (entry.1 == id) = true ↔ (entry == (id, s)) = true := by
    have hs := (mem_audience.1 (List.mem_filter.1 he).1).1
    rw [beq_iff_eq, beq_iff_eq]
    refine ⟨fun heq => ?_, fun heq => congrArg Prod.fst heq⟩
    rw [heq, hid] at hs
    exact Prod.ext heq (Option.some.inj hs).symm
  rw [List.count_eq_countP, List.countP_map]
  refine (List.countP_congr hentry).trans ?_
  rw [← List.count_eq_countP]
  by_cases hknown : s.selector ∈ known
  · rw [audienceAmong, List.count_filter (by simpa using hknown), count_audience, hid]
    simp [hknown]
  · rw [if_neg fun h => hknown h.1]
    exact List.count_eq_zero_of_not_mem fun hmem =>
      hknown (of_decide_eq_true (List.mem_filter.1 hmem).2)

/-- Filtering by what is the same throughout each part leaves out whole parts. -/
theorem filter_flatMap_parts {α β : Type} {f : α → List β} {p : β → Bool} {q : α → Bool}
    (h : ∀ x, ∀ y ∈ f x, p y = q x) (xs : List α) :
    (xs.flatMap f).filter p = (xs.filter q).flatMap f := by
  induction xs with
  | nil => rfl
  | cons x xs ih =>
    rw [List.flatMap_cons, List.filter_append, ih]
    by_cases hq : q x = true
    · rw [List.filter_cons_of_pos hq, List.flatMap_cons,
        List.filter_eq_self.2 fun y hy => (h x y hy).trans hq]
    · rw [List.filter_cons_of_neg hq, List.filter_eq_nil_iff.2 fun y hy => by rwa [h x y hy],
        List.nil_append]

/-- Selectors that are not known contribute nobody. -/
theorem audienceAmong_eq (known : List Selector) (registrations : List (Registration σ))
    (occasion : Occasion) (path : List String) :
    audienceAmong known registrations occasion path =
      ((selectors registrations).filter fun s => s ∈ known ∧ s.Matches path).flatMap fun selector =>
        ((subscriptions registrations).filter fun s =>
            s.selector = selector ∧ s.kind.occasion = occasion).flatMap fun s =>
          (listenerIds registrations s).map (·, s) := by
  rw [audienceAmong, audience, filter_flatMap_parts (q := (· ∈ known)), List.filter_filter]
  · simp only [Bool.decide_and]
  · intro selector entry he
    simp only [List.mem_flatMap, List.mem_filter, List.mem_map, decide_eq_true_eq] at he
    obtain ⟨s, ⟨-, rfl, -⟩, _, -, rfl⟩ := he
    rfl

/-- The listeners of what is due in the states of known selectors. -/
theorem fire_audience {m root : Automaton Effect} {states rootStates : List (Selector × StateId)}
    {known : List Selector} {rootRequests : List (HookRequest Effect)}
    (h : m.Serves states (requests registrations))
    (hselectors : states.map (·.1) = selectors registrations)
    (hroot : root.Serves rootStates rootRequests) (hknown : rootStates.map (·.1) = known)
    (hgrown : root.Grown m) (occasion : Occasion) (path : List String) :
    ((m.hooks.fire occasion (root.after path)).filterMap Effect.told?).flatMap
        (((subscriptions registrations).map (listenerIds registrations))[·]?.getD []) =
      (audienceAmong known registrations occasion path).map (·.1) := by
  rw [hgrown.fire_after h hroot, hselectors, hknown, List.filterMap_flatMap, List.flatMap_assoc,
    audienceAmong_eq, List.map_flatMap]
  refine List.flatMap_congr fun selector _ => ?_
  rw [told_hooksFor, List.map_flatMap]
  refine (flatMap_places (fun s => s.selector = selector ∧ s.kind.occasion = occasion)
    (g := listenerIds registrations) fun s place hs => ?_).trans ?_
  · rw [List.getElem?_map, List.mem_zipIdx_iff_getElem?.1 hs]
    rfl
  · refine List.flatMap_congr fun s _ => ?_
    rw [List.map_map]
    exact (List.map_id _).symm

end Registration

namespace Assembly

open Registration

variable {a b : Assembly (Journal σ)} {registrations : List (Registration σ)}
  {root : List (Registration (Journal σ))} {p q : Place} {token : Token} {id : Nat}
  {s : Subscription}

/-- What is registered with a journal is told under the numbers of the registrations. -/
theorem SetUp.calls (h : a.SetUp (loggedAll registrations.zipIdx)) :
    a.Calls ((subscriptions registrations).map (listenerIds registrations)) := by
  constructor
  · rw [h.listeners, subscriptions_loggedAll, Entries.table]
    refine List.forall₂_map_left_iff.2 (List.forall₂_map_right_iff.2 (List.forall₂_same.2 ?_))
    refine fun s _ => (listeners_logged registrations s).imp ?_
    rintro listener id ⟨event, told, -, -, rfl⟩
    exact tells_listen told id
  · rw [h.sinks]
    exact fun sink hsink fragment j => congrArg (List.map _) (sightings_of_sink hsink fragment j)

/-- What a token flushes is an update that is registered. -/
theorem SetUp.flush_kind (h : a.SetUp (loggedAll registrations.zipIdx)) {occasion : Occasion}
    {set : StateSet} {place : Nat} (hmem : .flush place ∈ a.automaton.hooks.fire occasion set) :
    ∃ s, (subscriptions registrations)[place]? = some s ∧ s.kind = .updateElement := by
  obtain rfl : occasion = .leave := h.fire_fits occasion set _ hmem
  obtain ⟨selector, hdue⟩ := h.mem_fire hmem
  have hplace : place ∈ (HookRequest.hooksFor (requests (loggedAll registrations.zipIdx)) .leave
      selector).filterMap Effect.flush? := List.mem_filterMap.2 ⟨_, hdue, rfl⟩
  rw [flush_hooksFor, subscriptions_loggedAll] at hplace
  obtain ⟨⟨s, _⟩, hs, rfl⟩ := List.mem_map.1 hplace
  obtain ⟨hget, hs⟩ := List.mem_filter.1 hs
  exact ⟨s, List.mem_zipIdx_iff_getElem?.1 hget, (of_decide_eq_true hs).2⟩

/-- A token calls a listener for other than updates if it is one that the listener subscribed to and
stands in an element that its selector matches, where this was known when the root opened. -/
theorem Underway.accept_calls (h : a.Underway root (loggedAll registrations.zipIdx) p)
    (hq : p.follow token = some q) (hb : a.accept token = .ok b)
    (hid : registrations[id]?.bind subscription? = some s) (hkind : s.kind ≠ .updateElement) :
    b.env.told.count id = a.env.told.count id +
      if s.selector ∈ selectors root ∧ s.kind.occasion = token.occasion ∧
        s.selector.Matches (p.pathOf token) then 1 else 0 := by
  obtain ⟨task, htask, rfl⟩ := exists_task hb
  obtain ⟨m, rootStates, hroot, hknown, hgrown, hflushed, htold⟩ :=
    h.rooted.told_effects h.setUp hq htask
  obtain ⟨states, hserves, hselectors⟩ := h.setUp.serves
  rw [requests_loggedAll] at hserves
  rw [selectors_loggedAll] at hselectors
  obtain ⟨hlisteners, hsinks, henv, -⟩ := task_keeps htask
  have hcalls := h.setUp.calls.congr hlisteners hsinks
  have hran := hcalls.same (task.assembly.applyAll_same task.frame task.chunk task.effects)
  have hothers (place : Nat) (hmem : .flush place ∈ task.effects) :
      id ∉ ((subscriptions registrations).map (listenerIds registrations))[place]?.getD [] := by
    obtain ⟨t, hget, ht⟩ := h.setUp.flush_kind (hflushed place hmem)
    rw [List.getElem?_map, hget]
    intro hin
    have hsame := mem_listenerIds.1 hin
    rw [hid] at hsame
    cases hsame
    exact hkind ht
  have hcount := applyAll_calls hcalls task.frame task.chunk hothers
  rw [htold, fire_audience hserves hselectors hroot hknown hgrown, henv,
    count_audienceAmong _ _ _ hid] at hcount
  exact (congrArg (List.count id) (completed_told hran task.done.2 token)).trans hcount

end Assembly

end XmlSieve
