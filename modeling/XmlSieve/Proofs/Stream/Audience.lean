import XmlSieve.Proofs.Stream.Following
import XmlSieve.Proofs.Stream.Requests

/-!
# Who is told of what

`Registration.audience` lists who is told on an occasion in an element, in the order in which they
are told, and says nothing of automata: selectors that match the element in the order in which they
were first registered, for each the subscriptions to it in the order in which they were first made,
and for each of these its listeners in the order of their registration.  Everyone whom the occasion
concerns is in it once (`count_audience`), and an automaton that serves the registrations tells just
these (`seen_eq`).
-/

namespace XmlSieve

namespace Token

/-- The text that listeners are given with the token. -/
def chunk? : Token → Option String
  | startTag _ _ | endTag _ => none
  | text chunk => some chunk

/-- Each token with the names from the root to its element, where the elements in `path` are open
before the first. -/
def located (path : List String) : List Token → List (Token × List String)
  | [] => []
  | startTag name attributes :: tokens =>
    (startTag name attributes, path ++ [name]) :: located (path ++ [name]) tokens
  | text chunk :: tokens => (text chunk, path) :: located path tokens
  | endTag name :: tokens => (endTag name, path) :: located path.dropLast tokens

end Token

namespace Branch

theorem path_add (node : Node) (stack : List Branch) : path (add node stack) = path stack := by
  cases stack <;> rfl

/-- The scenes of tokens are in their elements. -/
theorem scenes_located (policy : Policy) (stack : List Branch) (tokens : List Token) :
    (scenes policy stack tokens).map (fun (token, scene) => (token, scene.path, scene.chunk)) =
      (Token.located (path stack) tokens).map fun (token, path) =>
        (token, path, token.chunk?) := by
  induction tokens generalizing stack with
  | nil => rfl
  | cons token tokens ih =>
    rw [scenes, List.map_cons, ih]
    cases token with
    | startTag name attributes => rw [grow, path_cons]; rfl
    | text chunk => rw [grow, path_add]; rfl
    | endTag name =>
      cases stack with
      | nil => rfl
      | cons b stack =>
        simp only [grow, path_add, scene, Token.located, path_cons, List.dropLast_concat,
          List.map_cons, Token.chunk?]

end Branch

namespace Registration

variable {σ : Type} {registrations : List (Registration σ)} {occasion : Occasion}
  {path : List String}

/-- The numbers of the listeners for a subscription, in the order of their registration. -/
def listenerIds (registrations : List (Registration σ)) (subscription : Subscription) : List Nat :=
  (registrations.zipIdx.filter fun (r, _) => r.subscription? = some subscription).map (·.2)

/-- The numbers of the registrations that are picked. -/
def idsOf (pick : Registration σ → Bool) (registrations : List (Registration σ)) : List Nat :=
  (registrations.zipIdx.filter fun (r, _) => pick r).map (·.2)

/-- Who is told on an occasion in the element at `path`, with the subscription under which they
are. -/
def audience (registrations : List (Registration σ)) (occasion : Occasion) (path : List String) :
    List (Nat × Subscription) :=
  ((selectors registrations).filter (·.Matches path)).flatMap fun selector =>
    ((subscriptions registrations).filter fun s =>
        s.selector = selector ∧ s.kind.occasion = occasion).flatMap fun s =>
      (listenerIds registrations s).map (·, s)

/-! ### Everyone once -/

theorem mem_listenerIds {id : Nat} {s : Subscription} :
    id ∈ listenerIds registrations s ↔ registrations[id]?.bind subscription? = some s := by
  simp only [listenerIds, List.mem_map, List.mem_filter, decide_eq_true_eq, Prod.exists,
    List.mem_zipIdx_iff_getElem?, Option.bind_eq_some_iff]
  constructor
  · rintro ⟨r, _, ⟨hget, hr⟩, rfl⟩
    exact ⟨r, hget, hr⟩
  · rintro ⟨r, hget, hr⟩
    exact ⟨r, id, ⟨hget, hr⟩, rfl⟩

theorem nodup_idsOf (pick : Registration σ → Bool) (registrations : List (Registration σ)) :
    (idsOf pick registrations).Nodup := by
  have hall : (registrations.zipIdx.map (·.2)).Nodup := by
    rw [List.zipIdx_map_snd]
    exact List.nodup_range'
  exact hall.sublist (List.filter_sublist.map _)

theorem nodup_listenerIds (registrations : List (Registration σ)) (s : Subscription) :
    (listenerIds registrations s).Nodup :=
  nodup_idsOf (fun r => r.subscription? = some s) registrations

theorem mem_subscriptions {id : Nat} {s : Subscription}
    (h : registrations[id]?.bind subscription? = some s) : s ∈ subscriptions registrations := by
  obtain ⟨r, hget, hr⟩ := Option.bind_eq_some_iff.1 h
  exact List.mem_eraseDups.2 (List.mem_filterMap.2 ⟨r, List.mem_of_getElem? hget, hr⟩)

theorem mem_audience {id : Nat} {s : Subscription} :
    (id, s) ∈ audience registrations occasion path ↔
      registrations[id]?.bind subscription? = some s ∧ s.kind.occasion = occasion ∧
        s.selector.Matches path := by
  simp only [audience, List.mem_flatMap, List.mem_filter, decide_eq_true_eq, List.mem_map,
    Prod.mk.injEq]
  constructor
  · rintro ⟨_, ⟨-, hmatch⟩, _, ⟨-, rfl, hoccasion⟩, _, hid, rfl, rfl⟩
    exact ⟨mem_listenerIds.1 hid, hoccasion, hmatch⟩
  · rintro ⟨hid, hoccasion, hmatch⟩
    have hs := mem_subscriptions hid
    exact ⟨s.selector, ⟨selector_of_subscription hs, hmatch⟩, s, ⟨hs, rfl, hoccasion⟩, id,
      mem_listenerIds.2 hid, rfl, rfl⟩

theorem nodup_audience (registrations : List (Registration σ)) (occasion : Occasion)
    (path : List String) : (audience registrations occasion path).Nodup := by
  refine List.nodup_flatMap.2 ⟨fun selector _ => List.nodup_flatMap.2 ⟨fun s _ => ?_, ?_⟩, ?_⟩
  · exact (nodup_listenerIds registrations s).map fun id id' h => (Prod.mk.inj h).1
  · refine ((nodup_eraseDups _).filter _).imp fun hne => ?_
    rintro ⟨id, s⟩ h h'
    obtain ⟨_, -, hs⟩ := List.mem_map.1 h
    obtain ⟨_, -, hs'⟩ := List.mem_map.1 h'
    exact hne ((Prod.mk.inj hs).2.trans (Prod.mk.inj hs').2.symm)
  · refine ((nodup_eraseDups _).filter _).imp fun hne => ?_
    rintro ⟨id, s⟩ h h'
    simp only [List.mem_flatMap, List.mem_filter, decide_eq_true_eq, List.mem_map,
      Prod.mk.injEq] at h h'
    obtain ⟨_, ⟨-, rfl, -⟩, _, -, -, rfl⟩ := h
    obtain ⟨_, ⟨-, rfl, -⟩, _, -, -, rfl⟩ := h'
    exact hne rfl

/-- A listener is told once on an occasion that concerns it, and on no other. -/
theorem count_audience (registrations : List (Registration σ)) (occasion : Occasion)
    (path : List String) (id : Nat) (s : Subscription) :
    (audience registrations occasion path).count (id, s) =
      if registrations[id]?.bind subscription? = some s ∧ s.kind.occasion = occasion ∧
          s.selector.Matches path then 1 else 0 := by
  split
  · next h => exact List.count_eq_one_of_mem (nodup_audience _ _ _) (mem_audience.2 h)
  · next h => exact List.count_eq_zero_of_not_mem (mt mem_audience.1 h)

/-! ### Who is sighted -/

/-- The numbers of the listeners by event, in the order in which the events were first subscribed
to. -/
def roster (registrations : List (Registration σ)) : Roster :=
  (subscriptions registrations).map fun s => (s.name, listenerIds registrations s)

theorem sightings_roster {s : Subscription} {id : Nat}
    (h : (s, id) ∈ (subscriptions registrations).zipIdx) (scene : Scene) :
    (roster registrations).sightings scene id =
      (listenerIds registrations s).map (⟨·, s.name, scene⟩) := by
  rw [Roster.sightings, roster, List.getElem?_map, List.mem_zipIdx_iff_getElem?.1 h]
  rfl

/-- What there is for subscriptions that are given by their places. -/
theorem flatMap_places {β : Type} (p : Subscription → Bool) {f : Nat → List β}
    {g : Subscription → List β}
    (h : ∀ s id, (s, id) ∈ (subscriptions registrations).zipIdx → f id = g s) :
    (((subscriptions registrations).zipIdx.filter fun (s, _) => p s).map (·.2)).flatMap f =
      ((subscriptions registrations).filter p).flatMap g := by
  have hfilter : (subscriptions registrations).filter p =
      ((subscriptions registrations).zipIdx.filter fun (s, _) => p s).map (·.1) := by
    conv_lhs => rw [← List.zipIdx_map_fst 0 (subscriptions registrations), List.filter_map]
    rfl
  rw [hfilter, List.flatMap_map, List.flatMap_map]
  exact List.flatMap_congr fun entry he => h entry.1 entry.2 (List.mem_filter.1 he).1

/-- What is seen of a scene is seen by the audience. -/
theorem seen_eq {m : Automaton Effect} {states : List (Selector × StateId)}
    (h : m.Serves states (requests registrations))
    (hselectors : states.map (·.1) = selectors registrations) (occasion : Occasion)
    (scene : Scene) :
    Assembly.seen m (roster registrations) occasion scene =
      (audience registrations occasion scene.path).map fun (id, s) => ⟨id, s.name, scene⟩ := by
  rw [Assembly.seen, Automaton.dueAt, h.fire_after, hselectors, List.filterMap_flatMap,
    List.flatMap_assoc, audience, List.map_flatMap]
  refine List.flatMap_congr fun selector _ => ?_
  rw [told_hooksFor, List.map_flatMap]
  simp only [List.map_map]
  exact flatMap_places (fun s => s.selector = selector ∧ s.kind.occasion = occasion)
    fun _ _ hs => sightings_roster hs scene

end Registration

end XmlSieve
