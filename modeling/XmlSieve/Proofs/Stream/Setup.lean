import XmlSieve.Proofs.Entries
import XmlSieve.Proofs.Selector.Dispatch
import XmlSieve.Proofs.Stream.Journal

/-!
# Set-up streams

What a list of registrations amounts to: the selectors in the order in which they were first
mentioned (`Registration.selectors`), the subscriptions in the order in which they were first made
(`Registration.subscriptions`), the listeners of each, and what is requested of the automaton
(`Registration.requests`).  `Stream.SetUp` says that a stream holds just this, and registering keeps
it up (`SetUp.register`).
-/

namespace XmlSieve

variable {σ : Type}

namespace Registration

/-- The selector that is registered, if it is one. -/
def selector? : Registration σ → Option Selector
  | on event _ => (Subscription.parse? event).map (·.selector)
  | collect selector | preserve selector _ => some (Selector.parse selector)
  | data _ | atEnd _ | atError _ => none

/-- What is subscribed to. -/
def subscription? : Registration σ → Option Subscription
  | on event _ => Subscription.parse? event
  | collect _ | preserve _ _ | data _ | atEnd _ | atError _ => none

/-- The listener, if it is one for `subscription`. -/
def listener? (subscription : Subscription) : Registration σ → Option (Listener σ)
  | on event listener =>
    if Subscription.parse? event = some subscription then some listener else none
  | collect _ | preserve _ _ | data _ | atEnd _ | atError _ => none

/-- All selectors, in the order in which they were first registered. -/
def selectors (registrations : List (Registration σ)) : List Selector :=
  (registrations.filterMap selector?).eraseDups

/-- All subscriptions, in the order in which they were first made. -/
def subscriptions (registrations : List (Registration σ)) : List Subscription :=
  (registrations.filterMap subscription?).eraseDups

/-- The listeners for a subscription, in the order of their registration. -/
def listeners (registrations : List (Registration σ)) (subscription : Subscription) :
    List (Listener σ) :=
  registrations.filterMap (listener? subscription)

/-- What is requested of the automaton, where the subscriptions in `known` were made before. -/
def requested (known : List Subscription) : Registration σ → List (HookRequest Effect)
  | on event _ =>
    match Subscription.parse? event with
    | none => []
    | some s =>
      if s ∈ known then []
      else (Assembly.subscriptionEffects s.kind known.length).map fun (occasion, effect) =>
        ⟨s.selector, occasion, effect⟩
  | collect selector => [⟨Selector.parse selector, .flag, .collect⟩]
  | preserve selector whitespace =>
    [⟨Selector.parse selector, .enter, .preserve whitespace⟩,
      ⟨Selector.parse selector, .leave, .release whitespace⟩]
  | data _ | atEnd _ | atError _ => []

/-- What registrations request one after the other, where those in `before` were made before. -/
def requestsAfter (before : List (Registration σ)) :
    List (Registration σ) → List (HookRequest Effect)
  | [] => []
  | r :: rest => r.requested (subscriptions before) ++ requestsAfter (before ++ [r]) rest

/-- What registrations request of the automaton, in their order. -/
def requests (registrations : List (Registration σ)) : List (HookRequest Effect) :=
  requestsAfter [] registrations

variable {registrations : List (Registration σ)} {r : Registration σ}

theorem selectors_concat (registrations : List (Registration σ)) (r : Registration σ) :
    selectors (registrations ++ [r]) =
      match r.selector? with
      | none => selectors registrations
      | some s =>
        if s ∈ selectors registrations then selectors registrations
        else selectors registrations ++ [s] := by
  unfold selectors
  rw [List.filterMap_append]
  cases hs : r.selector? with
  | none => simp [hs]
  | some s => simp [hs, eraseDups_concat, List.mem_eraseDups]

theorem subscriptions_concat (registrations : List (Registration σ)) (r : Registration σ) :
    subscriptions (registrations ++ [r]) =
      match r.subscription? with
      | none => subscriptions registrations
      | some s =>
        if s ∈ subscriptions registrations then subscriptions registrations
        else subscriptions registrations ++ [s] := by
  unfold subscriptions
  rw [List.filterMap_append]
  cases hs : r.subscription? with
  | none => simp [hs]
  | some s => simp [hs, eraseDups_concat, List.mem_eraseDups]

theorem requestsAfter_concat (before registrations : List (Registration σ)) (r : Registration σ) :
    requestsAfter before (registrations ++ [r]) =
      requestsAfter before registrations ++
        r.requested (subscriptions (before ++ registrations)) := by
  induction registrations generalizing before with
  | nil => simp [requestsAfter]
  | cons r' registrations ih =>
    rw [List.cons_append, requestsAfter, ih, requestsAfter, List.append_assoc, List.append_assoc]
    rfl

theorem requests_concat (registrations : List (Registration σ)) (r : Registration σ) :
    requests (registrations ++ [r]) =
      requests registrations ++ r.requested (subscriptions registrations) :=
  requestsAfter_concat [] registrations r

theorem listeners_concat (subscription : Subscription) (registrations : List (Registration σ))
    (r : Registration σ) :
    listeners (registrations ++ [r]) subscription =
      listeners registrations subscription ++ (r.listener? subscription).toList := by
  unfold listeners
  rw [List.filterMap_append]
  cases h : r.listener? subscription <;> simp [h]

theorem listeners_eq_nil {subscription : Subscription}
    (h : subscription ∉ subscriptions registrations) :
    listeners registrations subscription = [] := by
  refine List.filterMap_eq_nil_iff.2 fun r hr => ?_
  cases r with
  | on event listener =>
    refine if_neg fun hparse => h (List.mem_eraseDups.2 (List.mem_filterMap.2 ⟨_, hr, hparse⟩))
  | collect | preserve | data | atEnd | atError => rfl

theorem subscription_proper {s : Subscription} (h : s ∈ subscriptions registrations) :
    s.selector.Proper := by
  obtain ⟨r, -, hr⟩ := List.mem_filterMap.1 (List.mem_eraseDups.1 h)
  cases r with
  | on event listener => exact Subscription.parse?_proper hr
  | collect | preserve | data | atEnd | atError => cases hr

/-- The selector of a subscription was registered with it. -/
theorem selector_of_subscription {s : Subscription} (h : s ∈ subscriptions registrations) :
    s.selector ∈ selectors registrations := by
  obtain ⟨r, hmem, hr⟩ := List.mem_filterMap.1 (List.mem_eraseDups.1 h)
  refine List.mem_eraseDups.2 (List.mem_filterMap.2 ⟨r, hmem, ?_⟩)
  cases r with
  | on event listener =>
    rw [selector?, show Subscription.parse? event = some s from hr]
    rfl
  | collect | preserve | data | atEnd | atError => cases hr

theorem name_inj {s t : Subscription} (hs : s.selector.Proper)
    (ht : t ∈ subscriptions registrations) (h : t.name = s.name) : t = s :=
  Subscription.name_injective (subscription_proper ht) hs h

section Subscribing

variable {event : String} {s : Subscription}

theorem listener?_on (hparse : Subscription.parse? event = some s) (listener : Listener σ)
    (t : Subscription) :
    (on event listener).listener? t = if t = s then some listener else none := by
  simp only [listener?, hparse, Option.some.injEq, eq_comm]

/-- A listener for a subscription that was made before is put behind the others. -/
theorem insert_listeners_known (hparse : Subscription.parse? event = some s)
    (hknown : s ∈ subscriptions registrations) (listener : Listener σ) :
    Entries.insert s.name (listeners registrations s ++ [listener])
        (Entries.table Subscription.name (listeners registrations) (subscriptions registrations)) =
      Entries.table Subscription.name (listeners (registrations ++ [on event listener]))
        (subscriptions (registrations ++ [on event listener])) := by
  have hsubscription : (on event listener).subscription? = some s := hparse
  have hinj (t : Subscription) (ht : t ∈ subscriptions registrations) (hn : t.name = s.name) :=
    name_inj (Subscription.parse?_proper hparse) ht hn
  simp only [subscriptions_concat, hsubscription, if_pos hknown]
  rw [Entries.insert_table_of_mem _ hinj (nodup_eraseDups _) hknown]
  refine Entries.table_congr fun t _ => ?_
  rw [listeners_concat, listener?_on hparse]
  split
  · next heq => simp [heq]
  · simp

/-- A new subscription is put behind the others. -/
theorem insert_listeners_new (hparse : Subscription.parse? event = some s)
    (hnew : s ∉ subscriptions registrations) (listener : Listener σ) :
    Entries.insert s.name [listener]
        (Entries.table Subscription.name (listeners registrations) (subscriptions registrations)) =
      Entries.table Subscription.name (listeners (registrations ++ [on event listener]))
        (subscriptions (registrations ++ [on event listener])) := by
  have hsubscription : (on event listener).subscription? = some s := hparse
  have hne (t : Subscription) (ht : t ∈ subscriptions registrations) : t ≠ s :=
    fun heq => hnew (heq ▸ ht)
  have hname (t : Subscription) (ht : t ∈ subscriptions registrations) : t.name ≠ s.name :=
    fun hn => hne t ht (name_inj (Subscription.parse?_proper hparse) ht hn)
  have hold (t : Subscription) (ht : t ∈ subscriptions registrations) :
      listeners registrations t = listeners (registrations ++ [on event listener]) t := by
    simp [listeners_concat, listener?_on hparse, hne t ht]
  have hlast : listeners (registrations ++ [on event listener]) s = [listener] := by
    simp [listeners_concat, listener?_on hparse, listeners_eq_nil hnew]
  simp only [subscriptions_concat, hsubscription, if_neg hnew]
  rw [Entries.insert_table_of_not_mem _ hname, Entries.table_congr hold, Entries.table,
    Entries.table, List.map_append, List.map_singleton, hlast]

end Subscribing

end Registration

open Registration

namespace Automaton

variable {η : Type} {m : Automaton η} {requests : List (HookRequest η)} {selector : Selector}

theorem Serves.foldl_on {states : List (Selector × StateId)} {state : StateId}
    (h : m.Serves states requests) (hmem : (selector, state) ∈ states)
    (hooks : List (Occasion × η)) :
    (hooks.foldl (fun m (occasion, hook) => m.on occasion state hook) m).Serves states
      (requests ++ hooks.map fun (occasion, hook) => ⟨selector, occasion, hook⟩) := by
  induction hooks generalizing m requests with
  | nil => simpa using h
  | cons hook hooks ih =>
    have hfirst := ih (h.on hmem hook.1 hook.2)
    rwa [List.append_assoc] at hfirst

end Automaton

namespace Assembly

variable {a : Assembly σ} {requests : List (HookRequest Effect)} {selectors : List Selector}
  {selector : Selector}

/-- The automaton of the assembly serves these selectors, compiled in this order. -/
def Serves (a : Assembly σ) (selectors : List Selector) (requests : List (HookRequest Effect)) :
    Prop :=
  ∃ states, a.automaton.Serves states requests ∧ states.map (·.1) = selectors

theorem Serves.register (h : a.Serves selectors requests) (hselector : selector.Proper)
    (effects : List (Occasion × Effect)) :
    (a.register selector effects).Serves
      (if selector ∈ selectors then selectors else selectors ++ [selector])
      (requests ++ effects.map fun (occasion, effect) => ⟨selector, occasion, effect⟩) := by
  obtain ⟨states, hserves, rfl⟩ := h
  obtain ⟨states', hcompiled, hmem, hselectors⟩ := hserves.compile hselector
  exact ⟨states', hcompiled.foldl_on hmem effects, hselectors⟩

end Assembly

namespace Stream

variable {s : Stream σ} {done : List (Registration σ)}

/-- A stream that holds what was registered with it. -/
structure SetUp (s : Stream σ) (done : List (Registration σ)) : Prop where
  serves : s.assembly.Serves (selectors done) (requests done)
  listeners : s.assembly.listeners =
    Entries.table Subscription.name (Registration.listeners done) (subscriptions done)

theorem SetUp.create (env : σ) : (create env).SetUp [] :=
  ⟨⟨[], .empty, rfl⟩, rfl⟩

/-- A registration without a listener for an event. -/
theorem SetUp.without {t : Stream σ} {r : Registration σ} (h : s.SetUp done)
    (hlisteners : t.assembly.listeners = s.assembly.listeners) (hr : r.subscription? = none)
    (hnone : ∀ subscription, r.listener? subscription = none)
    (hserves : t.assembly.Serves (selectors (done ++ [r])) (requests (done ++ [r]))) :
    t.SetUp (done ++ [r]) := by
  refine ⟨hserves, ?_⟩
  rw [hlisteners, h.listeners, subscriptions_concat, hr]
  exact Entries.table_congr fun s _ => by simp [listeners_concat, hnone]

theorem SetUp.on {event : String} {subscription : Subscription} (h : s.SetUp done)
    (hparse : Subscription.parse? event = some subscription) (listener : Listener σ) :
    SetUp { s with assembly := s.assembly.subscribe subscription listener }
      (done ++ [.on event listener]) := by
  have hproper := Subscription.parse?_proper hparse
  have hinj (t : Subscription) (ht : t ∈ subscriptions done) (hn : t.name = subscription.name) :=
    name_inj hproper ht hn
  have hselector : (Registration.on event listener).selector? = some subscription.selector := by
    rw [selector?, hparse]
    rfl
  unfold Assembly.subscribe
  rw [h.listeners, Entries.get?_table hinj]
  by_cases hknown : subscription ∈ subscriptions done
  · rw [if_pos hknown]
    refine ⟨?_, insert_listeners_known hparse hknown listener⟩
    rw [selectors_concat, requests_concat, hselector, requested, hparse]
    simp only [if_pos hknown, if_pos (selector_of_subscription hknown), List.append_nil]
    exact h.serves
  · rw [if_neg hknown]
    refine ⟨?_, insert_listeners_new hparse hknown listener⟩
    rw [selectors_concat, requests_concat, hselector, requested, hparse]
    simp only [if_neg hknown]
    have hlength : (Entries.table Subscription.name (Registration.listeners done)
        (subscriptions done)).length = (subscriptions done).length := List.length_map _
    rw [hlength]
    exact Assembly.Serves.register (a := { s.assembly with listeners := _ }) h.serves hproper _

theorem SetUp.register (h : s.SetUp done) (r : Registration σ) :
    (s.register r).SetUp (done ++ [r]) := by
  cases r with
  | on event listener =>
    simp only [Stream.register, Stream.on]
    cases hparse : Subscription.parse? event with
    | none =>
      refine h.without rfl hparse (fun _ => by simp [listener?, hparse]) ?_
      simpa [selectors_concat, requests_concat, selector?, requested, hparse] using h.serves
    | some subscription => exact h.on hparse listener
  | collect selector =>
    refine h.without rfl rfl (fun _ => rfl) ?_
    rw [selectors_concat, requests_concat]
    exact h.serves.register (Selector.parse_proper selector) _
  | preserve selector whitespace =>
    refine h.without rfl rfl (fun _ => rfl) ?_
    rw [selectors_concat, requests_concat]
    exact h.serves.register (Selector.parse_proper selector) _
  | data | atEnd | atError =>
    refine h.without rfl rfl (fun _ => rfl) ?_
    rw [selectors_concat, requests_concat, requested, List.append_nil]
    exact h.serves

/-- A stream that was set up holds what was registered with it. -/
theorem registered_setUp (env : σ) (registrations : List (Registration σ)) :
    (registered env registrations).SetUp registrations := by
  suffices h : ∀ (s : Stream σ) (done : List (Registration σ)), s.SetUp done →
      (registrations.foldl register s).SetUp (done ++ registrations) by
    exact h _ [] (.create env)
  induction registrations with
  | nil => exact fun s done h => by simpa using h
  | cons r registrations ih =>
    intro s done h
    simpa using ih (s.register r) (done ++ [r]) (h.register r)

end Stream

end XmlSieve
