import XmlSieve.Proofs.Stream.Matching
import XmlSieve.Proofs.Text.Encoding

/-!
# What listeners may change

`Element.MayBecome` says how far a listener goes: it leaves the element as it is, or it may give it
another name and nothing else.  `Registration.RenamesOn` lists the kinds of events for which
listeners may do so.  A listener is told by an effect of the kind it subscribed to
(`exists_subscription_of_due`), so that each effect of a stream that was set up goes as far as its
kind allows (`journaled_lenient`), and effects as far as the freest of them (`applyAll_becomes`).
-/

namespace XmlSieve

variable {σ : Type}

/-- Whether `e'` is what a listener may make of `e`, if it may rename it or not. -/
def Element.MayBecome (renames : Bool) (e e' : Element) : Prop :=
  e' = e ∨ renames = true ∧ ∃ name, isName name = true ∧ e' = { e with name }

namespace Element.MayBecome

variable {renames : Bool} {e e' e'' : Element}

theorem refl (renames : Bool) (e : Element) : MayBecome renames e e := .inl rfl

theorem trans (h : MayBecome renames e e') (h' : MayBecome renames e' e'') :
    MayBecome renames e e'' := by
  rcases h' with rfl | ⟨hr, name', hname', rfl⟩
  · exact h
  · rcases h with rfl | ⟨-, name, -, rfl⟩
    · exact .inr ⟨hr, name', hname', rfl⟩
    · exact .inr ⟨hr, name', hname', rfl⟩

theorem mono (h : MayBecome renames e e') : MayBecome true e e' :=
  h.imp_right fun ⟨_, hname⟩ => ⟨rfl, hname⟩

theorem eq (h : MayBecome false e e') : e' = e := by
  rcases h with rfl | ⟨hr, -⟩
  · rfl
  · cases hr

/-- Nothing but the name changes. -/
theorem eq_named (h : MayBecome renames e e') : e' = { e with name := e'.name } := by
  rcases h with rfl | ⟨-, name, -, rfl⟩
  · cases e'
    rfl
  · rfl

theorem isName (h : MayBecome renames e e') (he : XmlSieve.isName e.name = true) :
    XmlSieve.isName e'.name = true := by
  rcases h with rfl | ⟨-, name, hname, rfl⟩
  · exact he
  · exact hname

end Element.MayBecome

/-- A listener that names every element `name`. -/
def Listener.renamer (name : String) : Listener σ := fun m env =>
  { element := { m.element with name }, env }

theorem Listener.tireless_renamer (name : String) :
    (renamer name : Listener σ).tireless = renamer name := rfl

namespace Registration

/-- A registration whose listener may rename elements if it is told of one of these kinds of events,
and leaves them as they are if not. -/
def RenamesOn (kinds : List EventKind) : Registration σ → Prop
  | on event listener => ∀ s, Subscription.parse? event = some s → ∀ (m : Match) env,
      m.element.MayBecome (decide (s.kind ∈ kinds)) (listener m env).element
  | collect _ | preserve _ _ | data _ | atEnd _ | atError _ => True

theorem renamesOn_renamer {event name : String} {s : Subscription}
    {kinds : List EventKind} (hevent : Subscription.parse? event = some s) (hkind : s.kind ∈ kinds)
    (hname : isName name = true) :
    (Registration.on event (.renamer name) : Registration σ).RenamesOn kinds := by
  intro s' hs' m env
  rw [hevent] at hs'
  cases hs'
  exact .inr ⟨decide_eq_true hkind, name, hname, rfl⟩

variable {registrations : List (Registration σ)}

theorem exists_of_mem_forall₂ {α β : Type} {R : α → β → Prop} {xs : List α} {ys : List β}
    (h : List.Forall₂ R xs ys) {x : α} (hx : x ∈ xs) : ∃ y ∈ ys, R x y := by
  induction h with
  | nil => cases hx
  | @cons x' y' xs ys hfirst _ ih =>
    rcases List.mem_cons.1 hx with rfl | hx
    · exact ⟨y', by simp, hfirst⟩
    · obtain ⟨y, hy, hxy⟩ := ih hx
      exact ⟨y, by simp [hy], hxy⟩

/-! ### The kind of an effect -/

theorem told?_subscriptionEffects {kind : EventKind} {id id' : Nat} {occasion : Occasion}
    {effect : Effect} (h : (occasion, effect) ∈ Assembly.subscriptionEffects kind id)
    (hid : effect.told? = some id') : id' = id := by
  cases kind with
  | startElement | endElement | text =>
    simp only [Assembly.subscriptionEffects, List.mem_singleton, Prod.mk.injEq] at h
    rw [h.2] at hid
    exact (Option.some.inj hid).symm
  | updateElement =>
    simp only [Assembly.subscriptionEffects, List.mem_cons, List.not_mem_nil, or_false,
      Prod.mk.injEq] at h
    rcases h with ⟨-, rfl⟩ | ⟨-, rfl⟩
    · cases hid
    · exact (Option.some.inj hid).symm

/-- What tells of an event was requested by a subscription to it. -/
theorem exists_subscription_of_request {request : HookRequest Effect} {id : Nat}
    (h : request ∈ requests registrations) (hid : request.hook.told? = some id) :
    ∃ s, (subscriptions registrations)[id]? = some s ∧
      (request.occasion, request.hook) ∈ Assembly.subscriptionEffects s.kind id := by
  induction registrations using List.reverseRecOn with
  | nil => cases h
  | append_singleton registrations r ih =>
    rw [requests_concat, List.mem_append] at h
    rw [subscriptions_concat]
    have hold {s : Subscription} {more : List Subscription}
        (hs : (subscriptions registrations)[id]? = some s) :
        (subscriptions registrations ++ more)[id]? = some s := by
      rw [List.getElem?_append_left (List.getElem?_eq_some_iff.1 hs).1, hs]
    cases hr : r.subscription? with
    | none =>
      rcases h with h | h
      · exact ih h
      · rw [told?_requested hr request h] at hid
        cases hid
    | some t =>
      rw [requested_of_subscription hr] at h
      by_cases hknown : t ∈ subscriptions registrations
      · rw [if_pos hknown] at h
        simp only [if_pos hknown]
        exact ih (by simpa using h)
      · rw [if_neg hknown] at h
        simp only [if_neg hknown]
        rcases h with h | h
        · obtain ⟨s, hs, hkind⟩ := ih h
          exact ⟨s, hold hs, hkind⟩
        · obtain ⟨⟨occasion, effect⟩, heffect, rfl⟩ := List.mem_map.1 h
          have hlast := told?_subscriptionEffects heffect hid
          subst hlast
          exact ⟨t, by simp, heffect⟩

/-- An event is told on the occasion for its kind. -/
theorem occasion_of_told {kind : EventKind} {id id' : Nat} {occasion : Occasion} {effect : Effect}
    (h : (occasion, effect) ∈ Assembly.subscriptionEffects kind id)
    (hid : effect.told? = some id') : kind.occasion = occasion := by
  cases kind with
  | startElement | endElement | text =>
    simp only [Assembly.subscriptionEffects, List.mem_singleton, Prod.mk.injEq] at h
    exact h.1.symm
  | updateElement =>
    simp only [Assembly.subscriptionEffects, List.mem_cons, List.not_mem_nil, or_false,
      Prod.mk.injEq] at h
    rcases h with ⟨-, rfl⟩ | ⟨rfl, -⟩
    · cases hid
    · rfl

/-- What is due to tell of an event tells of a subscription, on the occasion for its kind. -/
theorem exists_subscription_of_due {m : Automaton Effect} {states : List (Selector × StateId)}
    (h : m.Serves states (requests registrations)) {occasion : Occasion} {path : List String}
    {effect : Effect} (he : effect ∈ m.dueAt occasion path) {id : Nat}
    (hid : effect.told? = some id) :
    ∃ s, (subscriptions registrations)[id]? = some s ∧
      (occasion, effect) ∈ Assembly.subscriptionEffects s.kind id := by
  obtain ⟨selector, -, he⟩ := (mem_dueAt h).1 he
  obtain ⟨request, hr, rfl⟩ := List.mem_map.1 he
  obtain ⟨hmem, hrequest⟩ := List.mem_filter.1 hr
  rw [← (of_decide_eq_true hrequest).1]
  exact exists_subscription_of_request hmem hid

end Registration

open Registration

namespace Assembly

variable {a : Assembly (Journal σ)} {frame : Frame} {chunk : Option String} {renames : Bool}

/-! ### Effects -/

/-- Those who are told of the event with the number `id` rename elements at most, or not even
that. -/
def Confined (a : Assembly (Journal σ)) (id : Nat) (renames : Bool) : Prop :=
  ∀ event listeners, a.listeners[id]? = some (event, listeners) →
    ∀ listener ∈ listeners, ∀ (m : Match) j, m.element.MayBecome renames (listener m j).element

theorem Confined.same {b : Assembly (Journal σ)} {id : Nat} (h : a.Confined id renames)
    (hs : SameSetting a b) : b.Confined id renames := by
  unfold Confined
  rw [hs.listeners]
  exact h

theorem Confined.mono {id : Nat} (h : a.Confined id renames) : a.Confined id true :=
  fun event listeners hget listener hl m j => (h event listeners hget listener hl m j).mono

theorem notify_becomes {id : Nat} (h : a.Confined id renames) (frame : Frame)
    (chunk : Option String) :
    frame.element.MayBecome renames (a.notify id frame chunk).2.element := by
  refine notify_upholds (P := fun e _ => frame.element.MayBecome renames e) ?_ (.refl _ _) chunk
  intro event listeners hget listener hl m j _ he
  exact he.trans (h event listeners hget listener hl m j)

theorem flush_becomes {id : Nat} (h : a.Confined id renames) (frame : Frame) :
    frame.element.MayBecome renames (a.flush frame id).2.element := by
  unfold flush
  split
  · exact notify_becomes h { frame with held := frame.held.erase id } none
  · exact .refl _ _

/-- An effect goes as far as those whom it tells. -/
theorem apply_becomes {effect : Effect}
    (h : ∀ id, effect.told? = some id → a.Confined id renames) :
    frame.element.MayBecome renames (apply chunk (a, frame) effect).2.element := by
  cases effect with
  | collect | preserve | release | hold =>
    rw [apply_quiet_element rfl]
    exact .refl _ _
  | flush id => exact flush_becomes (h id rfl) frame
  | notify id => exact notify_becomes (h id rfl) frame chunk

theorem applyAll_becomes {effects : List Effect}
    (h : ∀ effect ∈ effects, ∀ id, effect.told? = some id → a.Confined id renames) (frame : Frame)
    (chunk : Option String) :
    frame.element.MayBecome renames (a.applyAll frame chunk effects).2.element := by
  induction effects generalizing a frame with
  | nil => exact .refl _ _
  | cons effect effects ih =>
    have hsame := a.apply_same frame chunk effect
    exact (apply_becomes (h effect (by simp))).trans
      (ih (fun e he id hid => (h e (by simp [he]) id hid).same hsame) _)

/-- Whatever is due in `m` goes as far as the kinds of events allow in which elements may be
renamed. -/
def Lenient (a : Assembly (Journal σ)) (m : Automaton Effect) (kinds : List EventKind) : Prop :=
  ∀ occasion path, ∀ effect ∈ m.dueAt occasion path, ∀ id, effect.told? = some id →
    ∃ kind, (occasion, effect) ∈ subscriptionEffects kind id ∧
      a.Confined id (decide (kind ∈ kinds))

namespace Lenient

variable {m : Automaton Effect} {kinds : List EventKind} {effects : List Effect}
  {path : List String}

theorem congr {b : Assembly (Journal σ)} (h : a.Lenient m kinds) (hb : b.listeners = a.listeners) :
    b.Lenient m kinds := by
  intro occasion path effect he id hid
  obtain ⟨kind, hkind, hconfined⟩ := h occasion path effect he id hid
  refine ⟨kind, hkind, ?_⟩
  unfold Confined
  rw [hb]
  exact hconfined

/-- Whoever is told renames elements at most. -/
theorem confined (h : a.Lenient m kinds) {occasion : Occasion} {effect : Effect} {id : Nat}
    (he : effect ∈ m.dueAt occasion path) (hid : effect.told? = some id) : a.Confined id true := by
  obtain ⟨kind, -, hconfined⟩ := h occasion path effect he id hid
  exact hconfined.mono

/-- An element stays as it is on an occasion on which no listener may rename it. -/
theorem element_eq (h : a.Lenient m kinds) {occasion : Occasion}
    (hkinds : ∀ kind ∈ kinds, kind.occasion ≠ occasion) (path : List String) (frame : Frame)
    (chunk : Option String) :
    (a.applyAll frame chunk (m.dueAt occasion path)).2.element = frame.element := by
  have hbecomes : frame.element.MayBecome false
      (a.applyAll frame chunk (m.dueAt occasion path)).2.element := by
    refine applyAll_becomes (fun effect he id hid => ?_) frame chunk
    obtain ⟨kind, hkind, hconfined⟩ := h occasion path effect he id hid
    have hoccasion := occasion_of_told hkind hid
    rwa [decide_eq_false fun hmem => hkinds kind hmem hoccasion] at hconfined
  exact hbecomes.eq

theorem finish (h : a.Lenient m kinds) {id : Nat} (hid : .notify id ∈ m.dueAt .leave path) :
    a.Confined id (decide (.endElement ∈ kinds)) := by
  obtain ⟨kind, hkind, hconfined⟩ := h .leave path _ hid id rfl
  cases kind <;> simp_all [subscriptionEffects]

theorem update (h : a.Lenient m kinds) {id : Nat} (hid : .flush id ∈ m.dueAt .leave path) :
    a.Confined id (decide (.updateElement ∈ kinds)) := by
  obtain ⟨kind, hkind, hconfined⟩ := h .leave path _ hid id rfl
  cases kind <;> simp_all [subscriptionEffects]

end Lenient

end Assembly

namespace Stream

variable {registrations : List (Registration σ)}

/-- The listeners for a subscription of a stream that was set up are those that were registered. -/
theorem exists_journaled_listeners (env : σ) {id : Nat} {s : Subscription}
    (h : (subscriptions registrations)[id]? = some s) :
    ∃ told, (journaled env registrations).assembly.listeners[id]? = some (s.name, told) ∧
      List.Forall₂ (Logs registrations s) told (listenerIds registrations s) := by
  refine ⟨_, ?_, listeners_logged registrations s⟩
  rw [(journaled_setUp env registrations).listeners, Entries.table, List.getElem?_map,
    subscriptions_loggedAll, h]
  rfl

/-- The listeners of a stream that was set up are those that were registered. -/
theorem journaled_listeners (env : σ) {id : Nat} {event : String}
    {told : List (Listener (Journal σ))}
    (h : (journaled env registrations).assembly.listeners[id]? = some (event, told)) :
    ∃ s, (subscriptions registrations)[id]? = some s ∧ event = s.name ∧
      List.Forall₂ (Logs registrations s) told (listenerIds registrations s) := by
  have hlength : id < (subscriptions registrations).length := by
    have hid := (List.getElem?_eq_some_iff.1 h).1
    rwa [(journaled_setUp env registrations).listeners, Entries.table, List.length_map,
      subscriptions_loggedAll] at hid
  have hs := List.getElem?_eq_getElem hlength
  obtain ⟨told', htold, hlogged⟩ := exists_journaled_listeners env hs
  cases h.symm.trans htold
  exact ⟨_, hs, rfl, hlogged⟩

/-- Listeners of a stream that was set up go as far as the kinds of events allow. -/
theorem journaled_lenient (env : σ) {kinds : List EventKind}
    (h : ∀ r ∈ registrations, r.RenamesOn kinds) :
    (journaled env registrations).assembly.Lenient (journaled env registrations).assembly.automaton
      kinds := by
  obtain ⟨states, hserves, -⟩ := journaled_serves env registrations
  intro occasion path effect he id hid
  obtain ⟨s, hs, hkind⟩ := exists_subscription_of_due hserves he hid
  refine ⟨s.kind, hkind, fun event told hget listener hl m j => ?_⟩
  obtain ⟨s', hs', -, hlogged⟩ := journaled_listeners env hget
  cases hs.symm.trans hs'
  obtain ⟨i, -, event', inner, hr, hparse, rfl⟩ := exists_of_mem_forall₂ hlogged hl
  exact h _ (List.mem_of_getElem? hr) s hparse m j.env

end Stream

end XmlSieve
