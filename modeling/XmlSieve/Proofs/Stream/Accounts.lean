import XmlSieve.Proofs.Stream.Disclosure
import XmlSieve.Proofs.Stream.Output

/-!
# Accounts of updates

What is written of an element that is updated depends on what the listeners made of it.  A listener
for updates can be made to give an `Account` of this, whatever else it does: `accountedAll` does so
for all registrations, under their numbers, and `run_accounted` says that nothing else that calls come
to is changed by it.  `Registration.updaters` lists who is told of the update of an element, which are
those that subscribed to updates of what matches it (`mem_updaters`), and `applyAll_accounted` says
that these give their accounts when the element ends, and that it is left as the last of them says.
-/

namespace XmlSieve

variable {σ : Type}

/-- How a listener left the element that it was told of, with the number of its registration. -/
structure Account where
  id : Nat
  left : Element

/-- What listeners share, and all accounts of updates that they gave so far. -/
structure Ledger (σ : Type) where
  env : σ
  accounts : List Account := []

/-- The listener that does what `listener` does, and gives an account of it if it is one for updates.
-/
def Ledger.listen (updates : Bool) (id : Nat) (listener : Listener σ) : Listener (Ledger σ) :=
  fun m ledger =>
    let r := listener m ledger.env
    { element := r.element
      pause := r.pause
      env := {
        env := r.env
        accounts := ledger.accounts ++ if updates then [⟨id, r.element⟩] else [] } }

namespace Account

/-- An element that listeners were told of one after the other, as their accounts leave it. -/
def leave (e : Element) (accounts : List Account) : Element :=
  accounts.foldl (fun _ account => account.left) e

theorem leave_append (e : Element) (accounts more : List Account) :
    leave e (accounts ++ more) = leave (leave e accounts) more := List.foldl_append

end Account

namespace Registration

/-- Whether it is a subscription to updates. -/
def updates (r : Registration σ) : Bool := r.subscription?.any (·.kind = .updateElement)

/-- The registration with the number `id`, with a listener that gives accounts of updates. -/
def accounted (id : Nat) : Registration σ → Registration (Ledger σ)
  | on event listener => on event (Ledger.listen (updates (on event listener)) id listener)
  | collect selector => collect selector
  | preserve selector whitespace => preserve selector whitespace
  | data sink => data fun fragment ledger => { ledger with env := sink fragment ledger.env }
  | atEnd listener => atEnd fun ledger => { ledger with env := listener ledger.env }
  | atError listener => atError fun e ledger => { ledger with env := listener e ledger.env }

/-- Registrations whose listeners give accounts of updates, under the numbers from zero on. -/
def accountedAll (registrations : List (Registration σ)) : List (Registration (Ledger σ)) :=
  registrations.zipIdx.map fun (r, id) => r.accounted id

/-- Who is told of the update of the element at `path`, in the order in which they are. -/
def updaters (registrations : List (Registration σ)) (path : List String) : List Nat :=
  ((audience registrations .leave path).filter fun (_, s) => s.kind = .updateElement).map (·.1)

variable {registrations : List (Registration σ)}

/-- An element is updated by the listeners that subscribed to updates of what matches its path. -/
theorem mem_updaters {id : Nat} {path : List String} :
    id ∈ updaters registrations path ↔ ∃ s, registrations[id]?.bind subscription? = some s ∧
      s.kind = .updateElement ∧ s.selector.Matches path := by
  simp only [updaters, List.mem_map, List.mem_filter, decide_eq_true_eq, Prod.exists, mem_audience]
  constructor
  · rintro ⟨_, s, ⟨⟨hs, -, hmatch⟩, hkind⟩, rfl⟩
    exact ⟨s, hs, hkind, hmatch⟩
  · rintro ⟨s, hs, hkind, hmatch⟩
    exact ⟨id, s, ⟨⟨hs, by rw [hkind]; rfl, hmatch⟩, hkind⟩, rfl⟩

/-- The numbers of the listeners that are told of the event with the number `event`. -/
def roll (registrations : List (Registration σ)) (event : Nat) : List Nat :=
  ((subscriptions registrations)[event]?.map (listenerIds registrations)).getD []

theorem roll_eq {event : Nat} {s : Subscription} (h : (subscriptions registrations)[event]? = some s) :
    roll registrations event = listenerIds registrations s := by
  rw [roll, h]
  rfl

/-- Somebody is told of every event that is subscribed to. -/
theorem roll_ne_nil {event : Nat} {s : Subscription}
    (h : (subscriptions registrations)[event]? = some s) : roll registrations event ≠ [] := by
  obtain ⟨r, hr, hs⟩ := List.mem_filterMap.1 (List.mem_eraseDups.1 (List.mem_of_getElem? h))
  obtain ⟨id, hid⟩ := List.getElem?_of_mem hr
  rw [roll_eq h]
  exact List.ne_nil_of_mem (mem_listenerIds.2 (Option.bind_eq_some_iff.2 ⟨r, hid, hs⟩))

/-- Who is told of the updates that are due when an element ends. -/
theorem flatMap_roll {m : Automaton Effect} {states : List (Selector × StateId)}
    (h : m.Serves states (requests registrations))
    (hselectors : states.map (·.1) = selectors registrations) (path : List String) :
    ((m.dueAt .leave path).filterMap Effect.flush?).flatMap (roll registrations) =
      updaters registrations path := by
  rw [Automaton.dueAt, h.fire_after, hselectors, List.filterMap_flatMap, List.flatMap_assoc,
    updaters, audience, List.filter_flatMap, List.map_flatMap]
  refine List.flatMap_congr fun selector _ => ?_
  have hroll := flatMap_places (f := roll registrations) (g := listenerIds registrations)
    (fun s => s.selector = selector ∧ s.kind = .updateElement)
    fun _ _ hs => roll_eq (List.mem_zipIdx_iff_getElem?.1 hs)
  have hpick (s : Subscription) :
      (((listenerIds registrations s).map (·, s)).filter fun (_, s) =>
          s.kind = .updateElement).map (·.1) =
        if s.kind = .updateElement then listenerIds registrations s else [] := by
    rw [List.filter_map, List.map_map]
    by_cases hkind : s.kind = .updateElement <;> simp [hkind, Function.comp_def]
  rw [flush_hooksFor, hroll, List.filter_flatMap, List.map_flatMap]
  simp only [hpick]
  -- Those to updates are picked out of the subscriptions before the others are, or after.
  clear hroll
  induction subscriptions registrations with
  | nil => rfl
  | cons s rest ih =>
    by_cases hselector : s.selector = selector <;> cases hkind : s.kind <;>
      simp_all [EventKind.occasion]

/-! ### Registrations that are accounted for -/

theorem subscription?_accounted (r : Registration σ) (id : Nat) :
    (r.accounted id).subscription? = r.subscription? := by
  cases r <;> rfl

theorem getElem?_accountedAll (registrations : List (Registration σ)) (id : Nat) :
    (accountedAll registrations)[id]? = registrations[id]?.map (·.accounted id) := by
  rw [accountedAll, List.getElem?_map, List.getElem?_zipIdx, Option.map_map, Nat.zero_add]
  rfl

theorem subscriptions_accountedAll (registrations : List (Registration σ)) :
    subscriptions (accountedAll registrations) = subscriptions registrations := by
  rw [subscriptions, accountedAll, List.filterMap_map]
  exact congrArg List.eraseDups (filterMap_zipIdx subscription?_accounted registrations)

theorem selectors_accountedAll (registrations : List (Registration σ)) :
    selectors (accountedAll registrations) = selectors registrations := by
  rw [selectors, accountedAll, List.filterMap_map]
  exact congrArg List.eraseDups (filterMap_zipIdx (fun r id => by cases r <;> rfl) registrations)

theorem zipIdx_accountedAll (registrations : List (Registration σ)) :
    (accountedAll registrations).zipIdx =
      registrations.zipIdx.map fun (r, id) => (r.accounted id, id) := by
  refine List.ext_getElem? fun i => ?_
  rw [List.getElem?_zipIdx, getElem?_accountedAll, List.getElem?_map, List.getElem?_zipIdx]
  cases registrations[i]? <;> simp

theorem listenerIds_accountedAll (registrations : List (Registration σ)) (s : Subscription) :
    listenerIds (accountedAll registrations) s = listenerIds registrations s := by
  rw [listenerIds, zipIdx_accountedAll, List.filter_map, List.map_map]
  simp only [Function.comp_def, subscription?_accounted]
  rfl

theorem updaters_accountedAll (registrations : List (Registration σ)) (path : List String) :
    updaters (accountedAll registrations) path = updaters registrations path := by
  simp only [updaters, audience, subscriptions_accountedAll, selectors_accountedAll,
    listenerIds_accountedAll]

end Registration

/-! ### Giving accounts -/

/-- All accounts that were given. -/
def Journal.accounts (j : Journal (Ledger σ)) : List Account := j.env.accounts

/-- The journal without the accounts. -/
def Journal.withoutAccounts (j : Journal (Ledger σ)) : Journal σ := ⟨j.env.env, j.notices⟩

/-- Apart from its accounts a registration does as before. -/
theorem Registration.accounted_shows (r : Registration σ) (id id' : Nat) :
    ((r.accounted id).logged id').Shows (.through Journal.withoutAccounts) (r.logged id') := by
  cases r with
  | on event listener => exact .on event fun _ _ => rfl
  | collect selector => exact .collect selector
  | preserve selector whitespace => exact .preserve selector whitespace
  | data sink => exact .data fun _ _ => rfl
  | atEnd listener => exact .atEnd fun _ => rfl
  | atError listener => exact .atError fun _ _ => rfl

namespace Listener

/-- A listener that gives an account of what it does under the number `id`. -/
def AccountsAs (listener : Listener (Journal (Ledger σ))) (id : Nat) : Prop :=
  ∀ m j, (listener m j).env.accounts = j.accounts ++ [⟨id, (listener m j).element⟩]

/-- A listener that does nothing there is to account for. -/
def Mute (listener : Listener (Journal (Ledger σ))) : Prop :=
  ∀ m j, (listener m j).element = m.element ∧ (listener m j).env.accounts = j.accounts

end Listener

theorem tellAll_accounts {listeners : List (Listener (Journal (Ledger σ)))} {ids : List Nat}
    (h : List.Forall₂ Listener.AccountsAs listeners ids) (m : Match) (j : Journal (Ledger σ)) :
    ∃ accounts, (Listener.tellAll listeners m j).env.accounts = j.accounts ++ accounts ∧
      accounts.map (·.id) = ids ∧
      (Listener.tellAll listeners m j).element = Account.leave m.element accounts := by
  refine Listener.tellAll_induction
    (P := fun told e env => ∃ accounts, env.accounts = j.accounts ++ accounts ∧
      accounts.map (·.id) = told ∧ e = Account.leave m.element accounts)
    h m j ⟨[], (List.append_nil _).symm, rfl, rfl⟩ ?_
  rintro told listener id e env hlistener ⟨accounts, haccounts, rfl, rfl⟩
  let last : Account :=
    ⟨id, (listener { m with element := Account.leave m.element accounts } env).element⟩
  refine ⟨accounts ++ [last], ?_, List.map_append, ?_⟩
  · rw [hlistener, haccounts, List.append_assoc]
  · rw [Account.leave_append]
    rfl

namespace Assembly

variable {a b : Assembly (Journal (Ledger σ))} {frame : Frame} {chunk : Option String}
  {m : Automaton Effect} {roll : Nat → List Nat}

/-- Listeners for updates give accounts, under the numbers on the roll of the update; other listeners
and sinks do nothing there is to account for. -/
structure Audited (a : Assembly (Journal (Ledger σ))) (m : Automaton Effect)
    (roll : Nat → List Nat) : Prop where
  notify : ∀ {occasion path id}, .notify id ∈ m.dueAt occasion path →
    ∀ event listeners, a.listeners[id]? = some (event, listeners) →
      ∀ listener ∈ listeners, listener.Mute
  flush : ∀ {occasion path id}, .flush id ∈ m.dueAt occasion path → roll id ≠ [] ∧
    ∃ event listeners, a.listeners[id]? = some (event, listeners) ∧
      List.Forall₂ Listener.AccountsAs listeners (roll id)
  sinks : ∀ sink ∈ a.sinks, ∀ fragment j, (sink fragment j).accounts = j.accounts

theorem Audited.congr (h : a.Audited m roll) (hlisteners : b.listeners = a.listeners)
    (hsinks : b.sinks = a.sinks) : b.Audited m roll := by
  refine ⟨?_, ?_, ?_⟩
  · rw [hlisteners]
    exact h.notify
  · rw [hlisteners]
    exact h.flush
  · rw [hsinks]
    exact h.sinks

/-- Listeners that are told of no update leave elements as they are. -/
theorem Audited.confined (h : a.Audited m roll) {occasion : Occasion} {path : List String} {id : Nat}
    (hid : .notify id ∈ m.dueAt occasion path) : a.Confined id false :=
  fun event listeners hget listener hl t j => .inl (h.notify hid event listeners hget listener hl t j).1

theorem foldl_accounts {α : Type} {f : Journal (Ledger σ) → α → Journal (Ledger σ)} {xs : List α}
    (h : ∀ x ∈ xs, ∀ j, (f j x).accounts = j.accounts) (j : Journal (Ledger σ)) :
    (xs.foldl f j).accounts = j.accounts := by
  induction xs generalizing j with
  | nil => rfl
  | cons x xs ih =>
    rw [List.foldl_cons, ih (fun x hx => h x (by simp [hx])), h x (by simp)]

theorem emit_accounts (h : a.Audited m roll) (fragment : String) :
    (a.emit fragment).env.accounts = a.env.accounts :=
  emit_shows h.sinks fragment

/-- What comes of effects in an element: accounts are given under these numbers, and the element is
as they leave it. -/
def Accounted (a : Assembly (Journal (Ledger σ))) (frame : Frame) (ids : List Nat)
    (r : Assembly (Journal (Ledger σ)) × Frame) : Prop :=
  ∃ accounts, r.1.env.accounts = a.env.accounts ++ accounts ∧ accounts.map (·.id) = ids ∧
    r.2.element = Account.leave frame.element accounts

namespace Accounted

variable {ids ids' : List Nat} {r r' : Assembly (Journal (Ledger σ)) × Frame}

theorem silent (haccounts : r.1.env.accounts = a.env.accounts)
    (helement : r.2.element = frame.element) : Accounted a frame [] r :=
  ⟨[], by rw [haccounts, List.append_nil], rfl, helement⟩

theorem trans (h : Accounted a frame ids r) (h' : Accounted r.1 r.2 ids' r') :
    Accounted a frame (ids ++ ids') r' := by
  obtain ⟨accounts, hgiven, rfl, helement⟩ := h
  obtain ⟨accounts', hgiven', rfl, helement'⟩ := h'
  refine ⟨accounts ++ accounts', ?_, List.map_append, ?_⟩
  · rw [hgiven', hgiven, List.append_assoc]
  · rw [helement', helement, Account.leave_append]

end Accounted

theorem notify_accounted (h : a.Audited m roll) {occasion : Occasion} {path : List String} {id : Nat}
    (hid : .notify id ∈ m.dueAt occasion path) (frame : Frame) (chunk : Option String) :
    Accounted a frame [] (a.notify id frame chunk) := by
  have hkept : (a.notify id frame chunk).2.element = frame.element ∧
      (a.notify id frame chunk).1.env.accounts = a.env.accounts := by
    refine notify_upholds (P := fun e j => e = frame.element ∧ Journal.accounts j = a.env.accounts)
      ?_ ⟨rfl, rfl⟩ chunk
    rintro event listeners hget listener hl m j - ⟨helement, haccounts⟩
    obtain ⟨hsame, hmute⟩ := h.notify hid event listeners hget listener hl m j
    exact ⟨hsame.trans helement, hmute.trans haccounts⟩
  exact .silent hkept.2 hkept.1

theorem flush_accounted (h : a.Audited m roll) {occasion : Occasion} {path : List String} {id : Nat}
    (hid : .flush id ∈ m.dueAt occasion path) (hheld : id ∈ frame.held) :
    Accounted a frame (roll id) (a.flush frame id) := by
  obtain ⟨-, event, listeners, hget, hlisteners⟩ := h.flush hid
  have htold : Accounted a frame (roll id)
      (a.notify id { frame with held := frame.held.erase id } none) := by
    unfold notify
    rw [hget]
    exact tellAll_accounts hlisteners _ _
  have hsame := a.notify_same id { frame with held := frame.held.erase id } none
  unfold flush
  rw [if_pos (List.contains_iff_mem.2 hheld)]
  generalize a.notify id { frame with held := frame.held.erase id } none = told at htold hsame ⊢
  have haudited : Audited { told.1 with holding := told.1.holding - 1 } m roll :=
    h.congr hsame.listeners hsame.sinks
  obtain ⟨accounts, hgiven, hids, helement⟩ := htold
  exact ⟨accounts, (emit_accounts haudited _).trans hgiven, hids, helement⟩

/-- Effects that flush only what is held give the accounts of the updates that they flush. -/
theorem applyAll_accounted {effects : List Effect} {kept : List Nat} (h : a.Audited m roll)
    (hdue : ∀ effect ∈ effects, ∃ occasion path, effect ∈ m.dueAt occasion path)
    (hheld : frame.held.Perm (effects.filterMap Effect.flush? ++ kept)) (chunk : Option String) :
    Accounted a frame ((effects.filterMap Effect.flush?).flatMap roll)
      (a.applyAll frame chunk effects) := by
  induction effects generalizing a frame kept with
  | nil => exact .silent rfl rfl
  | cons effect effects ih =>
    obtain ⟨occasion, path, he⟩ := hdue effect (by simp)
    have hfirst : Accounted a frame (effect.flush?.toList.flatMap roll)
        (apply chunk (a, frame) effect) := by
      cases effect with
      | collect | preserve | release | hold =>
        exact .silent (congrArg Journal.accounts (apply_quiet_env rfl)) (apply_quiet_element rfl)
      | flush id =>
        have hroll : (Effect.flush id).flush?.toList.flatMap roll = roll id := List.append_nil _
        rw [hroll]
        exact flush_accounted h he (mem_held_of_flush hheld)
      | notify id => exact notify_accounted h he frame chunk
    have hsame := a.apply_same frame chunk effect
    have hnext := apply_held_perm a chunk hheld
    have hrest := ih (h.congr hsame.listeners hsame.sinks) (fun e he => hdue e (by simp [he])) hnext
    have hids : ((effect :: effects).filterMap Effect.flush?).flatMap roll =
        effect.flush?.toList.flatMap roll ++ (effects.filterMap Effect.flush?).flatMap roll := by
      rw [← List.flatMap_append, List.filterMap_cons]
      cases effect.flush? <;> rfl
    rw [hids]
    exact hfirst.trans hrest

/-- Effects that flush nothing give no accounts, and leave the element as it is. -/
theorem applyAll_unaccounted {effects : List Effect} (frame : Frame) (h : a.Audited m roll)
    (hdue : ∀ effect ∈ effects, ∃ occasion path, effect ∈ m.dueAt occasion path)
    (hnone : effects.filterMap Effect.flush? = []) (chunk : Option String) :
    (a.applyAll frame chunk effects).1.env.accounts = a.env.accounts ∧
      (a.applyAll frame chunk effects).2.element = frame.element := by
  have hheld : frame.held.Perm (effects.filterMap Effect.flush? ++ frame.held) := by
    rw [hnone]
    exact .refl _
  obtain ⟨accounts, hgiven, hids, helement⟩ := applyAll_accounted h hdue hheld chunk
  rw [hnone] at hids
  obtain rfl : accounts = [] := List.map_eq_nil_iff.1 hids
  exact ⟨hgiven.trans (List.append_nil _), helement⟩

end Assembly

open Registration

namespace Stream

variable {registrations : List (Registration σ)}

/-- Giving accounts changes nothing else that calls come to. -/
theorem run_accounted (env : Ledger σ) {calls : List Call} {verdicts : List Verdict}
    {t : Stream (Journal (Ledger σ))}
    (hrun : (journaled env (accountedAll registrations)).run calls = .ok (verdicts, t)) :
    ∃ s, (journaled env.env registrations).run calls = .ok (verdicts, s) ∧ s.phase = t.phase ∧
      s.env = t.env.withoutAccounts := by
  refine run_registered (f := Journal.withoutAccounts) { env } ?_ hrun
  rw [loggedAll, loggedAll, zipIdx_accountedAll, List.map_map, List.forall₂_map_left_iff,
    List.forall₂_map_right_iff]
  exact List.forall₂_same.2 fun entry _ => accounted_shows entry.1 entry.2 entry.2

/-- A listener of a stream that gives accounts is one that was registered. -/
theorem listener_of_accounted {id : Nat} {event : String} {told : Listener (Ledger σ)}
    {s : Subscription} (hget : (accountedAll registrations)[id]? = some (.on event told))
    (hparse : Subscription.parse? event = some s) :
    ∃ listener, registrations[id]? = some (.on event listener) ∧
      told = Ledger.listen (decide (s.kind = .updateElement)) id listener := by
  rw [getElem?_accountedAll, Option.map_eq_some_iff] at hget
  obtain ⟨r, hr, heq⟩ := hget
  cases r with
  | on event' listener =>
    cases heq
    have hupdates : (Registration.on event listener).updates =
        decide (s.kind = .updateElement) := by
      rw [updates, show (Registration.on event listener).subscription? = some s from hparse]
      rfl
    exact ⟨listener, hr, by rw [hupdates]⟩
  | collect | preserve | data | atEnd | atError => cases heq

theorem exists_of_mem_loggedAll {logged : Registration (Journal (Ledger σ))}
    (h : logged ∈ loggedAll (accountedAll registrations).zipIdx) :
    ∃ (r : Registration σ) (id id' : Nat), logged = (r.accounted id).logged id' := by
  obtain ⟨⟨accounted, id'⟩, hmem, rfl⟩ := List.mem_map.1 h
  obtain ⟨⟨r, id⟩, -, rfl⟩ := List.mem_map.1 (List.fst_mem_of_mem_zipIdx hmem)
  exact ⟨r, id, id', rfl⟩

theorem journaled_audited (env : Ledger σ)
    (h : ∀ r ∈ registrations, r.updates = true ∨ r.Still) :
    (journaled env (accountedAll registrations)).assembly.Audited
      (journaled env (accountedAll registrations)).assembly.automaton
      (roll (accountedAll registrations)) := by
  obtain ⟨states, hserves, -⟩ := journaled_serves env (accountedAll registrations)
  refine ⟨?_, ?_, ?_⟩
  · intro occasion path event hevent name told hget listener hl
    obtain ⟨s, hs, hkind⟩ := exists_subscription_of_due hserves hevent rfl
    obtain ⟨s', hs', -, hlogged⟩ := journaled_listeners env hget
    cases hs.symm.trans hs'
    obtain ⟨id, -, event', inner, hr, hparse, rfl⟩ := exists_of_mem_forall₂ hlogged hl
    obtain ⟨listener, hregistered, rfl⟩ := listener_of_accounted hr hparse
    have hnone : s.kind ≠ .updateElement := fun hk => by
      simp [hk, Assembly.subscriptionEffects] at hkind
    have hstill : (Registration.on event' listener).Still := by
      refine (h _ (List.mem_of_getElem? hregistered)).resolve_left fun hupdates => ?_
      rw [updates, show (Registration.on event' listener).subscription? = some s from hparse]
        at hupdates
      exact hnone (of_decide_eq_true hupdates)
    refine fun m j => ⟨hstill m j.env.env, ?_⟩
    simp [Journal.listen, Journal.add, Journal.accounts, Ledger.listen, hnone]
  · intro occasion path event hevent
    obtain ⟨s, hs, hkind⟩ := exists_subscription_of_due hserves hevent rfl
    have hupdate : s.kind = .updateElement := by
      cases hk : s.kind with
      | updateElement => rfl
      | startElement | endElement | text => simp [hk, Assembly.subscriptionEffects] at hkind
    obtain ⟨told, hget, hlogged⟩ := exists_journaled_listeners env hs
    refine ⟨roll_ne_nil hs, s.name, told, hget, ?_⟩
    rw [roll_eq hs]
    refine hlogged.imp ?_
    rintro listener id ⟨event', inner, hr, hparse, rfl⟩
    obtain ⟨listener, -, rfl⟩ := listener_of_accounted hr hparse
    intro m j
    simp [Journal.listen, Journal.add, Journal.accounts, Ledger.listen, hupdate]
  · intro sink hsink fragment j
    rw [journaled, (registered_output _ _).1] at hsink
    obtain ⟨r, hr, hsink⟩ := List.mem_filterMap.1 hsink
    obtain ⟨r, id, id', rfl⟩ := exists_of_mem_loggedAll hr
    cases r with
    | data sink =>
      cases hsink
      rfl
    | on | collect | preserve | atEnd | atError => cases hsink

/-- When a stream has ended, its output and the accounts are those that came of the tokens of the
document. -/
theorem exists_accounts_of_ended {env : Ledger σ} {calls : List Call} {verdicts : List Verdict}
    {u : Stream (Journal (Ledger σ))}
    (hrun : (journaled env (accountedAll registrations)).run calls = .ok (verdicts, u))
    (hu : u.phase = .ended) (id : Nat) :
    ∃ b, (journaled env (accountedAll registrations)).assembly.acceptAll
        (Document.transcript (Call.input calls)).tokens = .ok b ∧
      u.env.written id = b.env.written id ∧ u.env.accounts = b.env.accounts := by
  obtain ⟨b, hb, henv⟩ := exists_acceptAll_of_ended hrun hu
  refine ⟨b, hb, ?_, ?_⟩
  · rw [henv, journaled, (registered_output _ _).2.1, foldl_endings_written]
  · rw [henv]
    refine Assembly.foldl_accounts (fun listener hl j => ?_) b.env
    rw [journaled, (registered_output _ _).2.1] at hl
    obtain ⟨r, hr, hlistener⟩ := List.mem_filterMap.1 hl
    obtain ⟨r, id, id', rfl⟩ := exists_of_mem_loggedAll hr
    cases r with
    | atEnd listener =>
      cases hlistener
      rfl
    | on | collect | preserve | data | atError => cases hlistener

end Stream

end XmlSieve
