import XmlSieve.Proofs.Stream.Latecomers
import XmlSieve.Proofs.Stream.Rooted

/-!
# Registries

The automaton keeps the state of a selector under its canonical form, and the assembly keeps the
listeners of a subscription under its canonical name.  However a selector or an event is spelled, it
is found under its own form and no other (`Assembly.Discerns`): what is registered for one selector
or one subscription is kept together, and apart from everything else (`Subscription.names_sound`).
-/

namespace XmlSieve

variable {σ : Type}

namespace Selector

/-- Selectors are told apart by their canonical forms. -/
theorem canonical_iff (s t : String) :
    (parse s).canonical = (parse t).canonical ↔ (parse s).parts = (parse t).parts := by
  constructor
  · intro h
    rw [canonical_injective (parse_proper s) (parse_proper t) h]
  · intro h
    rw [canonical, canonical, h]

theorem parse_eq_iff {s t : String} : parse s = parse t ↔ (parse s).parts = (parse t).parts :=
  ⟨congrArg parts, fun h => congrArg mk h⟩

end Selector

namespace Subscription

variable {e f : String} {s t : Subscription}

/-- Subscriptions are told apart by their names. -/
theorem name_iff (hs : parse? e = some s) (ht : parse? f = some t) :
    s.name = t.name ↔ s.kind = t.kind ∧ s.selector.parts = t.selector.parts := by
  constructor
  · intro h
    rw [name_injective (parse?_proper hs) (parse?_proper ht) h]
    exact ⟨rfl, rfl⟩
  · obtain ⟨kind, parts⟩ := s
    obtain ⟨kind', parts'⟩ := t
    rintro ⟨rfl, h⟩
    rw [show parts = parts' from congrArg Selector.mk h]

end Subscription

namespace Automaton.Serves

variable {η : Type} {m : Automaton η} {states : List (Selector × StateId)}
  {requests : List (HookRequest η)} {s t : Selector} {state state' : StateId}

theorem finalState?_iff (h : m.Serves states requests) (hs : s.Proper) :
    m.finalState? s.canonical = some state ↔ (s, state) ∈ states := by
  rw [h.finalState?_eq hs]
  constructor
  · intro hlookup
    obtain ⟨before, after, rfl, -⟩ := List.lookup_eq_some_iff.1 hlookup
    simp
  · intro hmem
    cases hlookup : states.lookup s with
    | none =>
      have hne := List.lookup_eq_none_iff.1 hlookup _ hmem
      simp at hne
    | some other =>
      obtain ⟨before, after, heq, -⟩ := List.lookup_eq_some_iff.1 hlookup
      have hother : (s, other) ∈ states := by simp [heq]
      rw [h.state_unique hmem hother]

/-- One state stands for two selectors exactly if they are the same. -/
theorem state_iff (h : m.Serves states requests) (hs : (s, state) ∈ states)
    (ht : (t, state') ∈ states) : state = state' ↔ s = t := by
  constructor
  · rintro rfl
    exact h.selector_unique ht hs
  · rintro rfl
    exact h.state_unique hs ht

/-- Another selector that is compiled gets the same state exactly if it is the same. -/
theorem compile_iff (h : m.Serves states requests) (hs : s.Proper) (ht : t.Proper) :
    ((m.compile s).2.compile t).1 = (m.compile s).1 ↔ t = s := by
  obtain ⟨states', h', hmem, -⟩ := h.compile hs
  generalize m.compile s = r at h' hmem ⊢
  unfold Automaton.compile
  cases hfinal : r.2.finalState? t.canonical with
  | some state => exact h'.state_iff ((h'.finalState?_iff ht).1 hfinal) hmem
  | none =>
    have hnew : t ∉ states'.map (·.1) := by
      intro hold
      obtain ⟨⟨_, state⟩, hstate, rfl⟩ := List.mem_map.1 hold
      rw [(h'.finalState?_iff ht).2 hstate] at hfinal
      cases hfinal
    exact (h'.addSelector ht hnew).state_iff (by simp) (by simp [hmem])

end Automaton.Serves

namespace Assembly

open Selector

variable {a : Assembly σ} {registered : List (Registration σ)}

/-- What was registered is found by what it is, not by how it was spelled. -/
structure Discerns (a : Assembly σ) (registered : List (Registration σ)) : Prop where
  /-- There is a state for each selector that was registered. -/
  known : ∀ x, (∃ state, a.automaton.finalState? (parse x).canonical = some state) ↔
    ∃ r ∈ registered, r.selector? = some (parse x)
  /-- A state stands for one selector, and a selector has one state. -/
  states : ∀ x y state state', a.automaton.finalState? (parse x).canonical = some state →
    a.automaton.finalState? (parse y).canonical = some state' →
    (state = state' ↔ (parse x).parts = (parse y).parts)
  /-- So it is with selectors that are compiled next. -/
  compiled : ∀ x y,
    (((a.automaton.compile (parse x)).2.compile (parse y)).1 = (a.automaton.compile (parse x)).1 ↔
      (parse y).parts = (parse x).parts)
  /-- A subscription has one entry. -/
  entries : a.listeners.names.Nodup
  /-- Its entry holds the listeners that were registered for it, however the event was spelled. -/
  listeners : ∀ e s, Subscription.parse? e = some s →
    (Entries.get? s.name a.listeners).getD [] = Registration.listeners registered s

theorem SetUp.discerns (h : a.SetUp registered) : a.Discerns registered := by
  obtain ⟨⟨states, hserves, hselectors⟩, hlisteners, -⟩ := h
  refine ⟨fun x => ?_, fun x y state state' hx hy => ?_, fun x y => ?_, ?_, fun e s hs => ?_⟩
  · have hknown : parse x ∈ states.map (·.1) ↔ ∃ r ∈ registered, r.selector? = some (parse x) := by
      rw [hselectors, Registration.selectors, List.mem_eraseDups, List.mem_filterMap]
    rw [← hknown, List.mem_map]
    constructor
    · rintro ⟨state, hstate⟩
      exact ⟨_, (hserves.finalState?_iff (parse_proper x)).1 hstate, rfl⟩
    · rintro ⟨⟨s, state⟩, hmem, rfl⟩
      exact ⟨state, (hserves.finalState?_iff (parse_proper x)).2 hmem⟩
  · rw [← parse_eq_iff]
    exact hserves.state_iff ((hserves.finalState?_iff (parse_proper x)).1 hx)
      ((hserves.finalState?_iff (parse_proper y)).1 hy)
  · rw [← parse_eq_iff]
    exact hserves.compile_iff (parse_proper x) (parse_proper y)
  · rw [hlisteners, Entries.names_table]
    refine List.Nodup.map_on (fun s hs t ht hname => ?_) (nodup_eraseDups _)
    exact Registration.name_inj (Registration.subscription_proper ht) hs hname
  · have hproper := Subscription.parse?_proper hs
    rw [hlisteners, Entries.get?_table fun t ht hn => Registration.name_inj hproper ht hn]
    split
    · rfl
    · next hnew => exact (Registration.listeners_eq_nil hnew).symm

end Assembly

namespace Subscription

open Selector

/-- The canonical form of a selector reads as the selector, and tells it from all others; white space
between its parts, at its ends and next to `>` does not matter.  The canonical name of an event reads
as the event, and tells its kind and its selector.  Whatever is done with a stream, its automaton and
its table of listeners neither mix up two subscriptions nor keep equal ones apart. -/
theorem names_sound (σ : Type) :
    (∀ s, parse (parse s).canonical = parse s) ∧
    (∀ s t, (parse s).canonical = (parse t).canonical ↔ (parse s).parts = (parse t).parts) ∧
    (∀ front back run run', run ≠ "" → run' ≠ "" → IsBlank run → IsBlank run' →
      parse (front ++ (run ++ back)) = parse (front ++ (run' ++ back))) ∧
    (∀ s run run', IsBlank run → IsBlank run' → parse (run ++ (s ++ run')) = parse s) ∧
    (∀ front back run run', IsBlank run → IsBlank run' →
      parse (front ++ (run ++ ">" ++ (run' ++ back))) = parse (front ++ (">" ++ back))) ∧
    (∀ e s, parse? e = some s → parse? s.name = some s) ∧
    (∀ e f s t, parse? e = some s → parse? f = some t →
      (s.name = t.name ↔ s.kind = t.kind ∧ s.selector.parts = t.selector.parts)) ∧
    ∀ (env : σ) operations, ∃ verdicts t,
      (Stream.create env).operateAll operations = .ok (verdicts, t) ∧
        t.assembly.Discerns (Operation.registrations operations) := by
  refine ⟨fun s => parse_canonical (parse_proper s), canonical_iff, fun _ _ _ _ => parse_run,
    fun _ _ _ => parse_ends, fun _ _ _ _ => parse_sign, fun _ _ hs => parse?_name (parse?_proper hs),
    fun _ _ _ _ => name_iff, fun env operations => ?_⟩
  have hstart : (Stream.create env).Keeps Assembly.Awaiting [] :=
    ⟨.create env, .create env, fun _ => rfl⟩
  obtain ⟨verdicts, t, hrun, ht, -⟩ :=
    Stream.operateAll_keeps Assembly.awaiting_invariant hstart operations
  exact ⟨verdicts, t, hrun, ht.holds.setUp.discerns⟩

/-- Two spellings of one event. -/
theorem names_sound_spelled :
    parse " \n a" = parse "a" ∧ parse "a \t > b" = parse "a>b" ∧ parse "a \u2003b" = parse "a b" ∧
      ∃ s t, parse? "text:a> b" = some s ∧ parse? "text: a >b " = some t ∧ s.name = t.name := by
  obtain ⟨-, -, hrun, hends, hsign, -, hname, -⟩ := names_sound Unit
  have hs : parse? "text:a> b" = some ⟨.text, ⟨[.name "a", .child, .name "b"]⟩⟩ := by decide +kernel
  have ht : parse? "text: a >b " = some ⟨.text, ⟨[.name "a", .child, .name "b"]⟩⟩ := by
    decide +kernel
  refine ⟨hends "a" " \n " "" ?_ ?_, hsign "a" "b" " \t " " " ?_ ?_,
    hrun "a" "b" " \u2003" " " ?_ ?_ ?_ ?_, _, _, hs, ht, (hname _ _ _ _ hs ht).2 ⟨rfl, rfl⟩⟩
  all_goals decide +kernel

end Subscription

end XmlSieve
