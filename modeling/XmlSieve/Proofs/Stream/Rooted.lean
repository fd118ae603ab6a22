import XmlSieve.Proofs.Selector.Growth
import XmlSieve.Proofs.Stream.Operations
import XmlSieve.Proofs.Stream.Tasks
import XmlSieve.Proofs.Stream.Tracking

/-!
# Since the root opened

Which selectors are recognized in a document is settled when its root opens.  From then on the
active sets are those of the automaton as it was then, however it grows (`Assembly.Rooted`), and a
token tells of what is due in the states of that automaton, whether it was requested by then or
later (`Rooted.told_effects`).  `history_rooted` says this of everything that any operations
deliver, where the first delivery tells what was registered when the root opened.
-/

namespace XmlSieve

variable {σ : Type}

/-- The names from the root to the element of a token that stands at `p`. -/
def Place.pathOf (p : Place) : Token → List String
  | .startTag name _ => p.openNames.reverse ++ [name]
  | .text _ | .endTag _ => p.openNames.reverse

theorem Place.follow_ne_prolog {p q : Place} {token : Token} (h : p.follow token = some q) :
    q ≠ .prolog := by
  cases follow_eq_some_iff.1 h with
  | startTag | text => simp
  | endTag name outer => exact inside_ne_prolog outer

namespace Automaton

variable {η : Type} {root m : Automaton η} {p q : Place}

/-- The automaton `m` has grown out of `root` while elements were entered and left up to `p`. -/
structure Descends (root m : Automaton η) (p : Place) : Prop where
  bounded : root.Bounded
  grown : root.Grown m
  active : m.active = root.setsFor p.openNames
  initial : p = .prolog → m.initial = root.initial

namespace Descends

theorem refl (h : m.Bounded) (hactive : m.active = []) : Descends m m .prolog :=
  ⟨h, .refl m, hactive, fun _ => rfl⟩

/-- Growing changes nothing once the root has started. -/
theorem grow {m' : Automaton η} (h : root.Descends m p) (hp : p ≠ .prolog)
    (hgrown : root.Grown m') (hactive : m'.active = m.active) : root.Descends m' p :=
  ⟨h.bounded, hgrown, hactive.trans h.active, fun heq => absurd heq hp⟩

/-- The states active where the root has not ended. -/
theorem current (h : root.Descends m p) (hp : p ≠ .epilog) :
    m.current = root.after p.openNames.reverse := by
  rw [Automaton.current, h.active]
  cases p with
  | prolog => exact h.initial rfl
  | content innermost outer => rfl
  | epilog => exact absurd rfl hp

theorem transition (h : root.Descends m p) (hp : p ≠ .epilog) (name : String) :
    m.transition m.current name = root.after (p.openNames.reverse ++ [name]) := by
  rw [h.current hp, h.grown.transition h.bounded.after_lt, after, after, List.foldl_append]
  rfl

theorem enter (h : root.Descends m p) (hp : p ≠ .epilog) (name : String) :
    root.Descends (m.enter name).2 (.content name p.openNames) := by
  refine ⟨h.bounded, h.grown.congr rfl rfl rfl, ?_, fun heq => by cases heq⟩
  have hset := h.transition hp name
  rw [← List.reverse_cons] at hset
  simp only [Automaton.enter, hset, h.active]
  rfl

theorem leave {innermost : String} {outer : List String}
    (h : root.Descends m (.content innermost outer)) {set : StateSet} {sets : List StateSet}
    (hactive : m.active = set :: sets) :
    set = root.after (innermost :: outer).reverse ∧
      root.Descends { m with active := sets } (.inside outer) := by
  have hsets := h.active
  rw [hactive, Place.openNames, setsFor] at hsets
  obtain ⟨hset, hrest⟩ := List.cons.inj hsets
  refine ⟨hset, h.bounded, h.grown.congr rfl rfl rfl, ?_, fun heq => ?_⟩
  · rw [Place.openNames_inside]
    exact hrest
  · exact absurd heq (Place.inside_ne_prolog outer)

end Descends

end Automaton

namespace Assembly

open Registration

variable {a b : Assembly σ} {root done : List (Registration σ)} {p q : Place} {token : Token}
  {task : Task σ}

/-- The automaton has grown out of one that was set up by `root`, while tokens were taken up to
`p`. -/
def Rooted (a : Assembly σ) (root : List (Registration σ)) (p : Place) : Prop :=
  ∃ (m : Automaton Effect) (states : List (Selector × StateId)),
    m.Serves states (requests root) ∧ states.map (·.1) = selectors root ∧
      m.Descends a.automaton p

/-- Registering lets the automaton grow. -/
theorem register_grown {m : Automaton Effect} {s : Stream σ} (h : m.Grown s.assembly.automaton)
    (r : Registration σ) : m.Grown (s.register r).assembly.automaton := by
  obtain ⟨_, _, _, _, _, heq, rfl | ⟨selector, effects, rfl⟩⟩ := s.exists_register r <;> rw [heq]
  · exact h
  · exact (h.compile selector).foldl_on _ effects

namespace Rooted

/-- What is registered when the root opens is the root of all that follows. -/
theorem begin (h : a.SetUp root) (hactive : a.automaton.active = []) : a.Rooted root .prolog := by
  obtain ⟨states, hserves, hselectors⟩ := h.serves
  exact ⟨_, states, hserves, hselectors, .refl hserves.bounded hactive⟩

theorem register {s : Stream σ} (h : s.assembly.Rooted root p) (hp : p ≠ .prolog)
    (r : Registration σ) : (s.register r).assembly.Rooted root p := by
  obtain ⟨m, states, hserves, hselectors, hdescends⟩ := h
  obtain ⟨-, -, -, hactive⟩ := s.register_input r
  exact ⟨m, states, hserves, hselectors, hdescends.grow hp (register_grown hdescends.grown r) hactive⟩

/-- A token that follows leads on from what the root settled. -/
theorem accept (h : a.Rooted root p) (hq : p.follow token = some q) (hb : a.accept token = .ok b) :
    b.Rooted root q := by
  obtain ⟨m, states, hserves, hselectors, hdescends⟩ := h
  refine ⟨m, states, hserves, hselectors, ?_⟩
  rcases automaton_cases hb with ⟨name, attributes, rfl, h⟩ | ⟨chunk, rfl, h⟩ |
    ⟨name, set, sets, rfl, hactive, h⟩ <;> rw [h]
  · cases Place.follow_eq_some_iff.1 hq with
    | startTag _ _ hp => exact hdescends.enter hp name
  · cases Place.follow_eq_some_iff.1 hq with
    | text => exact hdescends
  · cases Place.follow_eq_some_iff.1 hq with
    | endTag => exact (hdescends.leave hactive).2

/-- The effects of a token that tell listeners are due in the states that the root settled. -/
theorem told_effects (h : a.Rooted root p) (hdone : a.SetUp done) (hq : p.follow token = some q)
    (htask : a.task? token = some task) :
    ∃ (m : Automaton Effect) (states : List (Selector × StateId)),
      m.Serves states (requests root) ∧ states.map (·.1) = selectors root ∧
      m.Grown a.automaton ∧
      (∀ id, .flush id ∈ task.effects → .flush id ∈
        a.automaton.hooks.fire token.occasion (m.after (p.pathOf token))) ∧
      task.effects.filterMap Effect.told? =
        (a.automaton.hooks.fire token.occasion (m.after (p.pathOf token))).filterMap
          Effect.told? := by
  obtain ⟨m, states, hserves, hselectors, hdescends⟩ := h
  refine ⟨m, states, hserves, hselectors, hdescends.grown, ?_⟩
  rcases task_cases htask with ⟨name, attributes, rfl, rfl⟩ | ⟨chunk, frame, outer, rfl, -, rfl⟩ |
    ⟨name, frame, outer, set, sets, rfl, -, hactive, rfl⟩
  · cases Place.follow_eq_some_iff.1 hq with | startTag _ _ hp =>
    have hset := hdescends.transition hp name
    have hflags := hdone.fire_fits .flag (m.after (p.openNames.reverse ++ [name]))
    simp only [Automaton.enter, hset, Place.pathOf, Token.occasion]
    refine ⟨fun id hmem => ?_, ?_⟩
    · refine (List.mem_append.1 hmem).resolve_left fun hflag => ?_
      cases hflags _ hflag
    · rw [List.filterMap_append, Effect.told?_eq_nil hflags, List.nil_append]
  · cases Place.follow_eq_some_iff.1 hq with | text =>
    have hcurrent := hdescends.current (by simp)
    simp only [Automaton.due, hcurrent]
    exact ⟨fun id hmem => hmem, rfl⟩
  · cases Place.follow_eq_some_iff.1 hq with | endTag =>
    obtain ⟨rfl, -⟩ := hdescends.leave hactive
    exact ⟨fun id hmem => hmem, rfl⟩

end Rooted

/-! ### Everything that is delivered -/

/-- An assembly that holds what was registered; no element is open in it before the root. -/
structure Awaiting (done : List (Registration σ)) (p : Place) (a : Assembly σ) : Prop where
  setUp : a.SetUp done
  closed : p = .prolog → a.automaton.active = []

/-- An assembly that holds what was registered and goes by what the root settled. -/
structure Underway (root done : List (Registration σ)) (p : Place) (a : Assembly σ) : Prop where
  setUp : a.SetUp done
  rooted : a.Rooted root p

/-- An assembly that goes by what the root settled, once this has opened. -/
structure Started (root done : List (Registration σ)) (p : Place) (a : Assembly σ) : Prop extends
    Underway root done p a where
  opened : p ≠ .prolog

theorem awaiting_invariant : Invariant (σ := σ) Awaiting where
  unseen h _ _ := ⟨⟨h.setUp.serves, h.setUp.listeners, h.setUp.sinks⟩, h.closed⟩
  register {_ _ s} h r :=
    ⟨h.setUp.register r, fun hp => (s.register_input r).2.2.2.trans (h.closed hp)⟩
  accept h hq hb := ⟨h.setUp.accept hb, fun hp => absurd hp (Place.follow_ne_prolog hq)⟩

theorem started_invariant (root : List (Registration σ)) : Invariant (Started root) where
  unseen h _ _ := ⟨⟨⟨h.setUp.serves, h.setUp.listeners, h.setUp.sinks⟩, h.rooted⟩, h.opened⟩
  register h r := ⟨⟨h.setUp.register r, h.rooted.register h.opened r⟩, h.opened⟩
  accept h hq hb := ⟨⟨h.setUp.accept hb, h.rooted.accept hq hb⟩, Place.follow_ne_prolog hq⟩

end Assembly

namespace Stream

open Assembly

variable {s : Stream σ} {done : List (Registration σ)}

/-- What is delivered before anything else was goes by what was registered then. -/
theorem drain_rooted (hs : s.Keeps Awaiting done) (hp : s.tokenizer.standing = .prolog)
    (hsome : s.deliveries done ≠ []) :
    ∃ verdict t, s.drain = .ok (verdict, t) ∧ t.Keeps (Started done) done ∧
      Passes (Underway done) .prolog (s.deliveries done) t.tokenizer.standing := by
  by_cases hpaused : s.isPaused = true
  · exact absurd (deliveries_paused hpaused) hsome
  · rcases hnext : s.tokenizer.next with ⟨answer, tokenizer⟩
    rcases answer with e | _ | token
    · exact absurd (deliveries_wait hnext (by simp)) hsome
    · exact absurd (deliveries_wait hnext (by simp)) hsome
    · obtain ⟨b, hb, -⟩ := hs.sound.token hnext
      have ht := hs.accepted awaiting_invariant hnext hb
      have hfollow := (Tokenizer.next_follow hs.sound.rootStarted hnext).1
      rw [hp] at hfollow
      have hbegun : s.assembly.Rooted done .prolog := .begin hs.holds.setUp (hs.holds.closed hp)
      have hstarted : Keeps (Started done) done { s with tokenizer, assembly := b } :=
        ⟨ht.sound, ⟨ht.holds.setUp, hbegun.accept hfollow hb⟩, Place.follow_ne_prolog hfollow⟩
      obtain ⟨verdict, t, hdrain, hkeeps, hpasses⟩ := drain_keeps (started_invariant done) hstarted
      rw [drain_taken hpaused hnext hb, deliveries_token hpaused hnext hb]
      exact ⟨verdict, t, hdrain, hkeeps, .cons ⟨hs.holds.setUp, hbegun⟩ hfollow hb
        hstarted.holds.toUnderway (hpasses.mono fun _ _ _ h => h.toUnderway)⟩

/-- Everything that is delivered goes by what was registered when the root was. -/
theorem history_rooted (hs : s.Keeps Awaiting done) (hp : s.tokenizer.standing = .prolog)
    (operations : List (Operation σ)) :
    ∃ root r, (∀ first, (s.history done operations).head? = some first → first.registered = root) ∧
      Passes (Underway root) .prolog (s.history done operations) r := by
  induction operations generalizing s done with
  | nil => exact ⟨done, _, by simp [history], .nil _⟩
  | cons operation operations ih =>
    by_cases hnone : s.deliveriesIn done operation = []
    · obtain ⟨verdict, t, h, ht, hpasses⟩ := operate_keeps awaiting_invariant hs operation
      rw [hnone, hp] at hpasses
      rw [history_cons h, hnone, List.nil_append]
      refine ih ht ?_
      generalize t.tokenizer.standing = q at hpasses
      cases hpasses
      rfl
    · cases operation with
      | register | abort => exact absurd rfl hnone
      | call call =>
        rw [deliveriesIn] at hnone
        rcases perform_eq hs.sound call with ⟨hd, h⟩ | ⟨hd, -⟩
        · rw [if_pos hd] at hnone
          obtain ⟨verdict, t, hdrain, ht, hnow⟩ :=
            drain_rooted (hs.noted awaiting_invariant call) ((noted_standing s call).trans hp) hnone
          obtain ⟨_, u, -, -, hlater⟩ := operateAll_keeps (started_invariant done) ht operations
          have hcall : s.operate (.call call) = .ok (verdict, t) := h.trans hdrain
          rw [history_cons hcall, deliveriesIn, if_pos hd, Operation.registration?,
            Option.toList_none, List.append_nil]
          refine ⟨done, _, fun first hfirst => ?_,
            hnow.append (hlater.mono fun _ _ _ h => h.toUnderway)⟩
          rw [List.head?_append_of_ne_nil _ hnone] at hfirst
          exact registered_of_mem_deliveries first (List.mem_of_mem_head? hfirst)
        · exact absurd (if_neg (by simp [hd])) hnone

end Stream

end XmlSieve
