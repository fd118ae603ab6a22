import XmlSieve.Proofs.Stream.Bystanders
import XmlSieve.Proofs.Stream.Disclosure
import XmlSieve.Proofs.Stream.Latecomers

/-!
# Observers

An observer is a listener that neither changes elements nor asks for pauses; it may read all that
the other listeners share, and keeps notes of its own.  When one subscribes, at whatever point of a
document, to anything but updates, no listener that was registered before is told anything else than
it would have been, and no call is answered otherwise (`operateAll_observed`).  What is to be seen
of the stream without the observer's notes is a stream with a bystander.
-/

namespace XmlSieve

open Operation

variable {σ τ : Type}

/-! ### Listeners next to an observer -/

/-- A listener that keeps notes of what it is told and of what the others share. -/
def Listener.observer (note : Match → σ × τ → τ) : Listener (σ × τ) := fun m env =>
  { element := m.element, env := (env.1, note m env) }

/-- The listener next to notes that it knows nothing of. -/
def Listener.beside (τ : Type) (listener : Listener σ) : Listener (σ × τ) := fun m env =>
  let r := listener m env.1
  { element := r.element, pause := r.pause, env := (r.env, env.2) }

/-- The registration of a listener next to notes that it knows nothing of. -/
def Registration.beside (τ : Type) : Registration σ → Registration (σ × τ)
  | on event listener => on event (listener.beside τ)
  | collect selector => collect selector
  | preserve selector whitespace => preserve selector whitespace
  | data sink => data fun fragment env => (sink fragment env.1, env.2)
  | atEnd listener => atEnd fun env => (listener env.1, env.2)
  | atError listener => atError fun e env => (listener e env.1, env.2)

/-- The operation, where what it may register is next to notes that it knows nothing of. -/
def Operation.beside (τ : Type) : Operation σ → Operation (σ × τ)
  | register r => register (r.beside τ)
  | call c => call c
  | abort e => abort e

/-- The number of the listener that was told. -/
def Notice.id : Notice → Nat
  | matched id _ | data id _ | ended id | failed id _ => id

/-- The journal without the notes of an observer, and without what was told the listener with the
number `id`. -/
def Journal.without (id : Nat) (j : Journal (σ × τ)) : Journal σ where
  env := j.env.1
  notices := j.notices.filter (·.id ≠ id)

theorem Journal.without_add {id : Nat} (j : Journal (σ × τ)) (env : σ × τ) (notice : Notice)
    (h : notice.id ≠ id) : (j.add env notice).without id = (j.without id).add env.1 notice := by
  simp [without, add, h]

theorem Journal.without_add_self {id : Nat} (j : Journal (σ × τ)) (env : σ × τ) (notice : Notice)
    (h : notice.id = id) : (j.add env notice).without id = { j.without id with env := env.1 } := by
  simp [without, add, h]

namespace Registration

/-- Without an observer's notes, the others do what they do alone. -/
theorem beside_shows {id n : Nat} (h : n ≠ id) (r : Registration σ) :
    ((r.beside τ).logged n).Shows (.through (Journal.without id)) (r.logged n) := by
  cases r with
  | on event listener =>
    refine .on event fun m j => ?_
    simp only [View.through, View.reaction, Journal.listen, Listener.beside, id_eq]
    rw [j.without_add _ (.matched n m) h]
    rfl
  | collect selector => exact .collect selector
  | preserve selector whitespace => exact .preserve selector whitespace
  | data sink =>
    refine .data fun fragment j => ?_
    exact (j.without_add (sink fragment j.env.1, j.env.2) (.data n fragment) h).symm
  | atEnd listener =>
    refine .atEnd fun j => ?_
    exact (j.without_add (listener j.env.1, j.env.2) (.ended n) h).symm
  | atError listener =>
    refine .atError fun e j => ?_
    exact (j.without_add (listener e j.env.1, j.env.2) (.failed n e) h).symm

/-- Without its notes, an observer does nothing. -/
theorem observer_shows (id : Nat) (event : String) (note : Match → σ × τ → τ) :
    ((on event (.observer note)).logged id).Shows (.through (Journal.without id))
      (on event .idle) := by
  refine .on event fun m j => ?_
  simp only [View.through, View.reaction, Journal.listen, Listener.observer, id_eq]
  rw [j.without_add_self _ (.matched id m) (show (Notice.matched id m).id = id from rfl)]
  rfl

end Registration

namespace Operation

theorem beside_matches {id n : Nat} {operations : List (Operation σ)}
    (h : n + (registrations operations).length ≤ id) :
    List.Forall₂ (Operation.Matches (Registration.Shows (.through (Journal.without id))))
      (loggedFrom n (operations.map (beside τ))) (loggedFrom n operations) := by
  induction operations generalizing n with
  | nil => exact .nil
  | cons operation operations ih =>
    cases operation with
    | register r =>
      rw [registrations_register, List.length_cons] at h
      exact .cons (.register (r.beside_shows (by omega))) (ih (by omega))
    | call c => exact .cons (.call c) (ih h)
    | abort e => exact .cons (.abort e) (ih h)

theorem length_registrations_beside (operations : List (Operation σ)) :
    (registrations (operations.map (beside τ))).length = (registrations operations).length := by
  induction operations with
  | nil => rfl
  | cons operation operations ih =>
    cases operation with
    | register r => exact congrArg (· + 1) ih
    | call | abort => exact ih

/-- Without its notes, an observer that subscribes is one that does nothing. -/
theorem observed_matches (before : List (Operation σ)) (event : String)
    (note : Match → σ × τ → τ) (calls : List Stream.Call) :
    List.Forall₂ (Operation.Matches
        (Registration.Shows (.through (Journal.without (registrations before).length))))
      (loggedFrom 0 (before.map (beside τ) ++
        register (.on event (.observer note)) :: calls.map .call))
      (loggedFrom 0 before ++ register (.on event .idle) :: calls.map .call) := by
  rw [loggedFrom_append, length_registrations_beside, loggedFrom, loggedFrom_calls, Nat.zero_add]
  exact List.rel_append (beside_matches (Nat.zero_add _).le)
    (.cons (.register (Registration.observer_shows _ event note)) (matches_calls _ calls))

end Operation

namespace Stream

/-- A listener that does nothing may subscribe at any time to anything but updates, and the calls
that follow come to the same. -/
theorem operateAll_idle (env : σ) (before : List (Operation σ)) {event : String}
    (hkind : ∀ s, Subscription.parse? event = some s → s.kind ≠ .updateElement)
    (calls : List Call) :
    ∃ earlier later s t,
      (create env).operateAll (before ++ calls.map .call) = .ok (earlier ++ later, s) ∧
      (create env).operateAll (before ++ .register (.on event .idle) :: calls.map .call) =
        .ok (earlier ++ .ok () :: later, t) ∧
      earlier.length = before.length ∧ later.length = calls.length ∧ s.Accompanied t := by
  have hstart : (create env).Keeps (fun done _ a => a.Populated done) [] :=
    ⟨.create env, .create env, by simp [create]⟩
  obtain ⟨earlier, s₀, hearlier, hkeeps, -⟩ :=
    operateAll_keeps Assembly.populated_invariant hstart before
  obtain ⟨later, s, hlater, -⟩ := run_ok hkeeps.sound calls
  obtain ⟨t, ht, haccompanied⟩ :=
    accompanied_simulation.run (accompanied_register hkeeps.holds hkind) hlater
  rw [← operateAll_calls] at hlater ht
  refine ⟨earlier, later, s, t, operateAll_append hearlier hlater,
    operateAll_append hearlier (operateAll_cons rfl ht), length_of_operateAll hearlier, ?_,
    haccompanied⟩
  rw [length_of_operateAll hlater, List.length_map]

/-- An observer that subscribes at any time to anything but updates disturbs nobody: the listeners
that were registered before are told what they are told without it, in the same order, and the calls
that follow are answered as they are without it. -/
theorem operateAll_observed (env : σ) (notes : τ) (before : List (Operation σ)) {event : String}
    (hkind : ∀ s, Subscription.parse? event = some s → s.kind ≠ .updateElement)
    (note : Match → σ × τ → τ) (calls : List Call) :
    ∃ earlier later s t,
      (create { env }).operateAll (loggedFrom 0 (before ++ calls.map .call)) =
        .ok (earlier ++ later, s) ∧
      (create { env := (env, notes) }).operateAll
          (loggedFrom 0 (before.map (.beside τ) ++
            .register (.on event (.observer note)) :: calls.map .call)) =
        .ok (earlier ++ .ok () :: later, t) ∧
      earlier.length = before.length ∧ later.length = calls.length ∧
      t.env.without (registrations before).length = s.env ∧ t.phase = s.phase ∧
      t.isPaused = s.isPaused ∧ t.line = s.line ∧ t.depth = s.depth ∧ t.document = s.document := by
  obtain ⟨earlier, later, s, u, hs, hu, hearlier, hlater, haccompanied⟩ :=
    operateAll_idle { env } (loggedFrom 0 before) hkind calls
  obtain ⟨verdicts, t, ht⟩ := operateAll_ok (.create { env := (env, notes) })
    (loggedFrom 0 (before.map (.beside τ) ++
      .register (.on event (.observer note)) :: calls.map .call))
  -- Without the notes, the stream with the observer is the one with the bystander.
  obtain ⟨u', hu', other, rfl, -⟩ := (shownAs_simulation _).operateAll
    (fun h hr => h.register hr) (.create _ _) (observed_matches before event note calls) ht
  obtain ⟨rfl, rfl⟩ := Prod.mk.inj (Except.ok.inj (hu.symm.trans hu'))
  obtain ⟨m, listeners, hview, -⟩ := haccompanied
  refine ⟨earlier, later, s, t, ?_, ht, ?_, hlater, ?_⟩
  · rw [loggedFrom_append, loggedFrom_calls]
    exact hs
  · rw [hearlier, length_loggedFrom]
  · have hsame {β : Type} (look : Stream (Journal σ) → β) := congrArg look hview
    exact ⟨hsame (·.env), hsame (·.phase), hsame (·.isPaused), hsame (·.line), hsame (·.depth),
      hsame (·.document)⟩

/-- An observer of the text in `b` that comes when `b` is open, where a listener for the ends of `b`
asks for a pause: it notes the text that follows, and the others are told as without it. -/
theorem operateAll_observed_text :
    let before : List (Operation Nat) :=
      [.register (.on "endElement: b" fun m n =>
          { element := m.element, pause := true, env := n + 1 }),
        .register (.data fun _ n => n + 1),
        .call (.feed (Bytes.ascii ['<', 'a', '>', '<', 'b', '>']))]
    let calls : List Call :=
      [.feed (Bytes.ascii ['y', '<', '/', 'b', '>', '<', '/', 'a', '>']), .finish, .resume]
    let note : Match → Nat × List String → List String := fun m env => env.2 ++ m.chunk.toList
    ∃ earlier later s t,
      (create { env := 0 }).operateAll (loggedFrom 0 (before ++ calls.map .call)) =
        .ok (earlier ++ later, s) ∧
      (create { env := (0, []) }).operateAll
          (loggedFrom 0 (before.map (.beside (List String)) ++
            .register (.on "text: b" (.observer note)) :: calls.map .call)) =
        .ok (earlier ++ .ok () :: later, t) ∧
      t.env.without 2 = s.env ∧ t.phase = .ended ∧ t.env.env = (6, ["y"]) := by
  intro before calls note
  have hkind : ∀ s, Subscription.parse? "text: b" = some s → s.kind ≠ .updateElement := by
    intro s hs
    have hparse : Subscription.parse? "text: b" = some ⟨.text, Selector.parse "b"⟩ := by
      decide +kernel
    cases hparse.symm.trans hs
    decide
  obtain ⟨earlier, later, s, t, hs, ht, -, -, henv, -⟩ :=
    operateAll_observed 0 [] before hkind note calls
  have hreaches : ((create { env := (0, []) }).operateAll
      (loggedFrom 0 (before.map (.beside (List String)) ++
        .register (.on "text: b" (.observer note)) :: calls.map .call))).map
      (fun r => (r.2.phase, r.2.env.env)) = .ok (.ended, 6, ["y"]) := by
    decide +kernel
  rw [ht] at hreaches
  obtain ⟨hphase, hnotes⟩ := Prod.mk.inj (Except.ok.inj hreaches)
  exact ⟨earlier, later, s, t, hs, ht, henv, hphase, hnotes⟩

end Stream

end XmlSieve
