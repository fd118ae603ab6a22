import XmlSieve.Proofs.Stream.Finality
import XmlSieve.Proofs.Stream.Keyed

/-!
# Tellings

Whatever is done with a stream whose listeners leave elements as they are, they are told of matches
in `Telling`s: whenever an event is told of, everyone who has subscribed to it by then is told of one
scene, once each and in the order in which they subscribed (`SeenAfter`).  One effect makes at most
one telling (`apply_told`), a token only such of the element that it concerns (`accept_told`), and of
all operations only calls make any (`operate_told`).
-/

namespace XmlSieve

variable {σ : Type}

/-- A scene that the listeners of an event are told of. -/
structure Telling where
  subscription : Subscription
  scene : Scene

/-- Who sees the scene, given what is registered. -/
def Telling.sightings (done : List (Registration σ)) (telling : Telling) : List Sighting :=
  (Registration.listenerIds done telling.subscription).map
    (⟨·, telling.subscription.name, telling.scene⟩)

/-- What is seen later is what was seen before and what is seen in tellings of elements that `P` holds
of, given what is registered. -/
def SeenAfter (done : List (Registration σ)) (P : Element → Prop) (before after : List Sighting) :
    Prop :=
  ∃ tellings : List Telling, (∀ telling ∈ tellings, P telling.scene.element) ∧
    after = before ++ tellings.flatMap (Telling.sightings done)

namespace SeenAfter

variable {done : List (Registration σ)} {P Q : Element → Prop}
  {before between after : List Sighting}

theorem refl (done : List (Registration σ)) (P : Element → Prop) (before : List Sighting) :
    SeenAfter done P before before :=
  ⟨[], by simp, by simp⟩

theorem trans (h : SeenAfter done P before between) (h' : SeenAfter done P between after) :
    SeenAfter done P before after := by
  obtain ⟨tellings, htellings, rfl⟩ := h
  obtain ⟨more, hmore, rfl⟩ := h'
  refine ⟨tellings ++ more, List.forall_mem_append.2 ⟨htellings, hmore⟩, ?_⟩
  rw [List.flatMap_append, List.append_assoc]

theorem mono (h : SeenAfter done P before after) (himp : ∀ e, P e → Q e) :
    SeenAfter done Q before after := by
  obtain ⟨tellings, htellings, heq⟩ := h
  exact ⟨tellings, fun telling hmem => himp _ (htellings telling hmem), heq⟩

/-- What is seen when an event is told of is seen in one telling, if the event is subscribed to. -/
theorem of_roster {scene : Scene} (hscene : P scene.element) (place : Nat)
    (h : after = before ++ (Registration.roster done).sightings scene place) :
    SeenAfter done P before after := by
  rw [Roster.sightings, Registration.roster, List.getElem?_map] at h
  cases hs : (Registration.subscriptions done)[place]? with
  | none =>
    rw [h, hs]
    exact ⟨[], by simp, rfl⟩
  | some s =>
    rw [h, hs]
    exact ⟨[⟨s, scene⟩], by simpa using hscene, by simp [Telling.sightings]⟩

/-- What holds of the elements that were seen holds of those that are. -/
theorem forall_mem (h : SeenAfter done P before after)
    (hbefore : ∀ g ∈ before, P g.scene.element) : ∀ g ∈ after, P g.scene.element := by
  obtain ⟨tellings, htellings, rfl⟩ := h
  refine List.forall_mem_append.2 ⟨hbefore, fun g hg => ?_⟩
  obtain ⟨telling, hmem, hg⟩ := List.mem_flatMap.1 hg
  obtain ⟨id, -, rfl⟩ := List.mem_map.1 hg
  exact htellings telling hmem

end SeenAfter

open Operation Registration

namespace Assembly

variable {a b : Assembly (Journal σ)} {done : List (Registration σ)} {frame : Frame}
  {chunk : Option String} {token : Token} {tokens : List Token}

/-! ### Effects -/

/-- What is registered with a journal is sighted under the numbers of the registrations. -/
theorem SetUp.scribed (h : a.SetUp (loggedAll done.zipIdx)) (hstill : ∀ r ∈ done, r.Still) :
    a.Scribed (roster done) := by
  constructor
  · rw [h.listeners]
    exact table_seen hstill
  · rw [h.sinks]
    exact fun sink hsink => sightings_of_sink hsink

/-- One effect leaves the element as it is, and at most tells of an event. -/
theorem apply_told (h : a.Scribed (roster done)) (frame : Frame) (chunk : Option String)
    (effect : Effect) :
    (apply chunk (a, frame) effect).2.element = frame.element ∧
      SeenAfter done (· = frame.element) a.env.sightings
        (apply chunk (a, frame) effect).1.env.sightings := by
  cases effect with
  | collect | preserve | release | hold =>
    rw [apply_quiet_element rfl, apply_quiet_env rfl]
    exact ⟨rfl, .refl _ _ _⟩
  | flush place =>
    by_cases hheld : place ∈ frame.held
    · obtain ⟨hframe, hsightings⟩ := flush_sightings h hheld
      have helement := congrArg Frame.element hframe
      exact ⟨helement, .of_roster rfl place hsightings⟩
    · have hnothing : a.flush frame place = (a, frame) :=
        if_neg fun hcontains => hheld (List.contains_iff_mem.1 hcontains)
      rw [apply, hnothing]
      exact ⟨rfl, .refl _ _ _⟩
  | notify place =>
    obtain ⟨hframe, hsightings⟩ := notify_sightings h place frame chunk
    have helement := congrArg Frame.element hframe
    exact ⟨helement, .of_roster rfl place hsightings⟩

theorem applyAll_told (h : a.Scribed (roster done)) (frame : Frame) (chunk : Option String)
    (effects : List Effect) :
    (a.applyAll frame chunk effects).2.element = frame.element ∧
      SeenAfter done (· = frame.element) a.env.sightings
        (a.applyAll frame chunk effects).1.env.sightings := by
  induction effects generalizing a frame with
  | nil => exact ⟨rfl, .refl _ _ _⟩
  | cons effect effects ih =>
    obtain ⟨helement, hseen⟩ := apply_told h frame chunk effect
    obtain ⟨hrest, hlater⟩ := ih (h.same (a.apply_same frame chunk effect))
      (apply chunk (a, frame) effect).2
    rw [helement] at hrest hlater
    exact ⟨hrest, hseen.trans hlater⟩

/-! ### Tokens -/

/-- Nobody is told of a match any more when effects have run. -/
theorem completed_sightings (h : a.Scribed (roster done)) (frame : Frame) (token : Token) :
    (completed (a, frame) token).env.sightings = a.env.sightings :=
  completed_shows h.sinks frame token

/-- What is invariant of a stream whose listeners write down what they are told. -/
structure Tells (a : Assembly (Journal σ)) (done : List (Registration σ)) : Prop where
  setUp : a.SetUp (loggedAll done.zipIdx)
  keyed : a.Keyed

namespace Tells

theorem create (env : σ) : (Stream.create ({ env } : Journal σ)).assembly.Tells [] :=
  ⟨.create _, .create _⟩

/-- What listeners share and whether delivery is paused does not matter. -/
theorem unseen (h : a.Tells done) (paused : Bool) (env : Journal σ) :
    Tells { a with paused, env } done :=
  ⟨⟨h.setUp.serves, h.setUp.listeners, h.setUp.sinks⟩, ⟨h.keyed.document, h.keyed.frames⟩⟩

theorem register {s : Stream (Journal σ)} (h : s.assembly.Tells done) (r : Registration σ) :
    (s.register (r.logged done.length)).assembly.Tells (done ++ [r]) := by
  refine ⟨?_, h.keyed.register _⟩
  rw [loggedAll_concat]
  exact h.setUp.register _

end Tells

/-- A token that can be written tells of matches in tellings of an element that is well-keyed. -/
theorem accept_told (h : a.Tells done) (hstill : ∀ r ∈ done, r.Still) (hproper : token.Proper)
    (hb : a.accept token = .ok b) :
    b.Tells done ∧ SeenAfter done Element.WellKeyed a.env.sightings b.env.sightings := by
  obtain ⟨task, htask, rfl⟩ := exists_task hb
  obtain ⟨hlisteners, hsinks, henv, -⟩ := task_keeps htask
  obtain ⟨hkeyed, hframe⟩ := task_keyed h.keyed hproper htask
  have hscribed := h.setUp.scribed hstill
  have htaken : task.assembly.Scribed (roster done) :=
    ⟨hlisteners ▸ hscribed.listeners, hsinks ▸ hscribed.sinks⟩
  have hsame := task.assembly.applyAll_same task.frame task.chunk task.effects
  obtain ⟨helement, hseen⟩ := applyAll_told htaken task.frame task.chunk task.effects
  refine ⟨⟨h.setUp.accept hb, completed_keyed (hkeyed.same hsame) ?_ token⟩, ?_⟩
  · exact (congrArg Element.Proper helement).mpr hframe
  · rw [Task.done, Task.after, completed_sightings (htaken.same hsame), ← henv]
    exact hseen.mono fun e he => he ▸ hframe.keyed

theorem takes_told (h : a.Tells done) (hstill : ∀ r ∈ done, r.Still)
    (hproper : ∀ token ∈ tokens, token.Proper) (ht : a.Takes tokens b) :
    b.Tells done ∧ SeenAfter done Element.WellKeyed a.env.sightings b.env.sightings := by
  induction ht with
  | nil => exact ⟨h, .refl _ _ _⟩
  | cons running haccept rest ih =>
    obtain ⟨htoken, htokens⟩ := List.forall_mem_cons.1 hproper
    obtain ⟨htells, hseen⟩ := accept_told h hstill htoken haccept
    obtain ⟨hlast, hlater⟩ := ih htells htokens
    exact ⟨hlast, hseen.trans hlater⟩

end Assembly

namespace Stream

variable {s t : Stream (Journal σ)} {done : List (Registration σ)} {verdict : Verdict}
  {operation : Operation σ} {operations : List (Operation σ)}
  {registered : List (Registration (Journal σ))}

/-! ### Everything that is done with a stream -/

theorem sightings_of_notices {j k : Journal σ} {more : List Notice}
    (h : k.notices = j.notices ++ more) (hmore : ∀ notice ∈ more, notice.sighting? = none) :
    k.sightings = j.sightings := by
  rw [Journal.sightings, h, List.filterMap_append, List.filterMap_eq_nil_iff.2 hmore,
    List.append_nil, Journal.sightings]

theorem Attended.fail_sightings (ha : s.Attended done) (e : StreamError) :
    (s.fail e).env.sightings = s.env.sightings :=
  sightings_of_notices (ha.fail e) (by simp [Notice.sighting?])

theorem Outcome.told {tokens : List Token} (hout : s.Outcome tokens verdict t)
    (ha : s.Attended done) (h : s.assembly.Tells done) (hstill : ∀ r ∈ done, r.Still)
    (hproper : ∀ token ∈ tokens, token.Proper) :
    t.assembly.Tells done ∧ SeenAfter done Element.WellKeyed s.env.sightings t.env.sightings := by
  cases hout with
  | held takes => exact Assembly.takes_told h hstill hproper takes
  | @ended tokenizer assembly takes =>
    obtain ⟨htells, hseen⟩ := Assembly.takes_told h hstill hproper takes
    have hnotices := (ha.takes takes tokenizer).2.complete
    rw [sightings_of_notices hnotices (by simp [Notice.sighting?])]
    exact ⟨htells.unseen _ _, hseen⟩
  | @failed tokenizer assembly e takes =>
    obtain ⟨htells, hseen⟩ := Assembly.takes_told h hstill hproper takes
    rw [(ha.takes takes tokenizer).2.fail_sightings e]
    exact ⟨htells.unseen _ _, hseen⟩

theorem noted_tells (h : s.assembly.Tells done) (call : Call) :
    (s.noted call).assembly.Tells done := by
  cases call with
  | feed | finish =>
    rw [noted]
    split <;> exact h
  | pause | resume => exact h.unseen _ _

/-- An operation tells of matches in tellings to those who had subscribed before it, if the tokens
that it delivers can be written. -/
theorem operate_told (hs : s.Sound) (haware : s.Aware) (ha : s.Attended done)
    (h : s.assembly.Tells done) (hstill : ∀ r ∈ done, r.Still)
    (hproper : ∀ delivery ∈ s.deliveriesIn registered (operation.logged done.length),
      delivery.token.Proper)
    (hoperate : s.operate (operation.logged done.length) = .ok (verdict, t)) :
    t.assembly.Tells (done ++ operation.registration?.toList) ∧
      SeenAfter done Element.WellKeyed s.env.sightings t.env.sightings := by
  cases operation with
  | register r =>
    cases hoperate
    have henv := (Unchanged.register s (r.logged done.length)).env
    exact ⟨h.register r, (congrArg (fun j => SeenAfter done Element.WellKeyed s.env.sightings
      j.sightings) henv).mpr (.refl _ _ _)⟩
  | call call =>
    rw [Operation.registration?, Option.toList_none, List.append_nil]
    have henv := congrArg Journal.sightings (s.noted_env call)
    rcases perform_outcome registered hs haware hoperate with ⟨hd, hout⟩ | ⟨-, rfl⟩
    · rw [Operation.logged, deliveriesIn, if_pos hd] at hproper
      rw [← henv]
      exact hout.told (ha.noted call) (noted_tells h call) hstill (List.forall_mem_map.2 hproper)
    · rw [henv]
      exact ⟨noted_tells h call, .refl _ _ _⟩
  | abort e =>
    rw [Operation.registration?, Option.toList_none, List.append_nil]
    cases hoperate
    unfold abort
    split
    · exact ⟨h, .refl _ _ _⟩
    · rw [ha.fail_sightings e]
      exact ⟨h.unseen _ _, .refl _ _ _⟩

theorem Attended.operate (hs : s.Sound) (haware : s.Aware) (ha : s.Attended done)
    (hoperate : s.operate (operation.logged done.length) = .ok (verdict, t)) :
    t.Attended (done ++ operation.registration?.toList) := by
  have hone : s.operateAll (loggedFrom done.length [operation]) = .ok ([verdict], t) := by
    rw [loggedFrom_singleton]
    exact operateAll_cons hoperate rfl
  have hrun := ha.operateAll hs haware hone
  rwa [registrations, List.filterMap_cons] at hrun

/-- Operations lead from one stream to another, and each of them tells of matches in tellings to
those who had subscribed before it, of elements that are well-keyed. -/
inductive ToldTogether : List (Registration σ) → Stream (Journal σ) → List (Operation σ) →
    Stream (Journal σ) → Prop where
  | nil (done : List (Registration σ)) (s : Stream (Journal σ)) : ToldTogether done s [] s
  | cons {done : List (Registration σ)} {s t u : Stream (Journal σ)} {verdict : Verdict}
      {operation : Operation σ} {operations : List (Operation σ)}
      (operate : s.operate (operation.logged done.length) = .ok (verdict, t))
      (seen : SeenAfter done Element.WellKeyed s.env.sightings t.env.sightings)
      (rest : ToldTogether (done ++ operation.registration?.toList) t operations u) :
      ToldTogether done s (operation :: operations) u

/-- What was seen in the end is of elements that are well-keyed. -/
theorem ToldTogether.wellKeyed (h : ToldTogether done s operations t)
    (hs : ∀ g ∈ s.env.sightings, g.scene.element.WellKeyed) :
    ∀ g ∈ t.env.sightings, g.scene.element.WellKeyed := by
  induction h with
  | nil => exact hs
  | cons operate seen rest ih => exact ih (seen.forall_mem hs)

theorem operateAll_told (hs : s.Sound) (haware : s.Aware) (ha : s.Attended done)
    (h : s.assembly.Tells done) (hstill : ∀ r ∈ done ++ registrations operations, r.Still)
    (hproper : ∀ delivery ∈ s.history registered (loggedFrom done.length operations),
      delivery.token.Proper) {verdicts : List Verdict}
    (hrun : s.operateAll (loggedFrom done.length operations) = .ok (verdicts, t)) :
    ToldTogether done s operations t := by
  induction operations generalizing s done registered verdicts with
  | nil =>
    cases hrun
    exact .nil _ _
  | cons operation operations ih =>
    have hdone : registrations (operation :: operations) =
        operation.registration?.toList ++ registrations operations := by
      cases operation <;> rfl
    have hlength : done.length + (registrations [operation]).length =
        (done ++ operation.registration?.toList).length := by
      cases operation <;> simp [registrations, Operation.registration?]
    rw [hdone, ← List.append_assoc] at hstill
    rw [loggedFrom_cons, hlength] at hrun hproper
    obtain ⟨verdict, u, rest, hu, hrest, rfl⟩ := exists_of_operateAll_cons hrun
    rw [history_cons hu] at hproper
    obtain ⟨hnow, hlater⟩ := List.forall_mem_append.1 hproper
    have hbefore : ∀ r ∈ done, r.Still := fun r hr =>
      hstill r (List.mem_append_left _ (List.mem_append_left _ hr))
    obtain ⟨htells, hseen⟩ := operate_told hs haware ha h hbefore hnow hu
    exact .cons hu hseen (ih (operate_sound hs hu) (operate_aware hs haware hu)
      (ha.operate hs haware hu) htells hstill hlater hrest)

/-- Every token that is delivered can be written. -/
theorem history_proper (env : σ) (operations : List (Operation σ)) :
    ∀ delivery ∈ (create env).history [] operations, delivery.token.Proper := by
  have hahead := history_ahead [] (.create env) operations ([], true)
  have hfinish : (operations.filterMap (·.call?)).foldr Call.toCome ([], true) =
      (Call.input (operations.filterMap (·.call?) ++ [.finish]), true) := by
    rw [← foldr_toCome (by simp) ([], true), List.foldr_append]
    rfl
  have hdocument (document : Bytes) :
      (create env).ahead document true = (Document.transcript document).tokens :=
    congrArg Transcript.tokens (Tokenizer.outlook_document document)
  rw [hfinish, hdocument] at hahead
  intro delivery hmem
  exact Document.transcript_proper _ _ (hahead.subset (List.mem_map_of_mem hmem))

/-- Whatever is done with a stream whose listeners leave elements as they are, they are told of
matches together. -/
theorem told_together {env : σ} (hstill : ∀ r ∈ registrations operations, r.Still)
    {verdicts : List Verdict}
    (hrun : (create ({ env } : Journal σ)).operateAll (loggedFrom 0 operations) =
      .ok (verdicts, t)) : ToldTogether [] (create ({ env } : Journal σ)) operations t :=
  operateAll_told (.create _) (.create _) (.create env) (.create env) hstill
    (history_proper _ _) hrun

end Stream

end XmlSieve
