import XmlSieve.Proofs.Stream.Audience
import XmlSieve.Proofs.Stream.Delivery

/-!
# Matches are told once, in order

A set-up stream whose listeners leave elements as they are follows its document from the start
(`journaled_follows`), so that everything its listeners are told of matches is told by the tokens of
the document, their scenes and the audience of each (`journaled_sightings`), however the document is
cut and whenever delivery is paused.
-/

namespace XmlSieve

variable {σ : Type}

/-- A listener that does nothing. -/
def Listener.idle : Listener σ := fun m env => { element := m.element, env }

theorem Listener.tireless_idle : (idle : Listener σ).tireless = idle := rfl

/-! ### Registrations that are logged -/

namespace Registration

theorem filterMap_zipIdx {α β : Type} {pick : α × Nat → Option β} {pick' : α → Option β}
    (h : ∀ x id, pick (x, id) = pick' x) (xs : List α) :
    xs.zipIdx.filterMap pick = xs.filterMap pick' := by
  conv_rhs => rw [← List.zipIdx_map_fst 0 xs, List.filterMap_map]
  exact congrArg (fun f => xs.zipIdx.filterMap f) (funext fun entry => h entry.1 entry.2)

theorem filterMap_loggedAll {β : Type} {pick : Registration (Journal σ) → Option β}
    {pick' : Registration σ → Option β} (h : ∀ r id, pick (logged id r) = pick' r)
    (registrations : List (Registration σ)) :
    (loggedAll registrations.zipIdx).filterMap pick = registrations.filterMap pick' := by
  rw [loggedAll, List.filterMap_map]
  exact filterMap_zipIdx h registrations

theorem selectors_loggedAll (registrations : List (Registration σ)) :
    selectors (loggedAll registrations.zipIdx) = selectors registrations :=
  congrArg List.eraseDups (filterMap_loggedAll (fun r _ => by cases r <;> rfl) registrations)

theorem subscriptions_loggedAll (registrations : List (Registration σ)) :
    subscriptions (loggedAll registrations.zipIdx) = subscriptions registrations :=
  congrArg List.eraseDups (filterMap_loggedAll (fun r _ => by cases r <;> rfl) registrations)

theorem loggedAll_concat (registrations : List (Registration σ)) (r : Registration σ) :
    loggedAll (registrations ++ [r]).zipIdx =
      loggedAll registrations.zipIdx ++ [r.logged registrations.length] := by
  simp [loggedAll, List.zipIdx_append]

theorem requested_logged (known : List Subscription) (r : Registration σ) (id : Nat) :
    requested known (r.logged id) = requested known r := by
  cases r <;> rfl

theorem requests_loggedAll (registrations : List (Registration σ)) :
    requests (loggedAll registrations.zipIdx) = requests registrations := by
  induction registrations using List.reverseRecOn with
  | nil => rfl
  | append_singleton registrations r ih =>
    rw [loggedAll_concat, requests_concat, requests_concat, ih, subscriptions_loggedAll,
      requested_logged]

/-- A listener that does what the one registered with the number `id` does for the subscription, and
writes it down. -/
def Logs (registrations : List (Registration σ)) (s : Subscription)
    (listener : Listener (Journal σ)) (id : Nat) : Prop :=
  ∃ event told, registrations[id]? = some (.on event told) ∧
    Subscription.parse? event = some s ∧ listener = Journal.listen id told

theorem listeners_logged (registrations : List (Registration σ)) (s : Subscription) :
    List.Forall₂ (Logs registrations s) (listeners (loggedAll registrations.zipIdx) s)
      (listenerIds registrations s) := by
  suffices h : ∀ entries : List (Registration σ × Nat),
      (∀ entry ∈ entries, registrations[entry.2]? = some entry.1) →
      List.Forall₂ (Logs registrations s) (listeners (loggedAll entries) s)
        ((entries.filter fun entry => entry.1.subscription? = some s).map (·.2)) from
    h _ fun entry he => List.mem_zipIdx_iff_getElem?.1 he
  intro entries hentries
  induction entries with
  | nil => exact .nil
  | cons entry entries ih =>
    obtain ⟨r, id⟩ := entry
    have hget : registrations[id]? = some r := hentries (r, id) (by simp)
    have hrest := ih fun entry he => hentries entry (by simp [he])
    by_cases hr : r.subscription? = some s
    · cases r with
      | on event told =>
        have hparse : Subscription.parse? event = some s := hr
        have hlisten : listener? s (logged id (.on event told)) = some (Journal.listen id told) :=
          if_pos hparse
        rw [List.filter_cons_of_pos (by simpa using hr), List.map_cons, loggedAll, List.map_cons,
          listeners, List.filterMap_cons_some hlisten]
        exact .cons ⟨event, told, hget, hparse, rfl⟩ hrest
      | collect | preserve | data | atEnd | atError => cases hr
    · have hnone : listener? s (logged id r) = none := by
        cases r with
        | on event told => exact if_neg hr
        | collect | preserve | data | atEnd | atError => rfl
      rw [List.filter_cons_of_neg (by simpa using hr), loggedAll, List.map_cons, listeners,
        List.filterMap_cons_none hnone]
      exact hrest

/-- Still listeners are seen under the numbers of their registrations. -/
theorem listeners_seen {registrations : List (Registration σ)} (h : ∀ r ∈ registrations, r.Still)
    (s : Subscription) :
    List.Forall₂ Listener.SeenAs (listeners (loggedAll registrations.zipIdx) s)
      (listenerIds registrations s) := by
  refine (listeners_logged registrations s).imp ?_
  rintro listener id ⟨event, told, hget, -, rfl⟩
  exact seenAs_listen (h _ (List.mem_of_getElem? hget)) id

/-- The roster lists the listeners that are registered. -/
theorem table_seen {registrations : List (Registration σ)} (h : ∀ r ∈ registrations, r.Still) :
    List.Forall₂
      (fun entry names => entry.1 = names.1 ∧ List.Forall₂ Listener.SeenAs entry.2 names.2)
      (Entries.table Subscription.name (listeners (loggedAll registrations.zipIdx))
        (subscriptions (loggedAll registrations.zipIdx))) (roster registrations) := by
  rw [subscriptions_loggedAll, Entries.table, roster]
  refine List.forall₂_map_left_iff.2 (List.forall₂_map_right_iff.2 (List.forall₂_same.2 ?_))
  exact fun s _ => ⟨rfl, listeners_seen h s⟩

end Registration

open Registration

namespace Stream

/-! ### Streams that were set up -/

/-- A stream at the start, whose sinks and whose listeners for the end see no matches. -/
structure Discreet (s : Stream (Journal σ)) : Prop where
  counted : s.assembly.Counted []
  sightings : s.env.sightings = []
  sinks : ∀ sink ∈ s.assembly.sinks, ∀ fragment j, (sink fragment j).sightings = j.sightings
  onEnd : ∀ listener ∈ s.onEnd, ∀ j, (listener j).sightings = j.sightings
  onError : ∀ listener ∈ s.onError, ∀ e j, (listener e j).sightings = j.sightings

theorem sightings_add (j : Journal σ) (env : σ) {notice : Notice} (h : notice.sighting? = none) :
    (j.add env notice).sightings = j.sightings := by
  simp [Journal.add, Journal.sightings, h]

theorem Discreet.register {s : Stream (Journal σ)} (h : s.Discreet) (r : Registration σ)
    (id : Nat) : (s.register (r.logged id)).Discreet := by
  cases r with
  | on event listener =>
    simp only [logged, Stream.register, Stream.on]
    cases Subscription.parse? event with
    | none => exact h
    | some subscription =>
      simp only [Assembly.subscribe]
      split <;> exact ⟨h.counted, h.sightings, h.sinks, h.onEnd, h.onError⟩
  | collect | preserve => exact ⟨h.counted, h.sightings, h.sinks, h.onEnd, h.onError⟩
  | data sink =>
    refine ⟨h.counted, h.sightings, fun sink' hs fragment j => ?_, h.onEnd, h.onError⟩
    rcases List.mem_append.1 hs with hs | hs
    · exact h.sinks sink' hs fragment j
    · rw [List.mem_singleton.1 hs]
      exact sightings_add j _ rfl
  | atEnd listener =>
    refine ⟨h.counted, h.sightings, h.sinks, fun listener' hl j => ?_, h.onError⟩
    rcases List.mem_append.1 hl with hl | hl
    · exact h.onEnd listener' hl j
    · rw [List.mem_singleton.1 hl]
      exact sightings_add j _ rfl
  | atError listener =>
    refine ⟨h.counted, h.sightings, h.sinks, h.onEnd, fun listener' hl e j => ?_⟩
    rcases List.mem_append.1 hl with hl | hl
    · exact h.onError listener' hl e j
    · rw [List.mem_singleton.1 hl]
      exact sightings_add j _ rfl

theorem journaled_discreet (env : σ) (registrations : List (Registration σ)) :
    (journaled env registrations).Discreet := by
  have hcreate : (create ({ env } : Journal σ)).Discreet :=
    ⟨⟨rfl, rfl⟩, rfl, by simp [create], by simp [create], by simp [create]⟩
  induction registrations using List.reverseRecOn with
  | nil => exact hcreate
  | append_singleton registrations r ih =>
    rw [journaled, registered, loggedAll_concat, List.foldl_append]
    exact ih.register r _

theorem journaled_setUp (env : σ) (registrations : List (Registration σ)) :
    (journaled env registrations).SetUp (loggedAll registrations.zipIdx) :=
  registered_setUp _ _

theorem journaled_scribed (env : σ) {registrations : List (Registration σ)}
    (h : ∀ r ∈ registrations, r.Still) :
    (journaled env registrations).assembly.Scribed (roster registrations) := by
  refine ⟨?_, (journaled_discreet env registrations).sinks⟩
  rw [(journaled_setUp env registrations).listeners]
  exact table_seen h

/-- What is due in a stream that was set up is what was registered. -/
theorem journaled_serves (env : σ) (registrations : List (Registration σ)) :
    ∃ states, (journaled env registrations).assembly.automaton.Serves states
        (requests registrations) ∧ states.map (·.1) = selectors registrations := by
  have hserves := (journaled_setUp env registrations).serves
  rwa [requests_loggedAll, selectors_loggedAll] at hserves

theorem journaled_agrees (env : σ) (registrations : List (Registration σ)) :
    (policy registrations).Agrees (journaled env registrations).assembly.automaton := by
  obtain ⟨states, hserves, -⟩ := journaled_serves env registrations
  exact policy_agrees hserves

/-- No element is open in a stream that was set up. -/
theorem journaled_closed (env : σ) (registrations : List (Registration σ)) :
    (journaled env registrations).assembly.frames = [] ∧
      (journaled env registrations).assembly.automaton.active = [] := by
  have hinStep := (journaled_sound env registrations).inStep
  rw [(journaled_input env registrations).1] at hinStep
  exact ⟨List.length_eq_zero_iff.1 hinStep.frames, List.length_eq_zero_iff.1 hinStep.active⟩

/-- A stream that was set up follows its document from the start. -/
theorem journaled_follows (env : σ) {registrations : List (Registration σ)}
    (h : ∀ r ∈ registrations, r.Still) :
    (journaled env registrations).assembly.Follows (journaled env registrations).assembly.automaton
      (policy registrations) (roster registrations) [] := by
  obtain ⟨hframes, hactive⟩ := journaled_closed env registrations
  refine ⟨?_, journaled_scribed env h, ?_, ?_⟩
  · rw [Automaton.sets, ← hactive]
  · rw [hframes]
    exact .nil _
  · rw [hframes]
    exact (journaled_discreet env registrations).counted

/-! ### Runs -/

/-- What the tokenizer makes of the input of calls, to its end if they signal it. -/
def Call.heard (calls : List Call) : Transcript :=
  (({} : Tokenizer).given (input calls) (finish ∈ calls)).outlook

/-- When the end of the input was signalled, the input is heard as a document. -/
theorem heard_finish {calls : List Call} (h : Call.finish ∈ calls) :
    Call.heard calls = Document.transcript (Call.input calls) := by
  rw [Call.heard, decide_eq_true h, ← Tokenizer.outlook_document]
  rfl

theorem foldr_toCome_nil (calls : List Call) :
    calls.foldr Call.toCome ([], false) = (Call.input calls, decide (.finish ∈ calls)) := by
  by_cases h : Call.finish ∈ calls
  · rw [foldr_toCome h, decide_eq_true h]
  · rw [decide_eq_false h]
    induction calls with
    | nil => rfl
    | cons call calls ih =>
      have hrest := ih fun hmem => h (by simp [hmem])
      cases call with
      | finish => exact absurd List.mem_cons_self h
      | feed | pause | resume => rw [List.foldr_cons, hrest]; rfl

/-- What is told at the end is no match. -/
theorem Discreet.conclude {s : Stream (Journal σ)} (h : s.Discreet) {r : Transcript} {final : Bool}
    {j : Journal σ} (hj : s.conclude r final = .ok j) :
    ∃ b, s.assembly.acceptAll r.tokens = .ok b ∧ j.sightings = b.env.sightings := by
  rw [Stream.conclude, Assembly.acceptAll_tireless] at hj
  cases hb : s.assembly.acceptAll r.tokens with
  | error misuse =>
    rw [hb] at hj
    cases hj
  | ok b =>
    rw [hb] at hj
    cases hj
    refine ⟨b, rfl, ?_⟩
    cases r.error with
    | some e => exact foldl_sightings (fun listener hl => h.onError listener hl e) b.env
    | none =>
      cases final with
      | true => exact foldl_sightings h.onEnd b.env
      | false => rfl

/-- Once everything was delivered, the matches that were told are those of the tokens that the
tokenizer made of the input. -/
theorem exists_acceptAll_of_run (env : σ) {registrations : List (Registration σ)}
    {calls : List Call} {verdicts : List Verdict} {s : Stream (Journal σ)}
    (hrun : (journaled env registrations).run calls = .ok (verdicts, s))
    (hu : s.isPaused = false) :
    ∃ b, (journaled env registrations).assembly.acceptAll (Call.heard calls).tokens = .ok b ∧
      s.env.sightings = b.env.sightings := by
  have hend := run_env (journaled_sound env registrations) (journaled_settled env registrations)
    hrun hu
  obtain ⟨htokenizer, hphase⟩ := journaled_input env registrations
  rw [foldr_toCome_nil, prospect, hphase, htokenizer] at hend
  exact (journaled_discreet env registrations).conclude hend

/-- What is told of matches while tokens are taken is told of their scenes, to the audience of
each. -/
theorem acceptAll_sightings (env : σ) {registrations : List (Registration σ)}
    (h : ∀ r ∈ registrations, r.Still) {tokens : List Token} {b : Assembly (Journal σ)}
    (hb : (journaled env registrations).assembly.acceptAll tokens = .ok b) :
    b.env.sightings =
      (Branch.scenes (policy registrations) [] tokens).flatMap fun (token, scene) =>
        (audience registrations token.occasion scene.path).map fun (id, s) =>
          ⟨id, s.name, scene⟩ := by
  obtain ⟨states, hserves, hselectors⟩ := journaled_serves env registrations
  have hnone : (journaled env registrations).assembly.env.sightings = [] :=
    (journaled_discreet env registrations).sightings
  rw [(journaled_follows env h).acceptAll (policy_agrees hserves) hb, hnone, List.nil_append]
  exact List.flatMap_congr fun entry _ => seen_eq hserves hselectors entry.1.occasion entry.2

/-- Everything that is told of matches is told of the scenes of the document, to the audience of
each. -/
theorem journaled_sightings (env : σ) {registrations : List (Registration σ)}
    (h : ∀ r ∈ registrations, r.Still) {calls : List Call} {verdicts : List Verdict}
    {s : Stream (Journal σ)}
    (hrun : (journaled env registrations).run calls = .ok (verdicts, s))
    (hu : s.isPaused = false) :
    s.env.sightings =
      (Branch.scenes (policy registrations) [] (Call.heard calls).tokens).flatMap
        fun (token, scene) => (audience registrations token.occasion scene.path).map
          fun (id, s) => ⟨id, s.name, scene⟩ := by
  obtain ⟨b, hb, hsightings⟩ := exists_acceptAll_of_run env hrun hu
  rw [hsightings, acceptAll_sightings env h hb]

theorem journaled_unpaused (env : σ) {registrations : List (Registration σ)}
    (h : ∀ r ∈ registrations, r.tireless = r) {calls : List Call} (hc : Call.pause ∉ calls)
    {verdicts : List Verdict} {s : Stream (Journal σ)}
    (hrun : (journaled env registrations).run calls = .ok (verdicts, s)) : s.isPaused = false := by
  refine run_tireless (journaled_sound env registrations) ?_ hc hrun
  have hall : registrations.map Registration.tireless = registrations :=
    (List.map_congr_left h).trans (List.map_id _)
  have htireless := journaled_tireless env registrations
  rw [hall] at htireless
  exact congrArg Stream.assembly htireless.symm

/-- Matches are told exactly once and in order.  Once everything that the tokenizer made of the
input was delivered, listeners were told of its tokens in their order, and of each token its
audience was told in its order: selectors in the order in which they were first registered,
subscriptions to a selector in the order in which they were first made, and listeners in the order
of their registration.  A listener is in the audience of a token once, if the token is one that it
subscribed to and the names from the root to its element match the selector, and else not at all. -/
theorem sightings_eq_audience (env : σ) (registrations : List (Registration σ))
    (h : ∀ r ∈ registrations, r.Still) (calls : List Call) :
    ∃ verdicts s, (journaled env registrations).run calls = .ok (verdicts, s) ∧
      ((∀ r ∈ registrations, r.tireless = r) → Call.pause ∉ calls → s.isPaused = false) ∧
      (s.isPaused = false →
        s.env.sightings.map (fun g => (g.id, g.event, g.scene.path, g.scene.chunk)) =
          (Token.located [] (Call.heard calls).tokens).flatMap fun (token, path) =>
            (audience registrations token.occasion path).map fun (id, s) =>
              (id, s.name, path, token.chunk?)) ∧
      ∀ occasion path id s, (audience registrations occasion path).count (id, s) =
        if registrations[id]?.bind subscription? = some s ∧ s.kind.occasion = occasion ∧
          s.selector.Matches path then 1 else 0 := by
  obtain ⟨verdicts, s, hrun, -⟩ := run_ok (journaled_sound env registrations) calls
  refine ⟨verdicts, s, hrun, fun ht hc => journaled_unpaused env ht hc hrun, fun hu => ?_,
    count_audience registrations⟩
  have htold := congrArg (List.flatMap fun (token, path, chunk) =>
      (audience registrations token.occasion path).map fun (id, s) => (id, s.name, path, chunk))
    (Branch.scenes_located (policy registrations) [] (Call.heard calls).tokens)
  rw [List.flatMap_map, List.flatMap_map] at htold
  rw [journaled_sightings env h hrun hu, List.map_flatMap]
  simp only [List.map_map]
  exact htold

/-- Two ways of writing one selector, which was registered after another that a `collect` mentioned
first. -/
theorem sightings_shared_selector :
    ∃ verdicts s,
      (journaled () [.collect "b", .on "startElement: a b" .idle, .on "startElement: b" .idle,
          .on "startElement:a  b" .idle, .on "endElement" .idle]).run
        [.feed (Bytes.ascii ['<', 'a', '>', '<', 'b']),
          .feed (Bytes.ascii ['/', '>', '<', '/', 'a', '>'])] = .ok (verdicts, s) ∧
      s.env.sightings.map (fun g => (g.id, g.event, g.scene.path, g.scene.chunk)) =
        [(2, "startElement: b", ["a", "b"], none), (1, "startElement: a b", ["a", "b"], none),
          (3, "startElement: a b", ["a", "b"], none), (4, "endElement", ["a", "b"], none),
          (4, "endElement", ["a"], none)] := by
  obtain ⟨verdicts, s, hrun, hpaused, htold, -⟩ := sightings_eq_audience ()
    [.collect "b", .on "startElement: a b" .idle, .on "startElement: b" .idle,
      .on "startElement:a  b" .idle, .on "endElement" .idle]
    (by simp [Registration.Still, Listener.idle])
    [.feed (Bytes.ascii ['<', 'a', '>', '<', 'b']),
      .feed (Bytes.ascii ['/', '>', '<', '/', 'a', '>'])]
  have hu : s.isPaused = false :=
    hpaused (by simp [Registration.tireless, Listener.tireless_idle]) (by decide)
  exact ⟨verdicts, s, hrun, (htold hu).trans (by decide +kernel)⟩

end Stream

end XmlSieve
