import XmlSieve.Host.Call
import XmlSieve.Proofs.Host.Outboxes
import XmlSieve.Proofs.Host.Recovery
import XmlSieve.Proofs.Stream.Tellings

/-!
# What is taken from sessions

Actions in a session ask something of its stream (`Action.operation?`) or take something from its
outbox.  Whatever is done in whatever order, what was taken and what is still queued are the matches
that the stream told, in their order and none of them twice, and what was taken of the output and
what is still kept is what the stream wrote since output was first asked for (`performAll_exact`).
Every action is answered, since the elements that are queued have terms.
-/

namespace XmlSieve

open Operation

/-! ### Actions -/

/-- What an action asks of the stream, after the actions in `before`: of all that ask for output, only
the first does. -/
def Action.operation? (before : List Action) : Action → Option (Operation Unit)
  | subscribe event => some (.register (.on event .idle))
  | collect selector => some (.register (.collect selector))
  | preserve selector whitespace => some (.register (.preserve selector whitespace))
  | captureOutput => if captureOutput ∈ before then none else some (.register (.data fun _ => id))
  | feed chunk => some (.call (.feed chunk))
  | finish => some (.call .finish)
  | pause => some (.call .pause)
  | resume => some (.call .resume)
  | takeEvents _ | takeOutput | status => none

namespace Session

/-- Carries out actions one after the other. -/
def performAll (s : Session) : List Action → List (Except Raised Term) × Session
  | [] => ([], s)
  | action :: actions =>
    let rest := (s.perform action).2.performAll actions
    ((s.perform action).1 :: rest.1, rest.2)

/-- What actions ask of the stream one after the other, after those in `before`. -/
def operationsAfter (before : List Action) : List Action → List (Operation Unit)
  | [] => []
  | action :: actions =>
    (action.operation? before).toList ++ operationsAfter (before ++ [action]) actions

/-- What is done with the stream of a session in which these actions are carried out. -/
def operations (actions : List Action) : List (Operation Unit) :=
  .register (.atEnd id) :: .register (.atError fun _ => id) :: operationsAfter [] actions

/-- The pairs of events and elements that were returned, one list after the other. -/
def eventsIn (actions : List Action) (answers : List (Except Raised Term)) : List Term :=
  (actions.zip answers).flatMap fun
    | (.takeEvents _, .ok (.list terms)) => terms
    | _ => []

/-- The output that was returned, one piece after the other. -/
def outputIn (actions : List Action) (answers : List (Except Raised Term)) : Bytes :=
  (actions.zip answers).flatMap fun
    | (.takeOutput, .ok (.binary bytes)) => bytes
    | _ => []

variable {actions : List Action}

theorem performAll_concat (s : Session) (actions : List Action) (action : Action) :
    s.performAll (actions ++ [action]) =
      ((s.performAll actions).1 ++ [((s.performAll actions).2.perform action).1],
        ((s.performAll actions).2.perform action).2) := by
  induction actions generalizing s with
  | nil => rfl
  | cons first actions ih =>
    rw [List.cons_append, performAll, ih]
    rfl

theorem length_performAll (s : Session) (actions : List Action) :
    (s.performAll actions).1.length = actions.length := by
  induction actions generalizing s with
  | nil => rfl
  | cons first actions ih => exact congrArg (· + 1) (ih _)

theorem zip_concat (s : Session) (actions : List Action) (action : Action) :
    (actions ++ [action]).zip (s.performAll (actions ++ [action])).1 =
      actions.zip (s.performAll actions).1 ++
        [(action, ((s.performAll actions).2.perform action).1)] := by
  rw [performAll_concat, List.zip_append (length_performAll _ _).symm]
  rfl

theorem eventsIn_concat (s : Session) (actions : List Action) (action : Action) :
    eventsIn (actions ++ [action]) (s.performAll (actions ++ [action])).1 =
      eventsIn actions (s.performAll actions).1 ++
        eventsIn [action] [((s.performAll actions).2.perform action).1] := by
  rw [eventsIn, zip_concat, List.flatMap_append]
  rfl

theorem outputIn_concat (s : Session) (actions : List Action) (action : Action) :
    outputIn (actions ++ [action]) (s.performAll (actions ++ [action])).1 =
      outputIn actions (s.performAll actions).1 ++
        outputIn [action] [((s.performAll actions).2.perform action).1] := by
  rw [outputIn, zip_concat, List.flatMap_append]
  rfl

theorem eventsIn_takeEvents (max : Nat) (terms : List Term) :
    eventsIn [.takeEvents max] [.ok (.list terms)] = terms := List.append_nil _

theorem outputIn_takeOutput (bytes : Bytes) :
    outputIn [.takeOutput] [.ok (.binary bytes)] = bytes := List.append_nil _

theorem operationsAfter_concat (before actions : List Action) (action : Action) :
    operationsAfter before (actions ++ [action]) =
      operationsAfter before actions ++ (action.operation? (before ++ actions)).toList := by
  induction actions generalizing before with
  | nil => simp [operationsAfter]
  | cons first actions ih =>
    rw [List.cons_append, operationsAfter, ih, operationsAfter, List.append_assoc,
      List.append_assoc]
    rfl

theorem operations_concat (actions : List Action) (action : Action) :
    operations (actions ++ [action]) =
      operations actions ++ (action.operation? actions).toList := by
  rw [operations, operationsAfter_concat]
  rfl

/-- Sessions only make calls, and register listeners that have nothing to do here. -/
theorem plain_of_mem_operations {operation : Operation Unit} (h : operation ∈ operations actions) :
    operation.Plain := by
  induction actions using List.reverseRecOn with
  | nil =>
    simp only [operations, operationsAfter, List.mem_cons, List.not_mem_nil, or_false] at h
    rcases h with rfl | rfl <;> trivial
  | append_singleton actions action ih =>
    rw [operations_concat] at h
    rcases List.mem_append.1 h with h | h
    · exact ih h
    · rw [Option.mem_toList] at h
      cases action with
      | subscribe event =>
        cases h
        exact rfl
      | captureOutput =>
        rw [Action.operation?] at h
        split at h <;> cases h
        trivial
      | collect | preserve | feed | finish | pause | resume =>
        cases h
        trivial
      | takeEvents | takeOutput | status => cases h

theorem still_of_mem_registrations (actions : List Action) :
    ∀ r ∈ registrations (operations actions), r.Still := by
  intro r hr
  obtain ⟨operation, hmem, hr⟩ := List.mem_filterMap.1 hr
  cases operation with
  | register r' =>
    cases hr
    exact Registration.Idle.still (plain_of_mem_operations hmem)
  | call | abort => cases hr

theorem exists_mapM {queue : List QueuedMatch}
    (h : ∀ m ∈ queue, ∃ term, Term.ofMatch? m = some term) :
    ∃ terms, queue.mapM Term.ofMatch? = some terms := by
  induction queue with
  | nil => exact ⟨[], rfl⟩
  | cons m queue ih =>
    obtain ⟨⟨term, hterm⟩, hrest⟩ := List.forall_mem_cons.1 h
    obtain ⟨terms, hterms⟩ := ih hrest
    exact ⟨term :: terms, by rw [List.mapM_cons, hterm, hterms]; rfl⟩

/-! ### One action more -/

theorem answerRun_run {s : Session} {verdict : Verdict} {stream : Stream Outbox}
    {f : Stream Outbox → Except Misuse (Verdict × Stream Outbox)}
    (h : f s.stream = .ok (verdict, stream)) :
    s.answerRun (s.run f) = (.ok (Term.ofVerdict verdict), { s with stream }) := by
  rw [run, h]
  rfl

/-- An action that asks something of the stream is answered when this is done, and returns nothing
that was kept. -/
theorem perform_asked {s : Session} {before : List Action} {action : Action}
    {operation : Operation Unit} {verdict : Verdict} {stream : Stream Outbox}
    (hcapturing : s.capturing = decide (.captureOutput ∈ before))
    (hasked : action.operation? before = some operation)
    (hoperate : s.stream.operate operation.recorded = .ok (verdict, stream)) :
    ∃ term, s.perform action =
        (.ok term, { stream, capturing := decide (.captureOutput ∈ before ++ [action]) }) ∧
      eventsIn [action] [.ok term] = [] ∧ outputIn [action] [.ok term] = [] := by
  -- Whether output is kept changes with no other action.
  have hkept (h : action ≠ .captureOutput) :
      decide (.captureOutput ∈ before ++ [action]) = s.capturing := by
    rw [hcapturing, decide_eq_decide, List.mem_append, List.mem_singleton]
    exact or_iff_left h.symm
  cases action with
  | subscribe | collect | preserve =>
    cases hasked
    cases hoperate
    rw [hkept (by simp)]
    exact ⟨_, rfl, rfl, rfl⟩
  | captureOutput =>
    rw [Action.operation?] at hasked
    split at hasked
    · cases hasked
    · next hfirst =>
      cases hasked
      cases hoperate
      refine ⟨.tuple [], ?_, rfl, rfl⟩
      rw [perform, captureOutput, hcapturing, decide_eq_false hfirst, if_neg (by simp),
        decide_eq_true (by simp)]
      rfl
  | feed chunk =>
    cases hasked
    rw [hkept (by simp)]
    exact ⟨_, answerRun_run (f := (·.feed chunk)) hoperate, rfl, rfl⟩
  | finish =>
    cases hasked
    rw [hkept (by simp)]
    exact ⟨_, answerRun_run (f := (·.finish)) hoperate, rfl, rfl⟩
  | pause =>
    cases hasked
    cases hoperate
    rw [hkept (by simp)]
    exact ⟨_, rfl, rfl, rfl⟩
  | resume =>
    cases hasked
    rw [hkept (by simp)]
    exact ⟨_, answerRun_run (f := (·.resume)) hoperate, rfl, rfl⟩
  | takeEvents | takeOutput | status => cases hasked

/-- What has come of actions in a new session, where the same was done with the stream `t` and what
was taken is given. -/
structure Recorded (actions : List Action) (t : Stream (Journal Unit)) (taken : List QueuedMatch)
    (output : String) : Prop where
  operated : ∃ verdicts, (Stream.create ({ env := () } : Journal Unit)).operateAll
    (loggedFrom 0 (operations actions)) = .ok (verdicts, t)
  capturing : (create.performAll actions).2.capturing = decide (.captureOutput ∈ actions)
  tallies : (create.performAll actions).2.stream.Tallies t taken output
  answered : ∀ answer ∈ (create.performAll actions).1, ∃ term, answer = .ok term
  events : taken.mapM Term.ofMatch? = some (eventsIn actions (create.performAll actions).1)
  output : Bytes.encode output = outputIn actions (create.performAll actions).1

namespace Recorded

variable {t u : Stream (Journal Unit)} {taken taken' : List QueuedMatch} {output output' : String}
  {action : Action}

/-- One action more. -/
theorem concat (h : Recorded actions t taken output) {term : Term} {s : Session}
    (hperform : (create.performAll actions).2.perform action = (.ok term, s))
    {verdicts : List Verdict}
    (hoperate : t.operateAll (loggedFrom (registrations (operations actions)).length
      (action.operation? actions).toList) = .ok (verdicts, u))
    (hcapturing : s.capturing = decide (.captureOutput ∈ actions ++ [action]))
    (htallies : s.stream.Tallies u taken' output')
    (hevents : taken'.mapM Term.ofMatch? = some
      (eventsIn actions (create.performAll actions).1 ++ eventsIn [action] [.ok term]))
    (houtput : Bytes.encode output' =
      outputIn actions (create.performAll actions).1 ++ outputIn [action] [.ok term]) :
    Recorded (actions ++ [action]) u taken' output' := by
  obtain ⟨earlier, hearlier⟩ := h.operated
  have hall := performAll_concat create actions action
  refine ⟨⟨earlier ++ verdicts, ?_⟩, ?_, ?_, ?_, ?_, ?_⟩
  · rw [operations_concat, loggedFrom_append, Nat.zero_add]
    exact Stream.operateAll_append hearlier hoperate
  · rw [hall, hperform]
    exact hcapturing
  · rw [hall, hperform]
    exact htallies
  · rw [hall, hperform]
    exact List.forall_mem_append.2 ⟨h.answered, List.forall_mem_singleton.2 ⟨term, rfl⟩⟩
  · rw [eventsIn_concat, hperform]
    exact hevents
  · rw [outputIn_concat, hperform]
    exact houtput

theorem sound (h : Recorded actions t taken output) : t.Sound := by
  obtain ⟨verdicts, hrun⟩ := h.operated
  exact (Stream.operateAll_preserves (P := fun _ => True) (fun _ _ _ _ => trivial) (.create _)
    trivial hrun).1

theorem events_of_none (h : Recorded actions t taken output) {answer : Except Raised Term}
    (hnone : eventsIn [action] [answer] = []) :
    taken.mapM Term.ofMatch? = some
      (eventsIn actions (create.performAll actions).1 ++ eventsIn [action] [answer]) := by
  rw [hnone, List.append_nil]
  exact h.events

theorem output_of_none (h : Recorded actions t taken output) {answer : Except Raised Term}
    (hnone : outputIn [action] [answer] = []) :
    Bytes.encode output =
      outputIn actions (create.performAll actions).1 ++ outputIn [action] [answer] := by
  rw [hnone, List.append_nil]
  exact h.output

/-- An action that asks nothing of the stream. -/
theorem unasked (h : Recorded actions t taken output) (hasked : action.operation? actions = none)
    {term : Term} {f : Outbox → Outbox}
    (hperform : (create.performAll actions).2.perform action =
      (.ok term, { (create.performAll actions).2 with
        stream := (create.performAll actions).2.stream.modifyEnv f }))
    (hback : (f (create.performAll actions).2.outbox).onto taken' output' =
      (create.performAll actions).2.outbox.onto taken output)
    (hcapturing : action = .captureOutput → .captureOutput ∈ actions)
    (hevents : taken'.mapM Term.ofMatch? = some
      (eventsIn actions (create.performAll actions).1 ++ eventsIn [action] [.ok term]))
    (houtput : Bytes.encode output' =
      outputIn actions (create.performAll actions).1 ++ outputIn [action] [.ok term]) :
    Recorded (actions ++ [action]) t taken' output' := by
  have hoperate : t.operateAll (loggedFrom (registrations (operations actions)).length
      (action.operation? actions).toList) = .ok ([], t) := by
    rw [hasked]
    rfl
  refine h.concat hperform hoperate ?_ (h.tallies.take hback) hevents houtput
  refine h.capturing.trans (decide_eq_decide.2 ?_)
  rw [List.mem_append, List.mem_singleton]
  exact (or_iff_left_of_imp fun heq => hcapturing heq.symm).symm

/-- What is done with the streams first, when a session is made. -/
theorem nil : ∃ t, Recorded [] t [] "" := by
  obtain ⟨_, s, u, hs, hu, hended⟩ :=
    (Stream.Tallies.create ()).operate (.create _)
      (show (register (.atEnd id)).Plain from trivial) 0
  obtain ⟨_, _, t, hsession, ht, htallies⟩ :=
    hended.operate (Stream.operate_sound (.create _) hu)
      (show (register (.atError fun _ => id)).Plain from trivial) 1
  cases hs
  cases hsession
  exact ⟨t, ⟨_, Stream.operateAll_cons hu (Stream.operateAll_cons ht rfl)⟩, rfl, htallies,
    by simp [performAll], rfl, rfl⟩

/-- The elements that are queued have terms. -/
theorem exists_terms (h : Recorded actions t taken output) :
    ∀ m ∈ (create.performAll actions).2.outbox.queue, ∃ term, Term.ofMatch? m = some term := by
  obtain ⟨verdicts, hrun⟩ := h.operated
  have hkeyed := (Stream.told_together (still_of_mem_registrations actions) hrun).wellKeyed
    (fun g hg => absurd hg (List.not_mem_nil))
  have hqueue : taken ++ (create.performAll actions).2.outbox.queue = t.env.queue :=
    congrArg Outbox.queue h.tallies.onto_env
  intro m hm
  have hmem : m ∈ t.env.queue := hqueue ▸ List.mem_append_right taken hm
  obtain ⟨g, hg, rfl⟩ := List.mem_map.1 hmem
  obtain ⟨term, hterm⟩ := Term.exists_ofElement? _ (hkeyed g hg)
  exact ⟨_, congrArg (Option.map _) hterm⟩

/-- What is told next is told to both streams. -/
theorem asked (h : Recorded actions t taken output) {operation : Operation Unit}
    (hasked : action.operation? actions = some operation) :
    ∃ t', Recorded (actions ++ [action]) t' taken output := by
  have hmem : operation ∈ operations (actions ++ [action]) := by
    rw [operations_concat, hasked]
    exact List.mem_append_right _ (List.mem_singleton.2 rfl)
  obtain ⟨verdict, u, v, hu, hv, htallies⟩ :=
    h.tallies.operate h.sound (plain_of_mem_operations hmem)
      (registrations (operations actions)).length
  obtain ⟨term, hperform, hevents, houtput⟩ := perform_asked h.capturing hasked hu
  have hoperate : t.operateAll (loggedFrom (registrations (operations actions)).length
      (action.operation? actions).toList) = .ok ([verdict], v) := by
    rw [hasked, Option.toList_some, loggedFrom_singleton]
    exact Stream.operateAll_cons hv rfl
  exact ⟨v, h.concat hperform hoperate rfl htallies (h.events_of_none hevents)
    (h.output_of_none houtput)⟩

/-- Any action more. -/
theorem step (h : Recorded actions t taken output) (action : Action) :
    ∃ t' taken' output', Recorded (actions ++ [action]) t' taken' output' := by
  cases hasked : action.operation? actions with
  | some operation =>
    obtain ⟨t', hmore⟩ := h.asked hasked
    exact ⟨t', _, _, hmore⟩
  | none =>
    cases action with
    | takeEvents max =>
      obtain ⟨terms, hterms⟩ := exists_mapM fun m hm => h.exists_terms m (List.mem_of_mem_take hm)
      have hperform : (create.performAll actions).2.perform (.takeEvents max) =
          (.ok (.list terms), ((create.performAll actions).2.takeMatches max).2) := by
        have hlist : Term.ofMatches? ((create.performAll actions).2.outbox.queue.take max) =
            some (.list terms) := congrArg (Option.map Term.list) hterms
        simp only [perform, takeMatches, hlist]
        rfl
      refine ⟨t, taken ++ (create.performAll actions).2.outbox.queue.take max, output,
        h.unasked hasked hperform ?_ (by simp) ?_ (h.output_of_none rfl)⟩
      · simp [Outbox.onto]
      · rw [List.mapM_append, h.events, hterms, eventsIn_takeEvents]
        rfl
    | takeOutput =>
      refine ⟨t, taken, output ++ (create.performAll actions).2.outbox.output,
        h.unasked hasked (f := fun o => { o with output := "" }) rfl ?_ (by simp)
          (h.events_of_none rfl) ?_⟩
      · simp [Outbox.onto]
      · rw [Bytes.encode_append, h.output, Term.ofString, outputIn_takeOutput]
    | status =>
      exact ⟨t, taken, output, h.unasked hasked (f := id) rfl rfl (by simp)
        (h.events_of_none rfl) (h.output_of_none rfl)⟩
    | captureOutput =>
      have hmem : .captureOutput ∈ actions := by simpa [Action.operation?] using hasked
      have hperform : (create.performAll actions).2.perform .captureOutput =
          (.ok (.tuple []), (create.performAll actions).2) := by
        rw [perform, captureOutput, if_pos (h.capturing.trans (decide_eq_true hmem))]
      exact ⟨t, taken, output, h.unasked hasked (f := id) hperform rfl (fun _ => hmem)
        (h.events_of_none rfl) (h.output_of_none rfl)⟩
    | subscribe | collect | preserve | feed | finish | pause | resume => cases hasked

/-- What is done with a session leads to what can be done with a stream whose listeners write down
what they are told. -/
theorem exists_recorded (actions : List Action) :
    ∃ t taken output, Recorded actions t taken output := by
  induction actions using List.reverseRecOn with
  | nil =>
    obtain ⟨t, h⟩ := Recorded.nil
    exact ⟨t, [], "", h⟩
  | append_singleton actions action ih =>
    obtain ⟨t, taken, output, h⟩ := ih
    exact h.step action

end Recorded

/-! ### The main theorem -/

/-- Nothing is lost, repeated or reordered on its way through a session.  Whatever is done with a new
session is answered.  Let the same be done with a stream whose listeners write down what they are
told of.  Then the events that were returned and those that are still queued make up the matches
that they were told of, for each of which everyone who had subscribed was told once.  The output
that was returned and what is still kept make up what was written to the one data listener from when
output was first asked for.  The status counts what was not taken, and there is not both an end and
an error. -/
theorem performAll_exact (actions : List Action) :
    ∃ answers s verdicts t taken,
      create.performAll actions = (answers, s) ∧
      (∀ answer ∈ answers, ∃ term, answer = .ok term) ∧
      (Stream.create ({ env := () } : Journal Unit)).operateAll
        (loggedFrom 0 (operations actions)) = .ok (verdicts, t) ∧
      Stream.ToldTogether [] (Stream.create { env := () }) (operations actions) t ∧
      taken.mapM Term.ofMatch? = some (eventsIn actions answers) ∧
      taken ++ s.outbox.queue = t.env.queue ∧
      outputIn actions answers ++ Bytes.encode s.outbox.output =
        t.env.fragments.flatMap Bytes.encode ∧
      s.perform .status = (.ok (.tuple [Term.ofPhase t.phase, Term.ofNat s.outbox.queue.length,
        Term.ofNat (Bytes.encode s.outbox.output).length, Term.ofBool t.isPaused,
        Term.ofNat t.line]), s) ∧
      ¬ (s.outbox.ended = true ∧ s.outbox.error ≠ none) := by
  obtain ⟨t, taken, output, h⟩ := Recorded.exists_recorded actions
  obtain ⟨verdicts, hrun⟩ := h.operated
  have honto : (create.performAll actions).2.outbox.onto taken output = Outbox.ofJournal t.env :=
    h.tallies.onto_env
  refine ⟨_, _, verdicts, t, taken, rfl, h.answered, hrun,
    Stream.told_together (still_of_mem_registrations actions) hrun, h.events,
    congrArg Outbox.queue honto, ?_, ?_, ?_⟩
  · rw [← h.output, ← Bytes.encode_append, ← Bytes.encode_join]
    exact congrArg (fun o => Bytes.encode o.output) honto
  · obtain ⟨hphase, hpaused, hline⟩ := h.tallies.reached
    rw [← hphase, ← hpaused, ← hline, Bytes.length_encode]
    rfl
  · rintro ⟨hended, herror⟩
    have hends : (!t.env.ends.isEmpty) = true := (congrArg Outbox.ended honto).symm.trans hended
    have hfailures : t.env.failures.getLast?.map (·.2.message) ≠ none :=
      fun hnone => herror ((congrArg Outbox.error honto).trans hnone)
    rcases (Stream.operateAll_final hrun).exclusive with hnone | hnone | haborts
    · rw [hnone] at hends
      cases hends
    · rw [hnone] at hfailures
      exact hfailures rfl
    · obtain ⟨before, e, after, -, -, heq, -⟩ := haborts
      exact plain_of_mem_operations (heq ▸ List.mem_append_right before (.head _))

end Session

end XmlSieve
