import XmlSieve.Proofs.Stream.Finality

/-!
# A fault surfaces once

Where the tokenizer answers an error, the call that made it ask returns the error, everything before
it has been delivered, and every listener for errors that was registered by then is told of it
(`Surfacing`).  Earlier calls have returned no error but that the stream is closed for input, and
from then on the stream refuses what is done with it and stays as it is (`fault_surfaces`).
-/

namespace XmlSieve

variable {σ : Type}

namespace Stream

variable {s t b c : Stream σ} {verdict : Verdict} {verdicts : List Verdict} {call : Call}
  {operation : Operation σ} {operations : List (Operation σ)} {registered : List (Registration σ)}

/-! ### Before a stream fails -/

/-- A call that delivers nothing returns no error, or that the stream is closed. -/
theorem verdict_of_not_delivers (hd : s.delivers call = false)
    (h : s.perform call = .ok (verdict, t)) : verdict = .ok () ∨ verdict = .error .closed := by
  cases call with
  | feed chunk =>
    rw [perform, feed_over (of_decide_eq_false hd)] at h
    cases h
    exact .inr rfl
  | finish =>
    rw [perform, finish_over (of_decide_eq_false hd)] at h
    cases h
    exact .inr rfl
  | pause =>
    cases h
    exact .inl rfl
  | resume =>
    rw [perform, resume_eq] at h
    rw [delivers] at hd
    cases hp : s.phase with
    | accepting | finishing =>
      rw [hp] at hd
      cases hd
    | ended =>
      rw [hp] at h
      cases h
      exact .inl rfl
    | failed =>
      rw [hp] at h
      cases h
      exact .inr rfl

/-- An operation that does not fail the stream takes what it delivers off the forecast, and returns
no error, or that the stream is closed. -/
theorem operate_forecast (registered : List (Registration σ)) (hs : s.Sound) (ha : s.Aware)
    (h : s.operate operation = .ok (verdict, t)) (hp : t.phase ≠ .failed) (after : Bytes × Bool) :
    s.forecast (operation.call?.toList.foldr Call.toCome after).1
        (operation.call?.toList.foldr Call.toCome after).2 =
      ⟨(s.deliveriesIn registered operation).map (·.token), none⟩ ++ t.forecast after.1 after.2 ∧
    (verdict = .ok () ∨ verdict = .error .closed) := by
  cases operation with
  | register r =>
    cases h
    obtain ⟨htokenizer, hphase, -, -⟩ := s.register_input r
    refine ⟨?_, .inl rfl⟩
    rw [forecast, forecast, htokenizer, hphase]
    exact (Transcript.nil_append _).symm
  | call call =>
    rw [Operation.call?, Option.toList_some, List.foldr_cons, List.foldr_nil, ← forecast_prospective.noted,
      deliveriesIn]
    cases performs hs h with
    | drained hd hdrain =>
      have hl := live_of_delivers hd
      have hverdict : verdict = .ok () := by
        cases drain_outcome registered ((ha.noted call).unfailed hl) hdrain with
        | held | ended => rfl
        | failed => exact absurd rfl hp
      rw [if_pos hd, drain_forecast registered (hs.noted call) hl hdrain, hverdict]
      exact ⟨rfl, .inl rfl⟩
    | noted hd =>
      rw [if_neg (by simp [hd])]
      exact ⟨(Transcript.nil_append _).symm, verdict_of_not_delivers hd h⟩
  | abort e =>
    cases h
    unfold abort at hp
    split at hp
    · next hfailed => exact absurd hfailed hp
    · exact absurd rfl hp

/-- A stream that has not failed has told the first of what it forecast, and forecasts the rest. -/
theorem operateAll_forecast (registered : List (Registration σ)) (hs : s.Sound) (ha : s.Aware)
    (h : s.operateAll operations = .ok (verdicts, t)) (hp : t.phase ≠ .failed)
    (after : Bytes × Bool) :
    s.forecast ((Operation.calls operations).foldr Call.toCome after).1
        ((Operation.calls operations).foldr Call.toCome after).2 =
      ⟨(s.history registered operations).map (·.token), none⟩ ++ t.forecast after.1 after.2 ∧
    ∀ verdict ∈ verdicts, verdict = .ok () ∨ verdict = .error .closed := by
  induction operations generalizing s registered verdicts with
  | nil =>
    cases h
    exact ⟨(Transcript.nil_append _).symm, by simp⟩
  | cons operation operations ih =>
    obtain ⟨verdict, u, rest, hu, hrest, rfl⟩ := exists_of_operateAll_cons h
    have hup : u.phase ≠ .failed := by
      intro hfailed
      obtain ⟨v, hv, hsame⟩ := operateAll_failed hfailed operations
      rw [hrest] at hv
      cases hv
      exact hp (hsame.phase.trans hfailed)
    obtain ⟨hnow, hverdict⟩ := operate_forecast registered hs ha hu hup
      ((Operation.calls operations).foldr Call.toCome after)
    obtain ⟨hlater, hverdicts⟩ := ih (registered ++ operation.registration?.toList)
      (operate_sound hs hu) (operate_aware hs ha hu) hrest
    refine ⟨?_, List.forall_mem_cons.2 ⟨hverdict, hverdicts⟩⟩
    have hcalls : (Operation.calls (operation :: operations)).foldr Call.toCome after =
        operation.call?.toList.foldr Call.toCome
          ((Operation.calls operations).foldr Call.toCome after) := by
      rw [Operation.calls, List.filterMap_cons]
      cases operation.call? <;> rfl
    rw [hcalls, hnow, hlater, ← Transcript.append_assoc, history_cons hu, List.map_append]
    rfl

/-- What happens in the course of operations happens in one of them first. -/
theorem exists_turning {P : Stream σ → Prop} (hs : ¬ P s) (ht : P t)
    (h : s.operateAll operations = .ok (verdicts, t)) :
    ∃ before operation after first b verdict c rest, operations = before ++ operation :: after ∧
      verdicts = first ++ verdict :: rest ∧ s.operateAll before = .ok (first, b) ∧ ¬ P b ∧
      b.operate operation = .ok (verdict, c) ∧ P c ∧ c.operateAll after = .ok (rest, t) := by
  induction operations generalizing s verdicts with
  | nil =>
    cases h
    exact absurd ht hs
  | cons operation operations ih =>
    obtain ⟨verdict, u, rest, hu, hrest, rfl⟩ := exists_of_operateAll_cons h
    by_cases hP : P u
    · exact ⟨[], operation, operations, [], s, verdict, u, rest, rfl, rfl, rfl, hs, hu, hP, hrest⟩
    · obtain ⟨before, op, after, first, b, v, c, later, rfl, rfl, hfirst, hb, hop, hc, hlater⟩ :=
        ih hP hrest
      exact ⟨operation :: before, op, after, verdict :: first, b, v, c, later, rfl, rfl,
        operateAll_cons hu hfirst, hb, hop, hc, hlater⟩

/-- It is a call that makes the tokenizer fail, and it returns the error. -/
theorem call_of_failing (registered : List (Registration σ)) (hs : s.Sound) (ha : s.Aware)
    (hf : s.tokenizer.failed = false) (ht : t.tokenizer.failed = true)
    (h : s.operate operation = .ok (verdict, t)) :
    ∃ call e, operation = .call call ∧ verdict = .error e ∧ s.delivers call = true ∧
      (s.noted call).drain = .ok (.error e, t) ∧
      (s.noted call).Outcome (((s.noted call).deliveries registered).map (·.token)) (.error e) t := by
  cases operation with
  | register r =>
    cases h
    rw [(s.register_input r).1, hf] at ht
    cases ht
  | call call =>
    cases performs hs h with
    | drained hd hdrain =>
      have hout := drain_outcome registered ((ha.noted call).unfailed (live_of_delivers hd)) hdrain
      have hverdict : ∃ e, verdict = .error e := by
        cases hout with
        | held takes unfailed => exact absurd (ht.symm.trans unfailed) (by simp)
        | ended takes running phase unfailed => exact absurd (ht.symm.trans unfailed) (by simp)
        | failed => exact ⟨_, rfl⟩
      obtain ⟨e, rfl⟩ := hverdict
      exact ⟨call, e, rfl, rfl, hd, hdrain, hout⟩
    | noted hd =>
      rw [noted_failed, hf] at ht
      cases ht
  | abort e =>
    cases h
    unfold abort at ht
    split at ht <;> exact absurd (ht.symm.trans hf) (by simp)

/-! ### Streams that nobody aborts -/

/-- A stream that has failed for no other reason than that its tokenizer has. -/
def Blameless (s : Stream σ) : Prop := s.phase = .failed → s.tokenizer.failed = true

theorem operate_blameless (hs : s.Sound) (ha : s.Aware) (hb : s.Blameless)
    (hop : ∀ e, operation ≠ .abort e) (h : s.operate operation = .ok (verdict, t)) :
    t.Blameless := by
  cases operation with
  | register r =>
    cases h
    obtain ⟨htokenizer, hphase, -, -⟩ := s.register_input r
    rwa [Blameless, htokenizer, hphase]
  | call call =>
    rcases perform_outcome [] hs ha h with ⟨hd, hout⟩ | ⟨hd, rfl⟩
    · cases hout with
      | held => exact fun hp => absurd (live_of_delivers hd) (not_live_of_failed hp)
      | ended => exact fun hp => by cases hp
      | failed takes running failed fault => exact fun _ => failed
    · rwa [Blameless, noted_phase hd, noted_failed]
  | abort e => exact absurd rfl (hop e)

theorem register_isPaused (s : Stream σ) (r : Registration σ) :
    (s.register r).isPaused = s.isPaused := by
  obtain ⟨_, _, _, _, _, h, -⟩ := s.exists_register r
  rw [h]
  rfl

theorem Settled.create (env : σ) : (create env).Settled :=
  fun _ => ⟨by simp [Stream.create], fun _ => rfl⟩

theorem operate_settled (hs : s.Sound) (hset : s.Settled)
    (h : s.operate operation = .ok (verdict, t)) : t.Settled := by
  cases operation with
  | register r =>
    cases h
    obtain ⟨htokenizer, hphase, -, -⟩ := s.register_input r
    rwa [Settled, register_isPaused, htokenizer, hphase]
  | call call => exact perform_settled hs hset h
  | abort e =>
    cases h
    unfold abort
    split
    · exact hset
    · exact fun _ => ⟨by simp [fail], by simp [fail]⟩

/-- A stream that has failed only where its tokenizer has, and has delivered what it can unless it
is paused. -/
structure Orderly (s : Stream σ) : Prop where
  sound : s.Sound
  aware : s.Aware
  blameless : s.Blameless
  settled : s.Settled

theorem Orderly.create (env : σ) : (create env).Orderly :=
  ⟨.create env, .create env, by simp [Blameless, Stream.create], .create env⟩

theorem Orderly.operateAll (hs : s.Orderly) (habort : ∀ e, .abort e ∉ operations)
    (h : s.operateAll operations = .ok (verdicts, t)) : t.Orderly := by
  refine (operateAll_preserves (P := Orderly) (fun {_ _ operation _} hmem _ ho hop => ?_)
    hs.sound hs h).2
  have hne (e : StreamError) : operation ≠ .abort e := fun he => habort e (he ▸ hmem)
  exact ⟨operate_sound ho.sound hop, operate_aware ho.sound ho.aware hop,
    operate_blameless ho.sound ho.aware ho.blameless hne hop,
    operate_settled ho.sound ho.settled hop⟩

/-- What a stream forecasts where these calls are made. -/
def foretold (s : Stream σ) (calls : List Call) : Transcript :=
  s.forecast (calls.foldr Call.toCome ([], false)).1 (calls.foldr Call.toCome ([], false)).2

/-- A stream that has had no input forecasts what is heard. -/
theorem heard_eq_foretold (ht : s.tokenizer = {}) (hp : s.phase = .accepting) (calls : List Call) :
    Call.heard calls = s.foretold calls := by
  rw [foretold, foldr_toCome_nil, forecast, hp, ht]
  rfl

/-- Where nobody aborts, a stream that is not paused has met the error that was foretold. -/
theorem failed_of_foretold (hs : s.Orderly) (habort : ∀ e, .abort e ∉ operations)
    (h : s.operateAll operations = .ok (verdicts, t)) (hu : t.isPaused = false)
    (herror : (s.foretold (Operation.calls operations)).error ≠ none) :
    t.tokenizer.failed = true := by
  have ht := hs.operateAll habort h
  by_contra hunfailed
  have hforecast := (operateAll_forecast [] hs.sound hs.aware h
    (fun hp => hunfailed (ht.blameless hp)) ([], false)).1
  rw [ht.settled.forecast_eq hu] at hforecast
  refine herror ?_
  exact congrArg Transcript.error hforecast

/-- Where a call delivers up to an error, this is the first error that was foretold, whatever is
called later. -/
theorem foretold_of_error {e : StreamError} (registered : List (Registration σ)) (hs : s.Sound)
    (ha : s.Aware) (h : s.operateAll operations = .ok (verdicts, b)) (hl : (b.noted call).Live)
    (hdrain : (b.noted call).drain = .ok (.error e, t)) (hp : t.phase = .failed)
    (later : List Call) :
    s.foretold (Operation.calls operations ++ call :: later) =
        ⟨(s.history [] operations).map (·.token) ++
          ((b.noted call).deliveries registered).map (·.token), some e⟩ ∧
      ∀ verdict ∈ verdicts, verdict = .ok () ∨ verdict = .error .closed := by
  have hsound := (operateAll_preserves (P := fun _ => True) (fun _ _ _ _ => trivial) hs trivial h).1
  generalize hafter : later.foldr Call.toCome ([], false) = after
  obtain ⟨hbefore, hverdicts⟩ := operateAll_forecast [] hs ha h
    (fun hp => not_live_of_failed hp (live_of_noted hl)) (call.toCome after)
  have hcall : (b.noted call).forecast after.1 after.2 = _ :=
    drain_forecast registered (hsound.noted call) hl hdrain
  have hnothing : t.forecast after.1 after.2 = {} := by
    rw [forecast, hp]
  refine ⟨?_, hverdicts⟩
  rw [foretold, List.foldr_append, List.foldr_cons, hafter, hbefore, ← forecast_prospective.noted, hcall,
    hnothing]
  simp [Transcript.append_eq, Verdict.error?]

/-- Where the tokenizer has failed, an error was foretold. -/
theorem foretold_of_failed (hs : s.Sound) (ha : s.Aware) (hf : s.tokenizer.failed = false)
    (h : s.operateAll operations = .ok (verdicts, t)) (ht : t.tokenizer.failed = true) :
    (s.foretold (Operation.calls operations)).error ≠ none := by
  obtain ⟨before, _, after, first, b, verdict, c, rest, rfl, -, hb, hunfailed, hc, hfailed, -⟩ :=
    exists_turning (P := fun s => s.tokenizer.failed = true) (by simp [hf]) ht h
  obtain ⟨hbsound, hbaware⟩ :=
    operateAll_preserves (fun _ hs ha => operate_aware hs ha) hs ha hb
  obtain ⟨call, e, rfl, -, hd, hdrain, -⟩ :=
    call_of_failing [] hbsound hbaware (Bool.eq_false_iff.2 hunfailed) hfailed hc
  have hphase := operate_aware hbsound hbaware hc hfailed
  obtain ⟨hforetold, -⟩ := foretold_of_error [] hs ha hb (live_of_delivers hd) hdrain hphase
    (Operation.calls after)
  rw [Operation.calls_append]
  exact fun hnone => by cases (congrArg Transcript.error hforetold).symm.trans hnone

/-- Whether a stream that nobody aborts has failed by the time that it is not paused is foretold. -/
theorem failed_iff_foretold (hs : s.Orderly) (hf : s.tokenizer.failed = false)
    (habort : ∀ e, .abort e ∉ operations) (h : s.operateAll operations = .ok (verdicts, t))
    (hu : t.isPaused = false) :
    t.phase = .failed ↔ (s.foretold (Operation.calls operations)).error ≠ none := by
  have ht := hs.operateAll habort h
  constructor
  · exact fun hp => foretold_of_failed hs.sound hs.aware hf h (ht.blameless hp)
  · exact fun herror => ht.aware (failed_of_foretold hs habort h hu herror)

end Stream

/-! ### The operations that were logged -/

namespace Operation

theorem refusal_logged (n : Nat) (operation : Operation σ) :
    (operation.logged n).refusal = operation.refusal := by
  cases operation <;> rfl

theorem map_refusal_loggedFrom (n : Nat) (operations : List (Operation σ)) :
    (loggedFrom n operations).map (·.refusal) = operations.map (·.refusal) := by
  induction operations generalizing n with
  | nil => rfl
  | cons operation operations ih =>
    rw [loggedFrom_cons, List.map_cons, List.map_cons, ih, refusal_logged]

/-- Where logged operations are split, so are the operations. -/
theorem exists_of_loggedFrom_append {n : Nat} {operations : List (Operation σ)}
    {front back : List (Operation (Journal σ))} (h : loggedFrom n operations = front ++ back) :
    ∃ early late, operations = early ++ late ∧ front = loggedFrom n early ∧
      back = loggedFrom (n + (registrations early).length) late := by
  induction front generalizing n operations with
  | nil => exact ⟨[], operations, rfl, rfl, h.symm⟩
  | cons first front ih =>
    cases operations with
    | nil => cases h
    | cons operation operations =>
      rw [loggedFrom_cons] at h
      obtain ⟨rfl, hrest⟩ := List.cons.inj h
      obtain ⟨early, late, rfl, rfl, rfl⟩ := ih hrest
      refine ⟨operation :: early, late, rfl, (loggedFrom_cons n operation early).symm, ?_⟩
      rw [Nat.add_assoc, ← List.length_append, ← registrations_append, List.singleton_append]

/-- A call that is logged was made. -/
theorem exists_of_loggedFrom_call {n : Nat} {operations : List (Operation σ)} {call : Stream.Call}
    {back : List (Operation (Journal σ))} (h : loggedFrom n operations = .call call :: back) :
    ∃ late, operations = .call call :: late ∧ back = loggedFrom n late := by
  cases operations with
  | nil => cases h
  | cons operation late =>
    rw [loggedFrom_cons] at h
    obtain ⟨hfirst, rfl⟩ := List.cons.inj h
    cases operation with
    | register | abort => cases hfirst
    | call => cases hfirst; exact ⟨late, rfl, rfl⟩

end Operation

open Operation Registration

namespace Stream

/-- How the error of the tokenizer surfaces in operations that answer `verdicts` and lead to `s`. -/
structure Surfacing (env : σ) (operations : List (Operation σ)) (verdicts : List Verdict)
    (s : Stream (Journal σ)) where
  before : List (Operation σ)
  /-- The call that returns it. -/
  call : Call
  after : List (Operation σ)
  error : StreamError
  first : List Verdict
  /-- The stream before the call. -/
  found : Stream (Journal σ)
  /-- The tokens that the call delivers. -/
  tokens : List Token
  /-- The assembly that has taken everything before the error. -/
  last : Assembly (Journal σ)
  /-- The stream after the call. -/
  left : Stream (Journal σ)
  split : operations = before ++ .call call :: after
  reached : (create ({ env } : Journal σ)).operateAll (loggedFrom 0 before) = .ok (first, found)
  returned : found.perform call = .ok (.error error, left)
  /-- No other call returns it, and the later ones are refused. -/
  answers : verdicts = first ++ .error error :: after.map (·.refusal)
  earlier : ∀ verdict ∈ first, verdict = .ok () ∨ verdict = .error .closed
  fault : error ≠ .closed
  /-- It is the first error of the input, and everything before it is delivered. -/
  heard : Call.heard (calls operations) =
    ⟨((create ({ env } : Journal σ)).history [] (loggedFrom 0 before)).map (·.token) ++ tokens,
      some error⟩
  delivered : (found.noted call).assembly.Takes tokens last
  /-- Nobody was told before that the stream is over, and then the listeners for errors are, each
  that was registered by then and in this order. -/
  silent : last.env.finals = ([], [])
  told : left.env.notices =
    last.env.notices ++ (errorIds (registrations before)).map (.failed · error)
  once : (errorIds (registrations before)).Nodup
  phase : left.phase = .failed
  stays : left.Unchanged s

/-- Where the tokenizer has failed, its error has surfaced. -/
theorem exists_surfacing {env : σ} {operations : List (Operation σ)} {s : Stream (Journal σ)}
    (hrun : (create ({ env } : Journal σ)).operateAll (loggedFrom 0 operations) =
      .ok (verdicts, s)) (hs : s.tokenizer.failed = true) :
    Nonempty (Surfacing env operations verdicts s) := by
  have hcreate : (create ({ env } : Journal σ)).Sound := .create _
  obtain ⟨_, _, _, first, b, verdict, c, rest, hsplit, rfl, hfirst, hb, hc, hfailed, hrest⟩ :=
    exists_turning (P := fun s => s.tokenizer.failed = true) (by simp [create]) hs hrun
  obtain ⟨before, late, rfl, rfl, hlate⟩ := exists_of_loggedFrom_append hsplit
  obtain ⟨hbsound, haware⟩ :=
    operateAll_preserves (fun _ hs ha => operate_aware hs ha) hcreate (.create _) hfirst
  have hattended := (Attended.create env).operateAll hcreate (.create _) hfirst
  obtain ⟨call, e, rfl, rfl, hd, hdrain, hout⟩ :=
    call_of_failing [] hbsound haware (Bool.eq_false_iff.2 hb) hfailed hc
  have hl := live_of_delivers hd
  obtain ⟨after, rfl, rfl⟩ := exists_of_loggedFrom_call hlate.symm
  have hphase : c.phase = .failed := by
    cases hout
    rfl
  obtain ⟨u, hu, hstays⟩ := operateAll_failed hphase (loggedFrom _ after)
  rw [hrest] at hu
  cases hu
  cases hout with
  | @failed tokenizer last e takes running failed fault =>
    obtain ⟨hfinals, hlast⟩ := (hattended.noted call).takes takes tokenizer
    obtain ⟨hforetold, hearlier⟩ :=
      foretold_of_error [] hcreate (.create _) hfirst hl hdrain hphase (calls after)
    have hnobody := (operateAll_final hfirst).live (live_of_noted hl)
    exact ⟨{
      before, call, after, error := e, first, found := b, tokens := _, last, left := _
      split := rfl
      reached := hfirst
      returned := hc
      answers := by rw [map_refusal_loggedFrom]
      earlier := hearlier
      fault
      heard := by
        rw [calls_append, ← hforetold, calls_loggedFrom]
        exact heard_eq_foretold rfl rfl _
      delivered := takes
      silent := by rw [hfinals, noted_env, hnobody]
      told := hlast.fail e
      once := nodup_idsOf _ _
      phase := rfl
      stays := hstays }⟩

/-- An error of the tokenizer surfaces once and closes the stream for good: if operations that nobody
aborts leave the stream not paused and their input has an error, the tokenizer has failed, for good;
and where it has, the error has surfaced. -/
theorem fault_surfaces (env : σ) (operations : List (Operation σ)) :
    ∃ verdicts s,
      (create ({ env } : Journal σ)).operateAll (loggedFrom 0 operations) = .ok (verdicts, s) ∧
      (∀ early late, operations = early ++ late → (∀ e, .abort e ∉ early) → ∃ first t,
        (create ({ env } : Journal σ)).operateAll (loggedFrom 0 early) = .ok (first, t) ∧
        (t.isPaused = false → (Call.heard (calls early)).error ≠ none →
          s.tokenizer.failed = true)) ∧
      (s.tokenizer.failed = true → Nonempty (Surfacing env operations verdicts s)) := by
  have hcreate : (create ({ env } : Journal σ)).Sound := .create _
  obtain ⟨verdicts, s, hrun⟩ := operateAll_ok hcreate (loggedFrom 0 operations)
  refine ⟨verdicts, s, hrun, ?_, exists_surfacing hrun⟩
  rintro early late rfl habort
  rw [loggedFrom_append] at hrun
  obtain ⟨first, t, rest, hfirst, hrest, -⟩ := exists_of_operateAll_append hrun
  refine ⟨first, t, hfirst, fun hu herror => ?_⟩
  have ht := failed_of_foretold (.create _) (fun e he => habort e (mem_of_abort_mem_loggedFrom he))
    hfirst hu (by rwa [← heard_eq_foretold rfl rfl, calls_loggedFrom])
  obtain ⟨-, haware⟩ :=
    operateAll_preserves (fun _ hs ha => operate_aware hs ha) hcreate (.create _) hfirst
  obtain ⟨u, hu, hsame⟩ := operateAll_failed (haware ht) (loggedFrom _ late)
  rw [hrest] at hu
  cases hu
  rw [hsame.tokenizer, ht]

/-- An end tag that matches nothing, fed while delivery is paused. -/
example :
    ((create ({ env := () } : Journal Unit)).operateAll (loggedFrom 0 [.register (.atError fun _ => id),
        .call .pause, .call (.feed (Bytes.ascii ['<', 'a', '>', '<', '/', 'b', '>'])), .call .resume,
        .call .finish, .abort (.readFailed "")])).map
      (fun (verdicts, s) => (verdicts.map (·.error?), s.tokenizer.failed, s.env.failures, s.depth)) =
    .ok ([none, none, none, some (.malformed .mismatchedTag 1), some .closed, some (.readFailed "")],
      true, [(0, .malformed .mismatchedTag 1)], 1) := by
  decide +kernel

end Stream

end XmlSieve
