import XmlSieve.Proofs.Stream.Readers

/-!
# Driving a stream is feeding it

A session with a reader tells the listeners what they are told when the bytes that were read are fed
at once to a stream of its own and the input is ended there, or the stream aborted where a read
failed (`Reader.session_eq_fed`).
-/

namespace XmlSieve

variable {σ : Type}

namespace Stream

variable {s t u : Stream σ} {call : Call} {verdict : Verdict} {operation : Operation σ}

/-! ### Calls as operations -/

theorem calls_map_call (calls : List Call) :
    Operation.calls (calls.map (.call : Call → Operation σ)) = calls := by
  rw [Operation.calls, List.filterMap_map]
  exact List.filterMap_some

theorem run_append {calls more : List Call} {verdicts rest : List Verdict}
    (h : s.run calls = .ok (verdicts, t)) (hmore : t.run more = .ok (rest, u)) :
    s.run (calls ++ more) = .ok (verdicts ++ rest, u) := by
  rw [← operateAll_calls] at h hmore ⊢
  rw [List.map_append]
  exact operateAll_append h hmore

/-! ### Seeing operations through -/

/-- What comes of an operation and of resuming for as long as delivery is paused. -/
inductive SeesThrough : Stream σ → Operation σ → Stream σ → Prop where
  | done {s t : Stream σ} {operation : Operation σ} {verdict : Verdict}
      (operate : s.operate operation = .ok (verdict, t)) (running : t.isPaused = false) :
      SeesThrough s operation t
  | resumed {s t u : Stream σ} {operation : Operation σ} {verdict : Verdict}
      (operate : s.operate operation = .ok (verdict, t)) (paused : t.isPaused = true)
      (rest : SeesThrough t (.call .resume) u) : SeesThrough s operation u

theorem SeesThrough.operateAll (h : s.SeesThrough operation t) :
    ∃ n verdicts, s.operateAll (operation :: .replicate n (.call .resume)) = .ok (verdicts, t) ∧
      t.isPaused = false := by
  induction h with
  | done operate running => exact ⟨0, _, operateAll_cons operate rfl, running⟩
  | resumed operate _ _ ih =>
    obtain ⟨n, verdicts, hall, hu⟩ := ih
    exact ⟨n + 1, _, operateAll_cons operate hall, hu⟩

theorem SeesThrough.sound (h : s.SeesThrough operation t) (hs : s.Sound) : t.Sound := by
  induction h with
  | done operate _ => exact operate_sound hs operate
  | resumed operate _ _ ih => exact ih (operate_sound hs operate)

/-- Calls are seen through by calls. -/
theorem SeesThrough.run (h : s.SeesThrough (.call call) t) :
    ∃ n verdicts, s.run (call :: .replicate n .resume) = .ok (verdicts, t) ∧
      t.isPaused = false := by
  obtain ⟨n, verdicts, hall, hu⟩ := h.operateAll
  refine ⟨n, verdicts, ?_, hu⟩
  rw [← operateAll_calls, List.map_cons, List.map_replicate]
  exact hall

theorem exists_seesThrough_resume (hs : s.Sound) : ∃ t, s.SeesThrough (.call .resume) t := by
  obtain ⟨n, verdicts, t, hrun, hu⟩ := exists_resumes hs
  induction n generalizing s verdicts with
  | zero =>
    obtain ⟨verdict, u, rest, hperform, -, hrest, -⟩ := exists_of_run_cons hs hrun
    cases hrest
    exact ⟨t, .done hperform hu⟩
  | succ n ih =>
    obtain ⟨verdict, u, rest, hperform, hsound, hrest, -⟩ := exists_of_run_cons hs hrun
    cases hp : u.isPaused with
    | false => exact ⟨u, .done hperform hp⟩
    | true =>
      obtain ⟨v, hv⟩ := ih hsound _ hrest
      exact ⟨v, .resumed hperform hp hv⟩

/-- Every operation can be seen through. -/
theorem exists_seesThrough (hs : s.Sound) (operation : Operation σ) :
    ∃ t, s.SeesThrough operation t := by
  obtain ⟨verdict, t, ht, hsound⟩ := operate_ok hs operation
  cases hp : t.isPaused with
  | false => exact ⟨t, .done ht hp⟩
  | true =>
    obtain ⟨u, hu⟩ := exists_seesThrough_resume hsound
    exact ⟨u, .resumed ht hp hu⟩

/-! ### What the input settles -/

theorem Outcome.onError {tokens : List Token} (h : s.Outcome tokens verdict t) :
    t.onError = s.onError := by
  cases h <;> rfl

theorem noted_onError (s : Stream σ) (call : Call) : (s.noted call).onError = s.onError := by
  cases call with
  | feed | finish =>
    rw [noted]
    split <;> rfl
  | pause | resume => rfl

/-- Calls leave the listeners for errors alone. -/
theorem run_onError (hs : s.Sound) (ha : s.Aware) {calls : List Call} {verdicts : List Verdict}
    (h : s.run calls = .ok (verdicts, t)) : t.onError = s.onError := by
  refine (run_preserves (P := fun u => u.Aware ∧ u.onError = s.onError)
    (fun {u v call _} _ hsound ⟨haware, hsame⟩ hv => ?_) hs ⟨ha, rfl⟩ h).2
  have hoperate : u.operate (.call call) = .ok (_, v) := hv
  refine ⟨operate_aware hsound haware hoperate, ?_⟩
  rcases perform_outcome [] hsound haware hv with ⟨-, hout⟩ | ⟨-, rfl⟩
  · rw [hout.onError, noted_onError, hsame]
  · rw [noted_onError, hsame]

/-- What is fed at once, with pauses resumed from, and what follows. -/
theorem input_fed (chunk : Bytes) (n : Nat) (calls : List Call) :
    Call.input (.feed chunk :: .replicate n .resume ++ calls) = chunk ++ Call.input calls := by
  refine congrArg (chunk ++ ·) ?_
  induction n with
  | zero => rfl
  | succ n ih => exact ih

/-- Aborting a stream tells its listeners for errors, and nothing is told from then on. -/
theorem env_of_abort {e : StreamError} {operations : List (Operation σ)} {verdicts : List Verdict}
    (hp : s.phase ≠ .failed) (h : s.operateAll (.abort e :: operations) = .ok (verdicts, t)) :
    t.env = s.onError.foldl (fun env listener => listener e env) s.env := by
  obtain ⟨verdict, u, rest, hu, hrest, -⟩ := exists_of_operateAll_cons h
  rw [operate, abort, if_neg hp] at hu
  cases hu
  obtain ⟨v, hv, hsame⟩ := operateAll_failed (s := s.fail e) rfl operations
  rw [hrest] at hv
  cases hv
  exact hsame.env

/-- Calls that make up the same input come to the same once delivery is not paused. -/
theorem run_eq_of_input (hs : s.Orderly) (hf : s.tokenizer.failed = false)
    {calls calls' : List Call} (hinput : Call.input calls = Call.input calls')
    (hfinish : Call.finish ∈ calls ↔ Call.finish ∈ calls') {verdicts verdicts' : List Verdict}
    (h : s.run calls = .ok (verdicts, t)) (h' : s.run calls' = .ok (verdicts', u))
    (ht : t.isPaused = false) (hu : u.isPaused = false) :
    t.env = u.env ∧ (t.phase = .failed ↔ u.phase = .failed) := by
  have hsame : calls.foldr Call.toCome ([], false) = calls'.foldr Call.toCome ([], false) := by
    rw [foldr_toCome_nil, foldr_toCome_nil, hinput, decide_eq_decide.2 hfinish]
  constructor
  · have henv := run_env hs.sound hs.settled h ht
    rw [hsame, run_env hs.sound hs.settled h' hu] at henv
    exact (Except.ok.inj henv).symm
  · rw [← operateAll_calls] at h h'
    rw [failed_iff_foretold hs hf (by simp) h ht, failed_iff_foretold hs hf (by simp) h' hu,
      calls_map_call, calls_map_call, foretold, foretold, hsame]

/-- A stream that was set up is in order. -/
theorem journaled_orderly (env : σ) (registrations : List (Registration σ)) :
    (journaled env registrations).Orderly := by
  obtain ⟨htokenizer, hphase⟩ := journaled_input env registrations
  refine ⟨journaled_sound env registrations, ?_, ?_, journaled_settled env registrations⟩
  · simp [Aware, htokenizer]
  · simp [Blameless, hphase]

end Stream

/-! ### The input among deeds -/

namespace Deed

variable {s t : Stream σ} {deeds front back : List Deed} {verdicts : List Verdict}

/-- The call of the stream, if it is one. -/
def call? : Deed → Option Stream.Call
  | call c => some c
  | read _ | abort _ => none

/-- Why a read failed, if it is one that failed. -/
def failure? : Deed → Option String
  | read (.failure reason) => some reason
  | read _ | call _ | abort _ => none

/-- How the input ends after these deeds: the stream is aborted if a read failed. -/
def ending (deeds : List Deed) : Operation σ :=
  match deeds.findSome? failure? with
  | some reason => .abort (.readFailed reason)
  | none => .call .finish

theorem GoesOn.unaborted (h : ∀ deed ∈ deeds, deed.GoesOn) (e : StreamError) : .abort e ∉ deeds :=
  fun hmem => h _ hmem

theorem GoesOn.findSome?_failure? (h : ∀ deed ∈ deeds, deed.GoesOn) :
    deeds.findSome? failure? = none := by
  refine List.findSome?_eq_none_iff.2 fun deed hmem => ?_
  have hdeed := h deed hmem
  unfold failure?
  split
  · exact hdeed.elim
  all_goals rfl

/-- Where nobody aborts, what is done with the stream are calls. -/
theorem run_of_operateAll (habort : ∀ e, .abort e ∉ deeds)
    (h : s.operateAll (deeds.filterMap operation?) = .ok (verdicts, t)) :
    s.run (deeds.filterMap call?) = .ok (verdicts, t) := by
  have hcalls : deeds.filterMap (operation? (σ := σ)) = (deeds.filterMap call?).map .call := by
    rw [List.map_filterMap]
    refine List.filterMap_congr fun deed hmem => ?_
    cases deed with
    | read | call => rfl
    | abort e => exact absurd hmem (habort e)
  rwa [hcalls, Stream.operateAll_calls] at h

/-- While the source goes on, what is fed is the input. -/
theorem input_append (h : ∀ deed ∈ front, deed.GoesOn) (back : List Deed) :
    Stream.Call.input ((front ++ back).filterMap call?) =
        front.flatMap fed ++ Stream.Call.input (back.filterMap call?) ∧
      (.finish ∈ (front ++ back).filterMap call? ↔ .finish ∈ back.filterMap call?) := by
  induction front with
  | nil => exact ⟨rfl, .rfl⟩
  | cons deed front ih =>
    obtain ⟨hdeed, hfront⟩ := List.forall_mem_cons.1 h
    obtain ⟨hinput, hfinish⟩ := ih hfront
    match deed, hdeed with
    | .read _, _ => exact ⟨hinput, hfinish⟩
    | .call (.feed chunk), _ =>
      refine ⟨?_, by simpa [call?] using hfinish⟩
      rw [List.flatMap_cons, List.append_assoc, ← hinput]
      rfl
    | .call .pause, _ | .call .resume, _ => exact ⟨hinput, by simpa [call?] using hfinish⟩

theorem Waits.flatMap_fed (h : ∀ deed ∈ deeds, deed.Waits) : deeds.flatMap fed = [] := by
  refine List.flatMap_eq_nil_iff.2 fun deed hmem => ?_
  have hdeed := h deed hmem
  unfold fed
  split
  · exact hdeed.elim
  all_goals rfl

/-- Once the source has come to its end or failed, nothing is fed any more. -/
theorem flatMap_fed_append {first second : Deed} (hfirst : first.fed = [])
    (hsecond : second.fed = []) (hback : ∀ deed ∈ back, deed.Waits) :
    (front ++ first :: second :: back).flatMap fed = front.flatMap fed := by
  rw [List.flatMap_append, List.flatMap_cons, List.flatMap_cons, hfirst, hsecond,
    Waits.flatMap_fed hback, List.append_nil, List.append_nil, List.append_nil]

theorem ending_finished (hfront : ∀ deed ∈ front, deed.GoesOn) (hback : ∀ deed ∈ back, deed.Waits) :
    (ending (front ++ .read (.data []) :: .call .finish :: back) : Operation σ) =
      .call .finish := by
  have hnone := GoesOn.findSome?_failure? fun deed hmem => (hback deed hmem).goesOn
  rw [ending, List.findSome?_append, GoesOn.findSome?_failure? hfront, Option.none_or,
    List.findSome?_cons_of_isNone, List.findSome?_cons_of_isNone, hnone] <;> rfl

theorem ending_aborted {reason : String} (hfront : ∀ deed ∈ front, deed.GoesOn) :
    (ending (front ++ .read (.failure reason) :: back) : Operation σ) =
      .abort (.readFailed reason) := by
  rw [ending, List.findSome?_append, GoesOn.findSome?_failure? hfront]
  rfl

end Deed

namespace Reader

variable {size : Nat} {source : Source} {s t u c : Stream σ} {deeds front back : List Deed}
  {r : Reader σ} {verdicts : List Verdict}

/-- While the source goes on, what is told is what is told when the bytes are fed at once. -/
theorem env_of_goes (hs : s.Orderly) (hf : s.tokenizer.failed = false)
    (hgoes : ∀ deed ∈ front, deed.GoesOn)
    (h : s.operateAll (front.filterMap Deed.operation?) = .ok (verdicts, c))
    (hc : c.isPaused = false) (ht : s.SeesThrough (.call (.feed (front.flatMap Deed.fed))) t) :
    c.env = t.env ∧ (c.phase = .failed ↔ t.phase = .failed) := by
  obtain ⟨n, _, hfeed, hu⟩ := ht.run
  obtain ⟨hinput, hfinish⟩ := Deed.input_append hgoes []
  have hfed := Stream.input_fed (front.flatMap Deed.fed) n []
  rw [List.append_nil] at hinput hfinish hfed
  exact Stream.run_eq_of_input hs hf (hinput.trans hfed.symm) (hfinish.trans (by simp))
    (Deed.run_of_operateAll (Deed.GoesOn.unaborted hgoes) h) hfeed hc hu

/-- When the end of the source has been met, it is what is told when the bytes are fed at once and
the input is finished. -/
theorem env_of_finished (hs : s.Orderly) (hf : s.tokenizer.failed = false)
    (hgoes : ∀ deed ∈ front, deed.GoesOn) (hwaits : ∀ deed ∈ back, deed.Waits)
    (h : s.operateAll ((front ++ .read (.data []) :: .call .finish :: back).filterMap
      Deed.operation?) = .ok (verdicts, c)) (hc : c.isPaused = false)
    (ht : s.SeesThrough (.call (.feed (front.flatMap Deed.fed))) t)
    (hu : t.SeesThrough (.call .finish) u) : c.env = u.env := by
  obtain ⟨n, _, hfeed, -⟩ := ht.run
  obtain ⟨m, _, hend, hpaused⟩ := hu.run
  obtain ⟨hinput, hfinish⟩ :=
    Deed.input_append hgoes (.read (.data []) :: .call .finish :: back)
  have hfed := Stream.input_fed (front.flatMap Deed.fed) n (.finish :: .replicate m .resume)
  have habort (e : StreamError) :
      .abort e ∉ front ++ .read (.data []) :: .call .finish :: back := by
    simp only [List.mem_append, List.mem_cons, reduceCtorEq, false_or, not_or]
    exact ⟨Deed.GoesOn.unaborted hgoes e,
      Deed.GoesOn.unaborted (fun deed hmem => (hwaits deed hmem).goesOn) e⟩
  exact (Stream.run_eq_of_input hs hf (hinput.trans hfed.symm)
    (hfinish.trans (by simp [Deed.call?])) (Deed.run_of_operateAll habort h)
    (Stream.run_append hfeed hend) hc hpaused).1

/-- When a read has failed, it is what is told when the bytes are fed at once and the stream is
aborted. -/
theorem env_of_aborted (hs : s.Orderly) (hf : s.tokenizer.failed = false)
    (hgoes : ∀ deed ∈ front, deed.GoesOn) {result : ReadResult} {e : StreamError}
    {b : Stream σ} {answers : List Verdict}
    (hb : s.operateAll (front.filterMap Deed.operation?) = .ok (answers, b))
    (hrunning : b.isPaused = false) (hp : b.phase ≠ .failed)
    (h : s.operateAll ((front ++ .read result :: .abort e :: back).filterMap
      Deed.operation?) = .ok (verdicts, c))
    (ht : s.SeesThrough (.call (.feed (front.flatMap Deed.fed))) t)
    (hu : t.SeesThrough (.abort e) u) : c.env = u.env := by
  obtain ⟨henv, hfailed⟩ := env_of_goes hs hf hgoes hb hrunning ht
  obtain ⟨n, _, hfeed, -⟩ := ht.run
  obtain ⟨m, _, habort, -⟩ := hu.operateAll
  rw [List.filterMap_append] at h
  obtain ⟨_, b', _, hb', hc, -⟩ := Stream.exists_of_operateAll_append h
  rw [hb] at hb'
  cases hb'
  rw [Stream.env_of_abort hp hc, Stream.env_of_abort (mt hfailed.2 hp) habort, henv,
    Stream.run_onError hs.sound hs.aware hfeed, Stream.run_onError hs.sound hs.aware
      (Deed.run_of_operateAll (Deed.GoesOn.unaborted hgoes) hb)]

/-- A reader that has stopped and is not paused has told what is told when the bytes that it read
are fed at once and the input is ended. -/
theorem Progress.seesThrough (h : Progress size source s deeds r) (hr : r.Rests)
    (hpaused : r.isPaused = false) (hs : s.Orderly) (hf : s.tokenizer.failed = false) :
    ∃ t u, s.SeesThrough (.call (.feed (deeds.flatMap Deed.taken))) t ∧
      t.SeesThrough (Deed.ending deeds) u ∧ r.stream.env = u.env := by
  rw [← h.fed]
  obtain ⟨t, ht⟩ := Stream.exists_seesThrough hs.sound (.call (.feed (deeds.flatMap Deed.fed)))
  obtain ⟨u, hu⟩ := Stream.exists_seesThrough (ht.sound hs.sound) (Deed.ending deeds)
  refine ⟨t, u, ht, hu, ?_⟩
  obtain ⟨answers, hdeeds⟩ := h.leads.operateAll
  cases h.course with
  | reading atEnd phase goes =>
    have hfailed : r.stream.phase = .failed := by
      rcases hr with hp | hp | hp
      · exact absurd (hp.symm.trans hpaused) (by simp)
      · exact absurd (hp.symm.trans atEnd) (by simp)
      · exact hp
    obtain ⟨henv, hiff⟩ := env_of_goes hs hf goes hdeeds hpaused ht
    obtain ⟨m, _, hall, -⟩ := hu.operateAll
    obtain ⟨v, hv, hsame⟩ := Stream.operateAll_failed (hiff.1 hfailed) _
    rw [hall] at hv
    cases hv
    rw [henv, hsame.env]
  | @finished front back atEnd split goes waits =>
    rw [split] at ht hu hdeeds
    rw [Deed.flatMap_fed_append rfl rfl waits] at ht
    rw [Deed.ending_finished goes waits] at hu
    exact env_of_finished hs hf goes waits hdeeds hpaused ht hu
  | @aborted front back reason atEnd phase split goes waits =>
    obtain ⟨_, b, hb, hrunning, haccepting⟩ := h.leads.heeds split
    rw [split] at ht hu hdeeds
    rw [Deed.flatMap_fed_append rfl rfl waits] at ht
    rw [Deed.ending_aborted goes] at hu
    exact env_of_aborted hs hf goes hb hrunning (by simp [haccepting]) hdeeds ht hu

theorem Progress.count_finish (h : Progress size source s deeds r) :
    deeds.count (.call .finish) = if .read (.data []) ∈ deeds then 1 else 0 := by
  have hfinish {deeds : List Deed} (hgoes : ∀ deed ∈ deeds, deed.GoesOn) :
      deeds.count (.call .finish) = 0 ∧ .read (.data []) ∉ deeds :=
    ⟨List.count_eq_zero_of_not_mem fun hmem => hgoes _ hmem, fun hmem => hgoes _ hmem⟩
  cases h.course with
  | reading _ _ goes =>
    obtain ⟨hcount, hread⟩ := hfinish goes
    rw [hcount, if_neg hread]
  | @finished front back _ split goes waits =>
    obtain ⟨hfront, -⟩ := hfinish goes
    obtain ⟨hback, -⟩ := hfinish fun deed hmem => (waits deed hmem).goesOn
    rw [split, if_pos (by simp), List.count_append, hfront]
    simp [hback]
  | @aborted front back reason _ _ split goes waits =>
    obtain ⟨hfront, hread⟩ := hfinish goes
    obtain ⟨hback, hread'⟩ := hfinish fun deed hmem => (waits deed hmem).goesOn
    rw [split, if_neg (by simp [hread, hread']), List.count_append, hfront]
    simp [hback]

/-- Driving a stream is feeding it.  Whatever the source gives, for any chunk size and any pauses,
from outside or from listeners, a reader that has run and was resumed until it was not paused any
more has told its listeners what they are told when the bytes that it read are fed at once and the
input is ended, with the error of the source if a read failed; and resuming often enough leaves it
not paused.  Every byte that was read was fed, once and in order, the end of the source was
signalled once, and nothing was read while the stream was paused. -/
theorem session_eq_fed (env : σ) (registrations : List (Registration σ)) (source : Source)
    (chunkSize : Nat) (early : Bool) (controls : List Control) :
    let s := Stream.journaled env registrations
    let deeds := (create source s chunkSize).deeds early controls
    ∃ verdicts r, (create source s chunkSize).session early controls = .ok (verdicts, r) ∧
      (∃ n more t, (create source s chunkSize).session early (controls ++ .replicate n .resume) =
        .ok (more, t) ∧ t.isPaused = false) ∧
      (r.isPaused = false → ∃ t u, s.SeesThrough (.call (.feed (deeds.flatMap Deed.taken))) t ∧
        t.SeesThrough (Deed.ending deeds) u ∧ r.stream.env = u.env) ∧
      Deed.Leads (max chunkSize 1) source s deeds r.source r.stream ∧
      source.bytes = deeds.flatMap Deed.taken ++ r.source.bytes ∧
      deeds.flatMap Deed.fed = deeds.flatMap Deed.taken ∧
      deeds.count (.call .finish) = (if .read (.data []) ∈ deeds then 1 else 0) ∧
      ∀ before result after, deeds = before ++ .read result :: after → ∃ answers b,
        s.operateAll (before.filterMap Deed.operation?) = .ok (answers, b) ∧
        b.isPaused = false ∧ b.phase = .accepting := by
  intro s deeds
  have hs : s.Orderly := Stream.journaled_orderly env registrations
  obtain ⟨htokenizer, hphase⟩ := Stream.journaled_input env registrations
  obtain ⟨verdicts, r, hsession, hprogress, hrests, hresumes⟩ :=
    session_progress hs.sound hs.aware hphase source chunkSize early controls
  have hf : s.tokenizer.failed = false := by rw [htokenizer]
  exact ⟨verdicts, r, hsession, hresumes, fun hu => hprogress.seesThrough hrests hu hs hf,
    hprogress.leads, hprogress.leads.bytes, hprogress.fed, hprogress.count_finish,
    fun before result after hsplit => hprogress.leads.heeds hsplit⟩

/-- A listener pauses in the first of two reads, and the source is interrupted before it fails. -/
example :
    let pausing : Listener Unit := fun m env => { element := m.element, pause := true, env }
    let source : Source :=
      { supplies := [.data (Bytes.ascii ['<', 'a', '>', 'b']), .interrupted, .failure "gone"] }
    (create source (Stream.journaled () [.on "startElement" pausing]) 3).deeds false [.resume] =
      [.read (.data (Bytes.ascii ['<', 'a', '>'])), .call (.feed (Bytes.ascii ['<', 'a', '>'])),
        .call .resume, .read (.data (Bytes.ascii ['b'])), .call (.feed (Bytes.ascii ['b'])),
        .read .interrupted, .read (.failure "gone"), .abort (.readFailed "gone")] := by
  decide +kernel

end Reader

end XmlSieve
