import XmlSieve.Proofs.Token.Reading

/-!
# Schedules

A document reaches a tokenizer in chunks, and its tokens may be asked for at any time in between.
`Tokenizer.run` makes a list of calls and collects the answers; `transcript_run_eq` says that what
is heard, once everything was asked for, is what is heard of the document fed at once.
-/

namespace XmlSieve

namespace Tokenizer

/-- A call of a tokenizer. -/
inductive Call where
  | feed (chunk : Bytes)
  | finish
  | next
  | drain
  deriving DecidableEq, Repr

/-- Whether a call only asks for tokens. -/
def Call.asks : Call → Bool
  | next | drain => true
  | feed _ | finish => false

/-- The bytes that calls feed. -/
def Call.fed (calls : List Call) : Bytes :=
  calls.flatMap fun
    | .feed chunk => chunk
    | .finish | .next | .drain => []

/-- Makes a call. -/
def perform (t : Tokenizer) : Call → Except Misuse (List Answer × Tokenizer)
  | .feed chunk => (t.feed chunk).map ([], ·)
  | .finish => .ok ([], t.finish)
  | .next => .ok ([t.next.1], t.next.2)
  | .drain => .ok t.drain

/-- Makes calls one after the other. -/
def run (t : Tokenizer) : List Call → Except Misuse (List Answer × Tokenizer)
  | [] => .ok ([], t)
  | call :: calls =>
    match t.perform call with
    | .error misuse => .error misuse
    | .ok (answers, t) => (t.run calls).map fun (more, t) => (answers ++ more, t)

/-- What is heard of a tokenizer in calls from its creation on. -/
def hear (calls : List Call) : Except Misuse Transcript :=
  (run {} calls).map fun (answers, _) => .ofAnswers answers

variable {t : Tokenizer} {rest : Bytes} {final : Bool} {calls : List Call}

/-! ### Runs -/

theorem run_cons {u v : Tokenizer} {call : Call} {answers more : List Answer}
    (h : t.perform call = .ok (answers, u)) (hrun : u.run calls = .ok (more, v)) :
    t.run (call :: calls) = .ok (answers ++ more, v) := by
  rw [run, h]
  simp only [hrun, Except.map]

/-- A run that is answered is one call and the run of the others. -/
theorem exists_of_run_cons {v : Tokenizer} {call : Call} {answers : List Answer}
    (h : t.run (call :: calls) = .ok (answers, v)) :
    ∃ first u more, t.perform call = .ok (first, u) ∧ u.run calls = .ok (more, v) ∧
      answers = first ++ more := by
  rw [run] at h
  split at h
  · cases h
  · next first u hu =>
    cases hrest : u.run calls with
    | error misuse =>
      rw [hrest] at h
      cases h
    | ok r =>
      rw [hrest] at h
      cases h
      exact ⟨first, u, r.1, hu, hrest, rfl⟩

theorem run_append {u v : Tokenizer} {calls' : List Call} {answers more : List Answer}
    (h : t.run calls = .ok (answers, u)) (hrun : u.run calls' = .ok (more, v)) :
    t.run (calls ++ calls') = .ok (answers ++ more, v) := by
  induction calls generalizing t answers with
  | nil =>
    cases h
    exact hrun
  | cons call calls ih =>
    obtain ⟨first, w, rest, hw, hrest, rfl⟩ := exists_of_run_cons h
    rw [List.append_assoc]
    exact run_cons hw (ih hrest)

/-- Calls that are answered do not keep the ones after them from being refused. -/
theorem run_append_error {u : Tokenizer} {more : List Call} {answers : List Answer}
    {misuse : Misuse} (h : t.run calls = .ok (answers, u)) (hmore : u.run more = .error misuse) :
    t.run (calls ++ more) = .error misuse := by
  induction calls generalizing t answers with
  | nil =>
    cases h
    exact hmore
  | cons call calls ih =>
    obtain ⟨first, w, rest, hw, hrest, rfl⟩ := exists_of_run_cons h
    rw [List.cons_append, run, hw]
    simp only [ih hrest, Except.map]

/-! ### Calls and the outlook -/

theorem perform_ask (rest : Bytes) (final : Bool) {call : Call} (h : call.asks = true)
    (hr : t.finished = true → rest = []) :
    ∃ answers u, t.perform call = .ok (answers, u) ∧ u.finished = t.finished ∧
      (t.given rest final).outlook = .ofAnswers answers ++ (u.given rest final).outlook := by
  cases call with
  | feed | finish => cases h
  | next => exact ⟨_, _, rfl, t.next_finished, t.outlook_next final hr⟩
  | drain => exact ⟨_, _, rfl, t.drain_finished, t.outlook_drain hr⟩

/-- What was answered, followed by what is still to be told, is what there was to tell. -/
theorem run_asks (rest : Bytes) (final : Bool) (h : ∀ call ∈ calls, call.asks = true)
    (hr : t.finished = true → rest = []) :
    ∃ answers u, t.run calls = .ok (answers, u) ∧ u.finished = t.finished ∧
      (t.given rest final).outlook = .ofAnswers answers ++ (u.given rest final).outlook := by
  induction calls generalizing t with
  | nil => exact ⟨[], t, rfl, rfl, (Transcript.nil_append _).symm⟩
  | cons call calls ih =>
    obtain ⟨answers, u, hu, hfu, ho⟩ := perform_ask rest final (h call (by simp)) hr
    obtain ⟨more, v, hv, hfv, hm⟩ := ih (fun c hc => h c (by simp [hc])) (t := u)
      fun hf => hr (hfu.symm.trans hf)
    refine ⟨answers ++ more, v, run_cons hu hv, hfv.trans hfu, ?_⟩
    rw [ho, hm, ← Transcript.append_assoc, ← Transcript.ofAnswers_append]

/-- Calls before the end of the input: what they feed was in the outlook already. -/
theorem run_before (rest : Bytes) (final : Bool) (ht : t.finished = false)
    (h : Call.finish ∉ calls) :
    ∃ answers u, t.run calls = .ok (answers, u) ∧ u.finished = false ∧
      (t.given (Call.fed calls ++ rest) final).outlook =
        .ofAnswers answers ++ (u.given rest final).outlook := by
  induction calls generalizing t with
  | nil => exact ⟨[], t, rfl, ht, (Transcript.nil_append _).symm⟩
  | cons call calls ih =>
    have hcalls : Call.finish ∉ calls := fun hc => h (by simp [hc])
    by_cases hask : call.asks = true
    · obtain ⟨answers, u, hu, hfu, ho⟩ := perform_ask (t := t) (Call.fed calls ++ rest)
        final hask (by simp [ht])
      obtain ⟨more, v, hv, hfv, hm⟩ := ih (t := u) (hfu.trans ht) hcalls
      have hfed : Call.fed (call :: calls) = Call.fed calls := by
        cases call <;> first | rfl | cases hask
      refine ⟨answers ++ more, v, run_cons hu hv, hfv, ?_⟩
      rw [hfed, ho, hm, ← Transcript.append_assoc, ← Transcript.ofAnswers_append]
    · cases call with
      | next | drain => exact absurd rfl hask
      | finish => exact absurd (by simp) h
      | feed chunk =>
        obtain ⟨more, v, hv, hfv, hm⟩ := ih (t := t.given chunk false) (by simp [given, ht]) hcalls
        have hfeed : t.perform (.feed chunk) = .ok ([], t.given chunk false) := by
          simp [perform, feed, ht, given, Except.map]
        refine ⟨more, v, run_cons hfeed hv, hfv, ?_⟩
        rw [← hm, given_given]
        simp [Call.fed]

/-- However the calls are ordered, what is heard is the transcript of what was fed. -/
theorem hear_eq_transcript (before after : List Call) (hb : Call.finish ∉ before)
    (ha : ∀ call ∈ after, call.asks = true) :
    hear (before ++ .finish :: (after ++ [.drain])) =
      .ok (Document.transcript (Call.fed before)) := by
  obtain ⟨early, u, hu, -, he⟩ := run_before (t := {}) [] true rfl hb
  obtain ⟨late, v, hv, hfv, hl⟩ := run_asks (t := u.finish) [] true ha
    fun _ => rfl
  have hend : u.given [] true = u.finish := by simp [given, finish]
  have hlast : (v.given [] true).outlook = .ofAnswers v.drain.1 := by
    rw [given_of_finished hfv]
    rfl
  rw [given_of_finished (t := u.finish) rfl] at hl
  have hlate := run_append hv (show v.run [.drain] = .ok (v.drain.1 ++ [], v.drain.2) from rfl)
  have hall := run_append hu (run_cons (show u.perform .finish = .ok ([], u.finish) from rfl) hlate)
  rw [hear, hall, Except.map, ← outlook_document]
  simp only [List.nil_append, List.append_nil, Transcript.ofAnswers_append]
  rw [← hlast, ← hl, ← hend, ← he]
  simp [given]

/-- What is heard of a document that is fed at once. -/
theorem hear_document (document : Bytes) :
    hear [.feed document, .finish, .drain] = .ok (Document.transcript document) := by
  simpa [Call.fed] using hear_eq_transcript [.feed document] [] (by simp) (by simp)

/-- Neither the cuts of a document nor the order of the calls can be heard: what is heard is what is
heard when the document is fed at once, drained, finished and drained, and this is what its bytes
tell. -/
theorem hear_eq_hear_once (document : Bytes) (before after : List Call)
    (hfed : Call.fed before = document) (hb : Call.finish ∉ before)
    (ha : ∀ call ∈ after, call.asks = true) :
    hear (before ++ .finish :: (after ++ [.drain])) =
        hear [.feed document, .drain, .finish, .drain] ∧
      hear [.feed document, .drain, .finish, .drain] = .ok (Document.transcript document) := by
  have honce : hear [.feed document, .drain, .finish, .drain] =
      .ok (Document.transcript document) := by
    simpa [Call.fed] using
      hear_eq_transcript [.feed document, .drain] [] (by simp) (by simp)
  exact ⟨(hfed ▸ hear_eq_transcript before after hb ha).trans honce.symm, honce⟩

/-- A tag that closes itself, cut in the middle, with tokens asked for too early and too late. -/
theorem hear_cut_empty_element :
    hear ([.feed (Bytes.ascii ['<']), .next, .feed (Bytes.ascii ['a', '/']), .feed [], .next,
        .feed (Bytes.ascii ['>'])] ++ .finish :: ([.next] ++ [.drain])) =
        hear [.feed (Bytes.ascii ['<', 'a', '/', '>']), .drain, .finish, .drain] ∧
      hear [.feed (Bytes.ascii ['<', 'a', '/', '>']), .drain, .finish, .drain] =
        .ok (Document.transcript (Bytes.ascii ['<', 'a', '/', '>'])) :=
  hear_eq_hear_once _ _ _ (by decide) (by decide) (by decide)

end Tokenizer

end XmlSieve
