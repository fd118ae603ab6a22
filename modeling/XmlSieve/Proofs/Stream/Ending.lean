import XmlSieve.Proofs.Stream.Matching

/-!
# How streams end

Whether a stream ends with everything delivered is settled by its input: `endsWell` says so for any
continuation of the input, and no call changes it (`endsWell_lasting`).  A stream has ended only if its
input was ended and is a document (`document_of_ended`), and what its listeners share then is what
came of the tokens of the document (`exists_acceptAll_of_ended`).  The other way round, if the input
is a document that was ended, a stream that is not paused has ended (`ended_of_document`).
-/

namespace XmlSieve

variable {σ : Type}

namespace Stream

variable {s t : Stream σ} {rest : Bytes} {final : Bool} {verdict : Verdict}

/-- Whether everything is delivered in the end if `rest` follows and, for `final`, the input ends
there. -/
def endsWell (s : Stream σ) (rest : Bytes) (final : Bool) : Bool :=
  match s.phase with
  | .accepting => final && (s.tokenizer.given rest final).outlook.error.isNone
  | .finishing => s.tokenizer.outlook.error.isNone
  | .ended => true
  | .failed => false

theorem endsWell_token {tokenizer : Tokenizer} {token : Token} (assembly : Assembly σ)
    (hs : s.Sound) (hl : s.Live) (h : s.tokenizer.next = (.ok (some token), tokenizer)) :
    { s with tokenizer, assembly }.endsWell rest final = s.endsWell rest final := by
  unfold endsWell
  rcases hl with hp | hp
  · simp only [hp]
    rw [Tokenizer.outlook_given_token (hs.accepting hp) h]
    rfl
  · simp only [hp]
    rw [Tokenizer.outlook_token h]
    rfl

theorem endsWell_error {tokenizer : Tokenizer} {e : StreamError} (hs : s.Sound) (hl : s.Live)
    (h : s.tokenizer.next = (.error e, tokenizer)) :
    ({ s with tokenizer }.fail e).endsWell rest final = s.endsWell rest final := by
  rcases hl with hp | hp
  · simp only [endsWell, hp, Tokenizer.outlook_given_error (hs.accepting hp) h]
    simp [fail]
  · simp only [endsWell, hp, Tokenizer.outlook_error h]
    rfl

theorem endsWell_none {tokenizer : Tokenizer} (hs : s.Sound) (hl : s.Live)
    (h : s.tokenizer.next = (.ok none, tokenizer)) :
    { s with tokenizer }.settle.endsWell rest final = s.endsWell rest final := by
  rcases hl with hp | hp
  · rw [settle, if_neg (by simp [hp])]
    simp only [endsWell, hp, Tokenizer.outlook_given_none (hs.accepting hp) h]
  · have hdone := Tokenizer.isDone_of_none (hs.finishing hp) h
    rw [settle, if_pos (by simp [hp, hdone])]
    simp only [endsWell, hp, Tokenizer.outlook_none h]
    rfl

theorem endsWell_of_over (hp : s.phase ≠ .accepting) {rest' : Bytes} {final' : Bool} :
    s.endsWell rest final = s.endsWell rest' final' := by
  unfold endsWell
  cases hphase : s.phase with
  | accepting => exact absurd hphase hp
  | finishing | ended | failed => rfl

/-- No call changes how the stream ends. -/
theorem endsWell_lasting : Lasting (endsWell : Stream σ → Bytes → Bool → Bool) where
  fed chunk rest final hp := by
    simp only [endsWell, Stream.fed, hp, Tokenizer.given_given]
  closing rest final hp := by
    simp only [endsWell, Stream.closing, hp, Tokenizer.given, Tokenizer.finish, List.append_nil,
      Bool.or_true, Bool.true_and]
  closed _ _ _ _ hp := endsWell_of_over hp
  paused _ _ _ _ := rfl
  token _ _ hs hl hnext _ := endsWell_token _ hs hl hnext
  error _ _ hs hl hnext := endsWell_error hs hl hnext
  none _ _ hs hl hnext := endsWell_none hs hl hnext

/-! ### Streams that were set up -/

variable {env : σ} {registrations : List (Registration σ)} {calls : List Call}
  {verdicts : List Verdict} {u : Stream (Journal σ)}

theorem journaled_endsWell (hrun : (journaled env registrations).run calls = .ok (verdicts, u)) :
    u.endsWell [] false =
      (decide (.finish ∈ calls) && (Call.heard calls).error.isNone) := by
  obtain ⟨htokenizer, hphase⟩ := journaled_input env registrations
  have hend := endsWell_lasting.run (journaled_sound env registrations) hrun ([], false)
  rw [foldr_toCome_nil] at hend
  rw [hend, endsWell, hphase, htokenizer, Call.heard]

/-- A stream has ended only with the end of a document. -/
theorem document_of_ended (hrun : (journaled env registrations).run calls = .ok (verdicts, u))
    (hu : u.phase = .ended) :
    .finish ∈ calls ∧ (Document.transcript (Call.input calls)).error = none := by
  have hend := journaled_endsWell hrun
  rw [endsWell, hu] at hend
  obtain ⟨hfinish, herror⟩ := Bool.and_eq_true_iff.1 hend.symm
  have hfinish := of_decide_eq_true hfinish
  rw [← heard_finish hfinish]
  exact ⟨hfinish, Option.isNone_iff_eq_none.1 herror⟩

/-- A stream that is not paused has ended when a document was fed and its end signalled. -/
theorem ended_of_document (hrun : (journaled env registrations).run calls = .ok (verdicts, u))
    (hu : u.isPaused = false) (hfinish : .finish ∈ calls)
    (herror : (Document.transcript (Call.input calls)).error = none) : u.phase = .ended := by
  have hend := journaled_endsWell hrun
  rw [heard_finish hfinish, decide_eq_true hfinish, herror] at hend
  obtain ⟨hsettled, -⟩ := run_settled (journaled_sound env registrations)
    (journaled_settled env registrations) hrun hu
  unfold endsWell at hend
  cases hp : u.phase with
  | accepting =>
    rw [hp] at hend
    cases hend
  | finishing => exact absurd hp hsettled
  | ended => rfl
  | failed =>
    rw [hp] at hend
    cases hend

/-- A stream that nobody pauses delivers a document to its end. -/
theorem ended_of_tireless (hrun : (journaled env registrations).run calls = .ok (verdicts, u))
    (htireless : ∀ r ∈ registrations, r.tireless = r) (hpause : .pause ∉ calls)
    (hfinish : .finish ∈ calls)
    (herror : (Document.transcript (Call.input calls)).error = none) : u.phase = .ended :=
  ended_of_document hrun (journaled_unpaused env htireless hpause hrun) hfinish herror

/-- When a stream has ended, its listeners share what came of the tokens of the document, and of
the listeners for the end after them. -/
theorem exists_acceptAll_of_ended
    (hrun : (journaled env registrations).run calls = .ok (verdicts, u)) (hu : u.phase = .ended) :
    ∃ b, (journaled env registrations).assembly.acceptAll
        (Document.transcript (Call.input calls)).tokens = .ok b ∧
      u.env = (journaled env registrations).onEnd.foldl (fun env listener => listener env) b.env := by
  obtain ⟨hfinish, herror⟩ := document_of_ended hrun hu
  rw [← heard_finish hfinish] at herror ⊢
  obtain ⟨htokenizer, hphase⟩ := journaled_input env registrations
  have hend := prospect_lasting.run (journaled_sound env registrations) hrun ([], false)
  have hlast : u.prospect [] false = .ok u.env := by rw [prospect, hu]
  rw [hlast, foldr_toCome_nil, prospect, hphase, htokenizer] at hend
  have hend' : Except.ok u.env =
      (journaled env registrations).conclude (Call.heard calls) (decide (.finish ∈ calls)) := hend
  rw [conclude, Assembly.acceptAll_tireless, herror, decide_eq_true hfinish] at hend'
  cases hb : (journaled env registrations).assembly.acceptAll (Call.heard calls).tokens with
  | error misuse =>
    rw [hb] at hend'
    cases hend'
  | ok b =>
    rw [hb] at hend'
    exact ⟨b, rfl, Except.ok.inj hend'⟩

end Stream

end XmlSieve
