import XmlSieve.Proofs.Stream.Matching
import XmlSieve.Proofs.Stream.Operations

/-!
# What is still to be told

A delivery comes to a stop in one of three ways (`Outcome`): it is held up, by a pause or for want
of input, it ends with everything delivered, or the tokenizer answers an error.  The tokens that it
delivers and the error that it ends in are the first of the `forecast` of the stream, what its
tokenizer is still going to tell for a continuation of the input (`drain_forecast`).
-/

namespace XmlSieve

variable {σ : Type}

namespace Tokenizer

variable {t u : Tokenizer} {e : StreamError} {token? : Option Token}

/-! ### The errors of a tokenizer -/

theorem scan_ok_failed (h : t.scan = (.ok token?, u)) : u.failed = t.failed := by
  obtain ⟨v, hpasses, hstops⟩ := scan_cases h
  cases hstops with
  | waits | token | emptyElement => exact hpasses.kept.failed

/-- A tokenizer that answers no error has not failed. -/
theorem next_ok_failed (h : t.next = (.ok token?, u)) : t.failed = false ∧ u.failed = false := by
  cases next_gives h with
  | ended hf | awaiting hf => exact ⟨hf, hf⟩
  | scanned hf _ _ hscan => exact ⟨hf, by rw [scan_ok_failed hscan, start_failed, hf]⟩

theorem scan_error_ne_closed (h : t.scan = (.error e, u)) : e ≠ .closed := by
  obtain ⟨v, -, hstops⟩ := scan_cases h
  cases hstops with
  | short _ hwait =>
    unfold wait fail at hwait
    split_ifs at hwait <;> cases hwait <;> simp
  | @fault c n fault => cases fault <;> simp [Fault.inLine]

/-- The first error of a tokenizer is a fault of its input. -/
theorem next_error_ne_closed (hf : t.failed = false) (h : t.next = (.error e, u)) :
    e ≠ .closed := by
  cases next_gives h with
  | closed hf' => exact absurd (hf'.symm.trans hf) (by simp)
  | scanned _ _ _ hscan => exact scan_error_ne_closed hscan

end Tokenizer

/-- The error of a verdict. -/
def Verdict.error? : Verdict → Option StreamError
  | .ok () => none
  | .error e => some e

namespace Stream

variable {s t : Stream σ} {rest : Bytes} {final : Bool} {verdict : Verdict} {tokens : List Token}
  {registered : List (Registration σ)}

/-! ### How a delivery comes to a stop -/

/-- What comes of a delivery of these tokens: the verdict, and the stream after it. -/
inductive Outcome (s : Stream σ) (tokens : List Token) : Verdict → Stream σ → Prop where
  /-- It is held up. -/
  | held {tokenizer : Tokenizer} {assembly : Assembly σ} (takes : s.assembly.Takes tokens assembly)
      (unfailed : tokenizer.failed = false) : Outcome s tokens (.ok ()) { s with tokenizer, assembly }
  /-- Everything was delivered. -/
  | ended {tokenizer : Tokenizer} {assembly : Assembly σ}
      (takes : s.assembly.Takes tokens assembly) (running : assembly.paused = false)
      (phase : s.phase = .finishing) (unfailed : tokenizer.failed = false) :
      Outcome s tokens (.ok ()) ({ s with tokenizer, assembly } : Stream σ).complete
  /-- The tokenizer answered an error. -/
  | failed {tokenizer : Tokenizer} {assembly : Assembly σ} {e : StreamError}
      (takes : s.assembly.Takes tokens assembly) (running : assembly.paused = false)
      (failed : tokenizer.failed = true) (fault : e ≠ .closed) :
      Outcome s tokens (.error e) (({ s with tokenizer, assembly } : Stream σ).fail e)

theorem Outcome.token {tokenizer : Tokenizer} {assembly : Assembly σ} {token : Token}
    (running : s.assembly.paused = false) (accept : s.assembly.accept token = .ok assembly)
    (h : { s with tokenizer, assembly }.Outcome tokens verdict t) :
    s.Outcome (token :: tokens) verdict t := by
  cases h with
  | held takes unfailed => exact .held (.cons running accept takes) unfailed
  | ended takes hrun phase unfailed => exact .ended (.cons running accept takes) hrun phase unfailed
  | failed takes hrun failed fault => exact .failed (.cons running accept takes) hrun failed fault

/-- What a delivery comes to. -/
theorem drain_outcome (registered : List (Registration σ)) (hf : s.tokenizer.failed = false)
    (h : s.drain = .ok (verdict, t)) :
    s.Outcome ((s.deliveries registered).map (·.token)) verdict t := by
  rw [drain_eq_ok_iff] at h
  induction h with
  | paused hp =>
    rw [deliveries_paused hp]
    exact .held (.nil _) hf
  | failed hp hnext =>
    rw [deliveries_wait hnext (by simp)]
    exact .failed (.nil _) (Bool.eq_false_iff.2 hp) (Tokenizer.next_error hnext)
      (Tokenizer.next_error_ne_closed hf hnext)
  | waiting hp hnext =>
    rw [deliveries_wait hnext (by simp)]
    have hunfailed := (Tokenizer.next_ok_failed hnext).2
    unfold settle
    split
    · next hdone =>
      rw [Bool.and_eq_true] at hdone
      exact .ended (.nil _) (Bool.eq_false_iff.2 hp) (of_decide_eq_true hdone.1) hunfailed
    · exact .held (.nil _) hunfailed
  | token hp hnext haccept _ ih =>
    rw [deliveries_token hp hnext haccept]
    exact .token (Bool.eq_false_iff.2 hp) haccept (ih (Tokenizer.next_ok_failed hnext).2)

/-- The stream has failed if its tokenizer has. -/
def Aware (s : Stream σ) : Prop := s.tokenizer.failed = true → s.phase = .failed

theorem Aware.unfailed (ha : s.Aware) (hl : s.Live) : s.tokenizer.failed = false := by
  rw [Bool.eq_false_iff]
  intro hf
  have hfailed := ha hf
  rcases hl with hp | hp <;> rw [hp] at hfailed <;> cases hfailed

theorem Aware.create (env : σ) : (create env).Aware := by simp [Aware, Stream.create]

theorem Aware.noted (ha : s.Aware) (call : Call) : (s.noted call).Aware := by
  cases call with
  | feed chunk =>
    rw [Stream.noted]
    split <;> exact ha
  | finish =>
    rw [Stream.noted]
    split
    · next hp =>
      intro hf
      rw [ha hf] at hp
      cases hp
    · exact ha
  | pause | resume => exact ha

/-- What a call comes to: that of the delivery that it makes, or what it notes. -/
theorem perform_outcome (registered : List (Registration σ)) (hs : s.Sound) (ha : s.Aware)
    {call : Call} (h : s.perform call = .ok (verdict, t)) :
    (s.delivers call = true ∧ (s.noted call).Outcome
      (((s.noted call).deliveries registered).map (·.token)) verdict t) ∨
    (s.delivers call = false ∧ t = s.noted call) := by
  cases performs hs h with
  | drained hd hdrain =>
    exact .inl ⟨hd,
      drain_outcome registered ((ha.noted call).unfailed (live_of_delivers hd)) hdrain⟩
  | noted hd => exact .inr ⟨hd, rfl⟩

theorem Outcome.aware (h : s.Outcome tokens verdict t) : t.Aware := by
  cases h with
  | held takes unfailed => simp [Aware, unfailed]
  | ended takes running phase unfailed => simp [Aware, complete, modifyEnv, unfailed]
  | failed => exact fun _ => rfl

theorem operate_aware (hs : s.Sound) (ha : s.Aware) {operation : Operation σ}
    (h : s.operate operation = .ok (verdict, t)) : t.Aware := by
  cases operation with
  | register r =>
    cases h
    obtain ⟨htokenizer, hphase, -, -⟩ := s.register_input r
    rw [Aware, htokenizer, hphase]
    exact ha
  | call call =>
    rcases perform_outcome [] hs ha h with ⟨-, hout⟩ | ⟨-, rfl⟩
    · exact hout.aware
    · exact ha.noted call
  | abort e =>
    cases h
    unfold Stream.abort
    split
    · exact ha
    · exact fun _ => rfl

/-! ### The forecast -/

/-- What the tokenizer is still going to tell if `rest` follows and, for `final`, the input ends
there. -/
def forecast (s : Stream σ) (rest : Bytes) (final : Bool) : Transcript :=
  match s.phase with
  | .accepting => (s.tokenizer.given rest final).outlook
  | .finishing => s.tokenizer.outlook
  | .ended | .failed => {}

theorem forecast_of_over (hp : s.phase ≠ .accepting) {rest' : Bytes} {final' : Bool} :
    s.forecast rest final = s.forecast rest' final' := by
  unfold forecast
  cases hphase : s.phase with
  | accepting => exact absurd hphase hp
  | finishing | ended | failed => rfl

theorem forecast_token {tokenizer : Tokenizer} {token : Token} (assembly : Assembly σ)
    (hs : s.Sound) (hl : s.Live) (h : s.tokenizer.next = (.ok (some token), tokenizer)) :
    s.forecast rest final = ({ s with tokenizer, assembly }.forecast rest final).cons token := by
  unfold forecast
  rcases hl with hp | hp <;> simp only [hp]
  · exact Tokenizer.outlook_given_token (hs.accepting hp) h
  · exact Tokenizer.outlook_token h

theorem forecast_error {tokenizer : Tokenizer} {e : StreamError} (hs : s.Sound) (hl : s.Live)
    (h : s.tokenizer.next = (.error e, tokenizer)) :
    s.forecast rest final = { error := some e } := by
  unfold forecast
  rcases hl with hp | hp <;> simp only [hp]
  · exact Tokenizer.outlook_given_error (hs.accepting hp) h
  · exact Tokenizer.outlook_error h

theorem forecast_none {tokenizer : Tokenizer} (hs : s.Sound) (hl : s.Live)
    (h : s.tokenizer.next = (.ok none, tokenizer)) :
    s.forecast rest final = { s with tokenizer }.settle.forecast rest final := by
  rcases hl with hp | hp
  · rw [settle, if_neg (by simp [hp])]
    simp only [forecast, hp, Tokenizer.outlook_given_none (hs.accepting hp) h]
  · have hdone := Tokenizer.isDone_of_none (hs.finishing hp) h
    rw [settle, if_pos (by simp [hp, hdone])]
    simp only [forecast, hp, Tokenizer.outlook_none h]
    rfl

/-- Delivery takes what it delivers, and the error that it ends in, off the forecast. -/
theorem drain_forecast (registered : List (Registration σ)) (hs : s.Sound) (hl : s.Live)
    (h : s.drain = .ok (verdict, t)) :
    s.forecast rest final =
      ⟨(s.deliveries registered).map (·.token), verdict.error?⟩ ++ t.forecast rest final := by
  rw [drain_eq_ok_iff] at h
  induction h with
  | paused hp =>
    rw [deliveries_paused hp]
    exact (Transcript.nil_append _).symm
  | failed _ hnext =>
    rw [deliveries_wait hnext (by simp)]
    exact forecast_error hs hl hnext
  | waiting _ hnext =>
    rw [deliveries_wait hnext (by simp), forecast_none hs hl hnext]
    exact (Transcript.nil_append _).symm
  | token hp hnext haccept _ ih =>
    rw [deliveries_token hp hnext haccept, forecast_token _ hs hl hnext,
      ih (hs.accepted hnext haccept) hl]
    rfl

theorem forecast_prospective :
    Prospective (forecast : Stream σ → Bytes → Bool → Transcript) where
  fed chunk rest final hp := by
    simp only [forecast, Stream.fed, hp, Tokenizer.given_given]
  closing rest final hp := by
    simp only [forecast, Stream.closing, hp, Tokenizer.given, Tokenizer.finish, List.append_nil,
      Bool.or_true]
  closed _ _ _ _ hp := forecast_of_over hp
  paused _ _ _ _ := rfl

/-- Nothing is forecast of a stream that is not paused and has delivered what it can, given that no
input follows. -/
theorem Settled.forecast_eq (hset : s.Settled) (hu : s.isPaused = false) :
    s.forecast [] false = {} := by
  obtain ⟨hfinishing, hnone⟩ := hset hu
  unfold forecast
  cases hp : s.phase with
  | accepting =>
    have hanswer : s.tokenizer.next = (.ok none, s.tokenizer.next.2) := by rw [← hnone hp]
    simp only
    rw [Tokenizer.given_nil, Tokenizer.outlook_none hanswer]
  | finishing => exact absurd hp hfinishing
  | ended | failed => rfl

end Stream

end XmlSieve
