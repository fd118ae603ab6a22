import XmlSieve.Proofs.Stream.Tireless

/-!
# Delivery

What listeners still have to be told is settled by the bytes that are unread or to come: `prospect`
is what they will share in the end, for any continuation of the input, if nobody pauses.  No call
changes it (`prospect_lasting`), so that pauses delay what is told and do nothing else
(`env_eq_env_at_once`).  Within a call, listeners are told of one token after the other, each only
while delivery is not paused (`Heeds`).
-/

namespace XmlSieve

variable {σ : Type}

namespace Assembly

variable {a b c : Assembly σ} {token : Token} {tokens : List Token}

/-- Takes tokens one after the other. -/
def acceptAll (a : Assembly σ) (tokens : List Token) : Except Misuse (Assembly σ) :=
  tokens.foldlM accept a

theorem acceptAll_cons (h : a.accept token = .ok b) :
    a.acceptAll (token :: tokens) = b.acceptAll tokens := by
  rw [acceptAll, List.foldlM_cons, h]
  rfl

theorem exists_of_acceptAll_append {front back : List Token}
    (h : a.acceptAll (front ++ back) = .ok b) :
    ∃ c, a.acceptAll front = .ok c ∧ c.acceptAll back = .ok b := by
  rw [acceptAll, List.foldlM_append] at h
  exact exists_of_bind_eq_ok h

theorem acceptAll_tireless (a : Assembly σ) (tokens : List Token) :
    a.tireless.acceptAll tokens = (a.acceptAll tokens).map tireless := by
  induction tokens generalizing a with
  | nil => rfl
  | cons token tokens ih =>
    rw [acceptAll, List.foldlM_cons, accept_tireless, acceptAll, List.foldlM_cons]
    cases a.accept token with
    | error misuse => rfl
    | ok b => exact ih b

/-- Taking tokens one after the other, each while delivery is not paused. -/
inductive Takes : Assembly σ → List Token → Assembly σ → Prop where
  | nil (a : Assembly σ) : Takes a [] a
  | cons {a b c : Assembly σ} {token : Token} {tokens : List Token} (running : a.paused = false)
      (accept : a.accept token = .ok b) (rest : Takes b tokens c) : Takes a (token :: tokens) c

/-- A paused assembly takes nothing. -/
theorem Takes.eq_of_paused (h : a.Takes tokens b) (hp : a.paused = true) : b = a := by
  cases h with
  | nil => rfl
  | cons running _ _ =>
    rw [hp] at running
    cases running

end Assembly

namespace Stream

variable {s t : Stream σ} {rest : Bytes} {final : Bool} {verdict : Verdict}

/-! ### What the input settles -/

/-- What is to come of the input before a call, given what is after it: bytes, and whether they end
the input. -/
def Call.toCome : Call → Bytes × Bool → Bytes × Bool
  | .feed chunk, (rest, final) => (chunk ++ rest, final)
  | .finish, _ => ([], true)
  | .pause, after | .resume, after => after

section Input

variable {α : Type} {F : Stream σ → Bytes → Bool → α}

/-- What is said of a stream, given that `rest` follows and, for `final`, that the input ends there:
it is the same whether some of the input has come or is to come. -/
structure Prospective (F : Stream σ → Bytes → Bool → α) : Prop where
  fed : ∀ {s : Stream σ} (chunk rest : Bytes) (final : Bool), s.phase = .accepting →
    F (s.fed chunk) rest final = F s (chunk ++ rest) final
  closing : ∀ {s : Stream σ} (rest : Bytes) (final : Bool), s.phase = .accepting →
    F s.closing rest final = F s [] true
  closed : ∀ {s : Stream σ} (rest rest' : Bytes) (final final' : Bool), s.phase ≠ .accepting →
    F s rest final = F s rest' final'
  paused : ∀ (s : Stream σ) (paused : Bool) (rest : Bytes) (final : Bool),
    F { s with assembly := { s.assembly with paused } } rest final = F s rest final

theorem Prospective.noted (hF : Prospective F) (s : Stream σ) (call : Call)
    (after : Bytes × Bool) :
    F (s.noted call) after.1 after.2 = F s (call.toCome after).1 (call.toCome after).2 := by
  cases call with
  | feed chunk =>
    rw [Stream.noted]
    split
    · next hp => exact hF.fed chunk after.1 after.2 hp
    · next hp => exact hF.closed _ _ _ _ hp
  | finish =>
    rw [Stream.noted]
    split
    · next hp => exact hF.closing after.1 after.2 hp
    · next hp => exact hF.closed _ _ _ _ hp
  | pause => exact hF.paused s true after.1 after.2
  | resume => exact hF.paused s false after.1 after.2

/-- What is said of a stream and stays true whatever it delivers. -/
structure Lasting (F : Stream σ → Bytes → Bool → α) : Prop extends Prospective F where
  token : ∀ {s : Stream σ} {tokenizer : Tokenizer} {token : Token} {assembly : Assembly σ}
    (rest : Bytes) (final : Bool), s.Sound → s.Live →
    s.tokenizer.next = (.ok (some token), tokenizer) → s.assembly.accept token = .ok assembly →
    F { s with tokenizer, assembly } rest final = F s rest final
  error : ∀ {s : Stream σ} {tokenizer : Tokenizer} {e : StreamError} (rest : Bytes)
    (final : Bool), s.Sound → s.Live → s.tokenizer.next = (.error e, tokenizer) →
    F ({ s with tokenizer }.fail e) rest final = F s rest final
  none : ∀ {s : Stream σ} {tokenizer : Tokenizer} (rest : Bytes) (final : Bool), s.Sound → s.Live →
    s.tokenizer.next = (.ok none, tokenizer) →
    F { s with tokenizer }.settle rest final = F s rest final

namespace Lasting

theorem drain (hF : Lasting F) (hs : s.Sound) (hl : s.Live) (h : s.drain = .ok (verdict, t)) :
    F t rest final = F s rest final := by
  rw [drain_eq_ok_iff] at h
  induction h with
  | paused => rfl
  | failed _ hnext => exact hF.error rest final hs hl hnext
  | waiting _ hnext => exact hF.none rest final hs hl hnext
  | token _ hnext haccept _ ih =>
    rw [ih (hs.accepted hnext haccept) hl, hF.token rest final hs hl hnext haccept]

theorem perform (hF : Lasting F) (hs : s.Sound) {call : Call}
    (h : s.perform call = .ok (verdict, t)) (after : Bytes × Bool) :
    F t after.1 after.2 = F s (call.toCome after).1 (call.toCome after).2 := by
  rw [← hF.noted]
  cases performs hs h with
  | drained hd hdrain => exact hF.drain (hs.noted call) (live_of_delivers hd) hdrain
  | noted => rfl

/-- What lasts is the same after calls as before them, given what they feed. -/
theorem run (hF : Lasting F) (hs : s.Sound) {calls : List Call} {verdicts : List Verdict}
    (h : s.run calls = .ok (verdicts, t)) (after : Bytes × Bool) :
    F t after.1 after.2 =
      F s (calls.foldr Call.toCome after).1 (calls.foldr Call.toCome after).2 := by
  induction calls generalizing s verdicts with
  | nil =>
    cases h
    rfl
  | cons call calls ih =>
    obtain ⟨verdict, u, rest, hu, hsound, hrest, rfl⟩ := exists_of_run_cons hs h
    rw [ih hsound hrest, hF.perform hs hu]
    rfl

end Lasting

end Input

/-! ### The prospect -/

/-- What listeners share after everything in `r`, and after the end of the document for `final`. -/
def conclude (s : Stream σ) (r : Transcript) (final : Bool) : Except Misuse σ :=
  (s.assembly.tireless.acceptAll r.tokens).map fun a =>
    match r.error with
    | some e => s.onError.foldl (fun env listener => listener e env) a.env
    | none => if final then s.onEnd.foldl (fun env listener => listener env) a.env else a.env

/-- What listeners share in the end if `rest` follows and, for `final`, the input ends there. -/
def prospect (s : Stream σ) (rest : Bytes) (final : Bool) : Except Misuse σ :=
  match s.phase with
  | .accepting => s.conclude (s.tokenizer.given rest final).outlook final
  | .finishing => s.conclude s.tokenizer.outlook true
  | .ended | .failed => .ok s.env

theorem conclude_cons {assembly : Assembly σ} {token : Token} {r : Transcript}
    (h : s.assembly.accept token = .ok assembly) :
    s.conclude (r.cons token) final = { s with assembly }.conclude r final := by
  unfold conclude
  rw [show (r.cons token).tokens = token :: r.tokens from rfl,
    Assembly.acceptAll_cons (Assembly.tireless_accept h)]
  rfl

/-- Delivering a token takes it off what is still to be told. -/
theorem prospect_token {tokenizer : Tokenizer} {token : Token} {assembly : Assembly σ}
    (hs : s.Sound) (hl : s.Live) (h : s.tokenizer.next = (.ok (some token), tokenizer))
    (haccept : s.assembly.accept token = .ok assembly) :
    { s with tokenizer, assembly }.prospect rest final = s.prospect rest final := by
  unfold prospect
  rcases hl with hp | hp
  · simp only [hp]
    rw [Tokenizer.outlook_given_token (hs.accepting hp) h, conclude_cons haccept]
    rfl
  · simp only [hp]
    rw [Tokenizer.outlook_token h, conclude_cons haccept]
    rfl

theorem prospect_error {tokenizer : Tokenizer} {e : StreamError} (hs : s.Sound) (hl : s.Live)
    (h : s.tokenizer.next = (.error e, tokenizer)) :
    ({ s with tokenizer }.fail e).prospect rest final = s.prospect rest final := by
  rcases hl with hp | hp
  · simp only [prospect, hp, Tokenizer.outlook_given_error (hs.accepting hp) h]
    rfl
  · simp only [prospect, hp, Tokenizer.outlook_error h]
    rfl

theorem prospect_none {tokenizer : Tokenizer} (hs : s.Sound) (hl : s.Live)
    (h : s.tokenizer.next = (.ok none, tokenizer)) :
    { s with tokenizer }.settle.prospect rest final = s.prospect rest final := by
  rcases hl with hp | hp
  · rw [settle, if_neg (by simp [hp])]
    simp only [prospect, hp, Tokenizer.outlook_given_none (hs.accepting hp) h]
    rfl
  · have hdone := Tokenizer.isDone_of_none (hs.finishing hp) h
    rw [settle, if_pos (by simp [hp, hdone])]
    simp only [prospect, hp, Tokenizer.outlook_none h]
    rfl

theorem prospect_of_over (hp : s.phase ≠ .accepting) {rest' : Bytes} {final' : Bool} :
    s.prospect rest final = s.prospect rest' final' := by
  unfold prospect
  cases hphase : s.phase with
  | accepting => exact absurd hphase hp
  | finishing | ended | failed => rfl

/-- No call changes what listeners will share in the end. -/
theorem prospect_lasting : Lasting (prospect : Stream σ → Bytes → Bool → Except Misuse σ) where
  fed chunk rest final hp := by
    simp only [prospect, Stream.fed, hp, Tokenizer.given_given]
    rfl
  closing rest final hp := by
    simp only [prospect, Stream.closing, hp, Tokenizer.given, Tokenizer.finish, List.append_nil,
      Bool.or_true]
    rfl
  closed _ _ _ _ hp := prospect_of_over hp
  paused _ _ _ _ := rfl
  token _ _ hs hl hnext haccept := prospect_token hs hl hnext haccept
  error _ _ hs hl hnext := prospect_error hs hl hnext
  none _ _ hs hl hnext := prospect_none hs hl hnext

theorem foldr_toCome {calls : List Call} (h : Call.finish ∈ calls) (after : Bytes × Bool) :
    calls.foldr Call.toCome after = (Call.input calls, true) := by
  induction calls with
  | nil => cases h
  | cons call calls ih =>
    cases call with
    | finish => rfl
    | feed | pause | resume => rw [List.foldr_cons, ih (by simpa using h)]; rfl

/-! ### Nothing left -/

/-- A stream that is not paused has delivered what it can. -/
def Settled (s : Stream σ) : Prop :=
  s.isPaused = false →
    s.phase ≠ .finishing ∧ (s.phase = .accepting → s.tokenizer.next.1 = .ok none)

theorem drain_settled (hs : s.Sound) (hl : s.Live) (h : s.drain = .ok (verdict, t)) :
    t.Settled := by
  rw [drain_eq_ok_iff] at h
  induction h with
  | paused hp => exact fun hu => absurd (hp.symm.trans hu) (by simp)
  | failed => exact fun _ => ⟨by simp [fail], by simp [fail]⟩
  | waiting _ hnext =>
    rcases hl with hphase | hphase
    · rw [settle, if_neg (by simp [hphase])]
      refine fun _ => ⟨by simp [hphase], fun _ => ?_⟩
      rw [Tokenizer.next_none_again hnext]
    · have hdone := Tokenizer.isDone_of_none (hs.finishing hphase) hnext
      rw [settle, if_pos (by simp [hphase, hdone])]
      exact fun _ => ⟨by simp [complete], by simp [complete]⟩
  | token _ hnext haccept _ ih => exact ih (hs.accepted hnext haccept) hl

theorem perform_settled (hs : s.Sound) (hset : s.Settled) {call : Call}
    (h : s.perform call = .ok (verdict, t)) : t.Settled := by
  cases performs hs h with
  | drained hd hdrain => exact drain_settled (hs.noted call) (live_of_delivers hd) hdrain
  | noted hd =>
    rcases noted_of_not_delivers hd with heq | hpaused | hover
    · rw [heq]
      exact hset
    · exact fun hu => absurd (hpaused.symm.trans hu) (by simp)
    · exact fun _ => ⟨fun hp => hover (.inr hp), fun hp => absurd (.inl hp) hover⟩

theorem run_settled (hs : s.Sound) (hset : s.Settled) {calls : List Call}
    {verdicts : List Verdict} (h : s.run calls = .ok (verdicts, t)) : t.Settled :=
  run_preserves (fun _ hs hset h => perform_settled hs hset h) hs hset h

/-- Where nothing is left, what listeners share is what they share in the end, given that no input
follows. -/
theorem Settled.prospect_eq (hset : s.Settled) (hu : s.isPaused = false) :
    s.prospect [] false = .ok s.env := by
  obtain ⟨hfinishing, hnone⟩ := hset hu
  unfold prospect
  cases hp : s.phase with
  | accepting =>
    rcases hnext : s.tokenizer.next with ⟨answer, u⟩
    have hanswer := hnone hp
    rw [hnext] at hanswer
    cases hanswer
    simp only
    rw [Tokenizer.given_nil, Tokenizer.outlook_none hnext]
    rfl
  | finishing => exact absurd hp hfinishing
  | ended | failed => rfl

/-- What listeners share when everything was delivered is settled by the input alone. -/
theorem run_env (hs : s.Sound) (hset : s.Settled) {calls : List Call} {verdicts : List Verdict}
    (h : s.run calls = .ok (verdicts, t)) (hu : t.isPaused = false) :
    s.prospect (calls.foldr Call.toCome ([], false)).1 (calls.foldr Call.toCome ([], false)).2 =
      .ok t.env := by
  rw [← prospect_lasting.run hs h ([], false)]
  exact (run_settled hs hset h).prospect_eq hu

/-! ### Within a call -/

/-- How listeners are told between two states of a stream: of one token after the other, each while
delivery is not paused, and of the end only if it is not paused then. -/
inductive Heeds (s : Stream σ) : Stream σ → Prop where
  | open {t : Stream σ} {tokens : List Token} (takes : s.assembly.Takes tokens t.assembly) :
    Heeds s t
  | ended {t : Stream σ} {tokens : List Token} {a : Assembly σ} (takes : s.assembly.Takes tokens a)
    (running : a.paused = false) (phase : t.phase = .ended)
    (env : t.env = s.onEnd.foldl (fun env listener => listener env) a.env) : Heeds s t
  | failed {t : Stream σ} {tokens : List Token} {a : Assembly σ} {e : StreamError}
    (takes : s.assembly.Takes tokens a) (running : a.paused = false) (phase : t.phase = .failed)
    (env : t.env = s.onError.foldl (fun env listener => listener e env) a.env) : Heeds s t

theorem Heeds.token {tokenizer : Tokenizer} {assembly : Assembly σ} {token : Token}
    (running : s.assembly.paused = false) (accept : s.assembly.accept token = .ok assembly)
    (h : { s with tokenizer, assembly }.Heeds t) : s.Heeds t := by
  cases h with
  | «open» takes => exact .open (.cons running accept takes)
  | ended takes hrun phase env => exact .ended (.cons running accept takes) hrun phase env
  | failed takes hrun phase env => exact .failed (.cons running accept takes) hrun phase env

theorem drain_heeds (h : s.drain = .ok (verdict, t)) : s.Heeds t := by
  rw [drain_eq_ok_iff] at h
  induction h with
  | paused => exact .open (.nil _)
  | failed hp => exact .failed (.nil _) (Bool.eq_false_iff.2 hp) rfl rfl
  | waiting hp =>
    unfold settle
    split
    · exact .ended (.nil _) (Bool.eq_false_iff.2 hp) rfl rfl
    · exact .open (.nil _)
  | token hp _ haccept _ ih => exact .token (Bool.eq_false_iff.2 hp) haccept ih

/-- In a call, listeners are told only while delivery is not paused. -/
theorem perform_heeds (hs : s.Sound) {call : Call} (h : s.perform call = .ok (verdict, t)) :
    (s.noted call).Heeds t := by
  cases performs hs h with
  | drained _ hdrain => exact drain_heeds hdrain
  | noted => exact .open (.nil _)

theorem noted_assembly {call : Call} (hc : call ≠ .resume) (hp : s.isPaused = true) :
    (s.noted call).assembly = s.assembly := by
  cases call with
  | feed | finish =>
    rw [noted]
    split <;> rfl
  | pause =>
    rw [noted, pause, ← hp]
    rfl
  | resume => exact absurd rfl hc

/-- A paused stream tells nothing before it resumes. -/
theorem Heeds.env_eq_of_paused (h : s.Heeds t) (hp : s.isPaused = true) : t.env = s.env := by
  cases h with
  | «open» takes => rw [env, takes.eq_of_paused hp, env]
  | ended takes running _ _ =>
    rw [takes.eq_of_paused hp] at running
    exact absurd (hp.symm.trans running) (by simp)
  | failed takes running _ _ =>
    rw [takes.eq_of_paused hp] at running
    exact absurd (hp.symm.trans running) (by simp)

/-! ### Resuming -/

/-- Delivery that ends in a pause has used up some input. -/
theorem drain_remaining (hu : s.isPaused = false) (h : s.drain = .ok (verdict, t))
    (hp : t.isPaused = true) : t.tokenizer.remaining < s.tokenizer.remaining := by
  rw [drain_eq_ok_iff] at h
  induction h with
  | paused hpaused => exact absurd (hpaused.symm.trans hu) (by simp)
  | failed hpaused => exact absurd hp hpaused
  | waiting hpaused =>
    unfold settle at hp
    split at hp <;> exact absurd hp hpaused
  | @token s t tokenizer token assembly verdict _ hnext _ hrest ih =>
    have hlt := Tokenizer.next_token_lt hnext
    cases hassembly : assembly.paused with
    | false => exact Nat.lt_trans (ih hassembly hp) hlt
    | true =>
      have hstays := drain_eq_ok_iff.2 hrest
      rw [drain_paused (s := { s with tokenizer, assembly }) hassembly] at hstays
      cases hstays
      exact hlt

/-- Resuming that ends in a pause has used up some input. -/
theorem resume_remaining (hs : s.Sound) (h : s.resume = .ok (verdict, t)) (hp : t.isPaused = true) :
    t.tokenizer.remaining < s.tokenizer.remaining := by
  have hperform : s.perform .resume = .ok (verdict, t) := h
  cases performs hs hperform with
  | drained _ hdrain => exact drain_remaining (s := s.unpaused) rfl hdrain hp
  | noted => cases hp

/-- However often listeners ask for pauses, resuming often enough leaves none. -/
theorem exists_resumes {s : Stream σ} (hs : s.Sound) :
    ∃ n verdicts t, s.run (.replicate (n + 1) .resume) = .ok (verdicts, t) ∧
      t.isPaused = false := by
  obtain ⟨verdict, t, ht, hsound⟩ := perform_ok hs .resume
  cases hp : t.isPaused with
  | false => exact ⟨0, _, t, run_cons ht rfl, hp⟩
  | true =>
    have hlt := resume_remaining hs ht hp
    obtain ⟨n, verdicts, u, hu, hpaused⟩ := exists_resumes hsound
    exact ⟨n + 1, _, u, run_cons ht hu, hpaused⟩
  termination_by s.tokenizer.remaining

/-! ### Streams that nobody pauses -/

theorem drain_tireless (hs : s.assembly.tireless = s.assembly) (h : s.drain = .ok (verdict, t)) :
    t.assembly.tireless = t.assembly := by
  rw [drain_eq_ok_iff] at h
  induction h with
  | paused => exact hs
  | @failed s tokenizer e =>
    exact congrArg (fun a => { a with env := ({ s with tokenizer }.fail e).env }) hs
  | @waiting s tokenizer =>
    unfold settle
    split
    · exact congrArg (fun a => { a with env := ({ s with tokenizer } : Stream σ).complete.env }) hs
    · exact hs
  | token _ _ haccept _ ih =>
    have htireless := Assembly.tireless_accept haccept
    rw [hs, haccept] at htireless
    exact ih (Except.ok.inj htireless).symm

theorem perform_tireless (hs : s.Sound) (ht : s.assembly.tireless = s.assembly) {call : Call}
    (hc : call ≠ .pause) (h : s.perform call = .ok (verdict, t)) :
    t.assembly.tireless = t.assembly := by
  have hnoted : (s.noted call).assembly.tireless = (s.noted call).assembly := by
    cases call with
    | feed | finish =>
      rw [noted]
      split <;> exact ht
    | pause => exact absurd rfl hc
    | resume => exact congrArg (fun a => { a with paused := false }) ht
  cases performs hs h with
  | drained _ hdrain => exact drain_tireless hnoted hdrain
  | noted => exact hnoted

theorem run_tireless (hs : s.Sound) (ht : s.assembly.tireless = s.assembly) {calls : List Call}
    (hc : Call.pause ∉ calls) {verdicts : List Verdict} (h : s.run calls = .ok (verdicts, t)) :
    t.isPaused = false := by
  have hassembly : t.assembly.tireless = t.assembly :=
    run_preserves (P := fun s => s.assembly.tireless = s.assembly)
      (fun hmem hs ht => perform_tireless hs ht fun heq => hc (heq ▸ hmem)) hs ht h
  rw [isPaused, ← hassembly]
  rfl

theorem tireless_prospect (s : Stream σ) :
    s.tireless.prospect rest final = s.prospect rest final := by
  unfold prospect conclude
  rw [show s.tireless.assembly.tireless = s.assembly.tireless from s.assembly.tireless_tireless]
  rfl

/-! ### Streams that were set up -/

theorem journaled_settled (env : σ) (registrations : List (Registration σ)) :
    (journaled env registrations).Settled := by
  obtain ⟨ht, hp⟩ := journaled_input env registrations
  refine fun _ => ⟨by simp [hp], fun _ => ?_⟩
  rw [ht]
  rfl

/-- Neither pauses nor the cuts of a document can be heard.  Once a schedule of calls that ends the
input has delivered everything, all that listeners were told, in its order, is what they are told
when nobody pauses and the document is fed at once.  While delivery is paused no listener is told
anything, but those of the token in which a listener asked for the pause. -/
theorem env_eq_env_at_once (env : σ) (registrations : List (Registration σ))
    (early late : List Call) :
    ∃ verdicts s verdicts' t,
      (journaled env registrations).run (early ++ .finish :: late) = .ok (verdicts, s) ∧
      (journaled env (registrations.map Registration.tireless)).run
        [.feed (Call.input (early ++ .finish :: late)), .finish] = .ok (verdicts', t) ∧
      t.isPaused = false ∧ (s.isPaused = false → s.env = t.env) ∧
      ∀ before call after, early ++ .finish :: late = before ++ call :: after →
        ∃ verdicts b verdict c, (journaled env registrations).run before = .ok (verdicts, b) ∧
          b.perform call = .ok (verdict, c) ∧ (b.noted call).Heeds c ∧
          (b.isPaused = true → call ≠ .resume → c.env = b.env) := by
  generalize hcalls : early ++ .finish :: late = calls
  have hfinish : Call.finish ∈ calls := by simp [← hcalls]
  have hs := journaled_sound env registrations
  have hset := journaled_settled env registrations
  have hs' := journaled_sound env (registrations.map Registration.tireless)
  have hset' := journaled_settled env (registrations.map Registration.tireless)
  obtain ⟨verdicts, s, hrun, -⟩ := run_ok hs calls
  obtain ⟨verdicts', t, hrun', -⟩ := run_ok hs' [.feed (Call.input calls), .finish]
  have ht : t.isPaused = false := by
    refine run_tireless hs' ?_ (by simp) hrun'
    rw [journaled_tireless]
    exact Assembly.tireless_tireless _
  refine ⟨verdicts, s, verdicts', t, hrun, hrun', ht, fun hu => ?_, ?_⟩
  · have henv := run_env hs hset hrun hu
    have henv' := run_env hs' hset' hrun' ht
    rw [foldr_toCome hfinish] at henv
    rw [foldr_toCome (by simp), journaled_tireless, tireless_prospect] at henv'
    simp only [Call.input, List.append_nil] at henv'
    rw [henv] at henv'
    exact Except.ok.inj henv'
  · intro before call after hcut
    obtain ⟨verdicts, b, hb, hsound⟩ := run_ok hs before
    obtain ⟨verdict, c, hc, -⟩ := perform_ok hsound call
    refine ⟨verdicts, b, verdict, c, hb, hc, perform_heeds hsound hc, fun hp hne => ?_⟩
    have hnoted := noted_assembly hne hp
    have hpaused : (b.noted call).isPaused = true := by rw [isPaused, hnoted]; exact hp
    rw [(perform_heeds hsound hc).env_eq_of_paused hpaused, Stream.env, hnoted]
    rfl

end Stream

end XmlSieve
