import XmlSieve.Proofs.Selector.Recognition
import XmlSieve.Proofs.Stream.Lockstep

/-!
# Registrations, calls and the journal

A stream is set up by a list of registrations and then driven by a list of calls (`Stream.run`).
What its listeners are told can be written down: `logged` makes every registered listener, whatever
else it does, add a `Notice` to the `Journal` that the listeners share, under the number of its
registration.  Runs of a set-up stream always give a result (`run_ok`).
-/

namespace XmlSieve

/-- What is registered with a stream before its input. -/
inductive Registration (σ : Type) where
  | on (event : String) (listener : Listener σ)
  | collect (selector : String)
  | preserve (selector : String) (whitespace : Bool)
  | data (sink : String → σ → σ)
  | atEnd (listener : σ → σ)
  | atError (listener : StreamError → σ → σ)

/-- Something that a listener was told, with the number of its registration. -/
inductive Notice where
  /-- It was told of a match. -/
  | matched (id : Nat) (m : Match)
  /-- A fragment was written to it. -/
  | data (id : Nat) (fragment : String)
  /-- It was told that everything was delivered. -/
  | ended (id : Nat)
  /-- It was told of the error that ends the stream. -/
  | failed (id : Nat) (e : StreamError)

/-- What listeners share, and everything they were told so far. -/
structure Journal (σ : Type) where
  env : σ
  notices : List Notice := []

namespace Journal

variable {σ : Type}

/-- Changes what the listeners share and adds a notice. -/
def add (j : Journal σ) (env : σ) (notice : Notice) : Journal σ :=
  { env, notices := j.notices ++ [notice] }

/-- The listener that does what `listener` does and writes down what it is told. -/
def listen (id : Nat) (listener : Listener σ) : Listener (Journal σ) := fun m j =>
  let r := listener m j.env
  { element := r.element, pause := r.pause, env := j.add r.env (.matched id m) }

end Journal

namespace Registration

variable {σ : Type}

/-- The registration with the number `id`, with a listener that writes down what it is told. -/
def logged (id : Nat) : Registration σ → Registration (Journal σ)
  | on event listener => on event (Journal.listen id listener)
  | collect selector => collect selector
  | preserve selector whitespace => preserve selector whitespace
  | data sink => data fun fragment j => j.add (sink fragment j.env) (.data id fragment)
  | atEnd listener => atEnd fun j => j.add (listener j.env) (.ended id)
  | atError listener => atError fun e j => j.add (listener e j.env) (.failed id e)

/-- Numbered registrations, with listeners that write down what they are told. -/
def loggedAll (registrations : List (Registration σ × Nat)) : List (Registration (Journal σ)) :=
  registrations.map fun (r, id) => r.logged id

end Registration

namespace Stream

variable {σ : Type} {s : Stream σ}

/-! ### Setting up -/

def register (s : Stream σ) : Registration σ → Stream σ
  | .on event listener => (s.on event listener).2
  | .collect selector => s.collect selector
  | .preserve selector whitespace => s.preserve selector whitespace
  | .data sink => s.onData sink
  | .atEnd listener => s.addEndListener listener
  | .atError listener => s.addErrorListener listener

/-- A stream with everything in the list registered, in its order. -/
def registered (env : σ) (registrations : List (Registration σ)) : Stream σ :=
  registrations.foldl register (create env)

/-- A stream that keeps a journal: registrations are numbered from zero. -/
def journaled (env : σ) (registrations : List (Registration σ)) : Stream (Journal σ) :=
  registered { env } (Registration.loggedAll registrations.zipIdx)

/-! ### Calls -/

/-- A call of a stream. -/
inductive Call where
  | feed (chunk : Bytes)
  | finish
  | pause
  | resume
  deriving DecidableEq, Repr

/-- The input that calls make up: what is fed until the end is first signalled. -/
def Call.input : List Call → Bytes
  | [] => []
  | .feed chunk :: calls => chunk ++ input calls
  | .finish :: _ => []
  | .pause :: calls | .resume :: calls => input calls

/-- Makes a call. -/
def perform (s : Stream σ) : Call → Except Misuse (Verdict × Stream σ)
  | .feed chunk => s.feed chunk
  | .finish => s.finish
  | .pause => .ok (.ok (), s.pause)
  | .resume => s.resume

/-- Makes calls one after the other. -/
def run (s : Stream σ) : List Call → Except Misuse (List Verdict × Stream σ)
  | [] => .ok ([], s)
  | call :: calls =>
    match s.perform call with
    | .error misuse => .error misuse
    | .ok (verdict, s) => (s.run calls).map fun (verdicts, s) => (verdict :: verdicts, s)

/-! ### Every call gives a result -/

/-- The stream with `chunk` put behind its unread bytes. -/
def fed (s : Stream σ) (chunk : Bytes) : Stream σ :=
  { s with tokenizer := s.tokenizer.given chunk false }

/-- The stream with the end of its input signalled. -/
def closing (s : Stream σ) : Stream σ :=
  { s with tokenizer := s.tokenizer.finish, phase := .finishing }

/-- The stream with its delivery not paused. -/
def unpaused (s : Stream σ) : Stream σ :=
  { s with assembly := { s.assembly with paused := false } }

theorem feed_accepting (hs : s.Sound) (hp : s.phase = .accepting) (chunk : Bytes) :
    s.feed chunk = (s.fed chunk).drain := by
  rw [feed, if_pos hp, Tokenizer.feed, if_neg (by simp [hs.accepting hp])]
  simp [fed, Tokenizer.given, hs.accepting hp]

theorem feed_over (hp : s.phase ≠ .accepting) (chunk : Bytes) :
    s.feed chunk = .ok (.error .closed, s) := if_neg hp

theorem finish_accepting (hp : s.phase = .accepting) : s.finish = s.closing.drain := if_pos hp

theorem finish_over (hp : s.phase ≠ .accepting) : s.finish = .ok (.error .closed, s) := if_neg hp

theorem resume_eq (s : Stream σ) :
    s.resume =
      match s.phase with
      | .accepting | .finishing => s.unpaused.drain
      | .ended => .ok (.ok (), s.unpaused)
      | .failed => .ok (.error .closed, s.unpaused) := rfl

theorem Sound.fed (hs : s.Sound) (chunk : Bytes) : (s.fed chunk).Sound :=
  ⟨fun hp => by simp [Stream.fed, Tokenizer.given, hs.accepting hp],
    fun hp => by simp [Stream.fed, Tokenizer.given, hs.finishing hp], hs.rootStarted, hs.inStep⟩

theorem Sound.closing (hs : s.Sound) : s.closing.Sound :=
  ⟨by simp [Stream.closing], fun _ => rfl, hs.rootStarted, hs.inStep⟩

theorem Sound.ofPaused (hs : s.Sound) (paused : Bool) :
    Sound { s with assembly := { s.assembly with paused } } :=
  ⟨hs.accepting, hs.finishing, hs.rootStarted, hs.inStep.frames, hs.inStep.active⟩

/-- Whether there may be something left to deliver. -/
def Live (s : Stream σ) : Prop := s.phase = .accepting ∨ s.phase = .finishing

/-- The stream when a call has been noted, before it delivers anything. -/
def noted (s : Stream σ) : Call → Stream σ
  | .feed chunk => if s.phase = .accepting then s.fed chunk else s
  | .finish => if s.phase = .accepting then s.closing else s
  | .pause => s.pause
  | .resume => s.unpaused

theorem Sound.noted (hs : s.Sound) (call : Call) : (s.noted call).Sound := by
  cases call with
  | feed chunk =>
    rw [Stream.noted]
    split
    · exact hs.fed chunk
    · exact hs
  | finish =>
    rw [Stream.noted]
    split
    · exact hs.closing
    · exact hs
  | pause => exact hs.ofPaused true
  | resume => exact hs.ofPaused false

/-- Whether a call delivers anything that can be delivered. -/
def delivers (s : Stream σ) : Call → Bool
  | .feed _ | .finish => s.phase = .accepting
  | .pause => false
  | .resume => s.phase = .accepting || s.phase = .finishing

/-- A call that delivers drains the stream, and any other leaves it as it was noted. -/
theorem perform_eq (hs : s.Sound) (call : Call) :
    (s.delivers call = true ∧ s.perform call = (s.noted call).drain) ∨
      (s.delivers call = false ∧ ∃ verdict, s.perform call = .ok (verdict, s.noted call)) := by
  cases call with
  | feed chunk =>
    by_cases hp : s.phase = .accepting
    · rw [noted, if_pos hp]
      exact .inl ⟨by simp [delivers, hp], feed_accepting hs hp chunk⟩
    · rw [noted, if_neg hp]
      exact .inr ⟨by simp [delivers, hp], _, feed_over hp chunk⟩
  | finish =>
    by_cases hp : s.phase = .accepting
    · rw [noted, if_pos hp]
      exact .inl ⟨by simp [delivers, hp], finish_accepting hp⟩
    · rw [noted, if_neg hp]
      exact .inr ⟨by simp [delivers, hp], _, finish_over hp⟩
  | pause => exact .inr ⟨rfl, _, rfl⟩
  | resume =>
    rw [perform, resume_eq, noted, delivers]
    cases hp : s.phase with
    | accepting | finishing => exact .inl ⟨by simp, rfl⟩
    | ended | failed => exact .inr ⟨by simp, _, rfl⟩

/-- A call that delivers finds something that may be delivered. -/
theorem live_of_delivers {call : Call} (h : s.delivers call = true) : (s.noted call).Live := by
  cases call with
  | feed chunk =>
    have hp : s.phase = .accepting := of_decide_eq_true h
    rw [noted, if_pos hp]
    exact .inl hp
  | finish =>
    have hp : s.phase = .accepting := of_decide_eq_true h
    rw [noted, if_pos hp]
    exact .inr rfl
  | pause => cases h
  | resume => exact (Bool.or_eq_true_iff.1 h).imp of_decide_eq_true of_decide_eq_true

/-- The ways of a call that returns `verdict` and leads to `t`: it delivers what it has noted, or
notes it and that is all. -/
inductive Performs (s : Stream σ) (call : Call) : Verdict → Stream σ → Prop where
  | drained {verdict : Verdict} {t : Stream σ} (delivers : s.delivers call = true)
      (drain : (s.noted call).drain = .ok (verdict, t)) : Performs s call verdict t
  | noted {verdict : Verdict} (delivers : s.delivers call = false) :
      Performs s call verdict (s.noted call)

theorem performs (hs : s.Sound) {call : Call} (h : s.perform call = .ok (verdict, t)) :
    s.Performs call verdict t := by
  rcases perform_eq hs call with ⟨hd, hn⟩ | ⟨hd, verdict', hn⟩
  · exact .drained hd (hn ▸ h)
  · rw [hn] at h
    cases h
    exact .noted hd

/-- Where a call delivers nothing, it changes nothing or nothing can be delivered. -/
theorem noted_of_not_delivers {call : Call} (h : s.delivers call = false) :
    s.noted call = s ∨ (s.noted call).isPaused = true ∨ ¬ (s.noted call).Live := by
  cases call with
  | feed | finish => exact .inl (if_neg (of_decide_eq_false h))
  | pause => exact .inr (.inl rfl)
  | resume => exact .inr (.inr (by simpa [delivers, Live, unpaused, noted] using h))

theorem perform_ok (hs : s.Sound) (call : Call) :
    ∃ verdict t, s.perform call = .ok (verdict, t) ∧ t.Sound := by
  rcases perform_eq hs call with ⟨-, h⟩ | ⟨-, verdict, h⟩
  · rw [h]
    exact drain_ok (hs.noted call)
  · exact ⟨verdict, _, h, hs.noted call⟩

/-- No call is a misuse of a sound stream. -/
theorem perform_ne_error (hs : s.Sound) (call : Call) (misuse : Misuse) :
    s.perform call ≠ .error misuse := by
  obtain ⟨verdict, t, ht, -⟩ := perform_ok hs call
  simp [ht]

theorem run_cons {t u : Stream σ} {call : Call} {calls : List Call} {verdict : Verdict}
    {verdicts : List Verdict} (h : s.perform call = .ok (verdict, t))
    (hrun : t.run calls = .ok (verdicts, u)) :
    s.run (call :: calls) = .ok (verdict :: verdicts, u) := by
  rw [run, h]
  simp only [hrun, Except.map]

theorem run_ok (hs : s.Sound) (calls : List Call) :
    ∃ verdicts t, s.run calls = .ok (verdicts, t) ∧ t.Sound := by
  induction calls generalizing s with
  | nil => exact ⟨[], s, rfl, hs⟩
  | cons call calls ih =>
    obtain ⟨verdict, t, ht, hsound⟩ := perform_ok hs call
    obtain ⟨verdicts, u, hu, husound⟩ := ih hsound
    exact ⟨_, u, run_cons ht hu, husound⟩

theorem exists_of_run_cons {u : Stream σ} {call : Call} {calls : List Call}
    {verdicts : List Verdict} (hs : s.Sound) (h : s.run (call :: calls) = .ok (verdicts, u)) :
    ∃ verdict t rest, s.perform call = .ok (verdict, t) ∧ t.Sound ∧
      t.run calls = .ok (rest, u) ∧ verdicts = verdict :: rest := by
  obtain ⟨verdict, t, ht, hsound⟩ := perform_ok hs call
  obtain ⟨rest, v, hv, -⟩ := run_ok hsound calls
  rw [run_cons ht hv] at h
  cases h
  exact ⟨verdict, t, rest, ht, hsound, hv, rfl⟩

/-- What each of the calls keeps is kept by all of them. -/
theorem run_preserves {P : Stream σ → Prop} {t : Stream σ} {calls : List Call}
    (step : ∀ {s t call verdict}, call ∈ calls → s.Sound → P s →
      s.perform call = .ok (verdict, t) → P t)
    (hs : s.Sound) (hP : P s) {verdicts : List Verdict} (h : s.run calls = .ok (verdicts, t)) :
    P t := by
  induction calls generalizing s verdicts with
  | nil =>
    cases h
    exact hP
  | cons call calls ih =>
    obtain ⟨verdict, u, rest, hu, hsound, hrest, rfl⟩ := exists_of_run_cons hs h
    exact ih (fun hmem => step (List.mem_cons_of_mem _ hmem)) hsound
      (step List.mem_cons_self hs hP hu) hrest

/-! ### Streams that were set up -/

theorem compile_active {η : Type} (a : Automaton η) (selector : Selector) :
    (a.compile selector).2.active = a.active := by
  unfold Automaton.compile
  split
  · rfl
  · rw [Automaton.addSelector_eq]

theorem foldl_on_active {η : Type} (hooks : List (Occasion × η)) (a : Automaton η)
    (state : StateId) :
    (hooks.foldl (fun m (occasion, hook) => m.on occasion state hook) a).active = a.active := by
  induction hooks generalizing a with
  | nil => rfl
  | cons hook hooks ih => exact ih _

/-- What registering changes: who is told of something, and the automaton where a selector gets
effects. -/
theorem exists_register (s : Stream σ) (r : Registration σ) :
    ∃ automaton listeners sinks onEnd onError,
      s.register r =
        { s with assembly := { s.assembly with automaton, listeners, sinks }, onEnd, onError } ∧
      (automaton = s.assembly.automaton ∨
        ∃ selector effects, automaton = (s.assembly.register selector effects).automaton) := by
  cases r with
  | on event listener =>
    simp only [register, on]
    cases Subscription.parse? event with
    | none => exact ⟨_, _, _, _, _, rfl, .inl rfl⟩
    | some subscription =>
      simp only [Assembly.subscribe]
      split
      · exact ⟨_, _, _, _, _, rfl, .inl rfl⟩
      · exact ⟨_, _, _, _, _, rfl, .inr ⟨_, _, rfl⟩⟩
  | collect selector =>
    exact ⟨_, _, _, _, _, rfl, .inr ⟨Selector.parse selector, [(.flag, .collect)], rfl⟩⟩
  | preserve selector whitespace =>
    exact ⟨_, _, _, _, _, rfl, .inr ⟨Selector.parse selector,
      [(.enter, .preserve whitespace), (.leave, .release whitespace)], rfl⟩⟩
  | data | atEnd | atError => exact ⟨_, _, _, _, _, rfl, .inl rfl⟩

/-- Registering touches neither the input nor what is open. -/
theorem register_input (s : Stream σ) (r : Registration σ) :
    (s.register r).tokenizer = s.tokenizer ∧ (s.register r).phase = s.phase ∧
      (s.register r).assembly.frames = s.assembly.frames ∧
      (s.register r).assembly.automaton.active = s.assembly.automaton.active := by
  obtain ⟨_, _, _, _, _, h, rfl | ⟨selector, effects, rfl⟩⟩ := s.exists_register r <;> rw [h]
  · exact ⟨rfl, rfl, rfl, rfl⟩
  · exact ⟨rfl, rfl, rfl, (foldl_on_active _ _ _).trans (compile_active _ _)⟩

theorem register_sound (hs : s.Sound) (r : Registration σ) : (s.register r).Sound := by
  obtain ⟨ht, hp, hframes, hactive⟩ := s.register_input r
  refine ⟨?_, ?_, ?_, ?_, ?_⟩
  · rw [ht, hp]
    exact hs.accepting
  · rw [ht, hp]
    exact hs.finishing
  · rw [ht]
    exact hs.rootStarted
  · rw [ht, hframes]
    exact hs.inStep.frames
  · rw [ht, hactive]
    exact hs.inStep.active

theorem foldl_register_sound (registrations : List (Registration σ)) (hs : s.Sound) :
    (registrations.foldl register s).Sound := by
  induction registrations generalizing s with
  | nil => exact hs
  | cons r registrations ih => exact ih (register_sound hs r)

theorem foldl_register_input (registrations : List (Registration σ)) (s : Stream σ) :
    (registrations.foldl register s).tokenizer = s.tokenizer ∧
      (registrations.foldl register s).phase = s.phase := by
  induction registrations generalizing s with
  | nil => exact ⟨rfl, rfl⟩
  | cons r registrations ih =>
    obtain ⟨ht, hp, -⟩ := s.register_input r
    obtain ⟨ht', hp'⟩ := ih (s.register r)
    exact ⟨ht'.trans ht, hp'.trans hp⟩

theorem journaled_sound (env : σ) (registrations : List (Registration σ)) :
    (journaled env registrations).Sound :=
  foldl_register_sound _ (.create _)

/-- A stream that was set up has had no input. -/
theorem journaled_input (env : σ) (registrations : List (Registration σ)) :
    (journaled env registrations).tokenizer = {} ∧
      (journaled env registrations).phase = .accepting :=
  foldl_register_input _ _

end Stream

end XmlSieve
