import XmlSieve.Proofs.Stream.Assembled
import XmlSieve.Proofs.Stream.Output
import XmlSieve.Proofs.Token.Rereading

/-!
# Passing documents through

Where no update is subscribed to, nothing holds output back, and a stream whose listeners leave
elements as they are writes every token that it takes (`Follows.accept_written`).  What it has
written of a document that it delivered to the end is therefore read as the tokens of this document
(`written_reread`).
-/

namespace XmlSieve

variable {σ : Type}

namespace Assembly

variable {a b : Assembly (Journal σ)} {m : Automaton Effect} {policy : Policy} {roster : Roster}
  {stack : List Branch} {token : Token} {tokens : List Token} {id : Nat}

/-- Effects that hold nothing back and flush nothing. -/
def Fluent (effects : List Effect) : Prop :=
  ∀ effect ∈ effects, effect.hold? = none ∧ effect.flush? = none

theorem Fluent.flush? {effects : List Effect} (h : Fluent effects) :
    effects.filterMap Effect.flush? = [] :=
  List.filterMap_eq_nil_iff.2 fun effect he => (h effect he).2

theorem applyAll_fluent {effects : List Effect} (h : Fluent effects) (frame : Frame)
    (chunk : Option String) :
    (a.applyAll frame chunk effects).1.holding = a.holding := by
  induction effects generalizing a frame with
  | nil => rfl
  | cons effect effects ih =>
    obtain ⟨hhold, hflush⟩ := h effect (by simp)
    refine (ih (fun e he => h e (by simp [he])) _).trans ?_
    cases effect with
    | collect | preserve => rfl
    | release whitespace =>
      simp only [endPreserving]
      split <;> rfl
    | hold event => cases hhold
    | flush event => cases hflush
    | notify event => exact notify_holding a event frame chunk

namespace Follows

theorem start_written (h : a.Follows m policy roster stack) (hm : policy.Agrees m)
    (hfluent : ∀ occasion path, Fluent (m.dueAt occasion path)) (hprints : a.Prints id)
    (hholding : a.holding = 0) (name : String) (attributes : Attributes) :
    (a.acceptStart name attributes).env.written id =
        a.env.written id ++ Markup.startTag name attributes ∧
      (a.acceptStart name attributes).holding = 0 := by
  have hran := h.runStart_ran hm { name, attributes }
  have heffects : Fluent ((a.automaton.enter name).1.flags ++
      (a.automaton.enter name).1.enter) := by
    rw [h.enter { name, attributes }]
    exact List.forall_mem_append.2 ⟨hfluent .flag _, hfluent .enter _⟩
  obtain ⟨hwritten, hkept⟩ := acceptStart_written hprints name attributes heffects.flush?
  have hrun : (a.runStart name attributes).1.holding = 0 :=
    (applyAll_fluent heffects _ _).trans hholding
  rw [if_pos hrun, hran.element] at hwritten
  exact ⟨hwritten, hkept.trans hrun⟩

theorem text_written (h : a.Follows m policy roster stack)
    (hfluent : ∀ occasion path, Fluent (m.dueAt occasion path)) (hprints : a.Prints id)
    (hholding : a.holding = 0) {chunk : String} (hb : a.acceptText chunk = .ok b) :
    b.env.written id = a.env.written id ++ escape chunk ∧ b.holding = 0 := by
  obtain ⟨frame, outer, hframes⟩ := exists_frames_of_text hb
  have heffects : Fluent (a.automaton.due .inside) := by
    rw [h.due]
    exact hfluent .inside _
  obtain ⟨hwritten, hkept⟩ := acceptText_written hprints hframes heffects.flush? hb
  have hrun : (a.runText frame outer chunk).1.holding = 0 :=
    (applyAll_fluent heffects _ _).trans hholding
  rw [if_pos hrun] at hwritten
  exact ⟨hwritten, hkept.trans hrun⟩

theorem finish_written {branch : Branch} (h : a.Follows m policy roster (branch :: stack))
    (hfluent : ∀ occasion path, Fluent (m.dueAt occasion path)) (hprints : a.Prints id)
    (hholding : a.holding = 0) (hb : a.acceptEnd = .ok b) :
    b.env.written id = a.env.written id ++ Markup.endTag branch.name ∧ b.holding = 0 := by
  obtain ⟨frame, outer, hframes⟩ := exists_frames_of_end hb
  have hholds := h.holds
  rw [hframes] at hholds
  obtain ⟨first, -⟩ := hholds.cons_inv
  have hactive : a.automaton.active =
      m.after (Branch.path (branch :: stack)) :: m.sets stack := by
    rw [h.automaton]
    rfl
  have hran := h.runEnd_ran first outer (m.sets stack)
  have heffects : Fluent (a.automaton.hooks.fire .leave
      (m.after (Branch.path (branch :: stack)))) := by
    rw [h.automaton]
    exact hfluent .leave _
  obtain ⟨hwritten, hkept⟩ := acceptEnd_written hprints hframes hactive hb
  have hrun : (a.runEnd frame outer (m.after (Branch.path (branch :: stack)))
      (m.sets stack)).1.holding = 0 := (applyAll_fluent heffects _ _).trans hholding
  have hsilent : (a.runEnd frame outer (m.after (Branch.path (branch :: stack)))
      (m.sets stack)).1.env.written id = a.env.written id :=
    applyAll_written ⟨hprints.listeners, hprints.sinks⟩ heffects.flush?
  rw [hsilent, if_pos hrun, hran.element, first.element, Branch.reserved_name] at hwritten
  exact ⟨hwritten, hkept.trans hrun⟩

/-- What a token writes where nothing is held back. -/
theorem accept_written (h : a.Follows m policy roster stack) (hm : policy.Agrees m)
    (hfluent : ∀ occasion path, Fluent (m.dueAt occasion path)) (hprints : a.Prints id)
    (hholding : a.holding = 0) {p q : Place} (hp : p.openNames = stack.map (·.name))
    (hq : p.follow token = some q) (hb : a.accept token = .ok b) :
    b.env.written id = a.env.written id ++ Markup.ofToken token ∧ b.holding = 0 := by
  cases Place.follow_eq_some_iff.1 hq with
  | startTag name attributes =>
    cases hb
    exact h.start_written hm hfluent hprints hholding name attributes
  | text => exact h.text_written hfluent hprints hholding hb
  | endTag name outer =>
    cases stack with
    | nil => cases hp
    | cons branch stack =>
      obtain rfl : branch.name = name := (List.cons.inj hp).1.symm
      exact h.finish_written hfluent hprints hholding hb

/-- What is written while tokens are taken, where nothing is held back. -/
theorem acceptAll_written (h : a.Follows m policy roster stack) (hm : policy.Agrees m)
    (hfluent : ∀ occasion path, Fluent (m.dueAt occasion path)) (hprints : a.Prints id)
    (hholding : a.holding = 0) {p q : Place} (hp : p.openNames = stack.map (·.name))
    (hq : p.followAll tokens = some q) (hb : a.acceptAll tokens = .ok b) :
    b.env.written id = a.env.written id ++ Markup.ofTokens tokens := by
  induction tokens generalizing a stack p with
  | nil =>
    cases hb
    exact String.append_empty.symm
  | cons token tokens ih =>
    obtain ⟨next, hnext, hq⟩ := Place.exists_of_followAll_cons hq
    obtain ⟨c, hc, hb⟩ := exists_of_bind_eq_ok hb
    obtain ⟨hwritten, hkept⟩ :=
      h.accept_written hm hfluent hprints hholding hp hnext hc
    rw [ih (h.accept hm hc).1 (accept_prints hprints hc) hkept (Branch.openNames_grow hp hnext) hq
      hb, hwritten, String.append_assoc, Markup.ofTokens]

end Follows

end Assembly

open Registration

namespace Stream

variable {registrations : List (Registration σ)}

/-- Without a subscription to an update nothing is held back. -/
theorem fluent_of_no_update {m : Automaton Effect} {states : List (Selector × StateId)}
    (h : m.Serves states (requests registrations))
    (hupdate : ∀ s ∈ subscriptions registrations, s.kind ≠ .updateElement) (occasion : Occasion)
    (path : List String) : Assembly.Fluent (m.dueAt occasion path) := by
  have hagrees := policy_agrees h
  have hflush (id : Nat) : .flush id ∉ m.dueAt .leave path := by
    intro he
    obtain ⟨s, hs, hkind⟩ := exists_subscription_of_due h he rfl
    have hne := hupdate s (List.mem_of_getElem? hs)
    cases hk : s.kind with
    | updateElement => exact hne hk
    | startElement | endElement | text => simp [hk, Assembly.subscriptionEffects] at hkind
  have hflushes : (m.dueAt .leave path).filterMap Effect.flush? = [] := by
    refine List.filterMap_eq_nil_iff.2 fun effect he => ?_
    cases effect with
    | flush id => exact absurd he (hflush id)
    | collect | preserve | release | hold | notify => rfl
  have hholds : (m.dueAt .enter path).filterMap Effect.hold? = [] := by
    rw [← hagrees.flushed, hflushes]
  intro effect he
  have hfits := hagrees.fits occasion path effect he
  cases effect with
  | hold id =>
    obtain rfl : occasion = .enter := hfits
    exact absurd (List.filterMap_eq_nil_iff.1 hholds _ he) (by simp [Effect.hold?])
  | flush id =>
    obtain rfl : occasion = .leave := hfits
    exact absurd he (hflush id)
  | collect | preserve | release | notify => exact ⟨rfl, rfl⟩

/-- What a stream has written of a document that it delivered to the end, where listeners leave
elements as they are and none of them waits for an update. -/
theorem written_tokens {env : σ} (h : ∀ r ∈ registrations, r.Still)
    (hupdate : ∀ s ∈ subscriptions registrations, s.kind ≠ .updateElement) {id : Nat}
    {sink : String → σ → σ} (hsink : registrations[id]? = some (.data sink)) {calls : List Call}
    {verdicts : List Verdict} {s : Stream (Journal σ)}
    (hrun : (journaled env registrations).run calls = .ok (verdicts, s)) (hs : s.phase = .ended) :
    s.env.written id = Markup.ofTokens (Document.transcript (Call.input calls)).tokens := by
  obtain ⟨b, hb, hwritten⟩ := exists_written_of_ended hrun hs id
  obtain ⟨after, hfollow, -⟩ := Document.follow_transcript (Call.input calls)
  obtain ⟨states, hserves, -⟩ := journaled_serves env registrations
  obtain ⟨-, -, henv, hholding, -⟩ :=
    registered_output ({ env } : Journal σ) (loggedAll registrations.zipIdx)
  have hall := (journaled_follows env h).acceptAll_written (policy_agrees hserves)
    (fluent_of_no_update hserves hupdate) (journaled_prints env hsink) hholding
    (p := .prolog) rfl hfollow hb
  have hstart : (journaled env registrations).assembly.env.written id = "" :=
    congrArg (Journal.written id) henv
  rw [hwritten, hall, hstart, String.empty_append]

/-- A document passes through.  Listeners leave elements as they are, none of them waits for an
update, and there is a sink.  A stream that nobody pauses delivers a document to its end, and when a
stream has done so, what it wrote to the sink is itself a document: the tokens that are heard of it
are those of the input, where adjacent texts are one and the tabs and line ends in the values of
attributes are spaces. -/
theorem written_reread (env : σ) (registrations : List (Registration σ))
    (h : ∀ r ∈ registrations, r.Still)
    (hupdate : ∀ s ∈ subscriptions registrations, s.kind ≠ .updateElement) (id : Nat)
    (sink : String → σ → σ) (hsink : registrations[id]? = some (.data sink))
    (calls : List Call) :
    ∃ verdicts s, (journaled env registrations).run calls = .ok (verdicts, s) ∧
      ((∀ r ∈ registrations, r.tireless = r) → Call.pause ∉ calls → Call.finish ∈ calls →
        (Document.transcript (Call.input calls)).error = none → s.phase = .ended) ∧
      (s.phase = .ended → ∃ tokens,
        Tokenizer.hear [.feed (Call.input calls), .finish, .drain] = .ok ⟨tokens, none⟩ ∧
        Tokenizer.hear [.feed (Bytes.encode (s.env.written id)), .finish, .drain] =
          .ok ⟨Token.merge (tokens.map Token.spacedOut), none⟩) := by
  obtain ⟨verdicts, s, hrun, -⟩ := run_ok (journaled_sound env registrations) calls
  refine ⟨verdicts, s, hrun, ended_of_tireless hrun, fun hs => ?_⟩
  obtain ⟨-, herror⟩ := document_of_ended hrun hs
  refine ⟨(Document.transcript (Call.input calls)).tokens, ?_, ?_⟩
  · rw [Tokenizer.hear_document, ← herror]
  · rw [Tokenizer.hear_document, written_tokens h hupdate hsink hrun hs,
      Document.transcript_rewritten herror]

/-- A tab in an attribute, and text that a literal section and a reference cut. -/
theorem written_reread_sections :
    ∃ verdicts s,
      (journaled () [.on "endElement" .idle, .data fun _ env => env]).run
        [.feed (Bytes.ascii ['<', 'a', ' ', 'b', '=', '"', '&', '#', '9', ';', '"', '>', 'p', '<',
            '!', '[', 'C', 'D']),
          .feed (Bytes.ascii ['A', 'T', 'A', '[', '<', ']', ']', '>', '&', 'l', 't', ';', '<', 'c',
            '/', '>', '<', '/', 'a', '>']), .finish] = .ok (verdicts, s) ∧
      s.phase = .ended ∧
      Tokenizer.hear [.feed (Bytes.encode (s.env.written 1)), .finish, .drain] =
        .ok ⟨[.startTag "a" [("b", " ")], .text "p<<", .startTag "c" [], .endTag "c",
          .endTag "a"], none⟩ := by
  obtain ⟨verdicts, s, hrun, hended, hread⟩ := written_reread ()
    [.on "endElement" .idle, .data fun _ env => env]
    (by simp [Registration.Still, Listener.idle]) (by decide) 1 (fun _ env => env) rfl
    [.feed (Bytes.ascii ['<', 'a', ' ', 'b', '=', '"', '&', '#', '9', ';', '"', '>', 'p', '<',
        '!', '[', 'C', 'D']),
      .feed (Bytes.ascii ['A', 'T', 'A', '[', '<', ']', ']', '>', '&', 'l', 't', ';', '<', 'c',
        '/', '>', '<', '/', 'a', '>']), .finish]
  have hs : s.phase = .ended :=
    hended (by simp [Registration.tireless, Listener.tireless_idle]) (by decide) (by decide)
      (by decide +kernel)
  obtain ⟨tokens, htokens, hwritten⟩ := hread hs
  refine ⟨verdicts, s, hrun, hs, hwritten.trans ?_⟩
  rw [Tokenizer.hear_document] at htokens
  have hmerged : Token.merge ((Document.transcript (Call.input
      [.feed (Bytes.ascii ['<', 'a', ' ', 'b', '=', '"', '&', '#', '9', ';', '"', '>', 'p', '<',
          '!', '[', 'C', 'D']),
        .feed (Bytes.ascii ['A', 'T', 'A', '[', '<', ']', ']', '>', '&', 'l', 't', ';', '<', 'c',
          '/', '>', '<', '/', 'a', '>']), .finish])).tokens.map Token.spacedOut) =
      [.startTag "a" [("b", " ")], .text "p<<", .startTag "c" [], .endTag "c", .endTag "a"] := by
    decide +kernel
  rw [Except.ok.inj htokens] at hmerged
  rw [hmerged]

end Stream

end XmlSieve
