import XmlSieve.Proofs.Stream.Output
import XmlSieve.Proofs.Stream.Operations

/-!
# Streams that are over

Nothing that is done with a stream that has failed changes what is to be seen of it
(`Stream.operateAll_failed`), and only aborting changes it for a stream that has ended
(`Stream.operate_ended`).
-/

namespace XmlSieve

variable {σ : Type}

/-- The answer of a stream that has failed. -/
def Stream.Call.refusal : Stream.Call → Verdict
  | pause => .ok ()
  | feed _ | finish | resume => .error .closed

/-- The answer of a stream that has failed. -/
def Operation.refusal : Operation σ → Verdict
  | register _ => .ok ()
  | call c => c.refusal
  | abort e => .error e

namespace Stream

variable {s t u : Stream σ} {call : Call}

/-! ### Noting a call -/

theorem noted_env (s : Stream σ) (call : Call) : (s.noted call).env = s.env := by
  cases call with
  | feed | finish =>
    rw [noted]
    split <;> rfl
  | pause | resume => rfl

theorem live_of_noted (h : (s.noted call).Live) : s.Live := by
  cases call with
  | feed | finish =>
    rw [noted] at h
    split at h
    · next hp => exact .inl hp
    · exact h
  | pause | resume => exact h

theorem noted_phase (h : s.delivers call = false) :
    (s.noted call).phase = s.phase := by
  cases call with
  | feed | finish => rw [noted, if_neg (of_decide_eq_false h)]
  | pause | resume => rfl

theorem noted_failed (s : Stream σ) (call : Call) :
    (s.noted call).tokenizer.failed = s.tokenizer.failed := by
  cases call with
  | feed | finish =>
    rw [noted]
    split <;> rfl
  | pause | resume => rfl

/-! ### What is to be seen -/

/-- What is to be seen of a stream from outside is the same, but for whether it is paused, and no
input was taken. -/
structure Unchanged (s t : Stream σ) : Prop where
  env : t.env = s.env
  phase : t.phase = s.phase
  depth : t.depth = s.depth
  document : t.document = s.document
  tokenizer : t.tokenizer = s.tokenizer

namespace Unchanged

theorem refl (s : Stream σ) : s.Unchanged s := ⟨rfl, rfl, rfl, rfl, rfl⟩

theorem trans (h : s.Unchanged t) (h' : t.Unchanged u) : s.Unchanged u :=
  ⟨h'.1.trans h.1, h'.2.trans h.2, h'.3.trans h.3, h'.4.trans h.4, h'.5.trans h.5⟩

theorem register (s : Stream σ) (r : Registration σ) : s.Unchanged (s.register r) := by
  obtain ⟨htokenizer, hphase, hframes, -⟩ := s.register_input r
  obtain ⟨-, -, henv, -, hdocument⟩ := s.register_output r
  exact ⟨henv, hphase, congrArg List.length hframes, hdocument, htokenizer⟩

theorem noted (hl : ¬ s.Live) (call : Call) : s.Unchanged (s.noted call) := by
  have hp : s.phase ≠ .accepting := fun hp => hl (.inl hp)
  cases call with
  | feed | finish => rw [Stream.noted, if_neg hp]; exact refl s
  | pause | resume => exact ⟨rfl, rfl, rfl, rfl, rfl⟩

end Unchanged

theorem perform_over (hl : ¬ s.Live) (call : Call) :
    ∃ verdict, s.perform call = .ok (verdict, s.noted call) ∧
      (s.phase = .failed → verdict = call.refusal) := by
  have hp : s.phase ≠ .accepting := fun hp => hl (.inl hp)
  cases call with
  | feed chunk =>
    rw [noted, if_neg hp]
    exact ⟨_, feed_over hp chunk, fun _ => rfl⟩
  | finish =>
    rw [noted, if_neg hp]
    exact ⟨_, finish_over hp, fun _ => rfl⟩
  | pause => exact ⟨_, rfl, fun _ => rfl⟩
  | resume =>
    rw [perform, resume_eq, noted]
    cases hphase : s.phase with
    | accepting => exact absurd hphase hp
    | finishing => exact absurd (.inr hphase) hl
    | ended => exact ⟨_, rfl, fun hfailed => by cases hfailed⟩
    | failed => exact ⟨_, rfl, fun _ => rfl⟩

theorem not_live_of_failed (hp : s.phase = .failed) : ¬ s.Live := by
  simp [Live, hp]

theorem not_live_of_ended (hp : s.phase = .ended) : ¬ s.Live := by
  simp [Live, hp]

/-! ### Operations -/

/-- A stream that has failed refuses what is done with it and stays as it is. -/
theorem operate_failed (hp : s.phase = .failed) (operation : Operation σ) :
    ∃ t, s.operate operation = .ok (operation.refusal, t) ∧ s.Unchanged t := by
  cases operation with
  | register r => exact ⟨_, rfl, .register s r⟩
  | call call =>
    obtain ⟨verdict, h, hverdict⟩ := perform_over (not_live_of_failed hp) call
    rw [hverdict hp] at h
    exact ⟨_, h, .noted (not_live_of_failed hp) call⟩
  | abort e =>
    refine ⟨_, rfl, ?_⟩
    rw [abort, if_pos hp]
    exact .refl s

theorem operateAll_failed (hp : s.phase = .failed)
    (operations : List (Operation σ)) :
    ∃ t, s.operateAll operations = .ok (operations.map (·.refusal), t) ∧ s.Unchanged t := by
  induction operations generalizing s with
  | nil => exact ⟨s, rfl, .refl s⟩
  | cons operation operations ih =>
    obtain ⟨t, ht, hsame⟩ := operate_failed hp operation
    obtain ⟨u, hu, hrest⟩ := ih (hsame.phase.trans hp)
    exact ⟨u, operateAll_cons ht hu, hsame.trans hrest⟩

/-- A stream that has ended stays as it is, unless it is aborted. -/
theorem operate_ended (hp : s.phase = .ended) {operation : Operation σ}
    {verdict : Verdict} (h : s.operate operation = .ok (verdict, t)) :
    s.Unchanged t ∨ ∃ e, operation = .abort e ∧ t = s.fail e := by
  cases operation with
  | register r =>
    cases h
    exact .inl (.register s r)
  | call call =>
    obtain ⟨verdict', h', -⟩ := perform_over (not_live_of_ended hp) call
    rw [operate, h'] at h
    cases h
    exact .inl (.noted (not_live_of_ended hp) call)
  | abort e =>
    cases h
    rw [abort, if_neg (by simp [hp])]
    exact .inr ⟨e, rfl, rfl⟩

theorem operateAll_ended (hp : s.phase = .ended)
    {operations : List (Operation σ)} {verdicts : List Verdict}
    (h : s.operateAll operations = .ok (verdicts, t)) :
    t.phase = .ended ∨ t.phase = .failed ∧ ∃ e, .abort e ∈ operations := by
  induction operations generalizing s verdicts with
  | nil =>
    cases h
    exact .inl hp
  | cons operation operations ih =>
    obtain ⟨verdict, u, rest, hu, hrest, rfl⟩ := exists_of_operateAll_cons h
    rcases operate_ended hp hu with hsame | ⟨e, rfl, rfl⟩
    · rcases ih (hsame.phase.trans hp) hrest with ht | ⟨ht, e, he⟩
      · exact .inl ht
      · exact .inr ⟨ht, e, List.mem_cons_of_mem _ he⟩
    · obtain ⟨v, hv, hsame⟩ := operateAll_failed (s := s.fail e) rfl operations
      rw [hrest] at hv
      cases hv
      exact .inr ⟨hsame.phase, e, List.mem_cons_self⟩

end Stream

end XmlSieve
