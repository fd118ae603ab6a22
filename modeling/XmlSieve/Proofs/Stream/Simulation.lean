import Mathlib.Data.List.Forall2
import XmlSieve.Proofs.Stream.Operations

/-!
# Streams that do the same

A relation between streams that starts from the same input and is kept by each token that is taken
and by the end of the stream (`Simulation`) is kept by everything that can be done with both, and
both answer alike (`Simulation.operateAll`).  What is registered with the two need not be the same:
it is enough that each registration keeps the relation.
-/

namespace XmlSieve

variable {σ τ : Type}

/-- Operations that differ in what they register, and there as `Q` allows. -/
inductive Operation.Matches (Q : Registration σ → Registration τ → Prop) :
    Operation σ → Operation τ → Prop where
  | register {r : Registration σ} {r' : Registration τ} (h : Q r r') :
      Matches Q (.register r) (.register r')
  | call (c : Stream.Call) : Matches Q (.call c) (.call c)
  | abort (e : StreamError) : Matches Q (.abort e) (.abort e)

theorem Operation.matches_calls (Q : Registration σ → Registration τ → Prop)
    (calls : List Stream.Call) :
    List.Forall₂ (Operation.Matches Q) (calls.map .call) (calls.map .call) :=
  List.forall₂_map_right_iff.2 (List.forall₂_map_left_iff.2
    (List.forall₂_same.2 fun call _ => .call call))

namespace Stream

/-! ### Simulations -/

/-- A relation between streams with the same input that is kept by whatever changes them. -/
structure Simulation (R : Stream σ → Stream τ → Prop) : Prop where
  tokenizer : ∀ {s t}, R s t → t.tokenizer = s.tokenizer
  phase : ∀ {s t}, R s t → t.phase = s.phase
  isPaused : ∀ {s t}, R s t → t.isPaused = s.isPaused
  read : ∀ {s t}, R s t → ∀ tokenizer, R { s with tokenizer } { t with tokenizer }
  enter : ∀ {s t}, R s t → ∀ phase, R { s with phase } { t with phase }
  pause : ∀ {s t}, R s t → ∀ paused, R { s with assembly := { s.assembly with paused } }
    { t with assembly := { t.assembly with paused } }
  accept : ∀ {s t}, R s t → ∀ {token assembly}, s.assembly.accept token = .ok assembly →
    ∃ assembly', t.assembly.accept token = .ok assembly' ∧
      R { s with assembly } { t with assembly := assembly' }
  complete : ∀ {s t}, R s t → R s.complete t.complete
  fail : ∀ {s t}, R s t → ∀ e, R (s.fail e) (t.fail e)

namespace Simulation

variable {R : Stream σ → Stream τ → Prop} {s u : Stream σ} {t : Stream τ} {verdict : Verdict}

theorem settle (hR : Simulation R) (h : R s t) : R s.settle t.settle := by
  unfold Stream.settle
  rw [hR.phase h, hR.tokenizer h]
  split
  · exact hR.complete h
  · exact h

theorem drain (hR : Simulation R) (h : R s t) (hs : s.drain = .ok (verdict, u)) :
    ∃ u', t.drain = .ok (verdict, u') ∧ R u u' := by
  rw [drain_eq_ok_iff] at hs
  induction hs generalizing t with
  | paused hp => exact ⟨t, drain_paused ((hR.isPaused h).trans hp), h⟩
  | failed hp hnext =>
    rw [← hR.isPaused h] at hp
    rw [← hR.tokenizer h] at hnext
    exact ⟨_, drain_failed hp hnext, hR.fail (hR.read h _) _⟩
  | waiting hp hnext =>
    rw [← hR.isPaused h] at hp
    rw [← hR.tokenizer h] at hnext
    exact ⟨_, drain_waiting hp hnext, hR.settle (hR.read h _)⟩
  | token hp hnext haccept _ ih =>
    obtain ⟨assembly', haccept', hR'⟩ := hR.accept h haccept
    rw [← hR.isPaused h] at hp
    rw [← hR.tokenizer h] at hnext
    rw [drain_taken hp hnext haccept']
    exact ih (hR.read hR' _)

theorem perform (hR : Simulation R) (h : R s t) {call : Call}
    (hs : s.perform call = .ok (verdict, u)) :
    ∃ u', t.perform call = .ok (verdict, u') ∧ R u u' := by
  cases call with
  | feed chunk =>
    by_cases hp : s.phase = .accepting
    · rw [Stream.perform, feed, if_pos hp] at hs
      rw [Stream.perform, feed, if_pos ((hR.phase h).trans hp), hR.tokenizer h]
      cases hfeed : s.tokenizer.feed chunk with
      | error misuse => simp [hfeed] at hs
      | ok tokenizer =>
        rw [hfeed] at hs
        exact hR.drain (hR.read h tokenizer) hs
    · rw [Stream.perform, feed_over hp] at hs
      cases hs
      exact ⟨t, feed_over (by rwa [hR.phase h]) chunk, h⟩
  | finish =>
    by_cases hp : s.phase = .accepting
    · rw [Stream.perform, finish_accepting hp] at hs
      rw [Stream.perform, finish_accepting ((hR.phase h).trans hp), closing, hR.tokenizer h]
      exact hR.drain (hR.enter (hR.read h s.tokenizer.finish) .finishing) hs
    · rw [Stream.perform, finish_over hp] at hs
      cases hs
      exact ⟨t, finish_over (by rwa [hR.phase h]), h⟩
  | pause =>
    cases hs
    exact ⟨t.pause, rfl, hR.pause h true⟩
  | resume =>
    have hresumed : R s.unpaused t.unpaused := hR.pause h false
    rw [Stream.perform, resume_eq] at hs ⊢
    rw [hR.phase h]
    cases hp : s.phase with
    | accepting | finishing =>
      rw [hp] at hs
      exact hR.drain hresumed hs
    | ended | failed =>
      rw [hp] at hs
      cases hs
      exact ⟨t.unpaused, rfl, hresumed⟩

theorem abort (hR : Simulation R) (h : R s t) (e : StreamError) : R (s.abort e) (t.abort e) := by
  unfold Stream.abort
  rw [hR.phase h]
  split
  · exact h
  · exact hR.fail h e

variable {Q : Registration σ → Registration τ → Prop}

theorem operate (hR : Simulation R)
    (hregister : ∀ {s t r r'}, R s t → Q r r' → R (s.register r) (t.register r')) (h : R s t)
    {operation : Operation σ} {operation' : Operation τ} (hmatches : operation.Matches Q operation')
    (hs : s.operate operation = .ok (verdict, u)) :
    ∃ u', t.operate operation' = .ok (verdict, u') ∧ R u u' := by
  cases hmatches with
  | register hr =>
    cases hs
    exact ⟨_, rfl, hregister h hr⟩
  | call c => exact hR.perform h hs
  | abort e =>
    cases hs
    exact ⟨_, rfl, hR.abort h e⟩

/-- Whatever is done with both streams is answered alike. -/
theorem operateAll (hR : Simulation R)
    (hregister : ∀ {s t r r'}, R s t → Q r r' → R (s.register r) (t.register r')) (h : R s t)
    {operations : List (Operation σ)} {operations' : List (Operation τ)}
    (hmatches : List.Forall₂ (Operation.Matches Q) operations operations')
    {verdicts : List Verdict} (hs : s.operateAll operations = .ok (verdicts, u)) :
    ∃ u', t.operateAll operations' = .ok (verdicts, u') ∧ R u u' := by
  induction hmatches generalizing s t verdicts with
  | nil =>
    cases hs
    exact ⟨t, rfl, h⟩
  | cons hfirst _ ih =>
    obtain ⟨verdict, v, rest, hv, hrest, rfl⟩ := exists_of_operateAll_cons hs
    obtain ⟨v', hv', hR'⟩ := hR.operate hregister h hfirst hv
    obtain ⟨u', hu', hlast⟩ := ih hR' hrest
    exact ⟨u', operateAll_cons hv' hu', hlast⟩

/-- Calls are answered alike. -/
theorem run (hR : Simulation R) (h : R s t) {calls : List Call} {verdicts : List Verdict}
    (hs : s.run calls = .ok (verdicts, u)) :
    ∃ u', t.run calls = .ok (verdicts, u') ∧ R u u' := by
  rw [← operateAll_calls] at hs ⊢
  exact hR.operateAll (fun _ hr => hr.elim) h (Operation.matches_calls (fun _ _ => False) calls) hs

end Simulation

end Stream

end XmlSieve
