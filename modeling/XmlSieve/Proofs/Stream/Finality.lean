import XmlSieve.Proofs.Stream.Closure
import XmlSieve.Proofs.Stream.Conservation
import XmlSieve.Proofs.Stream.Latecomers

/-!
# What is told last

The listeners for the end and those for the error that ends a stream are told by nothing but the
operation that ends it: what no listener for matches and no sink changes stays the same while tokens
are delivered (`Assembly.Conserves`), and every operation either tells no listener of the two kinds
or all of one kind (`operate_turn`).  Each of them is therefore told at most once, and those of one
kind only, unless a stream that has ended is aborted: it then fails as well, with its listeners for
errors told after those for the end (`finals_once`).  Nothing else leads out of the last two phases.
-/

namespace XmlSieve

variable {σ : Type}

/-! ### Final notices -/

/-- The listener, if it is told of the end. -/
def Notice.ended? : Notice → Option Nat
  | ended id => some id
  | matched _ _ | data _ _ | failed _ _ => none

/-- The listener, if it is told of an error, and the error. -/
def Notice.failed? : Notice → Option (Nat × StreamError)
  | failed id e => some (id, e)
  | matched _ _ | data _ _ | ended _ => none

namespace Journal

/-- The listeners that were told of the end, in their order. -/
def ends (j : Journal σ) : List Nat := j.notices.filterMap (·.ended?)

/-- The listeners that were told of an error, in their order, each with the error. -/
def failures (j : Journal σ) : List (Nat × StreamError) := j.notices.filterMap (·.failed?)

/-- Who was told of the end and who of an error. -/
def finals (j : Journal σ) : List Nat × List (Nat × StreamError) := (j.ends, j.failures)

theorem finals_add (j : Journal σ) (env : σ) (notice : Notice) :
    (j.add env notice).finals =
      (j.ends ++ notice.ended?.toList, j.failures ++ notice.failed?.toList) := by
  rw [finals, ends, failures, add, List.filterMap_append, List.filterMap_append]
  cases notice <;> rfl

theorem finals_add_other (j : Journal σ) (env : σ) {notice : Notice} (hended : notice.ended? = none)
    (hfailed : notice.failed? = none) : (j.add env notice).finals = j.finals := by
  rw [finals_add, hended, hfailed, Option.toList_none, List.append_nil, Option.toList_none,
    List.append_nil, finals]

end Journal

namespace Registration

/-- The listener for errors, if it is one. -/
def failing? : Registration σ → Option (StreamError → σ → σ)
  | atError listener => some listener
  | on _ _ | collect _ | preserve _ _ | data _ | atEnd _ => none

/-- The numbers of the listeners for the end. -/
def endIds (registrations : List (Registration σ)) : List Nat :=
  idsOf (fun r => (ending? r).isSome) registrations

/-- The numbers of the listeners for errors. -/
def errorIds (registrations : List (Registration σ)) : List Nat :=
  idsOf (fun r => (failing? r).isSome) registrations

theorem conserves_logged (r : Registration σ) (id : Nat) :
    (r.logged id).Conserves Journal.finals := by
  cases r with
  | on event listener => exact fun m j => j.finals_add_other _ rfl rfl
  | data sink => exact fun fragment j => j.finals_add_other _ rfl rfl
  | collect | preserve | atEnd | atError => trivial

theorem idsOf_concat (pick : Registration σ → Bool) (registrations : List (Registration σ))
    (r : Registration σ) :
    idsOf pick (registrations ++ [r]) =
      idsOf pick registrations ++ if pick r then [registrations.length] else [] := by
  rw [idsOf, List.zipIdx_append, List.filter_append, List.map_append, idsOf]
  cases hr : pick r <;> simp [hr]

end Registration

/-- The operation, with the listener that it may register writing down what it is told under the
number `n`. -/
def Operation.logged (n : Nat) : Operation σ → Operation (Journal σ)
  | register r => register (r.logged n)
  | call c => call c
  | abort e => abort e

namespace Operation

theorem loggedFrom_cons (n : Nat) (operation : Operation σ) (operations : List (Operation σ)) :
    loggedFrom n (operation :: operations) =
      operation.logged n :: loggedFrom (n + (registrations [operation]).length) operations := by
  cases operation <;> rfl

theorem loggedFrom_singleton (n : Nat) (operation : Operation σ) :
    loggedFrom n [operation] = [operation.logged n] :=
  loggedFrom_cons n operation []

theorem mem_of_abort_mem_loggedFrom {e : StreamError} {n : Nat} {operations : List (Operation σ)}
    (h : .abort e ∈ loggedFrom n operations) : .abort e ∈ operations := by
  induction operations generalizing n with
  | nil => cases h
  | cons operation operations ih =>
    rw [loggedFrom_cons] at h
    rcases List.mem_cons.1 h with h | h
    · cases operation <;> cases h
      exact List.mem_cons_self
    · exact List.mem_cons_of_mem _ (ih h)

end Operation

open Assembly Registration Operation

namespace Stream

theorem register_onError (s : Stream σ) (r : Registration σ) :
    (s.register r).onError = s.onError ++ (failing? r).toList := by
  cases r with
  | on event listener =>
    simp only [register, Stream.on]
    cases Subscription.parse? event <;> exact (List.append_nil _).symm
  | atError listener => rfl
  | collect | preserve | data | atEnd => exact (List.append_nil _).symm

variable {s t : Stream (Journal σ)} {done : List (Registration σ)} {e : StreamError} {τ : Type}

/-- The listeners for the end and for errors are those that were registered and write down what they
are told, and nobody else writes that. -/
structure Attended (s : Stream (Journal σ)) (done : List (Registration σ)) : Prop where
  conserves : s.assembly.Conserves Journal.finals
  onEnd : List.Forall₂ (fun listener id => ∀ j, ∃ env, listener j = j.add env (.ended id)) s.onEnd
    (endIds done)
  onError : List.Forall₂ (fun listener id => ∀ e j, ∃ env, listener e j = j.add env (.failed id e))
    s.onError (errorIds done)

namespace Attended

theorem create (env : σ) : (create ({ env } : Journal σ)).Attended [] :=
  ⟨⟨by simp [Stream.create], by simp [Stream.create]⟩, .nil, .nil⟩

theorem same (h : s.Attended done) (hlisteners : t.assembly.listeners = s.assembly.listeners)
    (hsinks : t.assembly.sinks = s.assembly.sinks) (hend : t.onEnd = s.onEnd)
    (herror : t.onError = s.onError) : t.Attended done := by
  refine ⟨h.conserves.congr hlisteners hsinks, ?_, ?_⟩
  · rw [hend]
    exact h.onEnd
  · rw [herror]
    exact h.onError

theorem register (h : s.Attended done) (r : Registration σ) :
    (s.register (r.logged done.length)).Attended (done ++ [r]) := by
  refine ⟨h.conserves.register (conserves_logged r _), ?_, ?_⟩
  · rw [(register_output s _).2.1, endIds, idsOf_concat]
    refine List.rel_append h.onEnd ?_
    cases r with
    | atEnd listener => exact .cons (fun j => ⟨_, rfl⟩) .nil
    | on | collect | preserve | data | atError => exact .nil
  · rw [register_onError, errorIds, idsOf_concat]
    refine List.rel_append h.onError ?_
    cases r with
    | atError listener => exact .cons (fun e j => ⟨_, rfl⟩) .nil
    | on | collect | preserve | data | atEnd => exact .nil

theorem noted (h : s.Attended done) (call : Call) : (s.noted call).Attended done := by
  cases call with
  | feed | finish =>
    rw [Stream.noted]
    split <;> exact h.same rfl rfl rfl rfl
  | pause | resume => exact h.same rfl rfl rfl rfl

theorem takes (h : s.Attended done) {tokens : List Token} {assembly : Assembly (Journal σ)}
    (ht : s.assembly.Takes tokens assembly) (tokenizer : Tokenizer) :
    assembly.env.finals = s.env.finals ∧
      ({ s with tokenizer, assembly } : Stream (Journal σ)).Attended done :=
  ⟨(h.conserves.takes ht).1, (h.conserves.takes ht).2, h.onEnd, h.onError⟩

/-- Listeners that are told in turn write down their notices, and nothing else. -/
theorem foldl_notices (tell : τ → Journal σ → Journal σ) (notice : Nat → Notice)
    {listeners : List τ} {ids : List Nat}
    (h : List.Forall₂ (fun listener id => ∀ j, ∃ env, tell listener j = j.add env (notice id))
      listeners ids) (j : Journal σ) :
    (listeners.foldl (fun j listener => tell listener j) j).notices =
      j.notices ++ ids.map notice := by
  induction h generalizing j with
  | nil => exact (List.append_nil _).symm
  | cons hfirst _ ih =>
    obtain ⟨env, henv⟩ := hfirst j
    rw [List.foldl_cons, ih, henv, Journal.add, List.append_assoc]
    rfl

theorem complete (h : s.Attended done) :
    s.complete.env.notices = s.env.notices ++ (endIds done).map .ended :=
  foldl_notices (fun (listener : Journal σ → Journal σ) j => listener j) .ended h.onEnd s.env

theorem fail (h : s.Attended done) (e : StreamError) :
    (s.fail e).env.notices = s.env.notices ++ (errorIds done).map (.failed · e) :=
  foldl_notices (fun (listener : StreamError → Journal σ → Journal σ) j => listener e j)
    (.failed · e) (h.onError.imp fun _ _ hl => hl e) s.env

end Attended

/-! ### The operation that ends a stream -/

/-- How an operation turns `s` into `t`: it tells nobody of the end or of an error, or it ends the
stream and tells everyone who is to be told. -/
inductive Turn (s : Stream (Journal σ)) (done : List (Registration σ))
    (operation : Operation (Journal σ)) (t : Stream (Journal σ)) : Prop where
  | goes (phase : t.phase = s.phase ∨ s.Live ∧ t.Live) (finals : t.env.finals = s.env.finals)
  | ends (live : s.Live) (phase : t.phase = .ended)
    (finals : t.env.finals = (s.env.ends ++ endIds done, s.env.failures))
  | fails (e : StreamError) (before : s.Live ∨ s.phase = .ended ∧ operation = .abort e)
    (phase : t.phase = .failed)
    (finals : t.env.finals = (s.env.ends, s.env.failures ++ (errorIds done).map (·, e)))

theorem finals_of_ended {j k : Journal σ} {ids : List Nat}
    (h : k.notices = j.notices ++ ids.map .ended) : k.finals = (j.ends ++ ids, j.failures) := by
  have hends : (ids.map Notice.ended).filterMap (·.ended?) = ids := by
    rw [List.filterMap_map]
    exact List.filterMap_some
  have hfailures : (ids.map Notice.ended).filterMap (·.failed?) = [] := by
    simp [Notice.failed?]
  rw [Journal.finals, Journal.ends, Journal.failures, h, List.filterMap_append,
    List.filterMap_append, hends, hfailures, List.append_nil]
  rfl

theorem finals_of_failed {j k : Journal σ} {ids : List Nat}
    (h : k.notices = j.notices ++ ids.map (.failed · e)) :
    k.finals = (j.ends, j.failures ++ ids.map (·, e)) := by
  have hends : (ids.map (Notice.failed · e)).filterMap (·.ended?) = [] := by
    simp [Notice.ended?]
  have hfailures : (ids.map (Notice.failed · e)).filterMap (·.failed?) = ids.map (·, e) := by
    rw [List.filterMap_map]
    exact congrFun (List.filterMap_eq_map (f := fun id => (id, e))) ids
  rw [Journal.finals, Journal.ends, Journal.failures, h, List.filterMap_append,
    List.filterMap_append, hends, hfailures, List.append_nil]
  rfl

theorem Outcome.turn {tokens : List Token} {verdict : Verdict} (h : s.Outcome tokens verdict t)
    (hl : s.Live) (ha : s.Attended done) (operation : Operation (Journal σ)) :
    s.Turn done operation t ∧ t.Attended done := by
  cases h with
  | held takes unfailed =>
    obtain ⟨hfinals, hattended⟩ := ha.takes takes _
    exact ⟨.goes (.inl rfl) hfinals, hattended⟩
  | ended takes running phase unfailed =>
    obtain ⟨hfinals, hattended⟩ := ha.takes takes _
    refine ⟨.ends hl rfl ?_, hattended.same rfl rfl rfl rfl⟩
    rw [finals_of_ended hattended.complete]
    exact congrArg (fun finals => (finals.1 ++ endIds done, finals.2)) hfinals
  | @failed tokenizer assembly e takes running failed fault =>
    obtain ⟨hfinals, hattended⟩ := ha.takes takes tokenizer
    refine ⟨.fails e (.inl hl) rfl ?_, hattended.same rfl rfl rfl rfl⟩
    rw [finals_of_failed (hattended.fail e)]
    exact congrArg (fun finals => (finals.1, finals.2 ++ (errorIds done).map (·, e))) hfinals

/-- Noting a call tells nobody anything. -/
theorem Turn.of_noted {call : Call} {operation : Operation (Journal σ)}
    (h : (s.noted call).Turn done operation t) (hl : (s.noted call).Live) :
    s.Turn done operation t := by
  have henv := s.noted_env call
  have hlive := live_of_noted hl
  cases h with
  | goes phase finals =>
    refine .goes (.inr ⟨hlive, ?_⟩) (finals.trans (congrArg Journal.finals henv))
    rcases phase with hphase | ⟨-, ht⟩
    · rwa [Live, hphase]
    · exact ht
  | ends _ phase finals => exact .ends hlive phase (by rw [finals, henv])
  | fails e _ phase finals => exact .fails e (.inl hlive) phase (by rw [finals, henv])

theorem operate_turn (hs : s.Sound) (haware : s.Aware) (ha : s.Attended done)
    {operation : Operation (Journal σ)} {verdict : Verdict}
    (h : s.operate operation = .ok (verdict, t)) : s.Turn done operation t := by
  cases operation with
  | register r =>
    cases h
    have hsame := Unchanged.register s r
    exact .goes (.inl hsame.phase) (congrArg Journal.finals hsame.env)
  | call call =>
    rcases perform_outcome [] hs haware h with ⟨hd, hout⟩ | ⟨hd, rfl⟩
    · have hl := live_of_delivers hd
      exact ((hout.turn hl (ha.noted call) (.call call)).1).of_noted hl
    · exact .goes (.inl (noted_phase hd)) (congrArg Journal.finals (s.noted_env call))
  | abort e =>
    cases h
    unfold abort
    split
    · exact .goes (.inl rfl) rfl
    · next hp =>
      have hbefore : s.Live ∨ s.phase = .ended := by
        cases hphase : s.phase with
        | accepting => exact .inl (.inl hphase)
        | finishing => exact .inl (.inr hphase)
        | ended => exact .inr rfl
        | failed => exact absurd hphase hp
      exact .fails e (hbefore.imp_right (⟨·, rfl⟩)) rfl (finals_of_failed (ha.fail e))

theorem Attended.perform (ha : s.Attended done) (hs : s.Sound) (haware : s.Aware) {call : Call}
    {verdict : Verdict} (h : s.perform call = .ok (verdict, t)) : t.Attended done := by
  rcases perform_outcome [] hs haware h with ⟨hd, hout⟩ | ⟨-, rfl⟩
  · exact (hout.turn (live_of_delivers hd) (ha.noted call) (.call call)).2
  · exact ha.noted call

/-- Operations whose registrations are numbered keep to the numbers. -/
theorem Attended.operateAll (ha : s.Attended done) (hs : s.Sound) (haware : s.Aware)
    {operations : List (Operation σ)} {verdicts : List Verdict}
    (h : s.operateAll (loggedFrom done.length operations) = .ok (verdicts, t)) :
    t.Attended (done ++ registrations operations) := by
  induction operations generalizing s done verdicts with
  | nil =>
    cases h
    rwa [registrations, List.filterMap_nil, List.append_nil]
  | cons operation operations ih =>
    cases operation with
    | register r =>
      obtain ⟨verdict, u, rest, hu, hrest, rfl⟩ := exists_of_operateAll_cons h
      have haware' := operate_aware hs haware hu
      cases hu
      rw [registrations_register, List.append_cons]
      have hnumber : (done ++ [r]).length = done.length + 1 := List.length_append
      exact ih (ha.register r) (register_sound hs _) haware' (hnumber ▸ hrest)
    | call call =>
      obtain ⟨verdict, u, rest, hu, hrest, rfl⟩ := exists_of_operateAll_cons h
      exact ih (ha.perform hs haware hu) (operate_sound hs hu) (operate_aware hs haware hu) hrest
    | abort e =>
      obtain ⟨verdict, u, rest, hu, hrest, rfl⟩ := exists_of_operateAll_cons h
      have hu' := hu
      cases hu'
      refine ih ?_ (operate_sound hs hu) (operate_aware hs haware hu) hrest
      unfold abort
      split
      · exact ha
      · exact ha.same rfl rfl rfl rfl

/-! ### Any operations -/

/-- Whether a stream is aborted that has ended. -/
def AbortsEnded (env : σ) (operations : List (Operation σ)) : Prop :=
  ∃ before e after verdicts t, operations = before ++ .abort e :: after ∧
    (create ({ env } : Journal σ)).operateAll (loggedFrom 0 before) = .ok (verdicts, t) ∧
    t.phase = .ended

/-- Who was told that a stream is over, after these operations. -/
structure Final (env : σ) (operations : List (Operation σ)) (s : Stream (Journal σ)) : Prop where
  ends : s.env.ends.Nodup
  failures : (s.env.failures.map (·.1)).Nodup
  live : s.Live → s.env.finals = ([], [])
  ended : s.phase = .ended → s.env.failures = []
  exclusive : s.env.ends = [] ∨ s.env.failures = [] ∨ AbortsEnded env operations

theorem AbortsEnded.append {env : σ} {operations : List (Operation σ)}
    (h : AbortsEnded env operations) (more : List (Operation σ)) :
    AbortsEnded env (operations ++ more) := by
  obtain ⟨before, e, after, verdicts, t, rfl, hrun, ht⟩ := h
  exact ⟨before, e, after ++ more, verdicts, t, by simp, hrun, ht⟩

theorem Final.create (env : σ) : Final env [] (create ({ env } : Journal σ)) :=
  ⟨List.nodup_nil, List.nodup_nil, fun _ => rfl, fun _ => rfl, .inl rfl⟩

/-- One operation more. -/
theorem Final.turn {env : σ} {operations : List (Operation σ)} {operation : Operation σ}
    {logged : Operation (Journal σ)} {verdicts : List Verdict}
    (hrun : (Stream.create ({ env } : Journal σ)).operateAll (loggedFrom 0 operations) =
      .ok (verdicts, s))
    (hlogged : ∀ e, logged = .abort e → operation = .abort e) (h : Final env operations s)
    (ht : s.Turn done logged t) : Final env (operations ++ [operation]) t := by
  cases ht with
  | goes phase finals =>
    obtain ⟨hends, hfailures⟩ := Prod.mk.inj finals
    refine ⟨hends ▸ h.ends, hfailures ▸ h.failures, fun hl => ?_, fun hp => ?_, ?_⟩
    · rw [finals]
      refine h.live (phase.elim (fun hphase => ?_) (·.1))
      rwa [Live, hphase] at hl
    · rw [hfailures]
      rcases phase with hphase | ⟨-, hl⟩
      · exact h.ended (hphase ▸ hp)
      · exact absurd hl (not_live_of_ended hp)
    · rw [hends, hfailures]
      exact h.exclusive.imp_right (.imp_right (·.append _))
  | ends live phase finals =>
    obtain ⟨hends, hfailures⟩ := Prod.mk.inj (h.live live)
    rw [hends, hfailures, List.nil_append] at finals
    obtain ⟨hends', hfailures'⟩ := Prod.mk.inj finals
    refine ⟨hends' ▸ nodup_idsOf _ done, ?_, fun hl => ?_, fun _ => hfailures',
      .inr (.inl hfailures')⟩
    · rw [hfailures']
      exact List.nodup_nil
    · exact absurd hl (not_live_of_ended phase)
  | fails e before phase finals =>
    obtain ⟨hends, hfailures⟩ := Prod.mk.inj finals
    have hnone : s.env.failures = [] :=
      before.elim (fun hl => (Prod.mk.inj (h.live hl)).2) fun hp => h.ended hp.1
    rw [hnone, List.nil_append] at hfailures
    refine ⟨hends ▸ h.ends, ?_, fun hl => ?_, fun hp => ?_, ?_⟩
    · rw [hfailures, List.map_map]
      exact (nodup_idsOf _ done).map fun _ _ hid => hid
    · exact absurd hl (not_live_of_failed phase)
    · rw [phase] at hp
      cases hp
    · rcases before with hl | ⟨hp, rfl⟩
      · exact .inl (hends.trans (Prod.mk.inj (h.live hl)).1)
      · obtain rfl := hlogged e rfl
        exact .inr (.inr ⟨operations, e, [], verdicts, s, rfl, hrun, hp⟩)

theorem operateAll_final {env : σ} {operations : List (Operation σ)} {verdicts : List Verdict}
    (h : (Stream.create ({ env } : Journal σ)).operateAll (loggedFrom 0 operations) =
      .ok (verdicts, s)) : Final env operations s := by
  induction operations using List.reverseRecOn generalizing s verdicts with
  | nil =>
    cases h
    exact .create env
  | append_singleton operations operation ih =>
    have hcreate : (Stream.create ({ env } : Journal σ)).Sound := .create _
    rw [loggedFrom_append] at h
    obtain ⟨first, t, rest, hfirst, hlast, -⟩ := exists_of_operateAll_append h
    obtain ⟨ht, haware⟩ :=
      operateAll_preserves (fun _ hs ha => operate_aware hs ha) hcreate (.create _) hfirst
    have hattended := (Attended.create env).operateAll hcreate (.create _) hfirst
    rw [loggedFrom_singleton] at hlast
    obtain ⟨verdict, u, more, hu, hmore, -⟩ := exists_of_operateAll_cons hlast
    cases hmore
    refine .turn hfirst (fun e he => ?_) (ih hfirst) (operate_turn ht haware hattended hu)
    cases operation <;> cases he
    rfl

/-- A stream tells of its end at most once.  Whatever is done with it, no listener for the end and
no listener for errors is told twice, and those of both kinds are told only if the stream is aborted
when it has ended.  A stream that has failed stays so, and one that has ended unless it is
aborted. -/
theorem finals_once (env : σ) (operations : List (Operation σ)) :
    ∃ verdicts s,
      (create ({ env } : Journal σ)).operateAll (loggedFrom 0 operations) = .ok (verdicts, s) ∧
      s.env.ends.Nodup ∧ (s.env.failures.map (·.1)).Nodup ∧
      (s.env.ends = [] ∨ s.env.failures = [] ∨ AbortsEnded env operations) ∧
      ∀ before after, operations = before ++ after → ∃ verdicts b,
        (create ({ env } : Journal σ)).operateAll (loggedFrom 0 before) = .ok (verdicts, b) ∧
        (b.phase = .failed → s.phase = .failed) ∧
        (b.phase = .ended → s.phase = .ended ∨ s.phase = .failed ∧ ∃ e, .abort e ∈ after) := by
  obtain ⟨verdicts, s, hrun⟩ := operateAll_ok (.create ({ env } : Journal σ)) (loggedFrom 0 operations)
  have hfinal := operateAll_final hrun
  refine ⟨verdicts, s, hrun, hfinal.ends, hfinal.failures, hfinal.exclusive, ?_⟩
  rintro before after rfl
  rw [loggedFrom_append] at hrun
  obtain ⟨first, b, rest, hfirst, hrest, -⟩ := exists_of_operateAll_append hrun
  refine ⟨first, b, hfirst, fun hp => ?_, fun hp => ?_⟩
  · obtain ⟨t, ht, hsame⟩ := operateAll_failed hp (loggedFrom (0 + (registrations before).length) after)
    rw [hrest] at ht
    cases ht
    exact hsame.phase.trans hp
  · refine (operateAll_ended hp hrest).imp_right (.imp_right ?_)
    rintro ⟨e, he⟩
    exact ⟨e, mem_of_abort_mem_loggedFrom he⟩

/-- Aborting a stream that has ended tells the listeners for errors after those for the end. -/
theorem finals_of_aborted_end :
    let document := Bytes.ascii ['<', 'a', '/', '>']
    let operations : List (Operation Unit) :=
      [.register (.atEnd id), .register (.atError fun _ => id), .call (.feed document), .call .finish]
    (((create ({ env := () } : Journal Unit)).operateAll (loggedFrom 0 operations)).map
      fun (_, s) => (s.env.ends, s.env.failures, s.phase)) = .ok ([0], [], .ended) ∧
    (((create ({ env := () } : Journal Unit)).operateAll
        (loggedFrom 0 (operations ++ [.abort (.readFailed "disk gone")]))).map
      fun (_, s) => (s.env.ends, s.env.failures, s.phase)) =
        .ok ([0], [(1, .readFailed "disk gone")], .failed) := by
  decide +kernel

end Stream

end XmlSieve
