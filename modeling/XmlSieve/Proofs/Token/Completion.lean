import XmlSieve.Proofs.Element.Outline
import XmlSieve.Proofs.Token.Rereading

/-!
# Tokens extend to a document

Whatever is fed and whenever tokens are asked for, the tokens given so far are the first tokens of a
document (`Tokenizer.run_nested`).  Calls that feed nothing after the end of the input was signalled
(`Tokenizer.Call.InOrder`) give a front part of what the bytes tell when they are fed at once
(`run_inOrder`), and all of it once nothing more is to come.  Tokens that follow one another can
always be continued to the end of a document: each element that is open is given its end tag
(`Place.exists_ending`).
-/

namespace XmlSieve

namespace Place

variable {p q : Place} {token : Token} {tokens : List Token}

/-! ### Where tokens can lead -/

/-- A place that tokens which can be written lead to: the elements open there have names. -/
def Named (p : Place) : Prop := ∀ name ∈ p.openNames, isName name = true

theorem named_inside {names : List String} (h : ∀ name ∈ names, isName name = true) :
    (inside names).Named := by
  rwa [Named, openNames_inside]

theorem Named.follow (hp : p.Named) (htoken : token.Proper) (h : p.follow token = some q) :
    q.Named := by
  cases follow_eq_some_iff.1 h with
  | startTag => exact List.forall_mem_cons.2 ⟨htoken.1, hp⟩
  | endTag => exact named_inside (List.forall_mem_cons.1 hp).2
  | text => exact hp

theorem Named.followAll (hp : p.Named) (htokens : ∀ token ∈ tokens, token.Proper)
    (h : p.followAll tokens = some q) : q.Named := by
  induction tokens generalizing p with
  | nil =>
    cases h
    exact hp
  | cons token tokens ih =>
    obtain ⟨htoken, htokens⟩ := List.forall_mem_cons.1 htokens
    obtain ⟨after, hafter, h⟩ := exists_of_followAll_cons h
    exact ih (hp.follow htoken hafter) htokens h

/-- The end tags of the open elements, innermost first, lead to the end of the document. -/
theorem followAll_endTags (names : List String) :
    (inside names).followAll (names.map .endTag) = some .epilog := by
  induction names with
  | nil => rfl
  | cons name names ih =>
    rw [List.map_cons, followAll_cons, inside, follow, if_pos rfl]
    exact ih

/-- From every place tokens lead to the end of the document. -/
theorem exists_ending (hp : p.Named) :
    ∃ tokens, (∀ token ∈ tokens, token.Proper) ∧ p.followAll tokens = some .epilog := by
  by_cases hprolog : p = prolog
  · subst hprolog
    have hname : isName "a" = true := by decide
    have hstart : (Token.startTag "a" []).Proper := ⟨hname, by simp, List.nodup_nil⟩
    exact ⟨[.startTag "a" [], .endTag "a"], by simpa using ⟨hstart, hname⟩, rfl⟩
  · refine ⟨p.openNames.map .endTag, ?_, ?_⟩
    · intro token htoken
      obtain ⟨name, hname, rfl⟩ := List.mem_map.1 htoken
      exact hp name hname
    · rw [← inside_openNames hprolog, openNames_inside]
      exact followAll_endTags p.openNames

/-- Tokens that follow one another from the beginning are the first tokens of a document. -/
theorem exists_document (htokens : ∀ token ∈ tokens, token.Proper)
    (h : prolog.followAll tokens = some p) :
    ∃ root : Branch, (∀ token ∈ root.node.tokens, token.Proper) ∧ tokens <+: root.node.tokens := by
  have hnamed : prolog.Named := by simp [Named, openNames]
  obtain ⟨ending, hending, hend⟩ := exists_ending (hnamed.followAll htokens h)
  have hall : prolog.followAll (tokens ++ ending) = some .epilog := by
    rw [followAll_append h, hend]
  obtain ⟨root, hroot, -⟩ := Branch.exists_root hall
  refine ⟨root, ?_, hroot ▸ List.prefix_append tokens ending⟩
  rw [← hroot]
  intro token htoken
  exact (List.mem_append.1 htoken).elim (htokens token) (hending token)

end Place

namespace Tokenizer

variable {t u : Tokenizer} {call : Call} {calls : List Call}

/-! ### Calls in order -/

def Call.feeds : Call → Bool
  | feed _ => true
  | finish | next | drain => false

/-- Nothing is fed after the end of the input was signalled. -/
def Call.InOrder (calls : List Call) : Prop :=
  calls.Pairwise fun earlier later => earlier = .finish → later.feeds = false

/-- Calls are in order up to the first that feeds too late. -/
theorem Call.exists_inOrder (calls : List Call) :
    ∃ made, InOrder made ∧
      (made = calls ∨ ∃ chunk rest, calls = made ++ .feed chunk :: rest ∧ .finish ∈ made) := by
  induction calls using List.reverseRecOn with
  | nil => exact ⟨[], List.Pairwise.nil, .inl rfl⟩
  | append_singleton calls call ih =>
    obtain ⟨made, hmade, rfl | ⟨chunk, rest, rfl, hfinish⟩⟩ := ih
    · by_cases hlate : .finish ∈ made ∧ call.feeds = true
      · cases call with
        | feed chunk => exact ⟨made, hmade, .inr ⟨chunk, [], rfl, hlate.1⟩⟩
        | finish | next | drain => cases hlate.2
      · refine ⟨made ++ [call], ?_, .inl rfl⟩
        refine List.pairwise_append.2 ⟨hmade, List.pairwise_singleton _ _, ?_⟩
        rintro earlier hearlier later hlater rfl
        rw [List.mem_singleton.1 hlater]
        simpa [hearlier] using hlate
    · exact ⟨made, hmade, .inr ⟨chunk, rest ++ [call], by simp, hfinish⟩⟩

/-- A call in its place: what is answered, followed by what is still to be told, is what there was
to tell, with everything that calls will feed. -/
theorem perform_inOrder (rest : Bytes) (hcall : t.finished = true → call.feeds = false)
    (hr : t.finished = true ∨ call = .finish → rest = []) :
    ∃ answers u, t.perform call = .ok (answers, u) ∧
      (u.finished = true ↔ t.finished = true ∨ call = .finish) ∧
      (t.given (Call.fed [call] ++ rest) true).outlook =
        .ofAnswers answers ++ (u.given rest true).outlook := by
  cases call with
  | feed chunk =>
    have ht : t.finished = false := by simpa [Call.feeds] using hcall
    refine ⟨[], t.given chunk false, ?_, by simp [given], ?_⟩
    · simp [perform, feed, ht, given, Except.map]
    · rw [given_given, Transcript.ofAnswers_nil, Transcript.nil_append]
      simp [Call.fed]
  | finish =>
    obtain rfl : rest = [] := hr (.inr rfl)
    refine ⟨[], t.finish, rfl, by simp [finish], ?_⟩
    rw [Transcript.ofAnswers_nil, Transcript.nil_append]
    simp [Call.fed, given, finish]
  | next =>
    refine ⟨_, _, rfl, by simp [t.next_finished], ?_⟩
    simpa [Call.fed] using t.outlook_next true fun ht => hr (.inl ht)
  | drain =>
    refine ⟨_, _, rfl, by simp [t.drain_finished], ?_⟩
    simpa [Call.fed] using t.outlook_drain fun ht => hr (.inl ht)

theorem fed_cons : Call.fed (call :: calls) = Call.fed [call] ++ Call.fed calls := by
  simp [Call.fed]

theorem fed_of_forall (h : ∀ call ∈ calls, call.feeds = false) : Call.fed calls = [] := by
  rw [Call.fed, List.flatMap_eq_nil_iff]
  intro call hcall
  have hfeeds := h call hcall
  cases call with
  | feed chunk => cases hfeeds
  | finish | next | drain => rfl

/-- Calls in order are all answered, and the answers begin what is to be told of their bytes. -/
theorem run_inOrder (ht : t.finished = true → ∀ call ∈ calls, call.feeds = false)
    (h : Call.InOrder calls) :
    ∃ answers u, t.run calls = .ok (answers, u) ∧
      (u.finished = true ↔ t.finished = true ∨ .finish ∈ calls) ∧
      (t.given (Call.fed calls) true).outlook =
        .ofAnswers answers ++ (u.given [] true).outlook := by
  induction calls generalizing t with
  | nil => exact ⟨[], t, rfl, by simp, (Transcript.nil_append _).symm⟩
  | cons call calls ih =>
    obtain ⟨hcall, hcalls⟩ := List.pairwise_cons.1 h
    have hlater : t.finished = true ∨ call = .finish → ∀ c ∈ calls, c.feeds = false := by
      rintro (hfinished | rfl) c hc
      · exact ht hfinished c (by simp [hc])
      · exact hcall c hc rfl
    obtain ⟨answers, u, hu, hfu, ho⟩ := perform_inOrder (t := t) (Call.fed calls)
      (fun hf => ht hf call (by simp)) fun hf => fed_of_forall (hlater hf)
    obtain ⟨more, v, hv, hfv, hm⟩ := ih (t := u) (fun hf => hlater (hfu.1 hf)) hcalls
    refine ⟨answers ++ more, v, run_cons hu hv, ?_, ?_⟩
    · rw [hfv, hfu, List.mem_cons, or_assoc, eq_comm (a := call)]
    · rw [fed_cons, ho, hm, ← Transcript.append_assoc, ← Transcript.ofAnswers_append]

/-! ### Errors are final -/

theorem next_failed (h : t.failed = true) : t.next = (.error .closed, t) := if_pos h

/-- A tokenizer that has failed or that answers an error has failed when it was drained. -/
theorem drain_failed (t : Tokenizer)
    (h : t.failed = true ∨ (Transcript.ofAnswers t.drain.1).error ≠ none) :
    t.drain.2.failed = true := by
  fun_induction drain t with
  | case1 t token u hnext _ ih =>
    refine ih (.inr (h.resolve_left fun ht => ?_))
    rw [next_failed ht] at hnext
    cases hnext
  | case2 t u hnext =>
    refine absurd rfl (h.resolve_left fun ht => ?_)
    rw [next_failed ht] at hnext
    cases hnext
  | case3 t e u hnext => exact next_error hnext

theorem perform_failed {answers : List Answer} (hu : t.perform call = .ok (answers, u))
    (h : t.failed = true ∨ (Transcript.ofAnswers answers).error ≠ none) : u.failed = true := by
  cases call with
  | feed chunk =>
    cases ht : t.finished with
    | true =>
      rw [perform, feed, if_pos ht] at hu
      cases hu
    | false =>
      rw [perform, feed, if_neg (by simp [ht])] at hu
      cases hu
      exact h.resolve_right fun herror => herror rfl
  | finish =>
    cases hu
    exact h.resolve_right fun herror => herror rfl
  | drain =>
    have hdrain : t.drain = (answers, u) := Except.ok.inj hu
    have hu := t.drain_failed
    rw [hdrain] at hu
    exact hu h
  | next =>
    cases hu
    rcases h with ht | herror
    · rwa [next_failed ht]
    · rcases hnext : t.next with ⟨e | token?, u⟩
      · exact next_error hnext
      · rw [hnext] at herror
        cases token? <;> exact absurd rfl herror

/-- Where an error was answered, the tokenizer has failed, however long ago that was. -/
theorem run_failed {answers : List Answer} (hu : t.run calls = .ok (answers, u))
    (h : t.failed = true ∨ (Transcript.ofAnswers answers).error ≠ none) : u.failed = true := by
  induction calls generalizing t answers with
  | nil =>
    cases hu
    simpa using h
  | cons call calls ih =>
    obtain ⟨first, v, more, hv, hmore, rfl⟩ := exists_of_run_cons hu
    by_cases hfirst : t.failed = true ∨ (Transcript.ofAnswers first).error ≠ none
    · exact ih hmore (.inl (perform_failed hv hfirst))
    · rw [not_or, not_not] at hfirst
      rw [Transcript.ofAnswers_append, Transcript.append_eq, hfirst.2] at h
      exact ih hmore (.inr (h.resolve_left hfirst.1))

/-! ### The tokens of any calls -/

/-- All calls up to the first that feeds too late are answered, and their answers begin what is to be
told of their bytes. -/
theorem exists_made (calls : List Call) :
    ∃ made answers t, run {} made = .ok (answers, t) ∧
      (made = calls ∨ ∃ chunk rest, calls = made ++ .feed chunk :: rest ∧ .finish ∈ made ∧
        run {} calls = .error .feedAfterFinish) ∧
      (.finish ∈ made → t.finished = true) ∧
      Document.transcript (Call.fed made) = .ofAnswers answers ++ (t.given [] true).outlook := by
  obtain ⟨made, hmade, hcalls⟩ := Call.exists_inOrder calls
  obtain ⟨answers, t, hrun, hfinished, houtlook⟩ := run_inOrder (t := {}) (by simp) hmade
  refine ⟨made, answers, t, hrun, ?_, fun hfinish => hfinished.2 (.inr hfinish), ?_⟩
  · obtain rfl | ⟨chunk, rest, rfl, hfinish⟩ := hcalls
    · exact .inl rfl
    · have hrefused : t.run (.feed chunk :: rest) = .error .feedAfterFinish := by
        rw [run, perform, feed, if_pos (hfinished.2 (.inr hfinish))]
        rfl
      exact .inr ⟨chunk, rest, rfl, hfinish, run_append_error hrun hrefused⟩
  · rw [← houtlook, ← outlook_document]
    rfl

/-- Where neither a token nor an error is to come, everything has been told, and no error was
among it. -/
theorem told_of_none {answers : List Answer} {u : Tokenizer} (hrun : run {} calls = .ok (answers, t))
    (hfinished : t.finished = true) (hnone : t.next = (.ok none, u)) :
    (t.given [] true).outlook = {} ∧ (Transcript.ofAnswers answers).error = none := by
  constructor
  · rw [given_of_finished hfinished]
    exact outlook_none hnone
  · by_contra herror
    rw [next_failed (run_failed hrun (.inr herror))] at hnone
    cases hnone

/-- All calls up to the first that feeds too late are answered, and the tokens they give are the
first tokens of a document: of one root, with every element inside it, every text non-empty and the
attributes of every tag distinct.  Where the end of the input was signalled and neither a token nor
an error is to come, they are all of its tokens. -/
theorem run_nested (calls : List Call) :
    ∃ made answers t, run {} made = .ok (answers, t) ∧
      (made = calls ∨ ∃ chunk rest, calls = made ++ .feed chunk :: rest ∧ .finish ∈ made ∧
        run {} calls = .error .feedAfterFinish) ∧
      ∃ root : Branch, (∀ token ∈ root.node.tokens, token.Proper) ∧
        (Transcript.ofAnswers answers).tokens <+: root.node.tokens ∧
        (.finish ∈ made → t.next.1 = .ok none →
          (Transcript.ofAnswers answers).tokens = root.node.tokens) := by
  obtain ⟨made, answers, t, hrun, hmade, hfinished, htold⟩ := exists_made calls
  refine ⟨made, answers, t, hrun, hmade, ?_⟩
  have hfirst : (Transcript.ofAnswers answers).tokens <+:
      (Document.transcript (Call.fed made)).tokens := by
    rw [htold]
    exact List.prefix_append _ _
  have hproper : ∀ token ∈ (Transcript.ofAnswers answers).tokens, token.Proper :=
    fun token htoken => Document.transcript_proper _ token (hfirst.subset htoken)
  by_cases hdone : Call.finish ∈ made ∧ t.next.1 = .ok none
  · -- Nothing is left to be told, so that the tokens are those of the whole document.
    obtain ⟨hnothing, herror⟩ := told_of_none (u := t.next.2) hrun (hfinished hdone.1)
      (by rw [← hdone.2])
    have hall : Document.transcript (Call.fed made) = .ofAnswers answers := by
      rw [htold, hnothing, Transcript.append_eq, List.append_nil, Option.or_none]
    obtain ⟨root, hroot, -⟩ := Document.exists_root (hall ▸ herror)
    rw [hall] at hroot
    exact ⟨root, hroot ▸ hproper, hroot ▸ List.prefix_rfl, fun _ _ => hroot⟩
  · obtain ⟨last, hlast, -⟩ := Document.follow_transcript (Call.fed made)
    obtain ⟨after, hafter⟩ := Place.exists_of_followAll_prefix hfirst hlast
    obtain ⟨root, hroot, hprefix⟩ := Place.exists_document hproper hafter
    exact ⟨root, hroot, hprefix, fun hfinish hnone => absurd ⟨hfinish, hnone⟩ hdone⟩

end Tokenizer

end XmlSieve
