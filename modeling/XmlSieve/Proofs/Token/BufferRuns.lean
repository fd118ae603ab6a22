import XmlSieve.Proofs.Token.Buffers
import XmlSieve.Proofs.Token.Schedule

/-!
# Runs of a buffer

The calls of a tokenizer, made at a `Buffer` by offsets.  Such a buffer `Mirrors` the tokenizer
whose unread bytes are its own: in one call no offset is wrong and the answers are the same
(`next_mirrors`), and so it is in any number of them (`run_mirrors`).  The tokens of a tokenizer
are at most two for each byte that it was fed (`Tokenizer.tokens_run_le`).
-/

namespace XmlSieve

open Tokenizer (Answer Call byteOrderMark)

namespace Buffer

variable {b c : Buffer} {n : Nat}

/-! ### Calls -/

/-- Ends with the error `e`. -/
def fail (b : Buffer) (e : StreamError) : Answer × Buffer := (.error e, { b with failed := true })

/-- Passes over constructs up to the first that is a token. -/
def pump (b : Buffer) : Except (Stop Misuse) (Answer × Buffer) :=
  if b.pos < b.bytes.length then
    match h : b.step with
    | .error .outOfRange => .error .outOfRange
    | .error (.refused fault) => return b.fail (fault.inLine b.line)
    | .ok (.token token after) => return (.ok (some token), after)
    | .ok (.skipped after) =>
      have := (step_advances h).bytes_eq
      have := (step_advances h).lt_pos
      after.pump
    | .ok .needsInput =>
      return if b.finished then b.fail (.malformed .unclosedToken b.line) else (.ok none, b)
  else
    return if b.finished && b.place != .epilog then b.fail (.malformed .noElement b.line)
      else (.ok none, b)
  termination_by b.bytes.length - b.pos
  decreasing_by simp_all; omega

/-- Passes over a byte order mark at the start of the input; there is no buffer after it as long as
more input could still make one. -/
def start (b : Buffer) : Except (Stop Misuse) (Option Buffer) :=
  if b.started then return some b
  else do
    let unread ← b.bytes.sliceFrom b.pos
    if Bytes.isProperPrefix unread byteOrderMark && !b.finished then return none
    else if byteOrderMark.isPrefixOf unread then
      return some { b with pos := b.pos + byteOrderMark.length, started := true }
    else return some { b with started := true }

/-- Gives the next token. -/
def next (b : Buffer) : Except (Stop Misuse) (Answer × Buffer) :=
  if b.failed then return (.error .closed, b)
  else
    match b.owed with
    | some name => return (.ok (some (.endTag name)), { b with owed := none })
    | none => do
      match ← b.start with
      | none => return (.ok none, b)
      | some begun => begun.pump

/-- Takes in `chunk` in place of the bytes that are taken. -/
def feed (b : Buffer) (chunk : Bytes) : Except (Stop Misuse) Buffer :=
  if b.finished then .error (.refused .feedAfterFinish)
  else do
    let unread ← b.bytes.sliceFrom b.pos
    return { b with bytes := unread ++ chunk, pos := 0 }

/-- Signals the end of the input. -/
def finish (b : Buffer) : Buffer := { b with finished := true }

/-! ### The tokenizer of a buffer -/

section

variable {α β : Type} {x : Except (Stop Misuse) (α × Buffer)} {y : Except Misuse (α × Tokenizer)}

/-- No offset is wrong in what is done to a buffer, and it is what is done to the tokenizer. -/
inductive Mirrors :
    Except (Stop Misuse) (α × Buffer) → Except Misuse (α × Tokenizer) → Prop where
  | ok (answer : α) {c : Buffer} (h : c.pos ≤ c.bytes.length) :
    Mirrors (.ok (answer, c)) (.ok (answer, c.tokenizer))
  | refused (misuse : Misuse) : Mirrors (.error (.refused misuse)) (.error misuse)

theorem Mirrors.of_eq {answer : α} {t : Tokenizer} (h : c.pos ≤ c.bytes.length)
    (ht : c.tokenizer = t) : Mirrors (.ok (answer, c)) (.ok (answer, t)) := ht ▸ .ok answer h

theorem Mirrors.exists_of_ok {answer : α} {t : Tokenizer} (h : Mirrors x (.ok (answer, t))) :
    ∃ c, x = .ok (answer, c) ∧ c.tokenizer = t ∧ c.pos ≤ c.bytes.length := by
  cases h with
  | ok _ h => exact ⟨_, rfl, rfl, h⟩

theorem Mirrors.map (h : Mirrors x y) (f : α → β) :
    Mirrors (x.map fun (a, c) => (f a, c)) (y.map fun (a, t) => (f a, t)) := by
  cases h with
  | ok answer h => exact .ok (f answer) h
  | refused misuse => exact .refused misuse

theorem Mirrors.bind {f : α × Buffer → Except (Stop Misuse) (β × Buffer)}
    {g : α × Tokenizer → Except Misuse (β × Tokenizer)} (h : Mirrors x y)
    (hf : ∀ answer c, c.pos ≤ c.bytes.length → Mirrors (f (answer, c)) (g (answer, c.tokenizer))) :
    Mirrors (x >>= f) (y >>= g) := by
  cases h with
  | ok answer h => exact hf answer _ h
  | refused misuse => exact .refused misuse

end

theorem tokenizer_past (b : Buffer) (n : Nat) (place : Place) :
    { b.past n with place }.tokenizer = b.tokenizer.take n place := by
  simp [tokenizer, past, Tokenizer.take, List.drop_drop]

/-- One round of the passing over. -/
theorem pump_eq (b : Buffer) :
    b.pump =
      if b.pos < b.bytes.length then
        match b.step with
        | .error .outOfRange => .error .outOfRange
        | .error (.refused fault) => .ok (b.fail (fault.inLine b.line))
        | .ok (.token token after) => .ok (.ok (some token), after)
        | .ok (.skipped after) => after.pump
        | .ok .needsInput =>
          .ok (if b.finished then b.fail (.malformed .unclosedToken b.line) else (.ok none, b))
      else
        .ok (if b.finished && b.place != .epilog then b.fail (.malformed .noElement b.line)
          else (.ok none, b)) := by
  rw [pump]
  by_cases hpos : b.pos < b.bytes.length
  · rw [if_pos hpos, if_pos hpos]
    split <;> simp_all <;> rfl
  · rw [if_neg hpos, if_neg hpos]
    rfl

theorem pump_of_cut {construct : Construct}
    (h : Construct.cut? b.finished (b.bytes.drop b.pos) = some (construct, n)) :
    b.pump =
      match (b.place.read construct).map (b.past n).reach with
      | .error fault => .ok (b.fail (fault.inLine b.line))
      | .ok (.token token after) => .ok (.ok (some token), after)
      | .ok (.skipped after) => after.pump
      | .ok .needsInput => .ok (.ok none, b) := by
  have hpos : b.pos < b.bytes.length := by
    by_contra hend
    rw [List.drop_eq_nil_of_le (by omega)] at h
    cases h
  rw [pump_eq, if_pos hpos, step_eq hpos, h, stepOver]
  cases b.place.read construct with
  | error fault => rfl
  | ok reading => cases reading <;> rfl

theorem mirrors_fail (h : b.pos ≤ b.bytes.length) (e : StreamError) :
    Mirrors (.ok (b.fail e)) (.ok (b.tokenizer.fail e)) :=
  Mirrors.ok (c := { b with failed := true }) (Except.error e) h

/-- Where no construct is complete, more input is needed or its end is found. -/
theorem mirrors_wait (hpos : b.pos ≤ b.bytes.length)
    (h : Construct.cut? b.finished (b.bytes.drop b.pos) = none) :
    Mirrors b.pump (.ok b.tokenizer.wait) := by
  by_cases hlt : b.pos < b.bytes.length
  · have hwait : b.tokenizer.wait =
        if b.finished then b.tokenizer.fail (.malformed .unclosedToken b.line)
        else (.ok none, b.tokenizer) := by
      cases hfinished : b.finished <;> simp [Tokenizer.wait, tokenizer, hfinished, hlt]
    rw [pump_eq, if_pos hlt, step_eq hlt, h, hwait]
    simp only [stepOver, inRange_ok]
    split_ifs
    · exact mirrors_fail hpos _
    · exact Mirrors.ok _ hpos
  · have hwait : b.tokenizer.wait =
        if b.finished && b.place != .epilog then
          b.tokenizer.fail (.malformed .noElement b.line)
        else (.ok none, b.tokenizer) := by
      cases hfinished : b.finished with
      | false => simp [Tokenizer.wait, tokenizer, hfinished]
      | true => by_cases hplace : b.place = .epilog <;>
          simp [Tokenizer.wait, tokenizer, hfinished, hplace, Nat.not_lt.1 hlt]
    rw [pump_eq, if_neg hlt, hwait]
    split_ifs
    · exact mirrors_fail hpos _
    · exact Mirrors.ok _ hpos

theorem pump_mirrors (h : b.pos ≤ b.bytes.length) : Mirrors b.pump (.ok b.tokenizer.scan) := by
  generalize ht : b.tokenizer = t
  fun_induction Tokenizer.scan t generalizing b with
  | case1 t hcut =>
    subst ht
    exact mirrors_wait h hcut
  | case2 t construct n hcut fault hread =>
    subst ht
    rw [pump_of_cut hcut, show b.place.read construct = .error fault from hread]
    exact mirrors_fail h _
  | case3 t construct n hcut after hread _ ih =>
    subst ht
    rw [pump_of_cut hcut, show b.place.read construct = .ok (.nothing after) from hread]
    exact ih (past_le h hcut) (b.tokenizer_past n after)
  | case4 t construct n hcut token after hread =>
    subst ht
    rw [pump_of_cut hcut, show b.place.read construct = .ok (.token token after) from hread]
    exact .of_eq (past_le h hcut) (b.tokenizer_past n after)
  | case5 t construct n hcut name attributes after hread =>
    subst ht
    rw [pump_of_cut hcut,
      show b.place.read construct = .ok (.emptyElement name attributes after) from hread]
    exact .of_eq (c := { b.past n with place := after, owed := some name }) (past_le h hcut)
      (congrArg (fun t => { t with owed := some name }) (b.tokenizer_past n after))

/-- A byte order mark is passed over where the tokenizer passes over it. -/
theorem exists_start (h : b.pos ≤ b.bytes.length) :
    ∃ c, b.start = .ok (if b.tokenizer.awaitsMark then none else some c) ∧
      c.tokenizer = b.tokenizer.start ∧ c.pos ≤ c.bytes.length := by
  rw [start, Tokenizer.awaitsMark, Tokenizer.start]
  by_cases hstarted : b.started = true
  · rw [if_pos hstarted, if_pos (show b.tokenizer.started = true from hstarted)]
    exact ⟨b, by simp [tokenizer, hstarted, pure, Except.pure], rfl, h⟩
  · rw [if_neg hstarted, if_neg (show ¬b.tokenizer.started = true from hstarted),
      Bytes.sliceFrom_of_le h, ok_bind]
    have hawaits : (!b.tokenizer.started && !b.tokenizer.finished &&
        Bytes.isProperPrefix b.tokenizer.unread byteOrderMark) =
        (Bytes.isProperPrefix (b.bytes.drop b.pos) byteOrderMark && !b.finished) := by
      simp [tokenizer, hstarted, Bool.and_comm]
    rw [hawaits]
    by_cases hmark : byteOrderMark.isPrefixOf (b.bytes.drop b.pos) = true
    · have hle := (List.isPrefixOf_iff_prefix.1 hmark).length_le
      rw [List.length_drop] at hle
      refine ⟨{ b with pos := b.pos + byteOrderMark.length, started := true }, ?_, ?_, ?_⟩
      · rw [if_pos hmark]
        split_ifs <;> rfl
      · rw [if_pos (show byteOrderMark.isPrefixOf b.tokenizer.unread = true from hmark)]
        simp [tokenizer, List.drop_drop]
      · exact Nat.add_le_of_le_sub' h hle
    · refine ⟨{ b with started := true }, ?_, ?_, h⟩
      · rw [if_neg hmark]
        split_ifs <;> rfl
      · rw [if_neg (show ¬byteOrderMark.isPrefixOf b.tokenizer.unread = true from hmark)]
        rfl

theorem next_mirrors (h : b.pos ≤ b.bytes.length) : Mirrors b.next (.ok b.tokenizer.next) := by
  rw [next, Tokenizer.next]
  by_cases hfailed : b.failed = true
  · rw [if_pos hfailed, if_pos (show b.tokenizer.failed = true from hfailed)]
    exact .ok _ h
  · rw [if_neg hfailed, if_neg (show ¬b.tokenizer.failed = true from hfailed)]
    rw [show b.tokenizer.owed = b.owed from rfl]
    cases b.owed with
    | some name => exact .ok (c := { b with owed := none }) _ h
    | none =>
      obtain ⟨c, hstart, hc, hle⟩ := exists_start h
      dsimp only
      rw [hstart, ok_bind, ← hc]
      split_ifs
      · exact .ok _ h
      · exact pump_mirrors hle

/-- A token is given only at the expense of what remains. -/
theorem next_token_lt {token : Token} (h : b.next = .ok (.ok (some token), c)) :
    c.tokenizer.remaining < b.tokenizer.remaining := by
  by_cases hpos : b.pos ≤ b.bytes.length
  · have hmirrors := next_mirrors hpos
    rw [h] at hmirrors
    generalize hnext : b.tokenizer.next = answered at hmirrors
    cases hmirrors with
    | ok _ _ => exact Tokenizer.next_token_lt hnext
  · -- With a wrong offset there is no token but the end that is owed.
    rw [next] at h
    split_ifs at h
    · cases h
    · cases howed : b.owed with
      | some name =>
        rw [howed] at h
        cases h
        simp [Tokenizer.remaining, tokenizer, howed]
      | none =>
        rw [howed, start] at h
        by_cases hstarted : b.started = true
        · rw [if_pos hstarted] at h
          simp only [pure, Except.pure, ok_bind] at h
          rw [pump_eq, if_neg (by omega)] at h
          split_ifs at h <;> cases h
        · rw [if_neg hstarted, Bytes.sliceFrom, Bytes.slice, if_neg (by omega)] at h
          cases h

/-- Asks for tokens up to the first answer that is none. -/
def drain (b : Buffer) : Except (Stop Misuse) (List Answer × Buffer) :=
  match h : b.next with
  | .error stop => .error stop
  | .ok (.ok (some token), c) =>
    have := next_token_lt h
    c.drain.map fun (answers, c) => (.ok (some token) :: answers, c)
  | .ok (.ok none, c) => return ([.ok none], c)
  | .ok (.error e, c) => return ([.error e], c)
  termination_by b.tokenizer.remaining

/-- Makes a call. -/
def perform (b : Buffer) : Call → Except (Stop Misuse) (List Answer × Buffer)
  | .feed chunk => (b.feed chunk).map ([], ·)
  | .finish => return ([], b.finish)
  | .next => b.next.map fun (answer, c) => ([answer], c)
  | .drain => b.drain

/-- Makes calls one after the other. -/
def run (b : Buffer) : List Call → Except (Stop Misuse) (List Answer × Buffer)
  | [] => return ([], b)
  | call :: calls => do
    let (answers, b) ← b.perform call
    (b.run calls).map fun (more, b) => (answers ++ more, b)

/-! ### Runs -/

theorem drain_eq (b : Buffer) :
    b.drain =
      match b.next with
      | .error stop => .error stop
      | .ok (.ok (some token), c) =>
        c.drain.map fun (answers, c) => (.ok (some token) :: answers, c)
      | .ok (.ok none, c) => .ok ([.ok none], c)
      | .ok (.error e, c) => .ok ([.error e], c) := by
  rw [drain]
  split <;> simp_all <;> rfl

theorem drain_mirrors (h : b.pos ≤ b.bytes.length) : Mirrors b.drain (.ok b.tokenizer.drain) := by
  generalize ht : b.tokenizer = t
  fun_induction Tokenizer.drain t generalizing b with
  | case1 t token u hu _ ih =>
    obtain ⟨c, hc, rfl, hle⟩ := (hu ▸ ht ▸ next_mirrors h).exists_of_ok
    rw [drain_eq, hc]
    exact (ih hle rfl).map (.ok (some token) :: ·)
  | case2 t u hu =>
    obtain ⟨c, hc, rfl, hle⟩ := (hu ▸ ht ▸ next_mirrors h).exists_of_ok
    rw [drain_eq, hc]
    exact .ok _ hle
  | case3 t e u hu =>
    obtain ⟨c, hc, rfl, hle⟩ := (hu ▸ ht ▸ next_mirrors h).exists_of_ok
    rw [drain_eq, hc]
    exact .ok _ hle

theorem perform_mirrors (h : b.pos ≤ b.bytes.length) (call : Call) :
    Mirrors (b.perform call) (b.tokenizer.perform call) := by
  cases call with
  | feed chunk =>
    rw [perform, Tokenizer.perform, feed, Tokenizer.feed,
      show b.tokenizer.finished = b.finished from rfl]
    split_ifs
    · exact .refused _
    · rw [Bytes.sliceFrom_of_le h]
      exact .of_eq (c := { b with bytes := b.bytes.drop b.pos ++ chunk, pos := 0 })
        (Nat.zero_le _) rfl
  | finish => exact .ok (c := b.finish) [] h
  | next => exact (next_mirrors h).map ([·])
  | drain => exact drain_mirrors h

theorem run_mirrors (h : b.pos ≤ b.bytes.length) (calls : List Call) :
    Mirrors (b.run calls) (b.tokenizer.run calls) := by
  induction calls generalizing b with
  | nil => exact .ok [] h
  | cons call calls ih =>
    have hrun : b.tokenizer.run (call :: calls) = b.tokenizer.perform call >>= fun first =>
        (first.2.run calls).map fun more => (first.1 ++ more.1, more.2) := by
      rw [Tokenizer.run]
      cases b.tokenizer.perform call <;> rfl
    rw [run, hrun]
    exact (perform_mirrors h call).bind fun answers c hle => (ih hle).map (answers ++ ·)

end Buffer

namespace Tokenizer

/-! ### How many tokens -/

variable {t u : Tokenizer} {answers : List Answer} {calls : List Call}

theorem Passes.remaining_le (h : t.Passes u) : u.remaining ≤ t.remaining := by
  induction h with
  | refl => exact Nat.le_refl _
  | skip hcut _ _ ih => exact ih.trans (remaining_lt_of_unread (Construct.length_drop_cut? hcut)).le

theorem remaining_scan_le {answer : Answer} (h : t.scan = (answer, u))
    (hanswer : ∀ token, answer ≠ .ok (some token)) : u.remaining ≤ t.remaining := by
  obtain ⟨v, hpasses, hstops⟩ := scan_cases h
  cases hstops with
  | waits | short | fault => exact hpasses.remaining_le
  | token | emptyElement => exact absurd rfl (hanswer _)

theorem remaining_start_le (t : Tokenizer) : t.start.remaining ≤ t.remaining := by
  have hunread := t.unread_start_le
  rw [remaining, remaining, start_owed]
  omega

/-- What is not a token does not add to what remains. -/
theorem remaining_next_le {answer : Answer} (h : t.next = (answer, u))
    (hanswer : ∀ token, answer ≠ .ok (some token)) : u.remaining ≤ t.remaining := by
  cases next_gives h with
  | closed | awaiting => exact Nat.le_refl _
  | ended => exact absurd rfl (hanswer _)
  | scanned _ _ _ hscan => exact (remaining_scan_le hscan hanswer).trans t.remaining_start_le

theorem tokens_next_le (t : Tokenizer) :
    (Transcript.ofAnswers [t.next.1]).tokens.length + t.next.2.remaining ≤ t.remaining := by
  rcases h : t.next with ⟨answer, u⟩
  match answer with
  | .ok (some token) =>
    have hlt := next_token_lt h
    rw [Transcript.ofAnswers_token, Nat.add_comm]
    exact hlt
  | .ok none => simpa using remaining_next_le h (by simp)
  | .error e => simpa using remaining_next_le h (by simp)

theorem tokens_drain_le (t : Tokenizer) :
    (Transcript.ofAnswers t.drain.1).tokens.length + t.drain.2.remaining ≤ t.remaining := by
  fun_induction drain t with
  | case1 t token u h hlt ih =>
    dsimp only
    rw [Transcript.ofAnswers_token, Transcript.cons, List.length_cons]
    omega
  | case2 t u h => simpa using remaining_next_le h (by simp)
  | case3 t e u h => simpa using remaining_next_le h (by simp)

theorem tokens_perform_le {call : Call} (h : t.perform call = .ok (answers, u)) :
    (Transcript.ofAnswers answers).tokens.length + u.remaining ≤
      t.remaining + 2 * (Call.fed [call]).length := by
  cases call with
  | feed chunk =>
    rw [perform, feed] at h
    split_ifs at h
    · cases h
    · cases h
      simp [remaining, Call.fed]
      omega
  | finish =>
    cases h
    exact (Nat.zero_add _).le
  | next =>
    cases h
    exact t.tokens_next_le
  | drain =>
    have hdrain : t.drain = (answers, u) := Except.ok.inj h
    have hle := t.tokens_drain_le
    rwa [hdrain] at hle

/-- The tokens that were given and those that may follow are at most two for each byte. -/
theorem tokens_run_le (h : t.run calls = .ok (answers, u)) :
    (Transcript.ofAnswers answers).tokens.length + u.remaining ≤
      t.remaining + 2 * (Call.fed calls).length := by
  induction calls generalizing t answers with
  | nil =>
    cases h
    exact (Nat.zero_add _).le
  | cons call calls ih =>
    obtain ⟨first, v, more, hfirst, hmore, rfl⟩ := exists_of_run_cons h
    have hcall := tokens_perform_le hfirst
    have hcalls := ih hmore
    have hfed : Call.fed (call :: calls) = Call.fed [call] ++ Call.fed calls := by simp [Call.fed]
    rw [Transcript.ofAnswers_append, Transcript.append_eq, hfed, List.length_append,
      List.length_append]
    omega

end Tokenizer

namespace Buffer

/-- Tokenizing by offsets keeps within the bytes and makes progress.  Neither the replacement of
references nor the reading of attributes has a wrong offset, whatever the text.  No step at a buffer
has one, and a step that gives a token or passes something over takes at least one byte of the
buffer and none beyond it.  Asking for a token is answered, as the tokenizer answers.  So it is in
any run: its calls are answered or refused as the tokenizer's, the offset stays in the buffer, and
there are at most two tokens for each byte that was fed. -/
theorem run_inside (calls : List Call) :
    (∀ input : Bytes, Reference.expandText input = inRange (Reference.expand input)) ∧
      (∀ input : Bytes, Attributes.readFrom input 0 [] = inRange (Attributes.parse input)) ∧
      (∀ b : Buffer, b.pos < b.bytes.length →
        b.step ≠ .error .outOfRange ∧ ∀ s, b.step = .ok s → s.Advances b) ∧
      (∀ b : Buffer, b.pos ≤ b.bytes.length → Mirrors b.next (.ok b.tokenizer.next)) ∧
      Mirrors (run {} calls) (Tokenizer.run {} calls) ∧
      ∀ answers b, run {} calls = .ok (answers, b) →
        b.pos ≤ b.bytes.length ∧
          (Transcript.ofAnswers answers).tokens.length ≤ 2 * (Call.fed calls).length := by
  have hrun : Mirrors (run {} calls) (Tokenizer.run {} calls) := run_mirrors (Nat.le_refl _) calls
  refine ⟨Reference.expandText_eq, Attributes.readFrom_zero, fun b hpos => ⟨?_, ?_⟩,
    fun b => next_mirrors, hrun, ?_⟩
  · rw [step_eq hpos]
    cases b.stepOver (Construct.cut? b.finished (b.bytes.drop b.pos)) <;> exact nofun
  · exact fun s => step_advances
  · intro answers b h
    rw [h] at hrun
    generalize ht : Tokenizer.run {} calls = told at hrun
    cases hrun with
    | ok _ hle =>
      have htokens := Tokenizer.tokens_run_le ht
      exact ⟨hle, (Nat.le_add_right _ _).trans (htokens.trans_eq (Nat.zero_add _))⟩

end Buffer

end XmlSieve
