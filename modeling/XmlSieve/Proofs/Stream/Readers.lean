import XmlSieve.Stream.Reader
import XmlSieve.Proofs.Stream.Surfacing

/-!
# What readers do

A session with a reader begins with `Reader.run` and goes on with the pauses and resumes that come
from outside.  What the reader does meanwhile are its deeds: it reads from the source, calls the
stream and aborts it.  Whatever the source gives and whoever pauses, each deed keeps `Progress`: the
stream is what the calls have made of it, the bytes that were read were fed, and nothing was read
but when the stream was not paused.
-/

namespace XmlSieve

variable {σ : Type}

/-! ### Reading from a source -/

/-- The bytes that are supplied. -/
def Supply.bytes : Supply → Bytes
  | data bytes => bytes
  | interrupted | failure _ => []

/-- The bytes that a read gave. -/
def ReadResult.bytes : ReadResult → Bytes
  | data bytes => bytes
  | interrupted | failure _ => []

/-- Whether a read met the end of the source. -/
def ReadResult.ends : ReadResult → Bool
  | data [] => true
  | data (_ :: _) | interrupted | failure _ => false

namespace Source

variable {s t : Source} {size : Nat} {result : ReadResult}

/-- The bytes that are left. -/
def bytes (s : Source) : Bytes := s.current ++ s.supplies.flatMap Supply.bytes

/-- What a read can do: it meets the end, takes from a piece of data, or meets something else. -/
theorem read_cases (h : s.read size = (result, t)) :
    (result = .data [] ∧ t = s) ∨
    (∃ piece rest, s.bytes = piece ++ rest.flatMap Supply.bytes ∧
      piece.length + suppliesWeight rest ≤ s.weight ∧ result = .data (piece.take size) ∧
      t = { current := piece.drop size, supplies := rest }) ∨
    (result.bytes = [] ∧ t.bytes = s.bytes ∧ t.weight < s.weight) := by
  unfold read at h
  split at h
  · next hc =>
    rw [List.isEmpty_iff] at hc
    split at h
    · cases h
      exact .inl ⟨rfl, rfl⟩
    · next piece rest hs =>
      cases h
      refine .inr (.inl ⟨piece, rest, ?_, ?_, rfl, rfl⟩)
      · rw [bytes, hc, hs]
        rfl
      · simp only [weight, hc, hs, suppliesWeight, Supply.weight]
        omega
    · next rest hs =>
      cases h
      exact .inr (.inr ⟨rfl, by simp [bytes, hs, Supply.bytes],
        by simp [weight, hs, suppliesWeight, Supply.weight]⟩)
    · next reason rest hs =>
      cases h
      exact .inr (.inr ⟨rfl, by simp [bytes, hs, Supply.bytes],
        by simp [weight, hs, suppliesWeight, Supply.weight]⟩)
  · cases h
    exact .inr (.inl ⟨_, _, rfl, Nat.le_refl _, rfl, rfl⟩)

/-- A read takes the bytes that it gives off the source. -/
theorem bytes_read (h : s.read size = (result, t)) : s.bytes = result.bytes ++ t.bytes := by
  rcases read_cases h with ⟨rfl, rfl⟩ | ⟨piece, rest, hs, -, rfl, rfl⟩ | ⟨hresult, ht, -⟩
  · rfl
  · rw [hs, ReadResult.bytes, bytes, ← List.append_assoc, List.take_append_drop]
  · rw [hresult, ht, List.nil_append]

theorem weight_read_le (h : s.read size = (result, t)) : t.weight ≤ s.weight := by
  rcases read_cases h with ⟨-, rfl⟩ | ⟨piece, rest, -, hle, -, rfl⟩ | ⟨-, -, hlt⟩
  · exact Nat.le_refl _
  · refine Nat.le_trans (Nat.add_le_add_right ?_ _) hle
    rw [List.length_drop]
    exact Nat.sub_le _ _
  · exact Nat.le_of_lt hlt

theorem weight_read_lt (h : s.read size = (result, t)) (hr : result.ends = false) :
    t.weight < s.weight := by
  rcases read_cases h with ⟨rfl, -⟩ | ⟨piece, rest, -, -, rfl, -⟩ | ⟨-, -, hlt⟩
  · cases hr
  · refine weight_read_data (fun hnil => ?_) h
    rw [hnil] at hr
    cases hr
  · exact hlt

end Source

/-! ### Deeds -/

/-- Something that a reader does. -/
inductive Deed where
  /-- It reads from the source. -/
  | read (result : ReadResult)
  /-- It calls the stream. -/
  | call (call : Stream.Call)
  /-- It aborts the stream. -/
  | abort (e : StreamError)
  deriving DecidableEq

namespace Deed

/-- What is done with the stream. -/
def operation? : Deed → Option (Operation σ)
  | read _ => none
  | call c => some (.call c)
  | abort e => some (.abort e)

/-- The bytes that are taken from the source. -/
def taken : Deed → Bytes
  | read result => result.bytes
  | call _ | abort _ => []

/-- The bytes that are fed to the stream. -/
def fed : Deed → Bytes
  | call (.feed chunk) => chunk
  | call _ | read _ | abort _ => []

/-- The source goes on, and so does the reader. -/
def GoesOn : Deed → Prop
  | read (.data (_ :: _)) | read .interrupted => True
  | read (.data []) | read (.failure _) => False
  | call .finish | abort _ => False
  | call _ => True

/-- Nothing is taken from the source and nothing is fed. -/
def Waits : Deed → Prop
  | call .pause | call .resume => True
  | call _ | read _ | abort _ => False

theorem Waits.goesOn {deed : Deed} (h : deed.Waits) : deed.GoesOn := by
  unfold Waits at h
  split at h <;> trivial

/-- Doing the deeds leads from one source and stream to others, where the stream is not paused and
takes input whenever something is read. -/
inductive Leads (size : Nat) : Source → Stream σ → List Deed → Source → Stream σ → Prop where
  | nil (source : Source) (s : Stream σ) : Leads size source s [] source s
  | read {source source' source'' : Source} {s t : Stream σ} {result : ReadResult}
      {deeds : List Deed} (running : s.isPaused = false) (accepting : s.phase = .accepting)
      (read : source.read size = (result, source')) (rest : Leads size source' s deeds source'' t) :
      Leads size source s (.read result :: deeds) source'' t
  | operate {source source' : Source} {s t u : Stream σ} {deed : Deed} {operation : Operation σ}
      {verdict : Verdict} {deeds : List Deed} (does : deed.operation? = some operation)
      (operate : s.operate operation = .ok (verdict, t))
      (rest : Leads size source t deeds source' u) :
      Leads size source s (deed :: deeds) source' u

namespace Leads

variable {size : Nat} {source source' source'' : Source} {s t u : Stream σ} {deeds more : List Deed}

theorem append (h : Leads size source s deeds source' t)
    (hmore : Leads size source' t more source'' u) :
    Leads size source s (deeds ++ more) source'' u := by
  induction h with
  | nil => exact hmore
  | read running accepting read _ ih => exact .read running accepting read (ih hmore)
  | operate does operate _ ih => exact .operate does operate (ih hmore)

/-- The stream is what the operations among the deeds make of it. -/
theorem operateAll (h : Leads size source s deeds source' t) :
    ∃ verdicts, s.operateAll (deeds.filterMap operation?) = .ok (verdicts, t) := by
  induction h with
  | nil => exact ⟨[], rfl⟩
  | read _ _ _ _ ih => exact ih
  | operate does operate _ ih =>
    obtain ⟨verdicts, hrest⟩ := ih
    rw [List.filterMap_cons_some does]
    exact ⟨_, Stream.operateAll_cons operate hrest⟩

/-- What was read was taken off the source. -/
theorem bytes (h : Leads size source s deeds source' t) :
    source.bytes = deeds.flatMap taken ++ source'.bytes := by
  induction h with
  | nil => rfl
  | read _ _ read _ ih =>
    rw [Source.bytes_read read, ih, List.flatMap_cons, List.append_assoc]
    rfl
  | @operate _ _ _ _ _ deed _ _ _ does _ _ ih =>
    have htaken : deed.taken = [] := by
      cases deed with
      | read => cases does
      | call | abort => rfl
    rw [ih, List.flatMap_cons, htaken, List.nil_append]

/-- Before each read, the stream is not paused and takes input. -/
theorem heeds (h : Leads size source s deeds source' t) {before after : List Deed}
    {result : ReadResult} (hsplit : deeds = before ++ .read result :: after) :
    ∃ verdicts b, s.operateAll (before.filterMap operation?) = .ok (verdicts, b) ∧
      b.isPaused = false ∧ b.phase = .accepting := by
  induction h generalizing before with
  | nil => simp at hsplit
  | read running accepting _ _ ih =>
    cases before with
    | nil => exact ⟨[], _, rfl, running, accepting⟩
    | cons first before =>
      obtain ⟨rfl, hrest⟩ := List.cons.inj hsplit
      have hbefore := ih hrest
      exact hbefore
  | operate does operate _ ih =>
    cases before with
    | nil =>
      obtain ⟨rfl, -⟩ := List.cons.inj hsplit
      cases does
    | cons first before =>
      obtain ⟨rfl, hrest⟩ := List.cons.inj hsplit
      obtain ⟨verdicts, b, hb, hrunning, haccepting⟩ := ih hrest
      rw [List.filterMap_cons_some does]
      exact ⟨_, b, Stream.operateAll_cons operate hb, hrunning, haccepting⟩

/-- Deeds that read nothing. -/
theorem of_operateAll (source : Source) (hdeeds : ∀ deed ∈ deeds, ∀ result, deed ≠ .read result)
    {verdicts : List Verdict}
    (h : s.operateAll (deeds.filterMap operation?) = .ok (verdicts, t)) :
    Leads size source s deeds source t := by
  induction deeds generalizing s verdicts with
  | nil =>
    cases h
    exact .nil _ _
  | cons deed deeds ih =>
    obtain ⟨operation, hoperation⟩ :
        ∃ operation, deed.operation? = some (operation : Operation σ) := by
      cases deed with
      | read result => exact absurd rfl (hdeeds _ List.mem_cons_self result)
      | call | abort => exact ⟨_, rfl⟩
    rw [List.filterMap_cons_some hoperation] at h
    obtain ⟨verdict, u, rest, hu, hrest, -⟩ := Stream.exists_of_operateAll_cons h
    have hrest := ih (fun deed hmem => hdeeds deed (List.mem_cons_of_mem _ hmem)) hrest
    exact .operate hoperation hu hrest

end Leads

end Deed

/-- What a reader does with what it has read. -/
def ReadResult.reaction : ReadResult → List Deed
  | interrupted => []
  | failure reason => [.abort (.readFailed reason)]
  | data [] => [.call .finish]
  | data (b :: bytes) => [.call (.feed (b :: bytes))]

namespace Stream

variable {s t : Stream σ} {call : Call} {verdict : Verdict}

/-- A stream that takes input goes on taking it after each call but `finish`, or fails and returns
an error. -/
theorem perform_accepting (hs : s.Sound) (ha : s.Aware) (hp : s.phase = .accepting) (call : Call)
    (hc : call ≠ .finish) (h : s.perform call = .ok (verdict, t)) :
    verdict = .ok () ∧ t.phase = .accepting ∨ (∃ e, verdict = .error e) ∧ t.phase = .failed := by
  have hnoted : (s.noted call).phase = .accepting := by
    cases call with
    | feed chunk =>
      rw [noted, if_pos hp]
      exact hp
    | finish => exact absurd rfl hc
    | pause | resume => exact hp
  rcases perform_outcome [] hs ha h with ⟨hd, hout⟩ | ⟨hd, rfl⟩
  · cases hout with
    | held => exact .inl ⟨rfl, hnoted⟩
    | ended takes running phase =>
      rw [hnoted] at phase
      cases phase
    | failed => exact .inr ⟨⟨_, rfl⟩, rfl⟩
  · cases call with
    | feed | resume => simp [delivers, hp] at hd
    | finish => exact absurd rfl hc
    | pause =>
      cases h
      exact .inl ⟨rfl, hp⟩

/-- An aborted stream has failed. -/
theorem abort_phase (s : Stream σ) (e : StreamError) : (s.abort e).phase = .failed := by
  unfold abort
  split
  · assumption
  · rfl

/-- Resuming returns an error if the stream has failed by then, and only if so. -/
theorem resume_failed_iff (ha : s.Aware) (h : s.resume = .ok (verdict, t)) :
    t.phase = .failed ↔ ∃ e, verdict = .error e := by
  by_cases hl : s.Live
  · have hd : s.resume = s.unpaused.drain := by
      rcases hl with hp | hp <;> rw [resume_eq, hp]
    rw [hd] at h
    cases drain_outcome [] ((ha.noted .resume).unfailed hl) h with
    | held => exact iff_of_false (fun hp => not_live_of_failed hp hl) (by simp)
    | ended => exact iff_of_false (by simp [complete]) (by simp)
    | failed => exact iff_of_true rfl ⟨_, rfl⟩
  · rw [resume_eq] at h
    cases hp : s.phase with
    | accepting => exact absurd (.inl hp) hl
    | finishing => exact absurd (.inr hp) hl
    | ended =>
      rw [hp] at h
      cases h
      exact iff_of_false (by simp [unpaused, hp]) (by simp)
    | failed =>
      rw [hp] at h
      cases h
      exact iff_of_true hp ⟨_, rfl⟩

end Stream

namespace Reader

variable {r t : Reader σ} {source : Source} {result : ReadResult}

/-- What `run` does, in its order. -/
def runDeeds (r : Reader σ) : List Deed :=
  if r.atEnd || r.isPaused then []
  else
    match h : r.source.read r.chunkSize with
    | (.interrupted, source) =>
      have : source.weight < r.source.weight := Source.weight_read_interrupted h
      .read .interrupted :: { r with source }.runDeeds
    | (.failure reason, _) => [.read (.failure reason), .abort (.readFailed reason)]
    | (.data [], _) => [.read (.data []), .call .finish]
    | (.data (b :: bytes), source) =>
      have : source.weight < r.source.weight := Source.weight_read_data (List.cons_ne_nil b bytes) h
      .read (.data (b :: bytes)) :: .call (.feed (b :: bytes)) ::
        match r.stream.feed (b :: bytes) with
        | .error _ | .ok (.error _, _) => []
        | .ok (.ok (), stream) => { r with source, stream }.runDeeds
  termination_by r.source.weight

theorem runDeeds_eq (hr : ¬ (r.atEnd || r.isPaused) = true)
    (h : r.source.read r.chunkSize = (result, source)) :
    r.runDeeds = .read result :: (result.reaction ++
      match result with
      | .interrupted => { r with source }.runDeeds
      | .failure _ | .data [] => []
      | .data (b :: bytes) =>
        match r.stream.feed (b :: bytes) with
        | .error _ | .ok (.error _, _) => []
        | .ok (.ok (), stream) => { r with source, stream }.runDeeds) := by
  rw [runDeeds, if_neg hr]
  split <;> next hread => rw [h] at hread; cases hread; rfl

/-- The reader has stopped: it is paused, at the end of its source, or its stream has failed. -/
def Rests (r : Reader σ) : Prop :=
  r.isPaused = true ∨ r.atEnd = true ∨ r.stream.phase = .failed

/-- The turns of the loop of a reader: each reads, while delivery is not paused and the stream takes
input, and does with the stream what there is to do about it. -/
inductive Turns : Reader σ → List Deed → Reader σ → Prop where
  | rest (r : Reader σ) : Turns r [] r
  | turn {r t : Reader σ} {result : ReadResult} {source : Source} {verdicts : List Verdict}
      {stream : Stream σ} {deeds : List Deed} (reading : r.atEnd = false)
      (running : r.isPaused = false) (accepting : r.stream.phase = .accepting)
      (read : r.source.read r.chunkSize = (result, source))
      (react : r.stream.operateAll (result.reaction.filterMap Deed.operation?) =
        .ok (verdicts, stream))
      (rest : Turns { r with source, stream, atEnd := result.ends || r.atEnd } deeds t) :
      Turns r (.read result :: (result.reaction ++ deeds)) t

/-- How much there is left to read. -/
def todo (r : Reader σ) : Nat := r.source.weight + if r.atEnd then 0 else 1

/-- Each turn uses up some of the source, or meets its end. -/
theorem todo_turn (hr : r.atEnd = false) (h : r.source.read r.chunkSize = (result, source))
    (stream : Stream σ) :
    todo { r with source, stream, atEnd := result.ends || r.atEnd } < r.todo := by
  have hle := Source.weight_read_le h
  cases hends : result.ends with
  | false =>
    have hlt := Source.weight_read_lt h hends
    simp only [todo, hr, Bool.or_false]
    omega
  | true =>
    simp only [todo, hr, Bool.true_or, if_true, Bool.false_eq_true, if_false]
    omega

theorem Turns.todo_le {deeds : List Deed} (h : r.Turns deeds t) : t.todo ≤ r.todo := by
  induction h with
  | rest => exact Nat.le_refl _
  | turn reading _ _ read _ _ ih => exact Nat.le_trans ih (Nat.le_of_lt (todo_turn reading read _))

/-- Whoever paused did so after a turn. -/
theorem Turns.todo_lt {deeds : List Deed} (h : r.Turns deeds t) (hr : r.isPaused = false)
    (ht : t.isPaused = true) : t.todo < r.todo := by
  cases h with
  | rest => exact absurd (ht.symm.trans hr) (by simp)
  | turn reading _ _ read _ rest => exact Nat.lt_of_le_of_lt rest.todo_le (todo_turn reading read _)

/-- Where the loop turns, the reader is neither at the end of its source nor paused. -/
theorem ready_of_not_rests (h : ¬ (r.atEnd || r.isPaused) = true) :
    r.atEnd = false ∧ r.isPaused = false :=
  Bool.or_eq_false_iff.1 (Bool.eq_false_iff.2 h)

/-- Every run of a reader gives a result, turns the loop, and leaves it at rest. -/
theorem run_turns (hs : r.stream.Sound) (ha : r.stream.Aware)
    (hp : r.atEnd = false → r.stream.phase = .accepting) :
    ∃ verdict t, r.run = .ok (verdict, t) ∧ r.Turns r.runDeeds t ∧ t.Rests := by
  fun_induction run r with
  | case1 r hrest =>
    refine ⟨_, _, rfl, ?_, ?_⟩
    · rw [runDeeds, if_pos hrest]
      exact .rest r
    · exact (Bool.or_eq_true_iff.1 hrest).elim (fun h => .inr (.inl h)) .inl
  | case2 r hrest source hread _ ih =>
    obtain ⟨hreading, hrunning⟩ := ready_of_not_rests hrest
    obtain ⟨verdict, t, hrun, hturns, ht⟩ := ih hs ha hp
    rw [runDeeds_eq hrest hread]
    exact ⟨verdict, t, hrun, .turn hreading hrunning (hp hreading) hread rfl hturns, ht⟩
  | case3 r hrest reason source hread =>
    obtain ⟨hreading, hrunning⟩ := ready_of_not_rests hrest
    rw [runDeeds_eq hrest hread]
    exact ⟨_, _, rfl, .turn hreading hrunning (hp hreading) hread rfl (.rest _),
      .inr (.inr (r.stream.abort_phase _))⟩
  | case4 r hrest source hread misuse hfinish =>
    exact absurd hfinish (Stream.perform_ne_error hs .finish misuse)
  | case5 r hrest source hread verdict stream hfinish =>
    obtain ⟨hreading, hrunning⟩ := ready_of_not_rests hrest
    rw [runDeeds_eq hrest hread]
    exact ⟨verdict, _, rfl, .turn hreading hrunning (hp hreading) hread
      (Stream.operateAll_cons hfinish rfl) (.rest _), .inr (.inl rfl)⟩
  | case6 r hrest b bytes source hread _ misuse hfeed =>
    exact absurd hfeed (Stream.perform_ne_error hs (.feed (b :: bytes)) misuse)
  | case7 r hrest b bytes source hread _ e stream hfeed =>
    obtain ⟨hreading, hrunning⟩ := ready_of_not_rests hrest
    rw [runDeeds_eq hrest hread]
    simp only [hfeed]
    have hfailed : stream.phase = .failed :=
      (Stream.perform_accepting hs ha (hp hreading) (.feed (b :: bytes)) (by simp) hfeed).elim
        (fun h => by cases h.1) And.right
    exact ⟨_, _, rfl, .turn hreading hrunning (hp hreading) hread
      (Stream.operateAll_cons hfeed rfl) (.rest _), .inr (.inr hfailed)⟩
  | case8 r hrest b bytes source hread _ stream hfeed ih =>
    obtain ⟨hreading, hrunning⟩ := ready_of_not_rests hrest
    have hoperate : r.stream.operate (.call (.feed (b :: bytes))) = .ok (.ok (), stream) := hfeed
    rw [runDeeds_eq hrest hread]
    simp only [hfeed]
    have hphase : stream.phase = .accepting :=
      (Stream.perform_accepting hs ha (hp hreading) (.feed (b :: bytes)) (by simp) hfeed).elim
        And.right (fun ⟨⟨e, he⟩, _⟩ => by cases he)
    obtain ⟨verdict, t, hrun, hturns, ht⟩ := ih (Stream.operate_sound hs hoperate)
      (Stream.operate_aware hs ha hoperate) (fun _ => hphase)
    exact ⟨verdict, t, hrun, .turn hreading hrunning (hp hreading) hread
      (Stream.operateAll_cons hoperate rfl) hturns, ht⟩

/-! ### Sessions -/

/-- What a reader is told from outside. -/
inductive Control where
  | pause
  | resume

/-- Does as it is told. -/
def obey (r : Reader σ) : Control → Except Misuse (Verdict × Reader σ)
  | .pause => .ok (.ok (), r.pause)
  | .resume => r.resume

def obeyAll (r : Reader σ) : List Control → Except Misuse (List Verdict × Reader σ)
  | [] => .ok ([], r)
  | control :: controls =>
    match r.obey control with
    | .error misuse => .error misuse
    | .ok (verdict, t) => (t.obeyAll controls).map fun (verdicts, u) => (verdict :: verdicts, u)

theorem obeyAll_cons {u : Reader σ} {control : Control} {controls : List Control}
    {verdict : Verdict} {verdicts : List Verdict} (h : r.obey control = .ok (verdict, t))
    (hall : t.obeyAll controls = .ok (verdicts, u)) :
    r.obeyAll (control :: controls) = .ok (verdict :: verdicts, u) := by
  rw [obeyAll, h]
  simp only [hall, Except.map]

theorem obeyAll_append {u : Reader σ} {controls more : List Control}
    {verdicts rest : List Verdict} (h : r.obeyAll controls = .ok (verdicts, t))
    (hmore : t.obeyAll more = .ok (rest, u)) :
    r.obeyAll (controls ++ more) = .ok (verdicts ++ rest, u) := by
  induction controls generalizing r verdicts with
  | nil =>
    cases h
    exact hmore
  | cons control controls ih =>
    rw [obeyAll] at h
    split at h
    · cases h
    · next verdict v hobey =>
      cases hrest : v.obeyAll controls with
      | error misuse =>
        rw [hrest] at h
        cases h
      | ok result =>
        rw [hrest] at h
        cases h
        exact obeyAll_cons hobey (ih hrest)

/-- What `resume` does, in its order. -/
def resumeDeeds (r : Reader σ) : List Deed :=
  .call .resume ::
    match r.stream.resume with
    | .error _ | .ok (.error _, _) => []
    | .ok (.ok (), stream) => if stream.isPaused then [] else { r with stream }.runDeeds

def obeyDeeds (r : Reader σ) : Control → List Deed
  | .pause => [.call .pause]
  | .resume => r.resumeDeeds

def obeyAllDeeds (r : Reader σ) : List Control → List Deed
  | [] => []
  | control :: controls =>
    r.obeyDeeds control ++
      match r.obey control with
      | .error _ => []
      | .ok (_, t) => t.obeyAllDeeds controls

/-- A reader that may be paused from outside before it runs. -/
def held (r : Reader σ) (early : Bool) : Reader σ := if early then r.pause else r

/-- Runs the reader, and then does as it is told. -/
def session (r : Reader σ) (early : Bool) (controls : List Control) :
    Except Misuse (List Verdict × Reader σ) :=
  match (r.held early).run with
  | .error misuse => .error misuse
  | .ok (verdict, t) => (t.obeyAll controls).map fun (verdicts, u) => (verdict :: verdicts, u)

/-- What is done in a session, in its order. -/
def deeds (r : Reader σ) (early : Bool) (controls : List Control) : List Deed :=
  (if early then [.call .pause] else []) ++ (r.held early).runDeeds ++
    match (r.held early).run with
    | .error _ => []
    | .ok (_, t) => t.obeyAllDeeds controls

/-! ### What each deed keeps -/

/-- How far the deeds have come with the source. -/
inductive Course (deeds : List Deed) (r : Reader σ) : Prop where
  /-- There was nothing but data and interruptions so far. -/
  | reading (atEnd : r.atEnd = false)
      (phase : r.stream.phase = .accepting ∨ r.stream.phase = .failed)
      (goes : ∀ deed ∈ deeds, deed.GoesOn)
  /-- The end was met. -/
  | finished {front back : List Deed} (atEnd : r.atEnd = true)
      (split : deeds = front ++ .read (.data []) :: .call .finish :: back)
      (goes : ∀ deed ∈ front, deed.GoesOn) (waits : ∀ deed ∈ back, deed.Waits)
  /-- A read failed. -/
  | aborted {front back : List Deed} {reason : String} (atEnd : r.atEnd = false)
      (phase : r.stream.phase = .failed)
      (split : deeds = front ++ .read (.failure reason) :: .abort (.readFailed reason) :: back)
      (goes : ∀ deed ∈ front, deed.GoesOn) (waits : ∀ deed ∈ back, deed.Waits)

namespace Course

variable {deeds : List Deed} {stream : Stream σ}

/-- What takes nothing from the source keeps where the deeds have come to, if it does not end a stream
that takes input and leaves a failed one failed. -/
theorem wait (h : Course deeds r) {deed : Deed} (hdeed : deed.Waits)
    (haccepting : r.stream.phase = .accepting →
      stream.phase = .accepting ∨ stream.phase = .failed)
    (hfailed : r.stream.phase = .failed → stream.phase = .failed) :
    Course (deeds ++ [deed]) { r with stream } := by
  cases h with
  | reading atEnd phase goes =>
    refine .reading atEnd (phase.elim haccepting fun hp => .inr (hfailed hp))
      (List.forall_mem_append.2 ⟨goes, ?_⟩)
    simpa using hdeed.goesOn
  | @finished front back atEnd split goes waits =>
    have hsplit : deeds ++ [deed] =
        front ++ .read (.data []) :: .call .finish :: (back ++ [deed]) := by
      rw [split]
      simp
    exact .finished atEnd hsplit goes (List.forall_mem_append.2 ⟨waits, by simpa using hdeed⟩)
  | @aborted front back reason atEnd phase split goes waits =>
    have hsplit : deeds ++ [deed] = front ++
        .read (.failure reason) :: .abort (.readFailed reason) :: (back ++ [deed]) := by
      rw [split]
      simp
    exact .aborted atEnd (hfailed phase) hsplit goes
      (List.forall_mem_append.2 ⟨waits, by simpa using hdeed⟩)

/-- As long as there is something left to read and the stream takes input, nothing but data and
interruptions was met. -/
theorem goes (h : Course deeds r) (reading : r.atEnd = false)
    (accepting : r.stream.phase = .accepting) : ∀ deed ∈ deeds, deed.GoesOn := by
  cases h with
  | reading _ _ goes => exact goes
  | finished atEnd => exact absurd (reading.symm.trans atEnd) (by simp)
  | aborted _ phase => exact absurd (accepting.symm.trans phase) (by simp)

end Course

/-- What holds of a reader that has come to `r` by its deeds, from a source and a stream. -/
structure Progress (size : Nat) (source : Source) (s : Stream σ) (deeds : List Deed)
    (r : Reader σ) : Prop where
  chunkSize : r.chunkSize = size
  leads : Deed.Leads size source s deeds r.source r.stream
  fed : deeds.flatMap Deed.fed = deeds.flatMap Deed.taken
  course : Course deeds r

namespace Progress

variable {size : Nat} {s : Stream σ} {deeds more : List Deed}

theorem create (source : Source) {s : Stream σ} (hp : s.phase = .accepting) (chunkSize : Nat) :
    Progress (max chunkSize 1) source s [] (Reader.create source s chunkSize) :=
  ⟨rfl, .nil _ _, rfl, .reading rfl (.inl hp) (by simp)⟩

theorem sound (h : Progress size source s deeds r) (hs : s.Sound) (ha : s.Aware) :
    r.stream.Sound ∧ r.stream.Aware := by
  obtain ⟨verdicts, hall⟩ := h.leads.operateAll
  exact Stream.operateAll_preserves (fun _ hs ha => Stream.operate_aware hs ha) hs ha hall

/-- A call that takes nothing from the source and feeds nothing. -/
theorem waits (h : Progress size source s deeds r) (hs : s.Sound) (ha : s.Aware)
    (call : Stream.Call) (hcall : (Deed.call call).Waits) {verdict : Verdict} {stream : Stream σ}
    (hperform : r.stream.perform call = .ok (verdict, stream)) :
    Progress size source s (deeds ++ [.call call]) { r with stream } := by
  obtain ⟨hsound, haware⟩ := h.sound hs ha
  refine ⟨h.chunkSize, h.leads.append (.operate rfl hperform (.nil _ _)), ?_, ?_⟩
  · have hfed : (Deed.call call).fed = [] := by
      cases call <;> first | rfl | cases hcall
    simp [h.fed, hfed, Deed.taken]
  · have hne : call ≠ .finish := by
      rintro rfl
      exact hcall
    refine h.course.wait hcall (fun hp => ?_) fun hp => ?_
    · exact (Stream.perform_accepting hsound haware hp call hne hperform).imp And.right And.right
    · obtain ⟨t, ht, hsame⟩ := Stream.operate_failed hp (.call call)
      rw [Stream.operate, hperform] at ht
      cases ht
      exact hsame.phase.trans hp

/-- A turn of the loop. -/
theorem turn (h : Progress size source s deeds r) (hs : s.Sound) (ha : s.Aware)
    (reading : r.atEnd = false) (running : r.isPaused = false)
    (accepting : r.stream.phase = .accepting) {result : ReadResult} {rest : Source}
    (read : r.source.read r.chunkSize = (result, rest)) {verdicts : List Verdict}
    {stream : Stream σ}
    (react : r.stream.operateAll (result.reaction.filterMap Deed.operation?) =
      .ok (verdicts, stream)) :
    Progress size source s (deeds ++ .read result :: result.reaction)
      { r with source := rest, stream, atEnd := result.ends || r.atEnd } := by
  obtain ⟨hsound, haware⟩ := h.sound hs ha
  have hgoes := h.course.goes reading accepting
  have hread := h.chunkSize ▸ read
  refine ⟨h.chunkSize, h.leads.append (.read running accepting hread (.of_operateAll _ ?_ react)),
    ?_, ?_⟩
  · unfold ReadResult.reaction
    split <;> simp
  · rw [List.flatMap_append, List.flatMap_append, h.fed]
    refine congrArg _ ?_
    unfold ReadResult.reaction
    split <;> simp [Deed.fed, Deed.taken, ReadResult.bytes]
  · match result with
    | .interrupted =>
      cases react
      exact .reading reading (.inl accepting)
        (List.forall_mem_append.2 ⟨hgoes, by simp [ReadResult.reaction, Deed.GoesOn]⟩)
    | .failure reason =>
      obtain ⟨verdict, t, more, ht, hmore, -⟩ := Stream.exists_of_operateAll_cons react
      cases ht
      cases hmore
      exact .aborted reading (r.stream.abort_phase _) rfl hgoes (by simp)
    | .data [] => exact .finished rfl rfl hgoes (by simp)
    | .data (b :: bytes) =>
      obtain ⟨verdict, t, more, ht, hmore, -⟩ := Stream.exists_of_operateAll_cons react
      cases hmore
      refine .reading reading ?_
        (List.forall_mem_append.2 ⟨hgoes, by simp [ReadResult.reaction, Deed.GoesOn]⟩)
      exact (Stream.perform_accepting hsound haware accepting (.feed (b :: bytes)) (by simp)
        ht).imp And.right And.right

/-- Turns of the loop. -/
theorem turns (h : Progress size source s deeds r) (hs : s.Sound) (ha : s.Aware)
    (ht : r.Turns more t) : Progress size source s (deeds ++ more) t := by
  induction ht generalizing deeds with
  | rest => rwa [List.append_nil]
  | turn reading running accepting read react _ ih =>
    have hturn := h.turn hs ha reading running accepting read react
    have hrest := ih hturn
    rwa [List.append_assoc, List.cons_append] at hrest

/-- Before the end of the source, a stream that has not failed takes input. -/
theorem accepting (h : Progress size source s deeds r) (hp : r.stream.phase ≠ .failed)
    (hr : r.atEnd = false) : r.stream.phase = .accepting := by
  cases h.course with
  | reading _ phase => exact phase.resolve_right hp
  | finished atEnd => exact absurd (hr.symm.trans atEnd) (by simp)
  | aborted _ phase => exact absurd phase hp

/-- The reader may run if its stream has not failed. -/
theorem run (h : Progress size source s deeds r) (hs : s.Sound) (ha : s.Aware)
    (hp : r.stream.phase ≠ .failed) :
    ∃ verdict t, r.run = .ok (verdict, t) ∧ Progress size source s (deeds ++ r.runDeeds) t ∧
      t.Rests := by
  obtain ⟨hsound, haware⟩ := h.sound hs ha
  obtain ⟨verdict, t, hrun, hturns, ht⟩ := run_turns hsound haware (h.accepting hp)
  exact ⟨verdict, t, hrun, h.turns hs ha hturns, ht⟩

theorem resume (h : Progress size source s deeds r) (hs : s.Sound) (ha : s.Aware) :
    ∃ verdict t, r.resume = .ok (verdict, t) ∧ Progress size source s (deeds ++ r.resumeDeeds) t ∧
      t.Rests := by
  obtain ⟨hsound, haware⟩ := h.sound hs ha
  obtain ⟨verdict, stream, hperform, -⟩ := Stream.perform_ok hsound .resume
  have hwaits := h.waits hs ha .resume trivial hperform
  have hresume : r.stream.resume = .ok (verdict, stream) := hperform
  have hfailed := Stream.resume_failed_iff haware hresume
  rw [Reader.resume, resumeDeeds, hresume]
  match verdict with
  | .error e => exact ⟨_, _, rfl, hwaits, .inr (.inr (hfailed.2 ⟨e, rfl⟩))⟩
  | .ok () =>
    dsimp only
    split
    · next hp => exact ⟨_, _, rfl, hwaits, .inl hp⟩
    · obtain ⟨verdict, t, hrun, ht, hrests⟩ := hwaits.run hs ha (mt hfailed.1 (by simp))
      rw [List.append_assoc] at ht
      exact ⟨verdict, t, hrun, ht, hrests⟩

/-- Resuming that ends in a pause leaves less to read, or less of what was read. -/
theorem resume_lt (h : Progress size source s deeds r) (hs : s.Sound) (ha : s.Aware)
    {verdict : Verdict} (hresume : r.resume = .ok (verdict, t)) (ht : t.isPaused = true) :
    t.todo < r.todo ∨ t.todo = r.todo ∧
      t.stream.tokenizer.remaining < r.stream.tokenizer.remaining := by
  obtain ⟨hsound, haware⟩ := h.sound hs ha
  obtain ⟨verdict', stream, hperform, -⟩ := Stream.perform_ok hsound .resume
  have hwaits := h.waits hs ha .resume trivial hperform
  have hstream : r.stream.resume = .ok (verdict', stream) := hperform
  have hfailed := Stream.resume_failed_iff haware hstream
  rw [Reader.resume, hstream] at hresume
  match verdict' with
  | .error e =>
    cases hresume
    exact .inr ⟨rfl, Stream.resume_remaining hsound hstream ht⟩
  | .ok () =>
    dsimp only at hresume
    split at hresume
    · cases hresume
      exact .inr ⟨rfl, Stream.resume_remaining hsound hstream ht⟩
    · next hrunning =>
      obtain ⟨hsound, haware⟩ := hwaits.sound hs ha
      obtain ⟨_, t', hrun, hturns, -⟩ :=
        run_turns hsound haware (hwaits.accepting (mt hfailed.1 (by simp)))
      rw [hrun] at hresume
      cases hresume
      exact .inl (hturns.todo_lt (Bool.eq_false_iff.2 hrunning) ht)

/-- However often listeners ask for pauses, resuming often enough leaves none. -/
theorem exists_unpaused {deeds : List Deed} {r : Reader σ} (h : Progress size source s deeds r)
    (hs : s.Sound) (ha : s.Aware) :
    ∃ n verdicts t, r.obeyAll (.replicate n .resume) = .ok (verdicts, t) ∧ t.isPaused = false := by
  cases hr : r.isPaused with
  | false => exact ⟨0, [], r, rfl, hr⟩
  | true =>
    obtain ⟨verdict, t, hresume, ht, -⟩ := h.resume hs ha
    cases hp : t.isPaused with
    | false => exact ⟨1, [verdict], t, obeyAll_cons hresume rfl, hp⟩
    | true =>
      have hlt := h.resume_lt hs ha hresume hp
      obtain ⟨n, verdicts, u, hu, hpaused⟩ := ht.exists_unpaused hs ha
      exact ⟨n + 1, verdict :: verdicts, u, obeyAll_cons hresume hu, hpaused⟩
  termination_by (r.todo, r.stream.tokenizer.remaining)
  decreasing_by exact Prod.lex_def.2 hlt

theorem obey (h : Progress size source s deeds r) (hs : s.Sound) (ha : s.Aware)
    (control : Control) :
    ∃ verdict t, r.obey control = .ok (verdict, t) ∧
      Progress size source s (deeds ++ r.obeyDeeds control) t ∧ t.Rests := by
  cases control with
  | pause => exact ⟨_, _, rfl, h.waits hs ha .pause trivial rfl, .inl rfl⟩
  | resume => exact h.resume hs ha

theorem obeyAll (h : Progress size source s deeds r) (hr : r.Rests) (hs : s.Sound) (ha : s.Aware)
    (controls : List Control) :
    ∃ verdicts t, r.obeyAll controls = .ok (verdicts, t) ∧
      Progress size source s (deeds ++ r.obeyAllDeeds controls) t ∧ t.Rests := by
  induction controls generalizing r deeds with
  | nil => exact ⟨_, _, rfl, by rwa [obeyAllDeeds, List.append_nil], hr⟩
  | cons control controls ih =>
    obtain ⟨verdict, t, ht, hnow, hrests⟩ := h.obey hs ha control
    obtain ⟨verdicts, u, hu, hlater, hrests⟩ := ih hnow hrests
    refine ⟨_, u, obeyAll_cons ht hu, ?_, hrests⟩
    rw [List.append_assoc] at hlater
    rw [obeyAllDeeds, ht]
    exact hlater

end Progress

/-- Every session gives a result, and whoever goes on resuming comes to one that is not paused. -/
theorem session_progress {s : Stream σ} (hs : s.Sound) (ha : s.Aware) (hp : s.phase = .accepting)
    (source : Source) (chunkSize : Nat) (early : Bool) (controls : List Control) :
    ∃ verdicts r, (create source s chunkSize).session early controls = .ok (verdicts, r) ∧
      Progress (max chunkSize 1) source s ((create source s chunkSize).deeds early controls) r ∧
      r.Rests ∧
      ∃ n more t, (create source s chunkSize).session early (controls ++ .replicate n .resume) =
        .ok (more, t) ∧ t.isPaused = false := by
  have hcreate := Progress.create source hp chunkSize
  have hheld : Progress (max chunkSize 1) source s (if early then [.call .pause] else [])
      ((create source s chunkSize).held early) := by
    cases early with
    | false => exact hcreate
    | true => exact hcreate.waits hs ha .pause trivial rfl
  have hunfailed : ((create source s chunkSize).held early).stream.phase ≠ .failed := by
    cases early <;> simp [held, create, Reader.pause, Stream.pause, hp]
  obtain ⟨verdict, t, hrun, ht, hrests⟩ := hheld.run hs ha hunfailed
  obtain ⟨verdicts, r, hr, hprogress, hrests⟩ := ht.obeyAll hrests hs ha controls
  obtain ⟨n, more, u, hu, hpaused⟩ := hprogress.exists_unpaused hs ha
  refine ⟨verdict :: verdicts, r, ?_, ?_, hrests, n, verdict :: (verdicts ++ more), u, ?_, hpaused⟩
  · rw [session, hrun]
    simp only [hr, Except.map]
  · rw [deeds, hrun]
    exact hprogress
  · rw [session, hrun]
    simp only [obeyAll_append hr hu, Except.map]

end Reader

end XmlSieve
