import XmlSieve.Proofs.Token.Cutting
import XmlSieve.Token.Tokenizer

/-!
# Transcripts

The `Transcript` of a document is what a tokenizer has to say of it: its tokens, in order, and its
first error.  A tokenizer `t` that has not seen the end of its input has an outlook for every
continuation: `(t.given rest final).outlook` is the transcript of what it would still tell if `rest`
followed and, for `final`, the input ended there.  Asking for a token before `rest` has arrived
takes that token off the outlook and changes nothing else (`outlook_given_token`,
`outlook_given_none`, `outlook_given_error`).  Therefore the transcript depends neither on how the
document is cut nor on when its tokens are asked for.
-/

namespace XmlSieve

/-- What a tokenizer has to say: the tokens in order, and the first error. -/
structure Transcript where
  tokens : List Token := []
  error : Option StreamError := none
  deriving DecidableEq, Repr

namespace Transcript

/-- What is told by answers given one after the other. -/
def ofAnswers (answers : List Tokenizer.Answer) : Transcript where
  tokens := answers.filterMap fun
    | .ok token? => token?
    | .error _ => none
  error := answers.findSome? fun
    | .ok _ => none
    | .error e => some e

/-- Puts a token in front. -/
def cons (token : Token) (r : Transcript) : Transcript := { r with tokens := token :: r.tokens }

/-- What is told by `r` and then by `s`. -/
def append (r s : Transcript) : Transcript where
  tokens := r.tokens ++ s.tokens
  error := r.error.or s.error

instance : Append Transcript := ⟨append⟩

variable {answers : List Tokenizer.Answer}

@[simp] theorem ofAnswers_nil : ofAnswers [] = {} := rfl

@[simp] theorem ofAnswers_token (token : Token) :
    ofAnswers (.ok (some token) :: answers) = (ofAnswers answers).cons token := rfl

@[simp] theorem ofAnswers_none : ofAnswers (.ok none :: answers) = ofAnswers answers := rfl

@[simp] theorem ofAnswers_error (e : StreamError) :
    ofAnswers (.error e :: answers) = { ofAnswers answers with error := some e } := rfl

theorem append_eq (r s : Transcript) : r ++ s = ⟨r.tokens ++ s.tokens, r.error.or s.error⟩ := rfl

theorem ofAnswers_append (answers more : List Tokenizer.Answer) :
    ofAnswers (answers ++ more) = ofAnswers answers ++ ofAnswers more := by
  simp [ofAnswers, append_eq, List.filterMap_append, List.findSome?_append]

theorem nil_append (r : Transcript) : ({} : Transcript) ++ r = r := by
  simp [append_eq]

theorem append_assoc (r s u : Transcript) : r ++ s ++ u = r ++ (s ++ u) := by
  simp [append_eq, List.append_assoc, Option.or_assoc]

end Transcript

namespace Tokenizer

variable {t u : Tokenizer} {token : Token} {e : StreamError} {rest : Bytes} {final : Bool}

/-! ### Asking for all tokens -/

/-- Asks for tokens up to the first answer that is none. -/
def drain (t : Tokenizer) : List Answer × Tokenizer :=
  match h : t.next with
  | (.ok (some token), u) =>
    have : u.remaining < t.remaining := next_token_lt h
    (.ok (some token) :: u.drain.1, u.drain.2)
  | (.ok none, u) => ([.ok none], u)
  | (.error e, u) => ([.error e], u)
  termination_by t.remaining

/-- What the tokenizer would tell if it were drained. -/
def outlook (t : Tokenizer) : Transcript := .ofAnswers t.drain.1

theorem drain_token (h : t.next = (.ok (some token), u)) :
    t.drain = (.ok (some token) :: u.drain.1, u.drain.2) := by
  rw [drain]
  split <;> simp_all

theorem drain_none (h : t.next = (.ok none, u)) : t.drain = ([.ok none], u) := by
  rw [drain]
  split <;> simp_all

theorem drain_error (h : t.next = (.error e, u)) : t.drain = ([.error e], u) := by
  rw [drain]
  split <;> simp_all

theorem outlook_token (h : t.next = (.ok (some token), u)) : t.outlook = u.outlook.cons token := by
  rw [outlook, drain_token h]
  rfl

theorem outlook_none (h : t.next = (.ok none, u)) : t.outlook = {} := by
  rw [outlook, drain_none h]
  rfl

theorem outlook_error (h : t.next = (.error e, u)) : t.outlook = { error := some e } := by
  rw [outlook, drain_error h]
  rfl

/-! ### What an answer leaves alone -/

theorem scan_of_none (h : Construct.cut? t.finished t.unread = none) : t.scan = t.wait := by
  rw [scan]
  split <;> simp_all

theorem scan_of_cut {c : Construct} {n : Nat}
    (h : Construct.cut? t.finished t.unread = some (c, n)) :
    t.scan =
      match t.place.read c with
      | .error fault => t.fail (fault.inLine t.line)
      | .ok (.nothing after) => (t.take n after).scan
      | .ok (.token token after) => (.ok (some token), t.take n after)
      | .ok (.emptyElement name attributes after) =>
        (.ok (some (.startTag name attributes)), { t.take n after with owed := some name }) := by
  rw [scan]
  split
  · simp_all
  · next c' n' h' =>
    obtain ⟨rfl, rfl⟩ : c' = c ∧ n' = n := by simpa [h] using h'.symm
    rfl

/-- Passing over constructs that tell nothing. -/
inductive Passes : Tokenizer → Tokenizer → Prop where
  | refl (t : Tokenizer) : Passes t t
  | skip {t u : Tokenizer} {c : Construct} {n : Nat} {after : Place}
      (cut : Construct.cut? t.finished t.unread = some (c, n))
      (read : t.place.read c = .ok (.nothing after)) (rest : Passes (t.take n after) u) : Passes t u

/-- The ways in which a scan stops, each with its answer. -/
inductive Stops (t : Tokenizer) : Answer → Tokenizer → Prop where
  | waits (cut : Construct.cut? t.finished t.unread = none) (wait : t.wait = (.ok none, t)) :
    Stops t (.ok none) t
  | short {e : StreamError} (cut : Construct.cut? t.finished t.unread = none)
      (wait : t.wait = t.fail e) : Stops t (.error e) { t with failed := true }
  | fault {c : Construct} {n : Nat} {fault : Fault}
      (cut : Construct.cut? t.finished t.unread = some (c, n)) (read : t.place.read c = .error fault) :
    Stops t (.error (fault.inLine t.line)) { t with failed := true }
  | token {c : Construct} {n : Nat} {token : Token} {after : Place}
      (cut : Construct.cut? t.finished t.unread = some (c, n))
      (read : t.place.read c = .ok (.token token after)) :
    Stops t (.ok (some token)) (t.take n after)
  | emptyElement {c : Construct} {n : Nat} {name : String} {attributes : Attributes} {after : Place}
      (cut : Construct.cut? t.finished t.unread = some (c, n))
      (read : t.place.read c = .ok (.emptyElement name attributes after)) :
    Stops t (.ok (some (.startTag name attributes))) { t.take n after with owed := some name }

theorem wait_cases (t : Tokenizer) : t.wait = (.ok none, t) ∨ ∃ e, t.wait = t.fail e := by
  unfold wait
  split_ifs
  · exact .inl rfl
  · exact .inr ⟨_, rfl⟩
  · exact .inl rfl
  · exact .inr ⟨_, rfl⟩

/-- A scan passes over constructs and stops. -/
theorem scan_cases {answer : Answer} (h : t.scan = (answer, u)) :
    ∃ v, t.Passes v ∧ v.Stops answer u := by
  fun_induction scan t with
  | case1 t hcut =>
    refine ⟨t, .refl t, ?_⟩
    rcases t.wait_cases with hwait | ⟨e, hwait⟩
    · rw [hwait] at h
      cases h
      exact .waits hcut hwait
    · rw [hwait] at h
      cases h
      exact .short hcut hwait
  | case2 t c n hcut fault hread =>
    cases h
    exact ⟨t, .refl t, .fault hcut hread⟩
  | case3 t c n hcut after hread _ ih =>
    obtain ⟨v, hpasses, hstops⟩ := ih h
    exact ⟨v, .skip hcut hread hpasses, hstops⟩
  | case4 t c n hcut token after hread =>
    cases h
    exact ⟨t, .refl t, .token hcut hread⟩
  | case5 t c n hcut name attributes after hread =>
    cases h
    exact ⟨t, .refl t, .emptyElement hcut hread⟩

theorem Passes.scan_eq (h : t.Passes u) : t.scan = u.scan := by
  induction h with
  | refl => rfl
  | skip hcut hread _ ih =>
    rw [scan_of_cut hcut, hread]
    exact ih

/-- What passing over constructs leaves alone. -/
structure Kept (t u : Tokenizer) : Prop where
  started : u.started = t.started
  owed : u.owed = t.owed
  failed : u.failed = t.failed
  finished : u.finished = t.finished

theorem Passes.kept (h : t.Passes u) : t.Kept u := by
  induction h with
  | refl => exact ⟨rfl, rfl, rfl, rfl⟩
  | skip _ _ _ ih => exact ⟨ih.started, ih.owed, ih.failed, ih.finished⟩

theorem scan_kept {answer : Answer} (h : t.scan = (answer, u)) :
    u.started = t.started ∧ u.finished = t.finished := by
  obtain ⟨v, hpasses, hstops⟩ := scan_cases h
  rw [← hpasses.kept.started, ← hpasses.kept.finished]
  cases hstops <;> exact ⟨rfl, rfl⟩

/-- The ways of `next` to an answer: it has failed, an end is owed, the byte order mark is not decided
yet, or it scans. -/
inductive Gives (t : Tokenizer) : Answer → Tokenizer → Prop where
  | closed (failed : t.failed = true) : Gives t (.error .closed) t
  | ended {name : String} (unfailed : t.failed = false) (owed : t.owed = some name) :
    Gives t (.ok (some (.endTag name))) { t with owed := none }
  | awaiting (unfailed : t.failed = false) (owed : t.owed = none) (mark : t.awaitsMark = true) :
    Gives t (.ok none) t
  | scanned {answer : Answer} {u : Tokenizer} (unfailed : t.failed = false) (owed : t.owed = none)
      (mark : t.awaitsMark = false) (scan : t.start.scan = (answer, u)) : Gives t answer u

theorem next_gives {answer : Answer} (h : t.next = (answer, u)) : t.Gives answer u := by
  unfold next at h
  cases hf : t.failed with
  | true =>
    rw [if_pos hf] at h
    cases h
    exact .closed hf
  | false =>
    rw [if_neg (by simp [hf])] at h
    cases ho : t.owed with
    | some name =>
      rw [ho] at h
      cases h
      exact .ended hf ho
    | none =>
      rw [ho] at h
      cases ha : t.awaitsMark with
      | true =>
        rw [ha] at h
        cases h
        exact .awaiting hf ho ha
      | false =>
        rw [ha] at h
        exact .scanned hf ho ha h

theorem start_finished (t : Tokenizer) : t.start.finished = t.finished := by
  unfold start
  split_ifs <;> rfl

theorem start_owed (t : Tokenizer) : t.start.owed = t.owed := by
  unfold start
  split_ifs <;> rfl

theorem start_failed (t : Tokenizer) : t.start.failed = t.failed := by
  unfold start
  split_ifs <;> rfl

theorem start_started (t : Tokenizer) : t.start.started = true := by
  unfold start
  split_ifs with h
  · exact h
  · rfl
  · rfl

theorem start_of_started (h : t.started = true) : t.start = t := if_pos h

theorem awaitsMark_of_started (h : t.started = true) : t.awaitsMark = false := by
  simp [awaitsMark, h]

theorem next_scan (hf : t.failed = false) (ho : t.owed = none) (ha : t.awaitsMark = false) :
    t.next = t.start.scan := by
  simp [next, hf, ho, ha]

theorem next_finished (t : Tokenizer) : t.next.2.finished = t.finished := by
  rcases h : t.next with ⟨answer, u⟩
  cases next_gives h with
  | closed | ended | awaiting => rfl
  | scanned _ _ _ hscan => exact (scan_kept hscan).2.trans t.start_finished

/-- A scan that awaits input has only passed over constructs, and gives no other answer without new
input. -/
theorem scan_none (h : t.scan = (.ok none, u)) : t.Passes u ∧ u.scan = (.ok none, u) := by
  obtain ⟨v, hpasses, hstops⟩ := scan_cases h
  cases hstops with
  | waits hcut hwait => exact ⟨hpasses, (scan_of_none hcut).trans hwait⟩

/-- Input is requested where the byte order mark is not decided yet, or by scanning, and then
scanning goes on. -/
theorem next_none_cases (h : t.next = (.ok none, u)) :
    (t.awaitsMark = true ∧ u = t) ∨
    (t.failed = false ∧ t.owed = none ∧ t.awaitsMark = false ∧ t.start.scan = (.ok none, u) ∧
      u.failed = false ∧ u.owed = none ∧ u.started = true) := by
  cases next_gives h with
  | awaiting _ _ ha => exact .inl ⟨ha, rfl⟩
  | scanned hf ho ha hscan =>
    have hkept := (scan_none hscan).1.kept
    exact .inr ⟨hf, ho, ha, hscan, hkept.failed.trans (t.start_failed.trans hf),
      hkept.owed.trans (t.start_owed.trans ho), hkept.started.trans t.start_started⟩

/-- Asking again without new input gives no other answer. -/
theorem next_none_again (h : t.next = (.ok none, u)) : u.next = (.ok none, u) := by
  rcases next_none_cases h with ⟨-, rfl⟩ | ⟨-, -, -, hscan, hf, ho, hs⟩
  · exact h
  · rw [next_scan hf ho (awaitsMark_of_started hs), start_of_started hs, (scan_none hscan).2]

theorem scan_none_unread (ht : t.finished = true) (h : t.scan = (.ok none, u)) :
    u.unread = [] := by
  obtain ⟨v, hpasses, hstops⟩ := scan_cases h
  cases hstops with
  | waits _ hwait =>
    rw [wait, hpasses.kept.finished, ht] at hwait
    split_ifs at hwait with hfinal hunread
    · exact absurd hfinal (by simp)
    · cases hwait
    · simpa using hunread
    · cases hwait

/-- A tokenizer that knows the end of its input and has nothing more to give is done. -/
theorem isDone_of_none (ht : t.finished = true) (h : t.next = (.ok none, u)) :
    u.isDone = true := by
  have hfu := t.next_finished
  rw [h, ht] at hfu
  rcases next_none_cases h with ⟨ha, -⟩ | ⟨-, -, -, hscan, -, hou, -⟩
  · simp [awaitsMark, ht] at ha
  · rw [isDone, hfu, hou, scan_none_unread (by rw [start_finished, ht]) hscan]
    rfl

theorem scan_error (h : t.scan = (.error e, u)) : u.failed = true := by
  obtain ⟨v, -, hstops⟩ := scan_cases h
  cases hstops <;> rfl

theorem next_error (h : t.next = (.error e, u)) : u.failed = true := by
  cases next_gives h with
  | closed hf => exact hf
  | scanned _ _ _ hscan => exact scan_error hscan

theorem outlook_failed (h : t.failed = true) : t.outlook = { error := some .closed } :=
  outlook_error (u := t) (by rw [next, if_pos h])

/-! ### Input still to come -/

/-- The tokenizer as it would be had `rest` been fed and, for `final`, the end signalled. -/
def given (t : Tokenizer) (rest : Bytes) (final : Bool) : Tokenizer :=
  { t with unread := t.unread ++ rest, finished := t.finished || final }

theorem given_nil (t : Tokenizer) : t.given [] false = t := by
  simp [given]

theorem given_given (t : Tokenizer) (chunk : Bytes) :
    (t.given chunk false).given rest final = t.given (chunk ++ rest) final := by
  simp [given]

theorem given_take {n : Nat} {place : Place} (hn : n ≤ t.unread.length) :
    (t.given rest final).take n place = (t.take n place).given rest final := by
  simp only [take, given, List.drop_append_of_le_length hn, List.take_append_of_le_length hn]

/-- What is cut and read of the input is cut and read of it when more follows. -/
theorem scan_given_of_cut {c : Construct} {n : Nat} (ht : t.finished = false)
    (h : Construct.cut? t.finished t.unread = some (c, n)) :
    (t.given rest final).scan =
      match t.place.read c with
      | .error fault => (t.given rest final).fail (fault.inLine t.line)
      | .ok (.nothing after) => ((t.take n after).given rest final).scan
      | .ok (.token token after) => (.ok (some token), (t.take n after).given rest final)
      | .ok (.emptyElement name attributes after) =>
        (.ok (some (.startTag name attributes)),
          { (t.take n after).given rest final with owed := some name }) := by
  rw [ht] at h
  obtain ⟨hlong, hn⟩ := Construct.cut?_append (t.given rest final).finished h
  rw [scan_of_cut hlong, show (t.given rest final).place = t.place from rfl]
  simp only [given_take hn]
  rfl

theorem Passes.given (ht : t.finished = false) (h : t.Passes u) :
    (t.given rest final).Passes (u.given rest final) := by
  induction h with
  | refl => exact .refl _
  | @skip t u c n after hcut hread _ ih =>
    rw [ht] at hcut
    obtain ⟨hlong, hn⟩ := Construct.cut?_append (t.given rest final).finished hcut
    refine .skip hlong hread ?_
    rw [given_take hn]
    exact ih ht

/-- An answer that is no request for input stays the same when more input follows. -/
theorem scan_given {answer : Answer} (ht : t.finished = false) (h : t.scan = (answer, u))
    (hne : answer ≠ .ok none) : (t.given rest final).scan = (answer, u.given rest final) := by
  obtain ⟨v, hpasses, hstops⟩ := scan_cases h
  have hv : v.finished = false := hpasses.kept.finished.trans ht
  rw [(hpasses.given ht).scan_eq]
  cases hstops with
  | waits => exact absurd rfl hne
  | short _ hwait =>
    rw [wait, hv] at hwait
    cases hwait
  | token hcut hread => rw [scan_given_of_cut hv hcut, hread]
  | fault hcut hread | emptyElement hcut hread =>
    rw [scan_given_of_cut hv hcut, hread]
    rfl

/-- Where input was requested, scanning goes on from the same construct when it arrives. -/
theorem scan_given_none (ht : t.finished = false) (h : t.scan = (.ok none, u)) :
    (t.given rest final).scan = (u.given rest final).scan :=
  ((scan_none h).1.given ht).scan_eq

theorem awaitsMark_given (ht : t.finished = false) (h : t.awaitsMark = false) :
    (t.given rest final).awaitsMark = false := by
  simp only [awaitsMark, ht, Bool.not_false, Bool.and_true, Bool.and_eq_false_iff] at h ⊢
  rcases h with h | h
  · exact .inl (.inl h)
  · exact .inr (Bytes.isProperPrefix_append h)

theorem start_given (ht : t.finished = false) (h : t.awaitsMark = false) :
    (t.given rest final).start = t.start.given rest final := by
  unfold start
  by_cases hs : t.started = true
  · rw [if_pos hs, if_pos (show (t.given rest final).started = true from hs)]
  · have hmark : t.unread.isProperPrefix byteOrderMark = false := by
      simpa [awaitsMark, hs, ht] using h
    rw [if_neg hs, if_neg (show ¬ (t.given rest final).started = true from hs)]
    simp only [given, Bytes.isPrefixOf_append _ hmark]
    split_ifs with hb
    · rw [List.drop_append_of_le_length (List.isPrefixOf_iff_prefix.1 hb).length_le]
    · rfl

/-- What the tokenizer answers other than that it needs input, it answers whatever follows. -/
theorem next_given (ht : t.finished = false) (h : t.next.1 ≠ .ok none) :
    (t.given rest final).next = (t.next.1, t.next.2.given rest final) := by
  rcases hn : t.next with ⟨answer, u⟩
  rw [hn] at h
  cases next_gives hn with
  | closed hf => rw [next, if_pos (show (t.given rest final).failed = true from hf)]
  | ended hf ho => simp [next, given, hf, ho]
  | awaiting => exact absurd rfl h
  | scanned hf ho ha hscan =>
    rw [next_scan (t := t.given rest final) hf ho (awaitsMark_given ht ha), start_given ht ha,
      scan_given (by rw [start_finished, ht]) hscan h]

/-- Where the tokenizer needs input, it goes on from the same place when it gets some. -/
theorem next_given_none (ht : t.finished = false) (h : t.next = (.ok none, u)) :
    (t.given rest final).next = (u.given rest final).next := by
  rcases next_none_cases h with ⟨-, rfl⟩ | ⟨hf, ho, ha, hscan, hfu, hou, hs⟩
  · rfl
  · rw [next_scan (t := t.given rest final) hf ho (awaitsMark_given ht ha),
      next_scan (t := u.given rest final) hfu hou (awaitsMark_of_started hs),
      start_of_started (t := u.given rest final) hs, start_given ht ha]
    exact scan_given_none (by rw [start_finished, ht]) hscan

theorem outlook_congr (h : t.next = u.next) : t.outlook = u.outlook := by
  rcases hu : u.next with ⟨answer, v⟩
  rw [hu] at h
  match answer with
  | .ok (some token) => rw [outlook_token h, outlook_token hu]
  | .ok none => rw [outlook_none h, outlook_none hu]
  | .error e => rw [outlook_error h, outlook_error hu]

theorem outlook_given_token (ht : t.finished = false) (h : t.next = (.ok (some token), u)) :
    (t.given rest final).outlook = (u.given rest final).outlook.cons token := by
  apply outlook_token
  rw [next_given ht (by rw [h]; simp), h]

theorem outlook_given_none (ht : t.finished = false) (h : t.next = (.ok none, u)) :
    (t.given rest final).outlook = (u.given rest final).outlook :=
  outlook_congr (next_given_none ht h)

theorem outlook_given_error (ht : t.finished = false) (h : t.next = (.error e, u)) :
    (t.given rest final).outlook = { error := some e } := by
  apply outlook_error
  rw [next_given ht (by rw [h]; simp), h]

theorem given_of_finished (h : t.finished = true) : t.given [] final = t := by
  rw [given, List.append_nil, h, Bool.true_or, ← h]

/-- Asking takes the answer off the outlook, before the end of the input as well as after it. -/
theorem outlook_next (t : Tokenizer) (final : Bool) (hr : t.finished = true → rest = []) :
    (t.given rest final).outlook =
      .ofAnswers [t.next.1] ++ (t.next.2.given rest final).outlook := by
  have hu := t.next_finished
  rcases h : t.next with ⟨answer, u⟩
  rw [h] at hu
  cases ht : t.finished with
  | false =>
    match answer with
    | .ok (some token) => rw [outlook_given_token ht h]; rfl
    | .ok none => rw [outlook_given_none ht h]; rfl
    | .error e =>
      rw [outlook_given_error ht h, outlook_failed (t := u.given rest final)
        (show u.failed = true from next_error h)]
      rfl
  | true =>
    rw [hr ht, given_of_finished ht, given_of_finished (hu.trans ht)]
    match answer with
    | .ok (some token) => rw [outlook_token h]; rfl
    | .ok none => rw [outlook_none h, outlook_none (next_none_again h)]; rfl
    | .error e => rw [outlook_error h, outlook_failed (next_error h)]; rfl

theorem drain_finished (t : Tokenizer) : t.drain.2.finished = t.finished := by
  fun_induction drain t with
  | case1 t token u h _ ih => rw [ih, ← t.next_finished, h]
  | case2 t u h => rw [← t.next_finished, h]
  | case3 t e u h => rw [← t.next_finished, h]

/-- Asking for all tokens takes their answers off the outlook. -/
theorem outlook_drain (t : Tokenizer) (hr : t.finished = true → rest = []) :
    (t.given rest final).outlook =
      .ofAnswers t.drain.1 ++ (t.drain.2.given rest final).outlook := by
  fun_induction drain t with
  | case1 t token u h _ ih =>
    have hnext := t.outlook_next final hr
    have hu := t.next_finished
    rw [h] at hnext hu
    rw [hnext, ih (fun hf => hr (hu.symm.trans hf)), ← Transcript.append_assoc,
      ← Transcript.ofAnswers_append]
    rfl
  | case2 t u h =>
    have hnext := t.outlook_next final hr
    rwa [h] at hnext
  | case3 t e u h =>
    have hnext := t.outlook_next final hr
    rwa [h] at hnext

end Tokenizer

end XmlSieve
