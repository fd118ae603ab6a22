import Mathlib.Logic.Relation
import XmlSieve.Proofs.Token.Boundaries
import XmlSieve.Proofs.Token.Completion

/-!
# The lines of errors

A `Document.Position` stands between two constructs of a document, and `Position.advance` reads the
one that follows.  The positions that can be reached from the start make one path, which breaks off
at one construct at most (`Refused.unique`).  After any calls a tokenizer stands at a position of
this path and has counted the line feeds before it (`Tokenizer.Along`).  The line of an error is
that of the position where the path breaks off (`Tokenizer.run_lines`).
-/

namespace XmlSieve

/-! ### What no construct is refused for -/

/-- A computation in two parts fails for no reason for which neither part does. -/
theorem bind_ne_error {ε α β : Type} {x : Except ε α} {f : α → Except ε β} {e : ε}
    (hx : x ≠ .error e) (hf : ∀ a, f a ≠ .error e) : x >>= f ≠ .error e := by
  cases x with
  | error e' => exact fun h => hx (by cases h; rfl)
  | ok a => exact hf a

theorem ok_ne_error {ε α : Type} (a : α) (e : ε) : (.ok a : Except ε α) ≠ .error e := by simp

theorem error_ne_error {ε α : Type} {e e' : ε} (h : e' ≠ e) :
    (.error e' : Except ε α) ≠ .error e := by simpa using h

theorem Reference.resolve_ne_noElement (name : Bytes) : resolve name ≠ .error .noElement := by
  unfold resolve
  repeat' split
  all_goals simp

theorem Reference.expand_ne_noElement (bs : Bytes) : expand bs ≠ .error .noElement := by
  fun_induction expand bs with
  | case1 | case2 => simp
  | case3 bs plain opened hmark name rest hclose hlt ih =>
    refine bind_ne_error (resolve_ne_noElement name) fun c => ?_
    exact bind_ne_error ih fun tail => ok_ne_error _ _

theorem RawAttribute.decodeValue_ne_noElement (raw : Bytes) :
    decodeValue raw ≠ .error .noElement := by
  refine bind_ne_error (Reference.expand_ne_noElement _) fun expanded => ?_
  cases expanded.decode? with
  | none => exact error_ne_error (by simp)
  | some text => exact ok_ne_error _ _

theorem RawAttribute.addTo_ne_noElement (seen : Attributes) (raw : RawAttribute) :
    raw.addTo seen ≠ .error .noElement := by
  unfold addTo
  cases raw.name.decode? with
  | none => exact error_ne_error (by simp)
  | some name =>
    dsimp only
    split
    · exact error_ne_error (by simp)
    · exact bind_ne_error (decodeValue_ne_noElement raw.value) fun value => ok_ne_error _ _

theorem Attributes.parseAfter_ne_noElement (seen : Attributes) (bs : Bytes) :
    parseAfter seen bs ≠ .error .noElement := by
  fun_induction parseAfter seen bs with
  | case1 | case2 | case3 => simp
  | case4 seen bs _ _ raw rest _ _ ih =>
    exact bind_ne_error (raw.addTo_ne_noElement seen) ih

namespace Place

theorem decodeText_ne_noElement (bs : Bytes) :
    decodeText bs ≠ .error (.malformed .noElement) := by
  unfold decodeText
  split <;> simp

theorem decodeCharacters_ne_noElement (raw : Bytes) :
    decodeCharacters raw ≠ .error (.malformed .noElement) := by
  unfold decodeCharacters
  split
  · exact decodeText_ne_noElement _
  · next cause hcause =>
    intro h
    cases h
    exact Reference.expand_ne_noElement raw hcause

theorem readStartTag_ne_noElement (body : Bytes) (p : Place) :
    p.readStartTag body ≠ .error (.malformed .noElement) := by
  unfold readStartTag
  dsimp only
  split
  · simp
  · split
    · simp
    · refine bind_ne_error (decodeText_ne_noElement _) fun name => ?_
      split
      · next cause hcause =>
        intro h
        cases h
        exact Attributes.parseAfter_ne_noElement _ _ hcause
      · split <;> simp

theorem readEndTag_ne_noElement (body : Bytes) (p : Place) :
    p.readEndTag body ≠ .error (.malformed .noElement) := by
  unfold readEndTag
  split
  · simp
  · refine bind_ne_error (decodeText_ne_noElement _) fun name => ?_
    cases p with
    | prolog | epilog => simp
    | content innermost outer =>
      dsimp only
      split <;> simp

/-- Only the end of the input tells that there is no element. -/
theorem read_ne_noElement (p : Place) (c : Construct) :
    p.read c ≠ .error (.malformed .noElement) := by
  cases c with
  | aside => exact ok_ne_error _ _
  | declaration =>
    cases p with
    | prolog => exact ok_ne_error _ _
    | content | epilog => exact error_ne_error (by simp)
  | literal bs =>
    cases p with
    | prolog | epilog => exact error_ne_error (by simp)
    | content innermost outer =>
      exact bind_ne_error (decodeText_ne_noElement bs) fun text => ok_ne_error _ _
  | endTag body => exact readEndTag_ne_noElement body p
  | startTag body => exact readStartTag_ne_noElement body p
  | characters raw =>
    cases p with
    | prolog | epilog =>
      simp only [read, readCharacters]
      split <;> simp
    | content innermost outer =>
      exact bind_ne_error (decodeCharacters_ne_noElement raw) fun text => ok_ne_error _ _

end Place

/-! ### Positions in a document -/

namespace Document

/-- A position between two constructs of a document: the bytes before it, the part of the document
it is in, and the bytes after it. -/
structure Position where
  before : Bytes
  place : Place
  after : Bytes

namespace Position

/-- The position at the start of a document, after the byte order mark if there is one. -/
def first (document : Bytes) : Position :=
  if Tokenizer.byteOrderMark.isPrefixOf document then
    ⟨Tokenizer.byteOrderMark, .prolog, document.drop Tokenizer.byteOrderMark.length⟩
  else ⟨[], .prolog, document⟩

/-- The position after `n` bytes more, where the place is `place`. -/
def past (x : Position) (n : Nat) (place : Place) : Position :=
  ⟨x.before ++ x.after.take n, place, x.after.drop n⟩

/-- Reads the construct that begins at a position: what it is refused for, or the position after it.
There is none at the end of a document that is complete. -/
def advance (x : Position) : Except Fault (Option Position) :=
  match Construct.cut? true x.after with
  | some (construct, n) => (x.place.read construct).map fun r => some (x.past n r.after)
  | none =>
    if !x.after.isEmpty then .error (.malformed .unclosedToken)
    else if x.place = .epilog then .ok none
    else .error (.malformed .noElement)

/-- The line a position is in, from one: as many line feeds precede it. -/
def line (x : Position) : Nat := 1 + Bytes.lineFeeds x.before

variable {x : Position} {c : Construct} {n : Nat}

theorem line_past (x : Position) (n : Nat) (place : Place) :
    (x.past n place).line = x.line + Bytes.lineFeeds (x.after.take n) := by
  simp only [line, past, Bytes.lineFeeds, List.count_append, Nat.add_assoc]

theorem advance_of_cut (h : Construct.cut? true x.after = some (c, n)) :
    x.advance = (x.place.read c).map fun r => some (x.past n r.after) := by
  rw [advance, h]

theorem advance_of_none (h : Construct.cut? true x.after = none) :
    x.advance =
      if !x.after.isEmpty then .error (.malformed .unclosedToken)
      else if x.place = .epilog then .ok none
      else .error (.malformed .noElement) := by
  rw [advance, h]

/-- No element is found where the document has ended. -/
theorem after_of_noElement (h : x.advance = .error (.malformed .noElement)) : x.after = [] := by
  unfold advance at h
  split at h
  · next c n hcut =>
    cases hread : x.place.read c with
    | error fault =>
      rw [hread] at h
      cases h
      exact absurd hread (x.place.read_ne_noElement c)
    | ok r =>
      rw [hread] at h
      cases h
  · split at h
    · cases h
    · next hempty => simpa using hempty

end Position

variable {document : Bytes} {x y : Position} {fault other : Fault}

/-- The positions that the constructs of a document lead to, one after the other. -/
def Reached (document : Bytes) : Position → Prop :=
  Relation.ReflTransGen (fun x y => x.advance = .ok (some y)) (.first document)

/-- The construct of a document at a position that the ones before it lead to is refused. -/
def Refused (document : Bytes) (x : Position) (fault : Fault) : Prop :=
  Reached document x ∧ x.advance = .error fault

theorem Reached.past {c : Construct} {n : Nat} {r : Reading} (hx : Reached document x)
    (hcut : Construct.cut? true x.after = some (c, n)) (hread : x.place.read c = .ok r) :
    Reached document (x.past n r.after) := by
  refine hx.tail ?_
  rw [Position.advance_of_cut hcut, hread]
  rfl

/-- A position divides the document. -/
theorem Reached.split (h : Reached document x) : document = x.before ++ x.after := by
  induction h with
  | refl =>
    unfold Position.first
    split
    · next hmark => exact (List.prefix_iff_eq_append.1 (List.isPrefixOf_iff_prefix.1 hmark)).symm
    · rfl
  | @tail x y _ hstep ih =>
    unfold Position.advance at hstep
    split at hstep
    · next c n hcut =>
      cases hread : x.place.read c with
      | error fault =>
        rw [hread] at hstep
        cases hstep
      | ok r =>
        rw [hread] at hstep
        cases hstep
        rw [ih, Position.past, List.append_assoc, List.take_append_drop]
    · split at hstep
      · cases hstep
      · split at hstep <;> cases hstep

/-- At most one construct of a document is refused. -/
theorem Refused.unique (hx : Refused document x fault) (hy : Refused document y other) :
    x = y := by
  have hright : Relator.RightUnique fun x y : Position => x.advance = .ok (some y) := by
    intro a b c hb hc
    rw [hb] at hc
    cases hc
    rfl
  rcases Relation.ReflTransGen.total_of_right_unique hright hx.1 hy.1 with hxy | hyx
  · rcases hxy.cases_head with rfl | ⟨z, hz, -⟩
    · rfl
    · rw [hx.2] at hz
      cases hz
  · rcases hyx.cases_head with rfl | ⟨z, hz, -⟩
    · rfl
    · rw [hy.2] at hz
      cases hz

end Document

/-! ### Tokenizers in a document -/

namespace Tokenizer

open Document

variable {t u : Tokenizer} {document rest : Bytes} {x : Position} {call : Call} {calls : List Call}
  {answers : List Answer} {e : StreamError}

/-- The tokenizer stands at a position of a document of which `rest` has not been fed. -/
structure StandsAt (t : Tokenizer) (rest : Bytes) (x : Position) : Prop where
  after : x.after = t.unread ++ rest
  place : x.place = t.place
  line : x.line = t.line

/-- The tokenizer is on its way through a document of which `rest` has not been fed: it has taken
nothing yet, or it stands at a position between two constructs. -/
inductive Along (document rest : Bytes) (t : Tokenizer) : Prop where
  | fresh (started : t.started = false) (fed : document = t.unread ++ rest)
      (place : t.place = .prolog) (line : t.line = 1)
  | reading (x : Position) (started : t.started = true) (reached : Reached document x)
      (stands : t.StandsAt rest x)

/-- An error that tells of a construct of the document tells its line. -/
def Locates (document : Bytes) (e : StreamError) : Prop :=
  ∃ x fault, Refused document x fault ∧ e = fault.inLine x.line

/-- It does not matter how much of the bytes that were not taken has been fed. -/
theorem Along.congr {rest' : Bytes} (h : Along document rest t) (hstarted : u.started = t.started)
    (hbytes : t.unread ++ rest = u.unread ++ rest') (hplace : t.place = u.place)
    (hline : t.line = u.line) : Along document rest' u := by
  cases h with
  | fresh started fed place line =>
    exact .fresh (hstarted.trans started) (fed.trans hbytes) (hplace.symm.trans place)
      (hline.symm.trans line)
  | reading x started reached stands =>
    exact .reading x (hstarted.trans started) reached
      ⟨stands.after.trans hbytes, stands.place.trans hplace, stands.line.trans hline⟩

/-- What was taken and what is unread make up what was fed, and the line is that of the first unread
byte. -/
theorem Along.line_eq (h : Along document rest t) :
    ∃ taken, document = taken ++ (t.unread ++ rest) ∧ t.line = 1 + Bytes.lineFeeds taken := by
  cases h with
  | fresh started fed place line => exact ⟨[], fed, line⟩
  | reading x started reached stands =>
    exact ⟨x.before, stands.after ▸ reached.split, stands.line.symm⟩

/-- A construct that was cut is the one at the head of the whole document. -/
theorem cut?_document {c : Construct} {n : Nat} (hr : t.finished = true → rest = [])
    (h : Construct.cut? t.finished t.unread = some (c, n)) :
    Construct.cut? true (t.unread ++ rest) = some (c, n) ∧ n ≤ t.unread.length := by
  cases ht : t.finished with
  | false =>
    rw [ht] at h
    exact Construct.cut?_append true h
  | true =>
    rw [ht] at h
    rw [hr ht, List.append_nil]
    exact ⟨h, Construct.cut?_le h⟩

theorem StandsAt.past {n : Nat} {place : Place} (h : t.StandsAt rest x)
    (hn : n ≤ t.unread.length) : (t.take n place).StandsAt rest (x.past n place) := by
  refine ⟨?_, rfl, ?_⟩
  · rw [Position.past, h.after, List.drop_append_of_le_length hn]
    rfl
  · rw [Position.line_past, h.line, h.after, List.take_append_of_le_length hn]
    rfl

/-- Where the input ended in or before a construct, the error is that of the position. -/
theorem advance_of_wait (hr : t.finished = true → rest = [])
    (hcut : Construct.cut? t.finished t.unread = none) (hat : t.StandsAt rest x)
    (he : t.wait.1 = .error e) : ∃ fault, x.advance = .error fault ∧ e = fault.inLine x.line := by
  cases ht : t.finished with
  | false =>
    rw [wait, ht] at he
    cases he
  | true =>
    have hafter : x.after = t.unread := by rw [hat.after, hr ht, List.append_nil]
    rw [Position.advance_of_none (by rw [hafter, ← hcut, ht]), hafter, hat.place, hat.line]
    rw [wait, ht, if_neg (by decide)] at he
    split_ifs at he ⊢ <;> cases he <;> exact ⟨_, rfl, rfl⟩

/-- Passing over constructs leads from one position to a later one. -/
theorem Passes.along (h : t.Passes u) (hr : t.finished = true → rest = [])
    (hx : Reached document x) (hat : t.StandsAt rest x) :
    ∃ y, Reached document y ∧ u.StandsAt rest y := by
  induction h generalizing x with
  | refl => exact ⟨x, hx, hat⟩
  | skip hcut hread _ ih =>
    obtain ⟨hlong, hn⟩ := cut?_document hr hcut
    exact ih hr (hx.past (hat.after ▸ hlong) (hat.place ▸ hread)) (hat.past hn)

/-- Scanning leads from one position to a later one.  Where it ends with an error, that is the
position of the construct refused. -/
theorem scan_along {answer : Answer} (hr : t.finished = true → rest = [])
    (hx : Reached document x) (hat : t.StandsAt rest x) (h : t.scan = (answer, u)) :
    ∃ y, Reached document y ∧ u.StandsAt rest y ∧
      ∀ e, answer = .error e → ∃ fault, y.advance = .error fault ∧ e = fault.inLine y.line := by
  obtain ⟨v, hpasses, hstops⟩ := scan_cases h
  have hv : v.finished = true → rest = [] := fun hfinished =>
    hr (hpasses.kept.finished.symm.trans hfinished)
  obtain ⟨y, hy, hstands⟩ := hpasses.along hr hx hat
  cases hstops with
  | waits => exact ⟨y, hy, hstands, by simp⟩
  | short hcut hwait =>
    refine ⟨y, hy, ⟨hstands.after, hstands.place, hstands.line⟩, fun e he => ?_⟩
    exact advance_of_wait hv hcut hstands (by rw [hwait, ← he]; rfl)
  | @fault c n fault hcut hread =>
    obtain ⟨hlong, -⟩ := cut?_document hv hcut
    refine ⟨y, hy, ⟨hstands.after, hstands.place, hstands.line⟩, fun e he => ⟨fault, ?_, ?_⟩⟩
    · rw [Position.advance_of_cut (by rw [hstands.after, hlong]), hstands.place, hread]
      rfl
    · cases he
      rw [hstands.line]
  | token hcut hread =>
    obtain ⟨hlong, hn⟩ := cut?_document hv hcut
    exact ⟨_, hy.past (hstands.after ▸ hlong) (hstands.place ▸ hread), hstands.past hn, by simp⟩
  | @emptyElement c n name attributes after hcut hread =>
    obtain ⟨hlong, hn⟩ := cut?_document hv hcut
    have hpast : (v.take n after).StandsAt rest (y.past n after) := hstands.past hn
    exact ⟨y.past n after, hy.past (hstands.after ▸ hlong) (hstands.place ▸ hread),
      ⟨hpast.after, hpast.place, hpast.line⟩, by simp⟩

/-- A tokenizer that starts stands at the first position. -/
theorem Along.start (hr : t.finished = true → rest = []) (h : Along document rest t)
    (hmark : t.awaitsMark = false) :
    ∃ x, Reached document x ∧ t.start.StandsAt rest x := by
  cases h with
  | reading x started reached stands =>
    rw [start_of_started started]
    exact ⟨x, reached, stands⟩
  | fresh started fed place line =>
    refine ⟨.first document, .refl, ?_⟩
    have hsame : byteOrderMark.isPrefixOf document = byteOrderMark.isPrefixOf t.unread := by
      rw [fed]
      cases ht : t.finished with
      | true => rw [hr ht, List.append_nil]
      | false => exact Bytes.isPrefixOf_append rest (by simpa [awaitsMark, started, ht] using hmark)
    unfold Tokenizer.start Position.first
    rw [hsame, started, if_neg Bool.false_ne_true]
    split_ifs with hbegins
    · have hle := (List.isPrefixOf_iff_prefix.1 hbegins).length_le
      refine ⟨?_, place.symm, ?_⟩
      · rw [fed, List.drop_append_of_le_length hle]
      · simp [Position.line, line, byteOrderMark, Bytes.lineFeeds]
        decide
    · exact ⟨fed, place.symm, line.symm⟩

/-- Asking for a token keeps the tokenizer on its way, and an error that is not that it has failed
before is located. -/
theorem next_along (hr : t.finished = true → rest = []) (h : Along document rest t) :
    Along document rest t.next.2 ∧
      ∀ e, t.next.1 = .error e → e = .closed ∨ Locates document e := by
  rcases hn : t.next with ⟨answer, u⟩
  cases next_gives hn with
  | closed => exact ⟨h, fun e he => .inl (by cases he; rfl)⟩
  | ended => exact ⟨h.congr rfl rfl rfl rfl, by simp⟩
  | awaiting => exact ⟨h, by simp⟩
  | scanned _ _ hmark hscan =>
    obtain ⟨x, hx, hat⟩ := h.start hr hmark
    obtain ⟨y, hy, hat, herror⟩ := scan_along (by rwa [start_finished]) hx hat hscan
    refine ⟨.reading y ((scan_kept hscan).1.trans t.start_started) hy hat, fun e he => .inr ?_⟩
    obtain ⟨fault, hfault, rfl⟩ := herror e he
    exact ⟨y, fault, ⟨hy, hfault⟩, rfl⟩

theorem drain_along (hr : t.finished = true → rest = []) (h : Along document rest t) :
    Along document rest t.drain.2 ∧
      ∀ e, .error e ∈ t.drain.1 → e = .closed ∨ Locates document e := by
  have hnext := next_along hr h
  have hfinished := t.next_finished
  fun_induction drain t with
  | case1 t token u ht _ ih =>
    rw [ht] at hnext hfinished
    have hru : u.finished = true → rest = [] := fun hu => hr (hfinished.symm.trans hu)
    obtain ⟨halong, herror⟩ := ih hru hnext.1 (next_along hru hnext.1) u.next_finished
    exact ⟨halong, fun e he => herror e (by simpa using he)⟩
  | case2 t u ht =>
    rw [ht] at hnext
    exact ⟨hnext.1, by simp⟩
  | case3 t e u ht =>
    rw [ht] at hnext
    refine ⟨hnext.1, fun e' he => hnext.2 e' ?_⟩
    rw [List.mem_singleton.1 he]

/-- A call that is answered keeps the tokenizer on its way. -/
theorem perform_along (hr : t.finished = true ∨ call = .finish → rest = [])
    (h : Along document (Call.fed [call] ++ rest) t) (hu : t.perform call = .ok (answers, u)) :
    Along document rest u ∧ ∀ e, .error e ∈ answers → e = .closed ∨ Locates document e := by
  cases call with
  | feed chunk =>
    have ht : t.finished = false := by
      by_contra ht
      rw [perform, feed, if_pos (by simpa using ht)] at hu
      cases hu
    rw [perform, feed, if_neg (by simp [ht])] at hu
    cases hu
    exact ⟨h.congr rfl (by simp [Call.fed]) rfl rfl, by simp⟩
  | finish =>
    cases hu
    exact ⟨h.congr rfl rfl rfl rfl, by simp⟩
  | next =>
    cases hu
    obtain ⟨halong, herror⟩ := next_along (fun ht => hr (.inl ht)) h
    refine ⟨halong, fun e he => herror e (List.mem_singleton.1 he).symm⟩
  | drain =>
    have hdrain := drain_along (fun ht => hr (.inl ht)) h
    rwa [show t.drain = (answers, u) from Except.ok.inj hu] at hdrain

/-- Once the end of the input was signalled, calls that are answered feed nothing. -/
theorem perform_finished (h : t.finished = true ∨ call = .finish)
    (hu : t.perform call = .ok (answers, u)) : u.finished = true ∧ Call.fed [call] = [] := by
  cases call with
  | feed chunk =>
    rw [perform, feed, if_pos (h.resolve_right (by simp))] at hu
    cases hu
  | finish =>
    cases hu
    exact ⟨rfl, rfl⟩
  | next =>
    cases hu
    exact ⟨t.next_finished.trans (h.resolve_right (by simp)), rfl⟩
  | drain =>
    have hdrain := t.drain_finished
    rw [show t.drain = (answers, u) from Except.ok.inj hu] at hdrain
    exact ⟨hdrain.trans (h.resolve_right (by simp)), rfl⟩

theorem fed_of_run (ht : t.finished = true) (hu : t.run calls = .ok (answers, u)) :
    Call.fed calls = [] := by
  induction calls generalizing t answers with
  | nil => rfl
  | cons call calls ih =>
    obtain ⟨first, v, more, hv, hmore, rfl⟩ := exists_of_run_cons hu
    obtain ⟨hfinished, hfed⟩ := perform_finished (.inl ht) hv
    rw [fed_cons, hfed, ih hfinished hmore, List.append_nil]

/-- Calls that are answered keep the tokenizer on its way to the end of what they feed. -/
theorem run_along (h : Along document (Call.fed calls) t) (hu : t.run calls = .ok (answers, u)) :
    Along document [] u ∧ ∀ e, .error e ∈ answers → e = .closed ∨ Locates document e := by
  induction calls generalizing t answers with
  | nil =>
    cases hu
    exact ⟨h, by simp⟩
  | cons call calls ih =>
    obtain ⟨first, v, more, hv, hmore, rfl⟩ := exists_of_run_cons hu
    rw [fed_cons] at h
    have hlast : t.finished = true ∨ call = .finish → Call.fed calls = [] := fun hend =>
      fed_of_run (perform_finished hend hv).1 hmore
    obtain ⟨halong, hfirst⟩ := perform_along hlast h hv
    obtain ⟨halong, hrest⟩ := ih halong hmore
    exact ⟨halong, fun e he => (List.mem_append.1 he).elim (hfirst e) (hrest e)⟩

/-- All calls up to the first that feeds too late are answered.  After them the line is that of the
first byte that was not taken.  An error among the answers, but for those that repeat it, is that of
the one construct of the document that is refused, and its line is the line in which this construct
begins: as many line feeds as precede it, and one.  Where no element was found, the whole document
precedes it. -/
theorem run_lines (calls : List Call) :
    ∃ made answers t, run {} made = .ok (answers, t) ∧
      (made = calls ∨ ∃ chunk rest, calls = made ++ .feed chunk :: rest ∧ .finish ∈ made ∧
        run {} calls = .error .feedAfterFinish) ∧
      (∃ taken, Call.fed made = taken ++ t.unread ∧ t.line = 1 + Bytes.lineFeeds taken) ∧
      ∀ e, .error e ∈ answers → e = .closed ∨
        ∃ x fault, Refused (Call.fed made) x fault ∧
          (∀ y other, Refused (Call.fed made) y other → y = x) ∧
          e = fault.inLine (1 + Bytes.lineFeeds x.before) ∧
          Call.fed made = x.before ++ x.after ∧
          (fault = .malformed .noElement → x.before = Call.fed made) := by
  obtain ⟨made, answers, t, hrun, hmade, -⟩ := exists_made calls
  have hfresh : Along (Call.fed made) (Call.fed made) {} := .fresh rfl rfl rfl rfl
  obtain ⟨halong, herrors⟩ := run_along hfresh hrun
  refine ⟨made, answers, t, hrun, hmade, by simpa using halong.line_eq, fun e he => ?_⟩
  refine (herrors e he).imp_right ?_
  rintro ⟨x, fault, hx, rfl⟩
  refine ⟨x, fault, hx, fun y other hy => hy.unique hx, rfl, hx.1.split, ?_⟩
  rintro rfl
  rw [hx.1.split, Position.after_of_noElement hx.2, List.append_nil]

end Tokenizer

end XmlSieve
