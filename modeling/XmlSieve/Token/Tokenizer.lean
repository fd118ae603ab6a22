import XmlSieve.Token.Place

/-!
# The tokenizer

A `Tokenizer` takes input in chunks cut anywhere (`feed`, then `finish`) and gives the tokens of the
document one by one (`next`).  A construct that is not complete yet leaves it unchanged, waiting for
more input.  The first fault is given once; every later call answers that the stream is closed.
`next_token_lt` says that giving a token uses up input, so that asking for tokens ends.
-/

namespace XmlSieve

structure Tokenizer where
  /-- The bytes fed but not taken. -/
  unread : Bytes := []
  /-- The line in which the unread bytes begin, from one. -/
  line : Nat := 1
  /-- The part of the document reached. -/
  place : Place := .prolog
  /-- The element without content whose end has not been given. -/
  owed : Option String := none
  /-- Whether the start of the input has been looked at for a byte order mark. -/
  started : Bool := false
  /-- Whether the end of the input was signalled. -/
  finished : Bool := false
  /-- Whether a fault was given. -/
  failed : Bool := false
  deriving Inhabited

namespace Tokenizer

/-! ### Input -/

/-- Takes in `chunk`, unless the end of the input was signalled. -/
def feed (t : Tokenizer) (chunk : Bytes) : Except Misuse Tokenizer :=
  if t.finished then .error .feedAfterFinish else .ok { t with unread := t.unread ++ chunk }

/-- Signals the end of the input. -/
def finish (t : Tokenizer) : Tokenizer := { t with finished := true }

/-- How many elements are open. -/
def depth (t : Tokenizer) : Nat := t.place.depth

/-- How many bytes are unread. -/
def buffered (t : Tokenizer) : Nat := t.unread.length

/-- Whether the input has ended and all of it was given. -/
def isDone (t : Tokenizer) : Bool := t.finished && t.owed.isNone && t.unread.isEmpty

/-! ### The byte order mark -/

/-- The mark with which a document may begin. -/
def byteOrderMark : Bytes := [0xEF, 0xBB, 0xBF]

/-- Whether more input could still make the first bytes a byte order mark. -/
def awaitsMark (t : Tokenizer) : Bool :=
  !t.started && !t.finished && t.unread.isProperPrefix byteOrderMark

/-- Passes over a byte order mark at the start of the input. -/
def start (t : Tokenizer) : Tokenizer :=
  if t.started then t
  else if byteOrderMark.isPrefixOf t.unread then
    { t with unread := t.unread.drop byteOrderMark.length, started := true }
  else { t with started := true }

/-! ### Tokens -/

/-- An answer of the tokenizer: a token, `none` where more input is needed or all was given, or the
error that ended it. -/
abbrev Answer := Except StreamError (Option Token)

/-- Ends with the error `e`. -/
def fail (t : Tokenizer) (e : StreamError) : Answer × Tokenizer :=
  (.error e, { t with failed := true })

/-- Takes `n` bytes, after which the place is `place`. -/
def take (t : Tokenizer) (n : Nat) (place : Place) : Tokenizer :=
  { t with unread := t.unread.drop n, line := t.line + Bytes.lineFeeds (t.unread.take n), place }

/-- The answer where no construct is complete. -/
def wait (t : Tokenizer) : Answer × Tokenizer :=
  if !t.finished then (.ok none, t)
  else if !t.unread.isEmpty then t.fail (.malformed .unclosedToken t.line)
  else if t.place = .epilog then (.ok none, t)
  else t.fail (.malformed .noElement t.line)

/-- Passes over constructs up to the first that is a token. -/
def scan (t : Tokenizer) : Answer × Tokenizer :=
  match h : Construct.cut? t.finished t.unread with
  | none => t.wait
  | some (construct, n) =>
    match t.place.read construct with
    | .error fault => t.fail (fault.inLine t.line)
    | .ok (.nothing after) =>
      have : (t.take n after).unread.length < t.unread.length := Construct.length_drop_cut? h
      (t.take n after).scan
    | .ok (.token token after) => (.ok (some token), t.take n after)
    | .ok (.emptyElement name attributes after) =>
      (.ok (some (.startTag name attributes)), { t.take n after with owed := some name })
  termination_by t.unread.length

/-- Gives the next token. -/
def next (t : Tokenizer) : Answer × Tokenizer :=
  if t.failed then (.error .closed, t)
  else
    match t.owed with
    | some name => (.ok (some (.endTag name)), { t with owed := none })
    | none => if t.awaitsMark then (.ok none, t) else t.start.scan

/-! ### Progress -/

/-- A bound on how many tokens are still to come from the unread bytes. -/
def remaining (t : Tokenizer) : Nat := 2 * t.unread.length + if t.owed.isSome then 1 else 0

theorem remaining_lt_of_unread {t u : Tokenizer} (h : u.unread.length < t.unread.length) :
    u.remaining < t.remaining := by
  unfold remaining
  split <;> split <;> omega

theorem unread_start_le (t : Tokenizer) : t.start.unread.length ≤ t.unread.length := by
  unfold start
  split
  · exact Nat.le_refl _
  · split
    · simp
    · exact Nat.le_refl _

theorem wait_not_token {t u : Tokenizer} {token : Token} : t.wait ≠ (.ok (some token), u) := by
  unfold wait fail
  repeat' split
  all_goals simp

theorem unread_scan_lt {t u : Tokenizer} {token : Token} (h : t.scan = (.ok (some token), u)) :
    u.unread.length < t.unread.length := by
  fun_induction scan t with
  | case1 => exact absurd h wait_not_token
  | case2 => simp [fail] at h
  | case3 t construct n hcut after _ hlt ih => exact Nat.lt_trans (ih h) hlt
  | case4 t construct n hcut token after _ =>
    simp only [Prod.mk.injEq] at h
    rw [← h.2]
    exact Construct.length_drop_cut? hcut
  | case5 t construct n hcut name attributes after _ =>
    simp only [Prod.mk.injEq] at h
    rw [← h.2]
    exact Construct.length_drop_cut? hcut

/-- A token is given only at the expense of what remains. -/
theorem next_token_lt {t u : Tokenizer} {token : Token} (h : t.next = (.ok (some token), u)) :
    u.remaining < t.remaining := by
  unfold next at h
  split at h
  · simp at h
  · split at h
    · next name howed =>
      simp only [Prod.mk.injEq] at h
      rw [← h.2]
      simp [remaining, howed]
    · split at h
      · simp at h
      · exact remaining_lt_of_unread (Nat.lt_of_lt_of_le (unread_scan_lt h) t.unread_start_le)

end Tokenizer

end XmlSieve
