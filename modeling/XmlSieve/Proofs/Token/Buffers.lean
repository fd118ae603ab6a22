import XmlSieve.Proofs.Token.Cutting
import XmlSieve.Proofs.Token.TagOffsets
import XmlSieve.Token.Tokenizer

/-!
# Buffers

A tokenizer can keep its input in a buffer, with the offset of the first byte that is not taken.
`Buffer` is such a tokenizer: it finds its way by offsets alone, into the buffer and into what it
cuts out of it, and it stops `outOfRange` at the first one that is wrong.

One step at a buffer reads the construct that is cut from its unread bytes, and takes it
(`step_eq`).  So no offset of a step is wrong, and a step that does not wait for input takes some of
the bytes and none beyond them (`step_advances`).
-/

namespace XmlSieve

namespace Place

/-! ### Sections and characters -/

/-- Reads a literal section whose content ends at offset `stop`. -/
def readLiteralAt (input : Bytes) (stop : Nat) (p : Place) : Except (Stop Fault) Reading :=
  match p with
  | content _ _ => do
    let bs ← input.slice Construct.literalOpen.length stop
    inRange (p.readLiteral bs)
  | prolog | epilog => .error (.refused (.malformed .misplaced))

/-- Reads the characters up to offset `stop`. -/
def readCharactersAt (input : Bytes) (stop : Nat) (p : Place) : Except (Stop Fault) Reading := do
  let raw ← input.slice 0 stop
  match p with
  | content _ _ =>
    let expanded ← (Reference.expandText raw).mapError (.map .malformed)
    let text ← inRange (decodeText expanded)
    return .token (.text text) p
  | prolog | epilog => inRange (p.readCharacters raw)

variable {input : Bytes} {stop : Nat}

theorem readLiteralAt_eq (p : Place) (hstart : Construct.literalOpen.length ≤ stop)
    (hstop : stop ≤ input.length) :
    readLiteralAt input stop p =
      inRange (p.readLiteral ((input.take stop).drop Construct.literalOpen.length)) := by
  cases p with
  | prolog | epilog => rfl
  | content innermost outer =>
    rw [readLiteralAt, Bytes.slice_of_le hstart hstop]
    rfl

theorem readCharactersAt_eq (p : Place) (hstop : stop ≤ input.length) :
    readCharactersAt input stop p = inRange (p.readCharacters (input.take stop)) := by
  rw [readCharactersAt, Bytes.slice_of_le (Nat.zero_le _) hstop, ok_bind, List.drop_zero]
  cases p with
  | prolog | epilog => rfl
  | content innermost outer =>
    dsimp only
    rw [Reference.expandText_eq, mapError_inRange, readCharacters, decodeCharacters]
    cases Reference.expand (input.take stop) with
    | error cause => rfl
    | ok expanded => rw [inRange_bind]; rfl

end Place

/-- A tokenizer that keeps its input in a buffer. -/
structure Buffer where
  /-- The input, of which the front part is taken. -/
  bytes : Bytes := []
  /-- The offset of the first byte that is not taken. -/
  pos : Nat := 0
  line : Nat := 1
  place : Place := .prolog
  owed : Option String := none
  started : Bool := false
  finished : Bool := false
  failed : Bool := false

namespace Buffer

variable {b c : Buffer} {n : Nat}

/-- The tokenizer that has the bytes from the offset on to read. -/
def tokenizer (b : Buffer) : Tokenizer where
  unread := b.bytes.drop b.pos
  line := b.line
  place := b.place
  owed := b.owed
  started := b.started
  finished := b.finished
  failed := b.failed

/-! ### Steps -/

/-- What a step at a buffer comes to. -/
inductive Step where
  | token (token : Token) (after : Buffer)
  | skipped (after : Buffer)
  | needsInput

/-- How many bytes are not taken. -/
def buffered (b : Buffer) : Except (Stop Fault) Nat :=
  if b.pos ≤ b.bytes.length then .ok (b.bytes.length - b.pos) else .error .outOfRange

/-- Takes `n` bytes. -/
def consume (b : Buffer) (n : Nat) : Except (Stop Fault) Buffer := do
  let taken ← b.bytes.slice b.pos (b.pos + n)
  return { b with line := b.line + Bytes.lineFeeds taken, pos := b.pos + n }

/-- What a construct that was taken comes to. -/
def reach (b : Buffer) : Reading → Step
  | .nothing after => .skipped { b with place := after }
  | .token token after => .token token { b with place := after }
  | .emptyElement name attributes after =>
    .token (.startTag name attributes) { b with place := after, owed := some name }

/-- Reads the construct that ends with the `width` bytes at the offset that was found for its end,
and takes it. -/
def settle (b : Buffer) (width : Nat) (read : Nat → Except (Stop Fault) Reading) :
    Option Nat → Except (Stop Fault) Step
  | none => return .needsInput
  | some stop => do
    let reading ← read stop
    let b ← b.consume (stop + width)
    return b.reach reading

/-- A step at markup. -/
def stepMarkup (b : Buffer) : Except (Stop Fault) Step := do
  let input ← b.bytes.sliceFrom b.pos
  let buffered ← b.buffered
  if buffered < 2 || input.isProperPrefix Construct.commentOpen ||
      input.isProperPrefix Construct.literalOpen then
    return .needsInput
  else if Construct.commentOpen.isPrefixOf input then
    b.settle 3 (fun _ => return .nothing b.place) (Bytes.indexOf? Construct.commentClose input)
  else if Construct.literalOpen.isPrefixOf input then
    b.settle 3 (fun stop => b.place.readLiteralAt input stop)
      (Bytes.indexOf? Construct.literalClose input)
  else if Construct.instructionOpen.isPrefixOf input then
    b.settle 2 (fun _ => return .nothing b.place) (Bytes.indexOf? Construct.instructionClose input)
  else if Construct.declarationOpen.isPrefixOf input then
    b.settle 1 (fun _ => inRange b.place.readDeclaration) input.declarationEnd?
  else if Construct.endTagOpen.isPrefixOf input then
    b.settle 1 (fun stop => b.place.readEndTagAt input stop) input.tagEnd?
  else
    b.settle 1 (fun stop => b.place.readStartTagAt input stop) input.tagEnd?

/-- A step at anything but markup. -/
def stepText (b : Buffer) : Except (Stop Fault) Step := do
  let input ← b.bytes.sliceFrom b.pos
  let read := fun stop => b.place.readCharactersAt input stop
  match input.tagStart? with
  | some stop => b.settle 0 read (some stop)
  | none =>
    if b.finished then
      let buffered ← b.buffered
      b.settle 0 read (some buffered)
    else return .needsInput

/-- Reads one construct. -/
def step (b : Buffer) : Except (Stop Fault) Step := do
  let first ← b.bytes.byteAt b.pos
  if first == Byte.openAngle then b.stepMarkup else b.stepText

/-- The buffer after its next `n` bytes. -/
def past (b : Buffer) (n : Nat) : Buffer :=
  { b with pos := b.pos + n, line := b.line + Bytes.lineFeeds ((b.bytes.drop b.pos).take n) }

/-- What a step comes to that takes a construct cut from the unread bytes. -/
def stepOver (b : Buffer) : Option (Construct × Nat) → Except Fault Step
  | none => .ok .needsInput
  | some (c, n) => (b.place.read c).map (b.past n).reach

theorem consume_eq (h : b.pos + n ≤ b.bytes.length) : b.consume n = .ok (b.past n) := by
  rw [consume, Bytes.slice_of_le (Nat.le_add_right _ _) h, ok_bind, List.drop_take,
    Nat.add_sub_cancel_left]
  rfl

/-- A construct is read and taken as it is cut, if that is so at the offset found for its end. -/
theorem settle_eq {width : Nat} {read : Nat → Except (Stop Fault) Reading} {stop? : Option Nat}
    (construct : Nat → Construct) (hpos : b.pos ≤ b.bytes.length)
    (h : ∀ stop, stop? = some stop → stop + width ≤ (b.bytes.drop b.pos).length ∧
      read stop = inRange (b.place.read (construct stop))) :
    b.settle width read stop? =
      inRange (b.stepOver (stop?.map fun stop => (construct stop, stop + width))) := by
  cases stop? with
  | none => rfl
  | some stop =>
    obtain ⟨hle, hread⟩ := h stop rfl
    rw [List.length_drop] at hle
    rw [settle, hread, Option.map_some, stepOver]
    cases b.place.read (construct stop) with
    | error fault => rfl
    | ok reading =>
      rw [inRange_ok, ok_bind, consume_eq (by omega)]
      rfl

theorem stepMarkup_eq {rest : Bytes} (h : b.bytes.drop b.pos = Byte.openAngle :: rest) :
    b.stepMarkup = inRange (b.stepOver (Construct.cutMarkup? (b.bytes.drop b.pos))) := by
  have hlength := congrArg List.length h
  rw [List.length_drop, List.length_cons] at hlength
  have hpos : b.pos ≤ b.bytes.length := by omega
  rw [stepMarkup, Bytes.sliceFrom_of_le hpos, ok_bind, buffered, if_pos hpos, ok_bind]
  -- One byte is a part of every opener.
  have hshort : (decide (b.bytes.length - b.pos < 2) ||
      Bytes.isProperPrefix (b.bytes.drop b.pos) Construct.commentOpen) =
      Bytes.isProperPrefix (b.bytes.drop b.pos) Construct.commentOpen := by
    rw [hlength, h]
    cases rest with
    | nil => rfl
    | cons b rest => simp
  rw [hshort, Construct.cutMarkup?]
  split_ifs with hpart hcomment hliteral hinstruction hdeclaration hendTag
  · rfl
  · exact settle_eq (fun _ => .aside) hpos fun stop hstop =>
      ⟨Bytes.indexOf?_le hstop, rfl⟩
  · refine settle_eq _ hpos fun stop hstop => ⟨Bytes.indexOf?_le hstop, ?_⟩
    have hle := Bytes.indexOf?_le hstop
    have hmark := Bytes.getElem?_of_indexOf? hstop
    exact b.place.readLiteralAt_eq (Bytes.length_le_of_getElem? hliteral (by decide) hmark)
      (by omega)
  · exact settle_eq (fun _ => .aside) hpos fun stop hstop =>
      ⟨Bytes.indexOf?_le hstop, rfl⟩
  · exact settle_eq (fun _ => .declaration) hpos fun stop hstop =>
      ⟨Bytes.declarationEndFrom?_lt hstop, rfl⟩
  · refine settle_eq _ hpos fun stop hstop => ⟨Bytes.tagEndFrom?_lt hstop, ?_⟩
    have hmark := Bytes.getElem?_of_tagEndFrom? hstop
    exact b.place.readEndTagAt_eq (Bytes.length_le_of_getElem? hendTag (by decide) hmark)
      (Bytes.tagEndFrom?_lt hstop).le
  · refine settle_eq _ hpos fun stop hstop => ⟨Bytes.tagEndFrom?_lt hstop, ?_⟩
    have hmark := Bytes.getElem?_of_tagEndFrom? hstop
    have hopen : List.isPrefixOf [Byte.openAngle] (b.bytes.drop b.pos) = true := by simp [h]
    exact b.place.readStartTagAt_eq (Bytes.length_le_of_getElem? hopen (by decide) hmark)
      (Bytes.tagEndFrom?_lt hstop).le

theorem stepText_eq (hpos : b.pos ≤ b.bytes.length) :
    b.stepText =
      inRange (b.stepOver (Construct.cutCharacters? b.finished (b.bytes.drop b.pos))) := by
  have hsettle : ∀ stop ≤ (b.bytes.drop b.pos).length,
      b.settle 0 (fun stop => b.place.readCharactersAt (b.bytes.drop b.pos) stop) (some stop) =
        inRange (b.stepOver (some (.characters ((b.bytes.drop b.pos).take stop), stop))) :=
    fun stop hstop => settle_eq (fun stop => .characters ((b.bytes.drop b.pos).take stop)) hpos
      fun _ h => (Option.some.inj h) ▸ ⟨hstop, b.place.readCharactersAt_eq hstop⟩
  rw [stepText, Bytes.sliceFrom_of_le hpos, ok_bind, Construct.cutCharacters?]
  dsimp only
  cases hstart : Bytes.tagStart? (b.bytes.drop b.pos) with
  | some stop => exact hsettle stop (Bytes.tagStart?_lt hstart).le
  | none =>
    dsimp only
    split_ifs
    · rw [buffered, if_pos hpos, ok_bind, ← List.length_drop, hsettle _ (Nat.le_refl _),
        List.take_length]
    · rfl

/-- A step reads and takes the construct that is cut from the unread bytes. -/
theorem step_eq (h : b.pos < b.bytes.length) :
    b.step = inRange (b.stepOver (Construct.cut? b.finished (b.bytes.drop b.pos))) := by
  have hfirst : (b.bytes.byteAt b.pos : Except (Stop Fault) UInt8) = .ok b.bytes[b.pos] := by
    rw [Bytes.byteAt, List.getElem?_eq_getElem h]
  have hunread := List.drop_eq_getElem_cons h
  rw [step, hfirst, ok_bind, hunread, Construct.cut?, ← hunread]
  split_ifs with hopen
  · rw [beq_iff_eq] at hopen
    exact stepMarkup_eq (hopen ▸ hunread)
  · exact stepText_eq h.le

/-- Tags with nothing between their marks, of which every part begins and ends at one offset. -/
example :
    step { bytes := Bytes.ascii ['<', '>'] } = .error (.refused (.malformed .invalidToken)) ∧
      step { bytes := Bytes.ascii ['<', '/', '>'] } =
        .error (.refused (.malformed .invalidToken)) :=
  ⟨rfl, rfl⟩

/-! ### Progress -/

/-- The buffer `c` is `b` after some of its bytes. -/
structure Follows (c b : Buffer) : Prop where
  bytes_eq : c.bytes = b.bytes
  lt_pos : b.pos < c.pos
  pos_le : c.pos ≤ c.bytes.length

/-- A step takes some of the bytes, unless it waits for more. -/
def Step.Advances (b : Buffer) : Step → Prop
  | .token _ after | .skipped after => after.Follows b
  | .needsInput => True

theorem past_le {construct : Construct} (hpos : b.pos ≤ b.bytes.length)
    (h : Construct.cut? b.finished (b.bytes.drop b.pos) = some (construct, n)) :
    (b.past n).pos ≤ (b.past n).bytes.length := by
  have hle := Construct.cut?_le h
  rw [List.length_drop] at hle
  exact Nat.add_le_of_le_sub' hpos hle

theorem advances_reach {reading : Reading} (hn : 0 < n)
    (h : (b.past n).pos ≤ (b.past n).bytes.length) :
    ((b.past n).reach reading).Advances b := by
  cases reading <;> exact ⟨rfl, Nat.lt_add_of_pos_right hn, h⟩

theorem step_advances {s : Step} (h : b.step = .ok s) : s.Advances b := by
  by_cases hpos : b.pos < b.bytes.length
  · rw [step_eq hpos] at h
    cases hcut : Construct.cut? b.finished (b.bytes.drop b.pos) with
    | none =>
      rw [hcut] at h
      cases h
      trivial
    | some found =>
      obtain ⟨construct, n⟩ := found
      rw [hcut, stepOver] at h
      cases hread : b.place.read construct with
      | error fault =>
        rw [hread] at h
        cases h
      | ok reading =>
        rw [hread] at h
        cases h
        exact advances_reach (Construct.cut?_pos hcut) (past_le hpos.le hcut)
  · rw [step, Bytes.byteAt, List.getElem?_eq_none (by omega)] at h
    cases h

end Buffer

end XmlSieve
