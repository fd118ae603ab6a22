import Mathlib.Data.List.TakeWhile
import XmlSieve.Proofs.Text.Offsets
import XmlSieve.Proofs.Token.AttributeForms
import XmlSieve.Token.Place

/-!
# Tags by offsets

The attributes of a tag, and tags as wholes, read by offsets.  Each reading goes along the bytes as
its counterpart takes them apart, so that no offset is wrong: attribute by attribute for a list
(`Attributes.readFrom_zero`), and for tags from any place at which their end may have been found
(`Place.readEndTagAt_eq`, `Place.readStartTagAt_eq`).
-/

namespace XmlSieve

/-- What is split off some end of the bytes `input`, with the offset at which they go on. -/
def located {α : Type} (input : Bytes) : Option (α × Bytes) → Except (Stop Malformation) (α × Nat)
  | none => .error (.refused .invalidToken)
  | some (found, rest) => .ok (found, input.length - rest.length)

namespace RawAttribute

variable {input before rest : Bytes} {pos : Nat}

/-! ### One attribute -/

/-- Reads the quoted value at offset `pos`. -/
def readValue (input : Bytes) (pos : Nat) : Except (Stop Malformation) (Bytes × Nat) :=
  match input[pos]? with
  | none => .error (.refused .invalidToken)
  | some b =>
    if b == Byte.quote || b == Byte.apostrophe then do
      let quoted ← input.sliceFrom (pos + 1)
      match quoted.findIdx? (· == b) with
      | none => .error (.refused .invalidToken)
      | some width =>
        let value ← input.slice (pos + 1) (pos + 1 + width)
        if value.contains Byte.openAngle then .error (.refused .invalidToken)
        else return (value, pos + 1 + width + 1)
    else .error (.refused .invalidToken)

/-- Reads the equals sign at offset `pos`, with blanks around it, and the value after it. -/
def readAssigned (input : Bytes) (pos : Nat) : Except (Stop Malformation) (Bytes × Nat) := do
  let sign ← input.passWhile isBlankByte pos
  if input[sign]? = some Byte.equals then
    let quoted ← input.passWhile isBlankByte (sign + 1)
    readValue input quoted
  else .error (.refused .invalidToken)

/-- Reads the attribute at offset `pos`. -/
def readAt (input : Bytes) (pos : Nat) : Except (Stop Malformation) (RawAttribute × Nat) := do
  let first ← input.byteAt pos
  if isNameStart first then
    let stop ← input.passWhile isNameByte pos
    let name ← input.slice pos stop
    let (value, next) ← readAssigned input stop
    return (⟨name, value⟩, next)
  else .error (.refused .invalidToken)

theorem readValue_of_append (h : input = before ++ rest) (hpos : pos = before.length) :
    readValue input pos = located input (splitValue? rest) := by
  subst h hpos
  cases rest with
  | nil => simp [readValue, splitValue?, located]
  | cons b rest =>
    have hhead : (before ++ b :: rest)[before.length]? = some b := by simp
    rw [readValue, hhead, splitValue?]
    dsimp only
    split
    · rw [Bytes.sliceFrom_of_append (before ++ [b]) rest (by simp) (by simp), ok_bind]
      cases hmark : Bytes.splitAt? b rest with
      | none =>
        rw [Bytes.findIdx?_of_not_mem (Bytes.splitAt?_eq_none_iff.1 hmark)]
        rfl
      | some found =>
        obtain ⟨value, after⟩ := found
        obtain ⟨hvalue, rfl⟩ := Bytes.splitAt?_eq_some_iff.1 hmark
        rw [Bytes.findIdx?_of_append hvalue]
        dsimp only
        rw [Bytes.slice_of_append (before ++ [b]) value (b :: after) (by simp) (by simp) (by simp),
          ok_bind, Option.filter_some]
        cases value.contains Byte.openAngle with
        | true => rfl
        | false =>
          refine congrArg (fun n => Except.ok (value, n)) ?_
          simp only [List.length_append, List.length_cons]
          omega
    · rfl

theorem readAssigned_of_append (h : input = before ++ rest) (hpos : pos = before.length) :
    readAssigned input pos = located input (splitAssigned? rest) := by
  have hsign := Bytes.append_passed isBlankByte h
  rw [readAssigned, Bytes.passWhile_of_append h hpos, ok_bind, splitAssigned?, Bytes.skipBlanks]
  generalize rest.dropWhile isBlankByte = assigned at hsign
  generalize before ++ rest.takeWhile isBlankByte = passed at hsign
  cases assigned with
  | nil => simp [hsign, located]
  | cons b assigned =>
    have hhead : input[passed.length]? = some b := by simp [hsign]
    rw [hhead]
    by_cases hb : b = Byte.equals
    · have hquoted : input = (passed ++ [b]) ++ assigned := by simp [hsign]
      rw [if_pos (congrArg some hb),
        Bytes.passWhile_of_append hquoted (by simp), ok_bind,
        readValue_of_append (Bytes.append_passed isBlankByte hquoted) rfl]
      simp [hb, Bytes.skipBlanks]
    · simp [hb, located]

theorem readAt_of_append (h : input = before ++ rest) (hpos : pos = before.length)
    (hne : rest ≠ []) : readAt input pos = located input (split? rest) := by
  obtain ⟨b, tail, rfl⟩ := List.exists_cons_of_ne_nil hne
  rw [readAt, Bytes.byteAt_of_append h hpos, ok_bind, split?, Bytes.splitName?]
  split
  · next hb =>
    have hname : (b :: tail).takeWhile isNameByte = b :: tail.takeWhile isNameByte :=
      List.takeWhile_cons_of_pos (isNameByte_of_isNameStart hb)
    have hafter : (b :: tail).dropWhile isNameByte = tail.dropWhile isNameByte :=
      List.dropWhile_cons_of_pos (isNameByte_of_isNameStart hb)
    have hsplit := Bytes.append_passed isNameByte h
    rw [hname, hafter, List.append_assoc] at hsplit
    rw [Bytes.passWhile_of_append h hpos, hname, ok_bind,
      Bytes.slice_of_append _ _ _ hsplit hpos (by rw [List.length_append]), ok_bind,
      readAssigned_of_append (hsplit.trans (List.append_assoc ..).symm) rfl]
    simp only [Option.bind_eq_bind, Option.bind_some]
    cases splitAssigned? (tail.dropWhile isNameByte) <;> rfl
  · rfl

theorem splitValue?_suffix {bs value after : Bytes} (h : splitValue? bs = some (value, after)) :
    after <:+ bs := by
  obtain ⟨mark, -, -, -, rfl⟩ := exists_of_splitValue? h
  exact ⟨mark :: (value ++ [mark]), by simp⟩

/-- What follows an attribute is the end of what it was read from. -/
theorem split?_suffix {bs after : Bytes} {raw : RawAttribute}
    (h : split? bs = some (raw, after)) : after <:+ bs := by
  simp only [split?, Option.bind_eq_bind, Option.bind_eq_some_iff] at h
  obtain ⟨⟨name, afterName⟩, hname, ⟨value, rest⟩, hvalue, h⟩ := h
  cases h
  obtain ⟨lead, trail, quoted, -, -, rfl, hquoted⟩ := exists_of_splitAssigned? hvalue
  rw [← Bytes.append_of_splitName? hname]
  refine (splitValue?_suffix hquoted).trans ⟨name ++ (lead ++ Byte.equals :: trail), ?_⟩
  simp

/-- Adds an attribute to those before it in the tag. -/
def addRead (seen : Attributes) (raw : RawAttribute) : Except (Stop Malformation) Attributes :=
  match raw.name.decode? with
  | none => .error (.refused .invalidToken)
  | some name =>
    if (seen.get? name).isSome then .error (.refused .duplicateAttribute)
    else do
      let expanded ← Reference.expandText (raw.value.map spaceOut)
      match expanded.decode? with
      | none => .error (.refused .invalidToken)
      | some value => return seen ++ [(name, value)]

theorem addRead_eq (seen : Attributes) (raw : RawAttribute) :
    raw.addRead seen = inRange (raw.addTo seen) := by
  unfold addRead addTo
  cases raw.name.decode? with
  | none => rfl
  | some name =>
    dsimp only
    split
    · rfl
    · rw [Reference.expandText_eq, decodeValue]
      cases Reference.expand (raw.value.map spaceOut) with
      | error cause => rfl
      | ok expanded =>
        simp only [inRange_ok, ok_bind]
        cases expanded.decode? <;> rfl

end RawAttribute

namespace Attributes

variable {input before rest : Bytes} {pos : Nat} {seen : Attributes}

/-! ### Lists -/

/-- Reads the attribute after the blanks at offset `pos`, unless nothing follows them. -/
def readNext (input : Bytes) (pos : Nat) :
    Except (Stop Malformation) (Option (RawAttribute × Nat)) := do
  let start ← input.passWhile isBlankByte pos
  if input.length ≤ start then return none
  else if start = pos then .error (.refused .invalidToken)
  else
    let found ← RawAttribute.readAt input start
    return some found

theorem readNext_of_append (h : input = before ++ rest) (hpos : pos = before.length) :
    readNext input pos =
      if rest.skipBlanks.isEmpty then .ok none
      else if !rest.head?.any isBlankByte then .error (.refused .invalidToken)
      else (located input (RawAttribute.split? rest.skipBlanks)).map some := by
  have hstart := Bytes.append_passed isBlankByte h
  rw [readNext, Bytes.passWhile_of_append h hpos, ok_bind, Bytes.skipBlanks]
  by_cases hend : rest.dropWhile isBlankByte = []
  · rw [if_pos (by rw [hstart, hend, List.append_nil]), hend]
    rfl
  · have hmore : ¬input.length ≤ (before ++ rest.takeWhile isBlankByte).length := by
      have hpositive := List.length_pos_iff.2 hend
      have hlength := congrArg List.length hstart
      rw [List.length_append] at hlength
      omega
    have hblank : (before ++ rest.takeWhile isBlankByte).length = pos ↔
        (!rest.head?.any isBlankByte) = true := by
      cases rest with
      | nil => simp at hend
      | cons b rest => cases hb : isBlankByte b <;> simp [hb, hpos]
    rw [if_neg hmore, if_neg (by simpa using hend : ¬(rest.dropWhile isBlankByte).isEmpty = true)]
    simp only [hblank]
    split
    · rfl
    · rw [RawAttribute.readAt_of_append hstart rfl hend]
      cases located input (RawAttribute.split? (rest.dropWhile isBlankByte)) <;> rfl

/-- Reading an attribute leaves less to read. -/
theorem lt_of_readNext {raw : RawAttribute} {next : Nat}
    (h : readNext input pos = .ok (some (raw, next))) : pos < input.length ∧ pos < next := by
  by_cases hpos : pos ≤ input.length
  · rw [readNext_of_append (List.take_append_drop pos input).symm (by simp [hpos])] at h
    split_ifs at h
    · cases h
    · cases hsplit : RawAttribute.split? (Bytes.skipBlanks (input.drop pos)) with
      | none =>
        rw [hsplit] at h
        cases h
      | some found =>
        obtain ⟨raw, after⟩ := found
        have hlength := RawAttribute.length_of_split? hsplit
        have hskip := Bytes.length_skipBlanks_le (input.drop pos)
        rw [List.length_drop] at hskip
        rw [hsplit] at h
        cases h
        omega
  · rw [readNext, Bytes.passWhile, if_neg (by omega)] at h
    simp only [pure, Except.pure, ok_bind] at h
    rw [if_pos (by omega)] at h
    cases h

/-- Reads the attributes from offset `pos` on, which follow those `seen` so far. -/
def readFrom (input : Bytes) (pos : Nat) (seen : Attributes) :
    Except (Stop Malformation) Attributes :=
  match h : readNext input pos with
  | .error stop => .error stop
  | .ok none => return seen
  | .ok (some (raw, next)) => do
    have := lt_of_readNext h
    let seen ← raw.addRead seen
    readFrom input next seen
  termination_by input.length - pos

/-- One round of the reading. -/
theorem readFrom_eq (input : Bytes) (pos : Nat) (seen : Attributes) :
    readFrom input pos seen =
      match readNext input pos with
      | .error stop => .error stop
      | .ok none => .ok seen
      | .ok (some (raw, next)) => raw.addRead seen >>= readFrom input next := by
  rw [readFrom]
  split <;> simp_all
  rfl

theorem readFrom_of_append (h : input = before ++ rest) (hpos : pos = before.length) :
    readFrom input pos seen = inRange (parseAfter seen rest) := by
  fun_induction parseAfter seen rest generalizing before pos with
  | case1 seen rest hempty =>
    rw [readFrom_eq, readNext_of_append h hpos, if_pos hempty]
    rfl
  | case2 seen rest hempty hblank =>
    rw [readFrom_eq, readNext_of_append h hpos, if_neg hempty, if_pos hblank]
    rfl
  | case3 seen rest hempty hblank hsplit =>
    rw [readFrom_eq, readNext_of_append h hpos, if_neg hempty, if_neg hblank, hsplit]
    rfl
  | case4 seen rest hempty hblank raw after hsplit hlt ih =>
    obtain ⟨passed, hpassed⟩ : after <:+ rest :=
      (RawAttribute.split?_suffix hsplit).trans (List.dropWhile_suffix _)
    have hafter : input = (before ++ passed) ++ after := by rw [h, ← hpassed, List.append_assoc]
    have hnext : input.length - after.length = (before ++ passed).length := by
      rw [hafter, List.length_append]
      omega
    rw [readFrom_eq, readNext_of_append h hpos, if_neg hempty, if_neg hblank, hsplit, located,
      Except.map, inRange_bind]
    dsimp only
    rw [RawAttribute.addRead_eq]
    cases raw.addTo seen with
    | error cause => rfl
    | ok seen => exact ih seen hafter hnext

/-- Reading a list never leaves it. -/
theorem readFrom_zero (input : Bytes) : readFrom input 0 [] = inRange (parse input) :=
  readFrom_of_append (List.nil_append input).symm List.length_nil.symm

end Attributes

namespace Place

variable {input body after : Bytes} {first : UInt8} {stop : Nat}

/-! ### Tags

A tag begins at the head of `input`, and `stop` is the offset of the `>` that ends it. -/

/-- The end of the innermost open element, if it has this name. -/
def close (name : String) : Place → Except Fault Reading
  | content innermost outer =>
    if innermost = name then .ok (.token (.endTag name) (inside outer))
    else .error (.malformed .mismatchedTag)
  | prolog | epilog => .error (.malformed .mismatchedTag)

/-- The start tag whose body, without the slash by which it may close itself, is `body`. -/
def readOpening (body : Bytes) (closesItself : Bool) (p : Place) : Except Fault Reading :=
  match body.splitName? with
  | none => .error (.malformed .invalidToken)
  | some (raw, rest) =>
    if p = epilog then .error (.malformed .junkAfterRoot)
    else do
      let name ← decodeText raw
      let attributes ← (Attributes.parse rest).mapError .malformed
      return if closesItself then .emptyElement name attributes (inside p.openNames)
        else .token (.startTag name attributes) (content name p.openNames)

/-- Reads an end tag. -/
def readEndTagAt (input : Bytes) (stop : Nat) (p : Place) : Except (Stop Fault) Reading := do
  let body ← input.slice 2 stop
  match ← body.readName with
  | none => .error (.refused (.malformed .invalidToken))
  | some (raw, nameEnd) =>
    let last ← body.passWhile isBlankByte nameEnd
    if last < body.length then .error (.refused (.malformed .invalidToken))
    else
      let name ← inRange (decodeText raw)
      inRange (p.close name)

/-- Reads a start tag whose body ends at offset `bodyEnd`. -/
def readOpeningAt (input : Bytes) (bodyEnd : Nat) (closesItself : Bool) (p : Place) :
    Except (Stop Fault) Reading := do
  let body ← input.slice 1 bodyEnd
  match ← body.readName with
  | none => .error (.refused (.malformed .invalidToken))
  | some (raw, nameEnd) =>
    let list ← input.slice (1 + nameEnd) bodyEnd
    if p = epilog then .error (.refused (.malformed .junkAfterRoot))
    else
      let name ← inRange (decodeText raw)
      let attributes ← (Attributes.readFrom list 0 []).mapError (.map .malformed)
      return if closesItself then .emptyElement name attributes (inside p.openNames)
        else .token (.startTag name attributes) (content name p.openNames)

/-- Reads a start tag, which may close itself. -/
def readStartTagAt (input : Bytes) (stop : Nat) (p : Place) : Except (Stop Fault) Reading :=
  if 1 < stop then do
    let last ← input.slice (stop - 1) stop
    if last = [Byte.slash] then readOpeningAt input (stop - 1) true p
    else readOpeningAt input stop false p
  else readOpeningAt input stop false p

theorem readEndTag_eq (body : Bytes) (p : Place) :
    p.readEndTag body =
      match endTagName? body with
      | none => .error (.malformed .invalidToken)
      | some raw => decodeText raw >>= fun name => p.close name := by
  cases p <;> rfl

theorem readStartTag_eq (body : Bytes) (p : Place) :
    p.readStartTag body = p.readOpening (splitSlash body).1 (splitSlash body).2 := by
  rw [readStartTag, readOpening]
  obtain ⟨body, closesItself⟩ := splitSlash body
  dsimp only
  cases body.splitName? with
  | none => rfl
  | some found =>
    dsimp only
    split
    · rfl
    · refine bind_congr fun name => ?_
      cases Attributes.parse found.2 with
      | error cause => rfl
      | ok attributes => cases closesItself <;> rfl

theorem readEndTagAt_eq (p : Place) (hstart : 2 ≤ stop) (hstop : stop ≤ input.length) :
    readEndTagAt input stop p = inRange (p.readEndTag ((input.take stop).drop 2)) := by
  rw [readEndTagAt, Bytes.slice_of_le hstart hstop, ok_bind, Bytes.readName_eq, ok_bind,
    readEndTag_eq, endTagName?]
  generalize (input.take stop).drop 2 = body
  cases hname : Bytes.splitName? body with
  | none => rfl
  | some found =>
    obtain ⟨raw, rest⟩ := found
    have hbody := Bytes.append_passed isBlankByte (Bytes.append_of_splitName? hname).symm
    dsimp only [Option.map_some]
    rw [Bytes.passWhile_of_append (Bytes.append_of_splitName? hname).symm rfl, ok_bind]
    have hblank : (raw ++ rest.takeWhile isBlankByte).length < body.length ↔
        ¬rest.all isBlankByte = true := by
      have hlength := congrArg List.length hbody
      rw [List.length_append] at hlength
      rw [List.all_eq_true, ← List.dropWhile_eq_nil_iff, ← List.length_eq_zero_iff]
      omega
    by_cases hall : rest.all isBlankByte = true
    · rw [if_neg (by rwa [hblank, not_not]), if_pos hall, inRange_bind]
    · rw [if_pos (hblank.2 hall), if_neg hall]
      rfl

theorem readOpeningAt_of_append {bodyEnd : Nat} {closesItself : Bool} (p : Place)
    (h : input = first :: (body ++ after)) (hend : bodyEnd = body.length + 1) :
    readOpeningAt input bodyEnd closesItself p = inRange (p.readOpening body closesItself) := by
  rw [readOpeningAt, Bytes.slice_of_append [first] body after h List.length_singleton.symm
      (by simp [hend, Nat.add_comm]),
    ok_bind, Bytes.readName_eq, ok_bind, readOpening]
  cases hname : Bytes.splitName? body with
  | none => rfl
  | some found =>
    obtain ⟨raw, rest⟩ := found
    have hbody := Bytes.append_of_splitName? hname
    dsimp only [Option.map_some]
    rw [Bytes.slice_of_append (first :: raw) rest after (by rw [h, ← hbody]; simp)
      (by simp [Nat.add_comm]) (by rw [hend, ← hbody]; simp; omega), ok_bind]
    split
    · rfl
    · rw [inRange_bind]
      refine bind_congr fun name => ?_
      rw [Attributes.readFrom_zero, mapError_inRange]
      cases Attributes.parse rest <;> rfl

theorem readStartTagAt_of_append (p : Place) (h : input = first :: (body ++ after))
    (hstop : stop = body.length + 1) :
    readStartTagAt input stop p = inRange (p.readStartTag body) := by
  rw [readStartTagAt, readStartTag_eq, splitSlash]
  rcases List.eq_nil_or_concat' body with rfl | ⟨init, last, rfl⟩
  · rw [if_neg (by simp [hstop])]
    exact readOpeningAt_of_append p h hstop
  · have hlast : (input.slice (stop - 1) stop : Except (Stop Fault) Bytes) = .ok [last] :=
      Bytes.slice_of_append (first :: init) [last] after (by simp [h]) (by simp [hstop])
        (by simp [hstop])
    rw [if_pos (by simp [hstop]), hlast, ok_bind, List.getLast?_concat, List.dropLast_concat]
    by_cases hslash : last = Byte.slash
    · rw [if_pos (by rw [hslash]), if_pos (by rw [hslash])]
      have hinit : input = first :: (init ++ last :: after) := by simp [h]
      exact readOpeningAt_of_append p hinit (by simp [hstop])
    · rw [if_neg (by simpa using hslash), if_neg (by simpa using hslash)]
      exact readOpeningAt_of_append p h hstop

theorem readStartTagAt_eq (p : Place) (hstart : 1 ≤ stop) (hstop : stop ≤ input.length) :
    readStartTagAt input stop p = inRange (p.readStartTag ((input.take stop).drop 1)) := by
  obtain ⟨first, rest, rfl⟩ : ∃ first rest, input = first :: rest :=
    List.exists_cons_of_length_pos (by omega)
  obtain ⟨width, rfl⟩ : ∃ width, stop = width + 1 := ⟨stop - 1, by omega⟩
  have hrest : first :: rest = first :: (rest.take width ++ rest.drop width) := by
    rw [List.take_append_drop]
  have hwidth : width + 1 = (rest.take width).length + 1 := by
    rw [List.length_take, Nat.min_eq_left (Nat.le_of_succ_le_succ hstop)]
  exact readStartTagAt_of_append p hrest hwidth

end Place

end XmlSieve
