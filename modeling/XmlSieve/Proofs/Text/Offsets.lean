import XmlSieve.Proofs.Text.References

/-!
# Reading by offsets

Bytes can be read where they lie, by offsets into them.  An offset may be wrong, and then reading
stops `outOfRange`: this is told apart from the faults for which bytes are `refused`.  What is read
by offsets equals `inRange found` if no offset is wrong and what is read is what is found by taking
the bytes apart.  So it is for names and blanks, and for the references in a text, which
`Reference.expandFrom` replaces one by one (`Reference.expandText_eq`).
-/

namespace XmlSieve

/-- Why reading by offsets stops. -/
inductive Stop (ε : Type) where
  /-- An offset lies outside the bytes, or two offsets are in the wrong order. -/
  | outOfRange
  /-- The bytes are at fault. -/
  | refused (fault : ε)
  deriving DecidableEq, Repr

section

variable {ε δ α β : Type}

/-- What is found without offsets. -/
def inRange (found : Except ε α) : Except (Stop ε) α := found.mapError .refused

/-- Gives faults another form. -/
def Stop.map (f : ε → δ) : Stop ε → Stop δ
  | outOfRange => outOfRange
  | refused fault => refused (f fault)

@[simp] theorem ok_bind (a : α) (f : α → Except ε β) : Except.ok a >>= f = f a := rfl

@[simp] theorem inRange_ok (a : α) : inRange (.ok a : Except ε α) = .ok a := rfl

theorem mapError_inRange (f : ε → δ) (x : Except ε α) :
    (inRange x).mapError (.map f) = inRange (x.mapError f) := by
  cases x <;> rfl

theorem inRange_bind (x : Except ε α) (f : α → Except ε β) :
    inRange (x >>= f) = inRange x >>= fun a => inRange (f a) := by
  cases x <;> rfl

end

namespace Bytes

variable {ε : Type} {bs before part after rest : Bytes} {start stop : Nat}

/-! ### Parts by offsets -/

/-- The bytes from offset `start` up to offset `stop`. -/
def slice (bs : Bytes) (start stop : Nat) : Except (Stop ε) Bytes :=
  if start ≤ stop ∧ stop ≤ bs.length then .ok ((bs.take stop).drop start) else .error .outOfRange

/-- The bytes from offset `start` on. -/
def sliceFrom (bs : Bytes) (start : Nat) : Except (Stop ε) Bytes := bs.slice start bs.length

/-- The byte at offset `pos`. -/
def byteAt (bs : Bytes) (pos : Nat) : Except (Stop ε) UInt8 :=
  match bs[pos]? with
  | some b => .ok b
  | none => .error .outOfRange

/-- The offset from `pos` on of the first byte that is not in a class, or else of the end. -/
def passWhile (inClass : UInt8 → Bool) (bs : Bytes) (pos : Nat) : Except (Stop ε) Nat :=
  if pos < bs.length then do
    let b ← bs.byteAt pos
    if inClass b then passWhile inClass bs (pos + 1) else return pos
  else return pos
  termination_by bs.length - pos

/-- The name at the head of `bs`, with the offset at which it ends. -/
def readName (bs : Bytes) : Except (Stop ε) (Option (Bytes × Nat)) :=
  match bs.head? with
  | none => return none
  | some b =>
    if isNameStart b then do
      let stop ← bs.passWhile isNameByte 1
      let name ← bs.slice 0 stop
      return some (name, stop)
    else return none

theorem slice_of_le (hstart : start ≤ stop) (hstop : stop ≤ bs.length) :
    (bs.slice start stop : Except (Stop ε) Bytes) = .ok ((bs.take stop).drop start) :=
  if_pos ⟨hstart, hstop⟩

theorem slice_of_append (before part after : Bytes) (h : bs = before ++ (part ++ after))
    (hstart : start = before.length) (hstop : stop = before.length + part.length) :
    (bs.slice start stop : Except (Stop ε) Bytes) = .ok part := by
  subst h hstart hstop
  rw [slice_of_le (by omega) (by simp only [List.length_append]; omega),
    List.take_length_add_append, List.drop_append_length, List.take_left]

theorem sliceFrom_of_append (before rest : Bytes) (h : bs = before ++ rest)
    (hstart : start = before.length) :
    (bs.sliceFrom start : Except (Stop ε) Bytes) = .ok rest :=
  slice_of_append before rest [] (by rw [List.append_nil, h]) hstart
    (by rw [h, List.length_append])

theorem sliceFrom_of_le (h : start ≤ bs.length) :
    (bs.sliceFrom start : Except (Stop ε) Bytes) = .ok (bs.drop start) :=
  sliceFrom_of_append _ _ (List.take_append_drop start bs).symm (by simp [h])

theorem byteAt_of_append {b : UInt8} (h : bs = before ++ b :: rest)
    (hstart : start = before.length) :
    (bs.byteAt start : Except (Stop ε) UInt8) = .ok b := by
  subst h hstart
  simp [byteAt]

/-- Passing over bytes ends after the front part that is in the class. -/
theorem passWhile_of_append {inClass : UInt8 → Bool} (h : bs = before ++ rest)
    (hstart : start = before.length) :
    (bs.passWhile inClass start : Except (Stop ε) Nat) =
      .ok (before ++ rest.takeWhile inClass).length := by
  induction rest generalizing before start with
  | nil =>
    rw [passWhile, if_neg (by simp [h, hstart]), hstart, List.takeWhile_nil, List.append_nil]
    rfl
  | cons b rest ih =>
    rw [passWhile, if_pos (by simp [h, hstart]), byteAt_of_append h hstart, ok_bind,
      List.takeWhile_cons]
    split
    · have hpassed : bs = (before ++ [b]) ++ rest := by simp [h]
      rw [ih hpassed (by simp [hstart]), List.append_assoc]
      rfl
    · rw [hstart, List.append_nil]
      rfl

/-- What was passed over belongs to what is before the offset then. -/
theorem append_passed (inClass : UInt8 → Bool) (h : bs = before ++ rest) :
    bs = (before ++ rest.takeWhile inClass) ++ rest.dropWhile inClass := by
  rw [List.append_assoc, List.takeWhile_append_dropWhile, h]

/-- A name is a front part of the bytes, and it ends where they go on. -/
theorem readName_eq (bs : Bytes) :
    (bs.readName : Except (Stop ε) _) =
      .ok (bs.splitName?.map fun (name, _) => (name, name.length)) := by
  cases bs with
  | nil => rfl
  | cons b bs =>
    rw [readName, splitName?, List.head?_cons]
    dsimp only
    split
    · have hname : b :: bs = [] ++ (b :: bs.takeWhile isNameByte ++ bs.dropWhile isNameByte) := by
        simp
      have hfirst : b :: bs = [b] ++ bs := rfl
      rw [passWhile_of_append hfirst List.length_singleton.symm, ok_bind,
        slice_of_append _ _ _ hname List.length_nil.symm (by simp)]
      simp
    · rfl

/-! ### Marks by offsets -/

variable {mark : UInt8}

theorem findIdx?_of_not_mem (h : mark ∉ bs) : bs.findIdx? (· == mark) = none := by
  rw [List.findIdx?_eq_none_iff]
  rintro b hb
  rw [beq_eq_false_iff_ne]
  rintro rfl
  exact h hb

theorem findIdx?_of_append (h : mark ∉ part) :
    (part ++ mark :: rest).findIdx? (· == mark) = some part.length := by
  rw [List.findIdx?_append, findIdx?_of_not_mem h]
  simp [List.findIdx?_cons]

end Bytes

namespace Reference

variable {input before rest : Bytes} {pos : Nat}

/-! ### References by offsets -/

/-- Reads up to and including the first reference from offset `pos` on: what stands before it, the
character that it stands for, and the offset after it.  There may be no ampersand any more. -/
def readAt (input : Bytes) (pos : Nat) :
    Except (Stop Malformation) (Option (Bytes × Char × Nat)) := do
  let rest ← input.sliceFrom pos
  match rest.findIdx? (· == Byte.ampersand) with
  | none => return none
  | some skipped =>
    let plain ← input.slice pos (pos + skipped)
    let opened ← input.sliceFrom (pos + skipped)
    match opened.findIdx? (· == Byte.semicolon) with
    | none => throw (.refused .invalidToken)
    | some width =>
      let name ← input.slice (pos + skipped + 1) (pos + skipped + width)
      let c ← inRange (resolve name)
      return some (plain, c, pos + skipped + width + 1)

theorem readAt_of_append (h : input = before ++ rest) (hpos : pos = before.length) :
    readAt input pos =
      match rest.splitAt? Byte.ampersand with
      | none => .ok none
      | some (plain, opened) =>
        match opened.splitAt? Byte.semicolon with
        | none => .error (.refused .invalidToken)
        | some (name, _) =>
          (inRange (resolve name)).map fun c =>
            some (plain, c, pos + plain.length + name.length + 2) := by
  rw [readAt, Bytes.sliceFrom_of_append _ _ h hpos, ok_bind]
  cases hmark : rest.splitAt? Byte.ampersand with
  | none =>
    rw [Bytes.findIdx?_of_not_mem (Bytes.splitAt?_eq_none_iff.1 hmark)]
    rfl
  | some found =>
    obtain ⟨plain, opened⟩ := found
    obtain ⟨hplain, rfl⟩ := Bytes.splitAt?_eq_some_iff.1 hmark
    rw [Bytes.findIdx?_of_append hplain]
    dsimp only
    rw [Bytes.slice_of_append _ _ _ h hpos (by rw [hpos]), ok_bind,
      Bytes.sliceFrom_of_append (before ++ plain) _ (by rw [h, List.append_assoc])
        (by rw [hpos, List.length_append]), ok_bind]
    cases hclose : opened.splitAt? Byte.semicolon with
    | none =>
      have hopened : Byte.semicolon ∉ Byte.ampersand :: opened :=
        List.not_mem_cons_of_ne_of_not_mem (by decide) (Bytes.splitAt?_eq_none_iff.1 hclose)
      rw [Bytes.findIdx?_of_not_mem hopened]
      rfl
    | some found =>
      obtain ⟨name, after⟩ := found
      obtain ⟨hname, rfl⟩ := Bytes.splitAt?_eq_some_iff.1 hclose
      have hopened : Byte.semicolon ∉ Byte.ampersand :: name :=
        List.not_mem_cons_of_ne_of_not_mem (by decide) hname
      rw [← List.cons_append, Bytes.findIdx?_of_append hopened]
      dsimp only
      rw [Bytes.slice_of_append (before ++ plain ++ [Byte.ampersand]) name
        (Byte.semicolon :: after) (by simp [h]) (by simp [hpos, Nat.add_assoc])
        (by simp [hpos]; omega), ok_bind]
      cases resolve name with
      | error cause => rfl
      | ok c =>
        refine congrArg (fun n => Except.ok (some (plain, c, n))) ?_
        rw [List.length_cons]
        omega

/-- Reading a reference leaves less to read. -/
theorem lt_of_readAt {plain : Bytes} {c : Char} {next : Nat}
    (h : readAt input pos = .ok (some (plain, c, next))) : pos < input.length ∧ pos < next := by
  by_cases hpos : pos ≤ input.length
  · rw [readAt_of_append (List.take_append_drop pos input).symm (by simp [hpos])] at h
    split at h
    · cases h
    · next plain' opened hmark =>
      have hlen := Bytes.length_of_splitAt? hmark
      rw [List.length_drop] at hlen
      split at h
      · cases h
      · next name after hclose =>
        cases hc : resolve name with
        | error cause =>
          rw [hc] at h
          cases h
        | ok c =>
          rw [hc] at h
          cases h
          omega
  · rw [readAt, Bytes.sliceFrom, Bytes.slice, if_neg (by omega)] at h
    cases h

/-- Replaces the references from offset `pos` on, where `written` is what was written before. -/
def expandFrom (input : Bytes) (pos : Nat) (written : Bytes) : Except (Stop Malformation) Bytes :=
  match h : readAt input pos with
  | .error stop => .error stop
  | .ok none => do
    let plain ← input.sliceFrom pos
    return written ++ plain
  | .ok (some (plain, c, next)) =>
    have := lt_of_readAt h
    expandFrom input next (written ++ plain ++ String.utf8EncodeChar c)
  termination_by input.length - pos

/-- Replaces the references in a text, of which there may be none. -/
def expandText (input : Bytes) : Except (Stop Malformation) Bytes :=
  if (input.findIdx? (· == Byte.ampersand)).isNone then return input else expandFrom input 0 []

/-- One round of the replacement. -/
theorem expandFrom_eq (input : Bytes) (pos : Nat) (written : Bytes) :
    expandFrom input pos written =
      match readAt input pos with
      | .error stop => .error stop
      | .ok none => (input.sliceFrom pos).map (written ++ ·)
      | .ok (some (plain, c, next)) =>
        expandFrom input next (written ++ plain ++ String.utf8EncodeChar c) := by
  rw [expandFrom]
  split <;> simp_all
  rfl

theorem expandFrom_of_append {written : Bytes} (h : input = before ++ rest)
    (hpos : pos = before.length) :
    expandFrom input pos written = inRange ((expand rest).map (written ++ ·)) := by
  fun_induction expand rest generalizing before pos written with
  | case1 rest hmark =>
    rw [expandFrom_eq, readAt_of_append h hpos, hmark]
    dsimp only
    rw [Bytes.sliceFrom_of_append _ _ h hpos]
    rfl
  | case2 rest plain opened hmark hclose =>
    rw [expandFrom_eq, readAt_of_append h hpos, hmark]
    dsimp only
    rw [hclose]
    rfl
  | case3 rest plain opened hmark name after hclose hlt ih =>
    rw [expandFrom_eq, readAt_of_append h hpos, hmark]
    dsimp only
    rw [hclose]
    dsimp only
    obtain ⟨-, rfl⟩ := Bytes.splitAt?_eq_some_iff.1 hmark
    obtain ⟨-, rfl⟩ := Bytes.splitAt?_eq_some_iff.1 hclose
    cases resolve name with
    | error cause => rfl
    | ok c =>
      have htaken : input =
          (before ++ (plain ++ Byte.ampersand :: (name ++ [Byte.semicolon]))) ++ after := by
        simp [h]
      have hnext : pos + plain.length + name.length + 2 =
          (before ++ (plain ++ Byte.ampersand :: (name ++ [Byte.semicolon]))).length := by
        simp [hpos]
        omega
      rw [inRange_ok, ok_bind]
      simp only [Except.map]
      rw [ih htaken hnext]
      cases expand after with
      | error cause => rfl
      | ok tail => simp [Except.map]

/-- Replacing the references in a text never leaves it. -/
theorem expandText_eq (input : Bytes) : expandText input = inRange (expand input) := by
  rw [expandText]
  split
  · next hnone =>
    have hmem : Byte.ampersand ∉ input := by
      intro hmem
      simp only [Option.isNone_iff_eq_none, List.findIdx?_eq_none_iff] at hnone
      simpa using hnone _ hmem
    rw [expand_of_not_mem hmem]
    rfl
  · rw [expandFrom_of_append (List.nil_append input).symm List.length_nil.symm]
    cases expand input <;> rfl

end Reference

end XmlSieve
