import XmlSieve.Proofs.Stream.Lockstep

/-!
# Effects

What the effects of a token do apart from telling listeners.  An effect of one kind puts something
under way in a frame and an effect of another kind ends it (`Effect.track`): updates that hold
output back, and requests to preserve order.  The counters of the assembly count the latter over all
open frames (`Assembly.Counted`), whatever effects run (`applyAll_counted`).
-/

namespace XmlSieve

namespace Effect

/-- The event that is told, if one is. -/
def told? : Effect → Option Nat
  | notify id | flush id => some id
  | collect | preserve _ | release _ | hold _ => none

/-- The update that begins to hold output back, if one does. -/
def hold? : Effect → Option Nat
  | hold id => some id
  | collect | preserve _ | release _ | flush _ | notify _ => none

/-- The update that ceases to hold output back, if one does. -/
def flush? : Effect → Option Nat
  | flush id => some id
  | collect | preserve _ | release _ | hold _ | notify _ => none

/-- The request to preserve order that begins, if one does. -/
def preserve? : Effect → Option Bool
  | preserve whitespace => some whitespace
  | collect | release _ | hold _ | flush _ | notify _ => none

/-- The request to preserve order that ends, if one does. -/
def release? : Effect → Option Bool
  | release whitespace => some whitespace
  | collect | preserve _ | hold _ | flush _ | notify _ => none

/-- What is under way after an effect, where effects begin and end it. -/
def track {β : Type} [DecidableEq β] (begins? ends? : Effect → Option β) (underway : List β)
    (effect : Effect) : List β :=
  match begins? effect, ends? effect with
  | some x, _ => x :: underway
  | none, some x => underway.erase x
  | none, none => underway

theorem hold_flush (effect : Effect) : effect.hold?.isSome = true → effect.flush? = none := by
  cases effect <;> simp [hold?, flush?]

theorem preserve_release (effect : Effect) :
    effect.preserve?.isSome = true → effect.release? = none := by
  cases effect <;> simp [preserve?, release?]

section Track

variable {β : Type} [DecidableEq β] {begins? ends? : Effect → Option β} {underway kept : List β}
  {effect : Effect} {effects : List Effect}

/-- Where everything that effects end is under way, one effect leaves everything that the others
end under way. -/
theorem track_perm (hdisjoint : (begins? effect).isSome = true → ends? effect = none)
    (h : underway.Perm ((effect :: effects).filterMap ends? ++ kept)) :
    (track begins? ends? underway effect).Perm
      (effects.filterMap ends? ++ (kept ++ (begins? effect).toList)) := by
  unfold track
  rw [List.filterMap_cons] at h
  cases hb : begins? effect with
  | some x =>
    rw [hdisjoint (by rw [hb]; rfl)] at h
    rw [← List.append_assoc]
    exact (h.cons x).trans (List.perm_append_singleton x _).symm
  | none =>
    rw [Option.toList_none, List.append_nil]
    cases he : ends? effect with
    | some x =>
      rw [he] at h
      exact (h.erase x).trans (by simp)
    | none =>
      rw [he] at h
      exact h

theorem foldl_track_perm
    (hdisjoint : ∀ effect ∈ effects, (begins? effect).isSome = true → ends? effect = none)
    (h : underway.Perm (effects.filterMap ends? ++ kept)) :
    (effects.foldl (track begins? ends?) underway).Perm (kept ++ effects.filterMap begins?) := by
  induction effects generalizing underway kept with
  | nil => simpa using h
  | cons effect effects ih =>
    refine (ih (fun e he => hdisjoint e (by simp [he]))
      (track_perm (hdisjoint effect (by simp)) h)).trans ?_
    rw [List.append_assoc, List.filterMap_cons]
    cases begins? effect <;> rfl

end Track

end Effect

variable {σ : Type}

namespace Assembly

variable {a : Assembly σ} {frame : Frame} {chunk : Option String} {outer : List Bool}

/-! ### What effects do to a frame -/

theorem notify_frame (a : Assembly σ) (id : Nat) (frame : Frame) (chunk : Option String) :
    (a.notify id frame chunk).2 =
      { frame with element := (a.notify id frame chunk).2.element } := by
  unfold notify
  split <;> rfl

theorem flush_frame (a : Assembly σ) (frame : Frame) (id : Nat) :
    (a.flush frame id).2 =
      { frame with element := (a.flush frame id).2.element, held := frame.held.erase id } := by
  unfold flush
  split
  · exact a.notify_frame id { frame with held := frame.held.erase id } none
  · next hid => rw [List.erase_of_not_mem (by simpa using hid)]

theorem endPreserving_frame (a : Assembly σ) (frame : Frame) (whitespace : Bool) :
    (a.endPreserving frame whitespace).2 =
      { frame with preserved := frame.preserved.erase whitespace } := by
  unfold endPreserving
  split
  · rfl
  · next hw => rw [List.erase_of_not_mem (by simpa using hw)]

/-- What an effect does to a frame, apart from what listeners do to its element. -/
theorem apply_frame (a : Assembly σ) (frame : Frame) (chunk : Option String) (effect : Effect) :
    (apply chunk (a, frame) effect).2 =
      { frame with
        element := (apply chunk (a, frame) effect).2.element
        collected := frame.collected || decide (effect = .collect)
        preserved := Effect.track Effect.preserve? Effect.release? frame.preserved effect
        held := Effect.track Effect.hold? Effect.flush? frame.held effect } := by
  cases effect with
  | collect => simp [apply, Effect.track, Effect.preserve?, Effect.release?, Effect.hold?,
      Effect.flush?]
  | preserve whitespace => simp [apply, beginPreserving, Effect.track, Effect.preserve?,
      Effect.hold?, Effect.flush?]
  | release whitespace =>
    refine (a.endPreserving_frame frame whitespace).trans ?_
    simp [apply, endPreserving_frame, Effect.track, Effect.preserve?, Effect.release?, Effect.hold?,
      Effect.flush?]
  | hold id => simp [apply, beginHolding, Effect.track, Effect.preserve?, Effect.release?,
      Effect.hold?]
  | flush id =>
    refine (a.flush_frame frame id).trans ?_
    simp [apply, Effect.track, Effect.preserve?, Effect.release?, Effect.hold?, Effect.flush?]
  | notify id =>
    refine (a.notify_frame id frame chunk).trans ?_
    simp [apply, Effect.track, Effect.preserve?, Effect.release?, Effect.hold?, Effect.flush?]

/-- Where all that effects flush is held, the first of them leaves all that the others flush held. -/
theorem apply_held_perm {effect : Effect} {effects : List Effect} {kept : List Nat}
    (a : Assembly σ) (chunk : Option String)
    (h : frame.held.Perm ((effect :: effects).filterMap Effect.flush? ++ kept)) :
    (apply chunk (a, frame) effect).2.held.Perm
      (effects.filterMap Effect.flush? ++ (kept ++ effect.hold?.toList)) := by
  rw [a.apply_frame frame chunk effect]
  exact Effect.track_perm effect.hold_flush h

theorem mem_held_of_flush {id : Nat} {effects : List Effect} {kept : List Nat}
    (h : frame.held.Perm ((.flush id :: effects).filterMap Effect.flush? ++ kept)) :
    id ∈ frame.held :=
  h.mem_iff.2 (by simp [Effect.flush?])

/-- What effects do to a frame, apart from what listeners do to its element. -/
theorem applyAll_frame (a : Assembly σ) (frame : Frame) (chunk : Option String)
    (effects : List Effect) :
    (a.applyAll frame chunk effects).2 =
      { frame with
        element := (a.applyAll frame chunk effects).2.element
        collected := frame.collected || decide (.collect ∈ effects)
        preserved := effects.foldl (Effect.track Effect.preserve? Effect.release?) frame.preserved
        held := effects.foldl (Effect.track Effect.hold? Effect.flush?) frame.held } := by
  induction effects generalizing a frame with
  | nil => simp [applyAll]
  | cons effect effects ih =>
    have hframe := a.apply_frame frame chunk effect
    have hrest := ih (apply chunk (a, frame) effect).1 (apply chunk (a, frame) effect).2
    refine hrest.trans ?_
    rw [congrArg Frame.path hframe, congrArg Frame.collected hframe, congrArg Frame.spacing hframe,
      congrArg Frame.preserved hframe, congrArg Frame.held hframe]
    simp [applyAll, Bool.or_assoc, eq_comm]

/-! ### What listeners share -/

/-- An effect that tells nothing does not change the element. -/
theorem apply_quiet_element {effect : Effect} (h : effect.told? = none) :
    (apply chunk (a, frame) effect).2.element = frame.element := by
  cases effect with
  | collect | preserve | hold => rfl
  | release whitespace => rw [apply, endPreserving_frame]
  | flush | notify => cases h

/-- An effect that tells nothing does not change what listeners share. -/
theorem apply_quiet_env {effect : Effect} (h : effect.told? = none) :
    (apply chunk (a, frame) effect).1.env = a.env := by
  cases effect with
  | collect | preserve | hold => rfl
  | release whitespace =>
    simp only [apply, endPreserving]
    split <;> rfl
  | flush | notify => cases h

/-- What is upheld when an event is told is upheld by effects that flush nothing. -/
theorem applyAll_upholds {Q : σ → Prop} {effects : List Effect}
    (hnotify : ∀ b : Assembly σ, SameSetting a b → Q b.env → ∀ id frame chunk,
      Q (b.notify id frame chunk).1.env)
    (hflush : effects.filterMap Effect.flush? = []) (h : Q a.env) (frame : Frame)
    (chunk : Option String) : Q (a.applyAll frame chunk effects).1.env := by
  induction effects generalizing a frame with
  | nil => exact h
  | cons effect effects ih =>
    rw [List.filterMap_eq_nil_iff, List.forall_mem_cons] at hflush
    have hfirst : Q (apply chunk (a, frame) effect).1.env := by
      cases effect with
      | collect | preserve | release | hold =>
        rw [apply_quiet_env rfl]
        exact h
      | flush id => cases hflush.1
      | notify id => exact hnotify a (.refl a) h id frame chunk
    exact ih (fun b hb => hnotify b ((a.apply_same frame chunk effect).trans hb))
      (List.filterMap_eq_nil_iff.2 hflush.2) hfirst _

/-! ### The counters -/

/-- The counters count these requests to preserve order, each with whether it keeps white space. -/
def Counted (a : Assembly σ) (requests : List Bool) : Prop :=
  a.preserving = requests.length ∧ a.verbatim = requests.count true

theorem emit_counters (a : Assembly σ) (fragment : String) :
    (a.emit fragment).preserving = a.preserving ∧ (a.emit fragment).verbatim = a.verbatim := by
  unfold emit
  split <;> exact ⟨rfl, rfl⟩

theorem notify_counters (a : Assembly σ) (id : Nat) (frame : Frame) (chunk : Option String) :
    (a.notify id frame chunk).1.preserving = a.preserving ∧
      (a.notify id frame chunk).1.verbatim = a.verbatim := by
  unfold notify
  split <;> exact ⟨rfl, rfl⟩

theorem flush_counters (a : Assembly σ) (frame : Frame) (id : Nat) :
    (a.flush frame id).1.preserving = a.preserving ∧
      (a.flush frame id).1.verbatim = a.verbatim := by
  unfold flush
  split
  · obtain ⟨hp, hv⟩ := a.notify_counters id { frame with held := frame.held.erase id } none
    exact ⟨(emit_counters _ _).1.trans hp, (emit_counters _ _).2.trans hv⟩
  · exact ⟨rfl, rfl⟩

/-- An effect counts the requests that it begins and ends in its frame. -/
theorem apply_counted (h : a.Counted (frame.preserved ++ outer)) (chunk : Option String)
    (effect : Effect) :
    (apply chunk (a, frame) effect).1.Counted
      ((apply chunk (a, frame) effect).2.preserved ++ outer) := by
  obtain ⟨hp, hv⟩ := h
  cases effect with
  | collect | hold => exact ⟨hp, hv⟩
  | preserve whitespace =>
    cases whitespace <;>
      exact ⟨by simp [apply, beginPreserving, hp], by simp [apply, beginPreserving, hv]⟩
  | release whitespace =>
    simp only [apply, endPreserving]
    split
    · next hw =>
      have hmem : whitespace ∈ frame.preserved := by simpa using hw
      have hpos := List.length_pos_of_mem hmem
      constructor
      · simp only [hp, List.length_append, List.length_erase_of_mem hmem]
        omega
      · cases whitespace with
        | true =>
          have hcount := List.count_pos_iff.2 hmem
          simp only [if_true, hv, List.count_append, List.count_erase_self]
          omega
        | false => simp [hv, List.count_erase_of_ne]
    · exact ⟨hp, hv⟩
  | flush id =>
    obtain ⟨hfp, hfv⟩ := a.flush_counters frame id
    have hframe := congrArg Frame.preserved (a.flush_frame frame id)
    exact ⟨by rw [apply, hfp, hframe, hp], by rw [apply, hfv, hframe, hv]⟩
  | notify id =>
    obtain ⟨hnp, hnv⟩ := a.notify_counters id frame chunk
    have hframe := congrArg Frame.preserved (a.notify_frame id frame chunk)
    exact ⟨by rw [apply, hnp, hframe, hp], by rw [apply, hnv, hframe, hv]⟩

theorem applyAll_counted (h : a.Counted (frame.preserved ++ outer)) (chunk : Option String)
    (effects : List Effect) :
    (a.applyAll frame chunk effects).1.Counted
      ((a.applyAll frame chunk effects).2.preserved ++ outer) := by
  induction effects generalizing a frame with
  | nil => exact h
  | cons effect effects ih => exact ih (apply_counted h chunk effect)

end Assembly

end XmlSieve
