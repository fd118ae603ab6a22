import XmlSieve.Proofs.Stream.Ending
import XmlSieve.Proofs.Stream.Latitude

/-!
# Output

`Journal.written` is all that was written to one of the sinks.  `Assembly.Prints` says that an
assembly writes every fragment to this sink once, and that its listeners write nothing.  Then the
output is a matter of `Assembly.holding`, which counts the updates that hold output back in the open
frames (`applyAll_holding`): a fragment is written where it is zero (`emit_written`).  What a token
writes is a tag or a text (`acceptStart_written`, `acceptText_written`, `acceptEnd_written`), apart
from what its effects flush (`applyAll_flushes`).
-/

namespace XmlSieve

variable {σ : Type}

/-- The fragment that is noted to have been written to the sink with the number `id`, if one is. -/
def Notice.fragment? (id : Nat) : Notice → Option String
  | data sink fragment => if sink = id then some fragment else none
  | matched _ _ | ended _ | failed _ _ => none

namespace Journal

/-- Everything that was written to the sink with the number `id`. -/
def written (id : Nat) (j : Journal σ) : String :=
  String.join (j.notices.filterMap (Notice.fragment? id))

/-- The journal `k` holds what `j` holds and more, among it these fragments for the sink with the
number `id`. -/
def Adds (id : Nat) (j : Journal σ) (fragments : List String) (k : Journal σ) : Prop :=
  ∃ more, k.notices = j.notices ++ more ∧ more.filterMap (Notice.fragment? id) = fragments

namespace Adds

variable {id : Nat} {j k l : Journal σ} {fragments more : List String}

theorem refl (id : Nat) (j : Journal σ) : Adds id j [] j := ⟨[], (List.append_nil _).symm, rfl⟩

theorem trans (h : Adds id j fragments k) (h' : Adds id k more l) :
    Adds id j (fragments ++ more) l := by
  obtain ⟨first, hfirst, rfl⟩ := h
  obtain ⟨second, hsecond, rfl⟩ := h'
  refine ⟨first ++ second, ?_, List.filterMap_append⟩
  rw [hsecond, hfirst, List.append_assoc]

theorem add (id : Nat) (j : Journal σ) (env : σ) (notice : Notice) :
    Adds id j (notice.fragment? id).toList (j.add env notice) := by
  refine ⟨[notice], rfl, ?_⟩
  rw [List.filterMap_cons]
  cases notice.fragment? id <;> rfl

theorem written (h : Adds id j fragments k) :
    k.written id = j.written id ++ String.join fragments := by
  obtain ⟨more, hmore, rfl⟩ := h
  rw [Journal.written, hmore, List.filterMap_append, String.join_append]
  rfl

end Adds

end Journal

namespace Assembly

variable {a b : Assembly (Journal σ)} {frame : Frame} {chunk : Option String} {id : Nat}

/-- Every fragment is written to the sink with the number `id` once, and listeners write nothing to
it. -/
structure Prints (a : Assembly (Journal σ)) (id : Nat) : Prop where
  listeners : ∀ entry ∈ a.listeners, ∀ listener ∈ entry.2, ∀ (m : Match) (j : Journal σ),
    (listener m j).env.written id = j.written id
  sinks : ∀ fragment (j : Journal σ),
    (a.sinks.foldl (fun env sink => sink fragment env) j).written id = j.written id ++ fragment

theorem Prints.congr (h : a.Prints id) (hlisteners : b.listeners = a.listeners)
    (hsinks : b.sinks = a.sinks) : b.Prints id := by
  refine ⟨?_, ?_⟩
  · rw [hlisteners]
    exact h.listeners
  · rw [hsinks]
    exact h.sinks

/-- There is a sink, or nothing would be written to it. -/
theorem Prints.nonempty (h : a.Prints id) : a.sinks ≠ [] := by
  intro hsinks
  have hwritten := h.sinks "<" a.env
  rw [hsinks, List.foldl_nil] at hwritten
  have hlength := congrArg String.length hwritten
  rw [String.length_append] at hlength
  have hone : "<".length = 1 := rfl
  omega

theorem Prints.same (h : a.Prints id) (hs : SameSetting a b) : b.Prints id :=
  h.congr hs.listeners hs.sinks

theorem Prints.modifyParent (h : a.Prints id) (f : Element → Element) :
    (a.modifyParent f).Prints id := by
  rw [modifyParent_eq]
  exact ⟨h.listeners, h.sinks⟩

/-- A fragment is written where nothing holds output back. -/
theorem emit_written (h : a.Prints id) (fragment : String) :
    (a.emit fragment).env.written id =
      a.env.written id ++ if a.holding = 0 then fragment else "" := by
  have hsinks : a.sinks.isEmpty = false := by simpa using h.nonempty
  unfold emit emitting
  by_cases hh : a.holding = 0
  · rw [hsinks, decide_eq_true hh, if_pos (by rfl), if_pos hh]
    exact h.sinks fragment a.env
  · rw [decide_eq_false hh, Bool.and_false, if_neg (by simp), if_neg hh, String.append_empty]

theorem notify_written (h : a.Prints id) (event : Nat) (frame : Frame) (chunk : Option String) :
    (a.notify event frame chunk).1.env.written id = a.env.written id := by
  refine notify_upholds (P := fun _ j => Journal.written id j = a.env.written id) ?_ rfl chunk
  intro event listeners hget listener hl m j _ hj
  exact (h.listeners _ (List.mem_of_getElem? hget) listener hl m j).trans hj

/-! ### Holding back -/

theorem emit_holding (a : Assembly σ) (fragment : String) :
    (a.emit fragment).holding = a.holding := by
  unfold emit
  split <;> rfl

theorem notify_holding (a : Assembly σ) (event : Nat) (frame : Frame) (chunk : Option String) :
    (a.notify event frame chunk).1.holding = a.holding := by
  unfold notify
  split <;> rfl

theorem modifyParent_holding (a : Assembly σ) (f : Element → Element) :
    (a.modifyParent f).holding = a.holding := by
  unfold modifyParent
  split <;> rfl

/-- An effect counts the updates that begin and end to hold output back in its frame. -/
theorem apply_holding {a : Assembly σ} {outer : Nat} (h : a.holding = frame.held.length + outer)
    (chunk : Option String) (effect : Effect) :
    (apply chunk (a, frame) effect).1.holding =
      (apply chunk (a, frame) effect).2.held.length + outer := by
  cases effect with
  | collect | preserve => exact h
  | release whitespace =>
    simp only [apply, endPreserving]
    split <;> exact h
  | hold event =>
    simp only [apply, beginHolding, List.length_cons]
    omega
  | flush event =>
    have hframe := congrArg Frame.held (a.flush_frame frame event)
    simp only [apply]
    rw [hframe]
    unfold flush
    split
    · next hid =>
      have hmem : event ∈ frame.held := by simpa using hid
      have hpos := List.length_pos_of_mem hmem
      rw [emit_holding]
      simp only [notify_holding, List.length_erase_of_mem hmem]
      omega
    · next hid => rw [List.erase_of_not_mem (by simpa using hid), h]
  | notify event =>
    have hframe := congrArg Frame.held (a.notify_frame event frame chunk)
    simp only [apply]
    rw [hframe, notify_holding, h]

theorem applyAll_holding {a : Assembly σ} {outer : Nat} (h : a.holding = frame.held.length + outer)
    (chunk : Option String) (effects : List Effect) :
    (a.applyAll frame chunk effects).1.holding =
      (a.applyAll frame chunk effects).2.held.length + outer := by
  induction effects generalizing a frame with
  | nil => exact h
  | cons effect effects ih => exact ih (apply_holding h chunk effect)

/-- Effects that flush nothing write nothing. -/
theorem applyAll_written {effects : List Effect} (h : a.Prints id)
    (hflush : effects.filterMap Effect.flush? = []) :
    (a.applyAll frame chunk effects).1.env.written id = a.env.written id := by
  refine applyAll_upholds (Q := fun j => Journal.written id j = a.env.written id) ?_ hflush rfl frame
    chunk
  exact fun b hb hwritten event frame chunk =>
    (notify_written (h.same hb) event frame chunk).trans hwritten

/-! ### Flushing -/

/-- What comes of effects in an element that ends, where `outer` updates of elements around it hold
output back: nothing is written before the last of its own updates, if it has any, and then all of
the element up to its end tag. -/
structure Flushes (a : Assembly (Journal σ)) (frame : Frame) (outer id : Nat)
    (r : Assembly (Journal σ) × Frame) : Prop where
  idle : frame.held = [] → r.2.held = [] ∧ r.2.element = frame.element
  holding : r.1.holding = r.2.held.length + outer
  written : r.1.env.written id = a.env.written id ++
    if outer = 0 ∧ frame.held ≠ [] ∧ r.2.held = [] then r.2.element.openMarkup else ""

namespace Flushes

variable {outer : Nat} {r r' : Assembly (Journal σ) × Frame}

/-- What writes nothing and has to do with no update. -/
theorem silent (hholding : a.holding = frame.held.length + outer)
    (helement : r.2.element = frame.element) (hheld : r.2.held = frame.held)
    (hkept : r.1.holding = a.holding) (hwritten : r.1.env.written id = a.env.written id) :
    Flushes a frame outer id r := by
  refine ⟨fun h => ⟨hheld.trans h, helement⟩, ?_, ?_⟩
  · rw [hkept, hheld, hholding]
  · rw [hwritten, hheld, if_neg (fun h => h.2.1 h.2.2), String.append_empty]

theorem trans (h : Flushes a frame outer id r) (h' : Flushes r.1 r.2 outer id r') :
    Flushes a frame outer id r' := by
  refine ⟨fun hnone => ?_, h'.holding, ?_⟩
  · obtain ⟨hheld, helement⟩ := h.idle hnone
    obtain ⟨hheld', helement'⟩ := h'.idle hheld
    exact ⟨hheld', helement'.trans helement⟩
  · rw [h'.written, h.written, String.append_assoc]
    congr 1
    by_cases hr : r.2.held = []
    · -- The element was written by the effects before, if at all, and stays as it is.
      obtain ⟨hheld', helement'⟩ := h'.idle hr
      simp [hr, hheld', helement']
    · -- Some update is still to be told, and therefore was to be told before.
      have hframe : frame.held ≠ [] := fun hnone => hr (h.idle hnone).1
      simp [hr, hframe]

end Flushes

theorem flush_flushes {n outer : Nat} (hprints : a.Prints id)
    (hholding : a.holding = frame.held.length + outer) :
    Flushes a frame outer id (a.flush frame n) := by
  by_cases hn : n ∈ frame.held
  · have hframe := a.flush_frame frame n
    have hkept : (a.flush frame n).1.holding = (a.flush frame n).2.held.length + outer :=
      apply_holding hholding none (.flush n)
    have hheld : (a.flush frame n).2.held = frame.held.erase n := by rw [hframe]
    have hne : frame.held ≠ [] := List.ne_nil_of_mem hn
    refine ⟨fun hnone => absurd hnone hne, hkept, ?_⟩
    rw [hheld] at hkept ⊢
    unfold flush at hkept ⊢
    rw [if_pos (List.contains_iff_mem.2 hn)] at hkept ⊢
    dsimp only at hkept ⊢
    have htold := notify_written hprints n { frame with held := frame.held.erase n } none
    have hsame := a.notify_same n { frame with held := frame.held.erase n } none
    generalize a.notify n { frame with held := frame.held.erase n } none = told at htold hsame hkept ⊢
    have hprints' : Prints { told.1 with holding := told.1.holding - 1 } id :=
      hprints.congr hsame.listeners hsame.sinks
    rw [emit_holding] at hkept
    rw [emit_written hprints', hkept]
    refine congrArg₂ (· ++ ·) htold ?_
    by_cases ho : outer = 0 ∧ frame.held.erase n = []
    · simp [ho, hne]
    · have hcount : ¬ (frame.held.erase n).length + outer = 0 := by
        rw [Nat.add_eq_zero_iff, List.length_eq_zero_iff]
        exact fun h => ho ⟨h.2, h.1⟩
      rw [if_neg hcount, if_neg fun h => ho ⟨h.1, h.2.2⟩]
  · have hflush : a.flush frame n = (a, frame) :=
      if_neg (by simpa using hn)
    rw [hflush]
    exact .silent hholding rfl rfl rfl rfl

/-- Effects of an end tag flush the element, where only updates change it. -/
theorem applyAll_flushes {effects : List Effect} {outer : Nat} (hprints : a.Prints id)
    (hfits : ∀ effect ∈ effects, effect.Fits .leave)
    (hnotify : ∀ n, .notify n ∈ effects → a.Confined n false)
    (hholding : a.holding = frame.held.length + outer) :
    Flushes a frame outer id (a.applyAll frame none effects) := by
  induction effects generalizing a frame with
  | nil => exact .silent hholding rfl rfl rfl rfl
  | cons effect effects ih =>
    have hsame := a.apply_same frame none effect
    have hfirst : Flushes a frame outer id (apply none (a, frame) effect) := by
      have hfit := hfits effect (by simp)
      cases effect with
      | collect | preserve | hold => cases hfit
      | release whitespace =>
        simp only [apply, endPreserving]
        split <;> exact .silent hholding rfl rfl rfl rfl
      | flush n => exact flush_flushes hprints hholding
      | notify n =>
        have hheld := congrArg Frame.held (a.notify_frame n frame none)
        have helement := (notify_becomes (hnotify n (by simp)) frame none).eq
        exact .silent hholding helement hheld (notify_holding a n frame none)
          (notify_written hprints n frame none)
    refine hfirst.trans (ih (hprints.same hsame) (fun e he => hfits e (by simp [he])) ?_
      hfirst.holding)
    exact fun n hn => (hnotify n (by simp [hn])).same hsame

/-! ### Tokens -/

/-- What a start tag writes and holds back, when its effects have run. -/
theorem pushFrame_written (h : a.Prints id) (frame : Frame) :
    (a.pushFrame frame).env.written id = a.env.written id ++
        (if a.holding = 0 then Markup.startTag frame.element.name frame.element.attributes
          else "") ∧
      (a.pushFrame frame).holding = a.holding := by
  have hnodes : ((if a.preserving > 0 then frame.startNodes else frame).element.name,
      (if a.preserving > 0 then frame.startNodes else frame).element.attributes) =
        (frame.element.name, frame.element.attributes) := by
    split <;> rfl
  obtain ⟨hname, hattributes⟩ := Prod.mk.inj hnodes
  unfold pushFrame
  dsimp only
  rw [emit_written (h.modifyParent _), emit_holding, modifyParent_holding, hname, hattributes,
    Follows.modifyParent_env]
  exact ⟨rfl, rfl⟩

theorem acceptStart_written (h : a.Prints id) (name : String) (attributes : Attributes)
    (hflush : ((a.automaton.enter name).1.flags ++
      (a.automaton.enter name).1.enter).filterMap Effect.flush? = []) :
    (a.acceptStart name attributes).env.written id = a.env.written id ++
        (if (a.runStart name attributes).1.holding = 0 then
          Markup.startTag (a.runStart name attributes).2.element.name
            (a.runStart name attributes).2.element.attributes else "") ∧
      (a.acceptStart name attributes).holding = (a.runStart name attributes).1.holding := by
  have hprints : Prints { a with automaton := (a.automaton.enter name).2 } id :=
    ⟨h.listeners, h.sinks⟩
  have hran : (a.runStart name attributes).1.Prints id := hprints.same (applyAll_same _ _ _ _)
  have hpush := pushFrame_written hran (a.runStart name attributes).2
  have heffects : (a.runStart name attributes).1.env.written id = a.env.written id :=
    applyAll_written hprints hflush
  rw [acceptStart_eq, hpush.1, heffects, hpush.2]
  exact ⟨rfl, rfl⟩

theorem acceptText_written {outer : List Frame} {content : String} (h : a.Prints id)
    (hframes : a.frames = frame :: outer)
    (hflush : (a.automaton.due .inside).filterMap Effect.flush? = [])
    (hb : a.acceptText content = .ok b) :
    b.env.written id = a.env.written id ++
        (if (a.runText frame outer content).1.holding = 0 then escape content else "") ∧
      b.holding = (a.runText frame outer content).1.holding := by
  have hprints : Prints { a with frames := outer } id := ⟨h.listeners, h.sinks⟩
  have hran : (a.runText frame outer content).1.Prints id := hprints.same (applyAll_same _ _ _ _)
  have heffects : (a.runText frame outer content).1.env.written id = a.env.written id :=
    applyAll_written hprints hflush
  rw [acceptText_eq hframes] at hb
  cases hb
  have hpushed : Prints { (a.runText frame outer content).1 with
      frames := (a.runText frame outer content).2 ::
        (a.runText frame outer content).1.frames } id :=
    ⟨hran.listeners, hran.sinks⟩
  rw [emit_written hpushed, emit_holding]
  exact ⟨congrArg (· ++ _) heffects, rfl⟩

/-- What an end tag writes, when its effects have run. -/
theorem popFrame_written (h : a.Prints id) (frame : Frame) :
    (a.popFrame frame).env.written id = a.env.written id ++
        (if a.holding = 0 then Markup.endTag frame.element.name else "") ∧
      (a.popFrame frame).holding = a.holding := by
  unfold popFrame store
  rw [emit_written (h.modifyParent _), emit_holding, modifyParent_holding,
    Follows.modifyParent_env]
  exact ⟨rfl, rfl⟩

theorem acceptEnd_written {outer : List Frame} {set : StateSet} {sets : List StateSet}
    (h : a.Prints id) (hframes : a.frames = frame :: outer)
    (hactive : a.automaton.active = set :: sets) (hb : a.acceptEnd = .ok b) :
    b.env.written id = (a.runEnd frame outer set sets).1.env.written id ++
        (if (a.runEnd frame outer set sets).1.holding = 0 then
          Markup.endTag (a.runEnd frame outer set sets).2.element.name else "") ∧
      b.holding = (a.runEnd frame outer set sets).1.holding := by
  rw [acceptEnd_eq hframes hactive] at hb
  cases hb
  have hsame := applyAll_same
    { a with automaton := { a.automaton with active := sets }, frames := outer } frame none
    (a.automaton.hooks.fire .leave set)
  exact popFrame_written (h.congr hsame.listeners hsame.sinks) _

theorem accept_prints {token : Token} (h : a.Prints id) (hb : a.accept token = .ok b) :
    b.Prints id :=
  h.congr (accept_keeps hb).1 (accept_keeps hb).2

end Assembly

namespace Registration

/-- The sink, if it is one. -/
def sink? : Registration σ → Option (String → σ → σ)
  | data sink => some sink
  | on _ _ | collect _ | preserve _ _ | atEnd _ | atError _ => none

/-- The listener for the end, if it is one. -/
def ending? : Registration σ → Option (σ → σ)
  | atEnd listener => some listener
  | on _ _ | collect _ | preserve _ _ | data _ | atError _ => none

/-- Writing to all sinks that are registered writes to each of them once. -/
theorem foldl_sinks_adds (registrations : List (Registration σ)) (id : Nat) (fragment : String)
    (j : Journal σ) :
    Journal.Adds id j (if (registrations[id]?.bind sink?).isSome then [fragment] else [])
      (((loggedAll registrations.zipIdx).filterMap sink?).foldl
        (fun env sink => sink fragment env) j) := by
  induction registrations using List.reverseRecOn with
  | nil => exact .refl id j
  | append_singleton registrations r ih =>
    rw [loggedAll_concat, List.filterMap_append, List.foldl_append]
    have hlast (k : Journal σ) :
        Journal.Adds id k (if registrations.length = id ∧ (sink? r).isSome then [fragment] else [])
          ((([r.logged registrations.length] : List _).filterMap sink?).foldl
            (fun env sink => sink fragment env) k) := by
      cases r with
      | data sink =>
        have hfragment : (if registrations.length = id ∧ (sink? (.data sink)).isSome then [fragment]
            else []) = ((Notice.data registrations.length fragment).fragment? id).toList := by
          by_cases hid : registrations.length = id <;> simp [Notice.fragment?, sink?, hid]
        rw [hfragment]
        exact .add id k _ _
      | on | collect | preserve | atEnd | atError =>
        rw [if_neg (by simp [sink?])]
        exact .refl id k
    have hall := ih.trans (hlast _)
    suffices hsame : ((if (registrations[id]?.bind sink?).isSome then [fragment] else []) ++
        if registrations.length = id ∧ (sink? r).isSome then [fragment] else []) =
          if (((registrations ++ [r])[id]?).bind sink?).isSome then [fragment] else [] by
      rwa [hsame] at hall
    rcases Nat.lt_trichotomy id registrations.length with hid | hid | hid
    · rw [List.getElem?_append_left hid]
      simp [Nat.ne_of_gt hid]
    · subst hid
      simp
    · have hlength : (registrations ++ [r]).length ≤ id := by
        rw [List.length_append]
        exact hid
      rw [List.getElem?_eq_none hlength, List.getElem?_eq_none (Nat.le_of_lt hid)]
      simp [Nat.ne_of_lt hid]

theorem foldl_sinks_written (registrations : List (Registration σ)) (id : Nat) (fragment : String)
    (j : Journal σ) :
    (((loggedAll registrations.zipIdx).filterMap sink?).foldl
        (fun env sink => sink fragment env) j).written id =
      j.written id ++ if (registrations[id]?.bind sink?).isSome then fragment else "" := by
  rw [(foldl_sinks_adds registrations id fragment j).written]
  split <;> simp

/-- What a sink writes down is no match. -/
theorem sightings_of_sink {numbered : List (Registration σ × Nat)}
    {sink : String → Journal σ → Journal σ} (h : sink ∈ (loggedAll numbered).filterMap sink?)
    (fragment : String) (j : Journal σ) : (sink fragment j).sightings = j.sightings := by
  obtain ⟨r, hr, hsink⟩ := List.mem_filterMap.1 h
  obtain ⟨⟨r, id⟩, -, rfl⟩ := List.mem_map.1 hr
  cases r with
  | data inner =>
    cases hsink
    exact Stream.sightings_add j _ rfl
  | on | collect | preserve | atEnd | atError => cases hsink

/-- Listeners for the end write nothing. -/
theorem foldl_endings_adds (registrations : List (Registration σ)) (id : Nat) (j : Journal σ) :
    Journal.Adds id j [] (((loggedAll registrations.zipIdx).filterMap ending?).foldl
      (fun env listener => listener env) j) := by
  induction registrations using List.reverseRecOn with
  | nil => exact .refl id j
  | append_singleton registrations r ih =>
    rw [loggedAll_concat, List.filterMap_append, List.foldl_append]
    refine ih.trans ?_
    cases r with
    | atEnd listener => exact .add id _ _ _
    | on | collect | preserve | data | atError => exact .refl id _

theorem foldl_endings_written (registrations : List (Registration σ)) (id : Nat) (j : Journal σ) :
    (((loggedAll registrations.zipIdx).filterMap ending?).foldl
        (fun env listener => listener env) j).written id = j.written id := by
  rw [(foldl_endings_adds registrations id j).written]
  simp

end Registration

open Registration

namespace Stream

variable {registrations : List (Registration σ)}

/-- Where the output goes and what is told at the end, and that registering does nothing yet. -/
theorem register_output (s : Stream σ) (r : Registration σ) :
    (s.register r).assembly.sinks = s.assembly.sinks ++ (sink? r).toList ∧
      (s.register r).onEnd = s.onEnd ++ (ending? r).toList ∧
      (s.register r).env = s.env ∧ (s.register r).assembly.holding = s.assembly.holding ∧
      (s.register r).assembly.document = s.assembly.document := by
  cases r with
  | on event listener =>
    simp only [register, Stream.on]
    cases Subscription.parse? event with
    | none => simp [sink?, ending?]
    | some subscription =>
      simp only [Assembly.subscribe]
      split <;> simp [sink?, ending?, Assembly.register, Stream.env]
  | collect | preserve | data | atEnd | atError =>
    simp [register, Stream.collect, Stream.preserve, onData, addEndListener, addErrorListener,
      sink?, ending?, Assembly.collect, Assembly.preserve, Assembly.register, Stream.env]

theorem registered_output (env : σ) (registrations : List (Registration σ)) :
    (registered env registrations).assembly.sinks = registrations.filterMap sink? ∧
      (registered env registrations).onEnd = registrations.filterMap ending? ∧
      (registered env registrations).env = env ∧
      (registered env registrations).assembly.holding = 0 ∧
      (registered env registrations).assembly.document = {} := by
  induction registrations using List.reverseRecOn with
  | nil => exact ⟨rfl, rfl, rfl, rfl, rfl⟩
  | append_singleton registrations r ih =>
    obtain ⟨hsinks, honEnd, henv, hholding, hdocument⟩ := ih
    rw [registered, List.foldl_append]
    obtain ⟨hsinks', honEnd', henv', hholding', hdocument'⟩ :=
      register_output (registered env registrations) r
    refine ⟨hsinks'.trans ?_, honEnd'.trans ?_, henv'.trans henv, hholding'.trans hholding,
      hdocument'.trans hdocument⟩
    · rw [hsinks, List.filterMap_append]
      cases hr : sink? r <;> simp [hr]
    · rw [honEnd, List.filterMap_append]
      cases hr : ending? r <;> simp [hr]

/-- Telling a listener of a match writes no fragment down. -/
theorem journaled_telling (env : σ) {entry : String × List (Listener (Journal σ))}
    (he : entry ∈ (journaled env registrations).assembly.listeners)
    {listener : Listener (Journal σ)} (hl : listener ∈ entry.2) (id : Nat) (m : Match)
    (j : Journal σ) : Journal.Adds id j [] (listener m j).env := by
  obtain ⟨n, hget⟩ := List.getElem?_of_mem he
  obtain ⟨s, -, -, hlogged⟩ := journaled_listeners env hget
  obtain ⟨i, -, event, inner, -, -, rfl⟩ := exists_of_mem_forall₂ hlogged hl
  exact .add id j _ _

/-- A stream that was set up writes every fragment to each of its sinks once. -/
theorem journaled_prints (env : σ) {id : Nat} {sink : String → σ → σ}
    (h : registrations[id]? = some (.data sink)) :
    (journaled env registrations).assembly.Prints id := by
  constructor
  · intro entry he listener hl m j
    exact (journaled_telling env he hl id m j).written.trans String.append_empty
  · intro fragment j
    rw [journaled, (registered_output _ _).1, foldl_sinks_written, h]
    rfl

/-- When a stream has ended, what was written came of the tokens of the document. -/
theorem exists_written_of_ended {env : σ} {calls : List Call} {verdicts : List Verdict}
    {u : Stream (Journal σ)} (hrun : (journaled env registrations).run calls = .ok (verdicts, u))
    (hu : u.phase = .ended) (id : Nat) :
    ∃ b, (journaled env registrations).assembly.acceptAll
        (Document.transcript (Call.input calls)).tokens = .ok b ∧
      u.env.written id = b.env.written id := by
  obtain ⟨b, hb, henv⟩ := exists_acceptAll_of_ended hrun hu
  refine ⟨b, hb, ?_⟩
  rw [henv, journaled, (registered_output _ _).2.1, foldl_endings_written]

end Stream

end XmlSieve
