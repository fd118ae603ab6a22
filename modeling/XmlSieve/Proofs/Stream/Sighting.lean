import XmlSieve.Proofs.Element.Outline
import XmlSieve.Proofs.Stream.Effects
import XmlSieve.Proofs.Stream.Setup

/-!
# Sightings

A `Sighting` is what a journal keeps of a match: the number of the listener, the event, and the
scene that the listener could see.  Listeners that leave elements as they are (`Registration.Still`)
are sighted once for every effect that tells of their event, in the order of the effects, and
nothing else that the effects of a token do depends on them (`applyAll_ran`).
-/

namespace XmlSieve

/-- A match as a listener was told of it. -/
structure Sighting where
  /-- The number of the listener. -/
  id : Nat
  event : String
  scene : Scene

def Match.scene (m : Match) : Scene where
  path := (m.ancestry.elements.map (·.name)).reverse ++ [m.element.name]
  element := m.element
  chunk := m.chunk

/-- What the listener with the number `id` sees of a match. -/
def Match.sighting (m : Match) (id : Nat) : Sighting := ⟨id, m.event, m.scene⟩

/-- The sighting that is noted, if it is one. -/
def Notice.sighting? : Notice → Option Sighting
  | matched id m => some (m.sighting id)
  | data _ _ | ended _ | failed _ _ => none

/-- All sightings in a journal. -/
def Journal.sightings {σ : Type} (j : Journal σ) : List Sighting :=
  j.notices.filterMap Notice.sighting?

/-- What adds no sighting one by one adds none one after the other. -/
theorem foldl_sightings {σ α : Type} {f : Journal σ → α → Journal σ} {xs : List α}
    (h : ∀ x ∈ xs, ∀ j, (f j x).sightings = j.sightings) (j : Journal σ) :
    (xs.foldl f j).sightings = j.sightings := by
  induction xs generalizing j with
  | nil => rfl
  | cons x xs ih =>
    rw [List.foldl_cons, ih (fun x hx => h x (by simp [hx])), h x (by simp)]

/-- A registration whose listener leaves elements as they are. -/
def Registration.Still {σ : Type} : Registration σ → Prop
  | on _ listener => ∀ m env, (listener m env).element = m.element
  | collect _ | preserve _ _ | data _ | atEnd _ | atError _ => True

/-- Events with the numbers of the listeners that are told of them. -/
abbrev Roster := List (String × List Nat)

/-- Who sees the scene when the event with the number `id` is told. -/
def Roster.sightings (roster : Roster) (scene : Scene) (id : Nat) : List Sighting :=
  match roster[id]? with
  | none => []
  | some (event, ids) => ids.map (⟨·, event, scene⟩)

variable {σ : Type}

/-! ### Telling listeners -/

/-- What each listener keeps up, given those that were told before it, holds of the element and the
journal when all were told. -/
theorem Listener.tellAll_induction {ι : Type} {listeners : List (Listener σ)} {ids : List ι}
    {R : Listener σ → ι → Prop} {P : List ι → Element → σ → Prop}
    (h : List.Forall₂ R listeners ids) (m : Match) (env : σ) (hfirst : P [] m.element env)
    (hnext : ∀ told listener id e env, R listener id → P told e env →
      P (told ++ [id]) (listener { m with element := e } env).element
        (listener { m with element := e } env).env) :
    P ids (tellAll listeners m env).element (tellAll listeners m env).env := by
  suffices hfold : ∀ (told : List ι) (r : Reaction σ), P told r.element r.env →
      let all := listeners.foldl
        (fun r listener =>
          let r' := listener { m with element := r.element } r.env
          { r' with pause := r.pause || r'.pause }) r
      P (told ++ ids) all.element all.env from hfold [] _ hfirst
  induction h with
  | nil =>
    intro told r hr
    rwa [List.append_nil]
  | @cons listener id listeners ids hlistener _ ih =>
    intro told r hr
    rw [List.append_cons]
    exact ih (told ++ [id]) _ (hnext told listener id _ _ hlistener hr)

/-- What every listener keeps up holds of the element and the journal when all were told. -/
theorem Listener.tellAll_keeps {listeners : List (Listener σ)} {P : Element → σ → Prop} (m : Match)
    (env : σ) (hfirst : P m.element env)
    (hnext : ∀ listener ∈ listeners, ∀ e env, P e env →
      P (listener { m with element := e } env).element
        (listener { m with element := e } env).env) :
    P (tellAll listeners m env).element (tellAll listeners m env).env :=
  tellAll_induction (R := fun listener _ => listener ∈ listeners) (P := fun _ => P)
    (List.forall₂_same.2 fun _ hl => hl) m env hfirst
    fun _ listener _ e env hl => hnext listener hl e env

/-- What each of those who are told of an event keeps up holds when all of them were told. -/
theorem Assembly.notify_upholds {a : Assembly σ} {P : Element → σ → Prop} {id : Nat} {frame : Frame}
    (hlisteners : ∀ event listeners, a.listeners[id]? = some (event, listeners) →
      ∀ listener ∈ listeners, ∀ m env, m.ancestry = a.ancestry → P m.element env →
        P (listener m env).element (listener m env).env)
    (hP : P frame.element a.env) (chunk : Option String) :
    P (a.notify id frame chunk).2.element (a.notify id frame chunk).1.env := by
  unfold notify
  cases hget : a.listeners[id]? with
  | none => exact hP
  | some entry =>
    refine Listener.tellAll_keeps _ _ hP fun listener hl e env he => ?_
    exact hlisteners entry.1 entry.2 hget listener hl _ env rfl he

/-! ### Listeners that are sighted -/

/-- A listener that leaves elements as they are and is sighted under the number `id`. -/
def Listener.SeenAs (listener : Listener (Journal σ)) (id : Nat) : Prop :=
  ∀ m j, (listener m j).element = m.element ∧
    (listener m j).env.sightings = j.sightings ++ [m.sighting id]

theorem seenAs_listen {listener : Listener σ}
    (h : ∀ m env, (listener m env).element = m.element) (id : Nat) :
    (Journal.listen id listener).SeenAs id := by
  refine fun m j => ⟨h m j.env, ?_⟩
  simp [Journal.listen, Journal.add, Journal.sightings, Notice.sighting?]

theorem tellAll_seen {listeners : List (Listener (Journal σ))} {ids : List Nat}
    (h : List.Forall₂ Listener.SeenAs listeners ids) (m : Match) (j : Journal σ) :
    (Listener.tellAll listeners m j).element = m.element ∧
      (Listener.tellAll listeners m j).env.sightings = j.sightings ++ ids.map m.sighting := by
  refine Listener.tellAll_induction
    (P := fun told e env => e = m.element ∧ env.sightings = j.sightings ++ told.map m.sighting)
    h m j ⟨rfl, (List.append_nil _).symm⟩ ?_
  rintro told listener id _ env hseen ⟨rfl, hsightings⟩
  obtain ⟨helement, hnew⟩ := hseen m env
  refine ⟨helement, hnew.trans ?_⟩
  rw [hsightings, List.append_assoc, List.map_append, List.map_singleton]

namespace Assembly

variable {a : Assembly (Journal σ)} {roster : Roster} {frame : Frame} {chunk : Option String}

/-- The listeners are sighted under the numbers in the roster, and the sinks see nothing. -/
structure Scribed (a : Assembly (Journal σ)) (roster : Roster) : Prop where
  listeners : List.Forall₂
    (fun entry names => entry.1 = names.1 ∧ List.Forall₂ Listener.SeenAs entry.2 names.2)
    a.listeners roster
  sinks : ∀ sink ∈ a.sinks, ∀ fragment j, (sink fragment j).sightings = j.sightings

theorem Scribed.same {b : Assembly (Journal σ)} (h : a.Scribed roster) (hs : SameSetting a b) :
    b.Scribed roster := by
  constructor
  · rw [hs.listeners]
    exact h.listeners
  · rw [hs.sinks]
    exact h.sinks

theorem emit_sightings (h : a.Scribed roster) (fragment : String) :
    (a.emit fragment).env.sightings = a.env.sightings :=
  emit_shows h.sinks fragment

/-- The scene in the element of `frame`, which is not among the open frames. -/
def scene (a : Assembly σ) (frame : Frame) (chunk : Option String) : Scene where
  path := (a.frames.map (·.element.name)).reverse ++ [frame.element.name]
  element := frame.element
  chunk

theorem notify_sightings (h : a.Scribed roster) (id : Nat) (frame : Frame)
    (chunk : Option String) :
    (a.notify id frame chunk).2 = frame ∧
      (a.notify id frame chunk).1.env.sightings =
        a.env.sightings ++ roster.sightings (a.scene frame chunk) id := by
  have hentry := forall₂_getElem? h.listeners id
  unfold notify Roster.sightings
  generalize a.listeners[id]? = entry, roster[id]? = told at hentry ⊢
  cases hentry with
  | none => exact ⟨rfl, (List.append_nil _).symm⟩
  | @some entry told hboth =>
    obtain ⟨event, listeners⟩ := entry
    obtain ⟨_, ids⟩ := told
    obtain ⟨rfl, hseen⟩ := hboth
    dsimp only at hseen ⊢
    obtain ⟨helement, hsightings⟩ := tellAll_seen hseen
      { event, element := frame.element, ancestry := a.ancestry, chunk } a.env
    refine ⟨by rw [helement], hsightings.trans ?_⟩
    simp [Match.sighting, Match.scene, Ancestry.elements, ancestry, scene, Function.comp_def]

/-! ### Effects -/

theorem flush_sightings (h : a.Scribed roster) {id : Nat} (hid : id ∈ frame.held) :
    (a.flush frame id).2 = { frame with held := frame.held.erase id } ∧
      (a.flush frame id).1.env.sightings =
        a.env.sightings ++ roster.sightings (a.scene frame none) id := by
  unfold flush
  rw [if_pos (List.contains_iff_mem.2 hid)]
  obtain ⟨hframe, hsightings⟩ :=
    notify_sightings h id { frame with held := frame.held.erase id } none
  have hsame := a.notify_same id { frame with held := frame.held.erase id } none
  generalize a.notify id { frame with held := frame.held.erase id } none = told at *
  have htold : Scribed { told.1 with holding := told.1.holding - 1 } roster :=
    ⟨(h.same hsame).listeners, (h.same hsame).sinks⟩
  exact ⟨hframe, (emit_sightings htold _).trans hsightings⟩

/-- One effect tells of its event, if it has one, and leaves the element as it is. -/
theorem apply_seen {effect : Effect} (h : a.Scribed roster)
    (hflush : ∀ id, effect = .flush id → id ∈ frame.held ∧ chunk = none) :
    (apply chunk (a, frame) effect).2.element = frame.element ∧
      (apply chunk (a, frame) effect).1.env.sightings = a.env.sightings ++
        effect.told?.toList.flatMap (roster.sightings (a.scene frame chunk)) := by
  cases effect with
  | collect | preserve | release | hold =>
    rw [apply_quiet_element rfl, apply_quiet_env rfl]
    exact ⟨rfl, (List.append_nil _).symm⟩
  | flush id =>
    obtain ⟨hid, rfl⟩ := hflush id rfl
    obtain ⟨hframe, hsightings⟩ := flush_sightings h hid
    have helement := congrArg Frame.element hframe
    refine ⟨helement, hsightings.trans ?_⟩
    simp [Effect.told?]
  | notify id =>
    obtain ⟨hframe, hsightings⟩ := notify_sightings h id frame chunk
    have helement := congrArg Frame.element hframe
    refine ⟨helement, hsightings.trans ?_⟩
    simp [Effect.told?]

/-- Effects that flush only what is held tell of their events in their order, and leave the element
as it is. -/
theorem applyAll_seen {effects : List Effect} {kept : List Nat} (h : a.Scribed roster)
    (hchunk : ∀ id, .flush id ∈ effects → chunk = none)
    (hheld : frame.held.Perm (effects.filterMap Effect.flush? ++ kept)) :
    (a.applyAll frame chunk effects).2.element = frame.element ∧
      (a.applyAll frame chunk effects).1.env.sightings = a.env.sightings ++
        (effects.filterMap Effect.told?).flatMap (roster.sightings (a.scene frame chunk)) := by
  induction effects generalizing a frame kept with
  | nil => exact ⟨rfl, (List.append_nil _).symm⟩
  | cons effect effects ih =>
    have hflush (id : Nat) (he : effect = .flush id) : id ∈ frame.held ∧ chunk = none :=
      ⟨mem_held_of_flush (he ▸ hheld), hchunk id (by simp [he])⟩
    have hsame := a.apply_same frame chunk effect
    have hnext := apply_held_perm a chunk hheld
    obtain ⟨helement, hsightings⟩ := apply_seen h hflush
    obtain ⟨helement', hsightings'⟩ := ih (h.same hsame)
      (fun id hid => hchunk id (by simp [hid])) hnext
    refine ⟨helement'.trans helement, hsightings'.trans ?_⟩
    have hscene : (apply chunk (a, frame) effect).1.scene (apply chunk (a, frame) effect).2 chunk =
        a.scene frame chunk := by
      simp only [scene, hsame.frames, helement]
    rw [hsightings, hscene, List.append_assoc, ← List.flatMap_append, List.filterMap_cons]
    cases effect.told? <;> rfl

/-! ### What comes of effects -/

/-- The assembly and the frame that come of effects on `frame`, where the requests in `wanted` and
the updates in `kept` are under way and none of the effects ends them. -/
structure Ran (a : Assembly (Journal σ)) (frame : Frame) (chunk : Option String)
    (effects : List Effect) (roster : Roster) (wanted : List Bool) (kept : List Nat)
    (r : Assembly (Journal σ) × Frame) : Prop where
  same : SameSetting a r.1
  element : r.2.element = frame.element
  spacing : r.2.spacing = frame.spacing
  collected : r.2.collected = (frame.collected || decide (.collect ∈ effects))
  preserved : r.2.preserved.Perm (wanted ++ effects.filterMap Effect.preserve?)
  held : r.2.held.Perm (kept ++ effects.filterMap Effect.hold?)
  counted : ∀ outer, a.Counted (frame.preserved ++ outer) → r.1.Counted (r.2.preserved ++ outer)
  sightings : r.1.env.sightings = a.env.sightings ++
    (effects.filterMap Effect.told?).flatMap (roster.sightings (a.scene frame chunk))

theorem applyAll_ran {effects : List Effect} {wanted : List Bool} {kept : List Nat}
    (h : a.Scribed roster) (hchunk : ∀ id, .flush id ∈ effects → chunk = none)
    (hpreserved : frame.preserved.Perm (effects.filterMap Effect.release? ++ wanted))
    (hheld : frame.held.Perm (effects.filterMap Effect.flush? ++ kept)) :
    Ran a frame chunk effects roster wanted kept (a.applyAll frame chunk effects) := by
  obtain ⟨helement, hsightings⟩ := applyAll_seen h hchunk hheld
  have hframe := a.applyAll_frame frame chunk effects
  refine ⟨a.applyAll_same frame chunk effects, helement, ?_, ?_, ?_, ?_,
    fun outer hcounted => applyAll_counted hcounted chunk effects, hsightings⟩
  · rw [hframe]
  · rw [hframe]
  · rw [hframe]
    exact Effect.foldl_track_perm (fun e _ => e.preserve_release) hpreserved
  · rw [hframe]
    exact Effect.foldl_track_perm (fun e _ => e.hold_flush) hheld

end Assembly

end XmlSieve
