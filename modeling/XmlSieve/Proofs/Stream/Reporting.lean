import XmlSieve.Proofs.Stream.Tracking

/-!
# Sightings of elements that are renamed

Where listeners rename elements, a scene depends on who was told before.  What an element holds of
its children does not (`Sighting.report`): effects tell of their events in their order, each with
the children that the element had before them all (`applyAll_reported`).
-/

namespace XmlSieve

variable {σ : Type}

theorem Element.MayBecome.children {renames : Bool} {e e' : Element} (h : e.MayBecome renames e') :
    e'.children = e.children := by
  rw [h.eq_named]

/-- What a sighting says that does not depend on the names of elements: who was told of which event,
and what the element held of its children. -/
def Sighting.report (g : Sighting) : Nat × String × Entries (Slot Element) :=
  (g.id, g.event, g.scene.element.children)

/-- All reports in a journal. -/
def Journal.reports (j : Journal σ) : List (Nat × String × Entries (Slot Element)) :=
  j.sightings.map Sighting.report

/-- A listener that renames elements at most and is sighted under the number `id`. -/
def Listener.Reports (listener : Listener (Journal σ)) (id : Nat) : Prop :=
  ∀ m j, m.element.MayBecome true (listener m j).element ∧
    (listener m j).env.sightings = j.sightings ++ [m.sighting id]

theorem tellAll_reports {listeners : List (Listener (Journal σ))} {ids : List Nat}
    (h : List.Forall₂ Listener.Reports listeners ids) (m : Match) (j : Journal σ) :
    m.element.MayBecome true (Listener.tellAll listeners m j).element ∧
      (Listener.tellAll listeners m j).env.reports =
        j.reports ++ ids.map (·, m.event, m.element.children) := by
  refine Listener.tellAll_induction
    (P := fun told e env => m.element.MayBecome true e ∧
      env.reports = j.reports ++ told.map (·, m.event, m.element.children))
    h m j ⟨.refl _ _, (List.append_nil _).symm⟩ ?_
  rintro told listener id e env hlistener ⟨he, hreports⟩
  obtain ⟨helement, hsightings⟩ := hlistener { m with element := e } env
  refine ⟨he.trans helement, ?_⟩
  have hnew : (Match.sighting { m with element := e } id).report =
      (id, m.event, m.element.children) :=
    congrArg (fun children => (id, m.event, children)) he.children
  rw [Journal.reports, hsightings, List.map_append, List.map_singleton, hnew, List.map_append,
    List.map_singleton, ← List.append_assoc, ← hreports, Journal.reports]

namespace Assembly

variable {a b : Assembly (Journal σ)} {roster : Roster} {frame : Frame} {scene : Scene}

/-- Listeners rename elements at most and are sighted as the roster says, and sinks see nothing. -/
structure Reported (a : Assembly (Journal σ)) (roster : Roster) : Prop where
  listeners : List.Forall₂
    (fun entry seen => entry.1 = seen.1 ∧ List.Forall₂ Listener.Reports entry.2 seen.2)
    a.listeners roster
  sinks : ∀ sink ∈ a.sinks, ∀ fragment j, (sink fragment j).sightings = j.sightings

theorem Reported.congr (h : a.Reported roster) (hlisteners : b.listeners = a.listeners)
    (hsinks : b.sinks = a.sinks) : b.Reported roster := by
  constructor
  · rw [hlisteners]
    exact h.listeners
  · rw [hsinks]
    exact h.sinks

theorem Reported.same (h : a.Reported roster) (hs : SameSetting a b) : b.Reported roster :=
  h.congr hs.listeners hs.sinks

theorem emit_reports (h : a.Reported roster) (fragment : String) :
    (a.emit fragment).env.reports = a.env.reports :=
  congrArg (List.map Sighting.report) (emit_shows h.sinks fragment)

/-- What comes of telling of an event in the element of a frame that holds these children. -/
theorem notify_reports (h : a.Reported roster) (frame : Frame)
    (hscene : scene.element.children = frame.element.children) (id : Nat) (chunk : Option String) :
    frame.element.MayBecome true (a.notify id frame chunk).2.element ∧
      (a.notify id frame chunk).1.env.reports =
        a.env.reports ++ (roster.sightings scene id).map Sighting.report := by
  have hentry := forall₂_getElem? h.listeners id
  unfold notify Roster.sightings
  generalize a.listeners[id]? = entry, roster[id]? = told at hentry ⊢
  cases hentry with
  | none => exact ⟨.refl _ _, (List.append_nil _).symm⟩
  | @some entry told hboth =>
    obtain ⟨event, listeners⟩ := entry
    obtain ⟨_, ids⟩ := told
    obtain ⟨rfl, hreports⟩ := hboth
    dsimp only at hreports ⊢
    obtain ⟨helement, hall⟩ := tellAll_reports hreports
      { event, element := frame.element, ancestry := a.ancestry, chunk } a.env
    refine ⟨helement, hall.trans ?_⟩
    simp [Sighting.report, hscene]

theorem flush_reports (h : a.Reported roster)
    (hscene : scene.element.children = frame.element.children) {id : Nat} (hid : id ∈ frame.held) :
    frame.element.MayBecome true (a.flush frame id).2.element ∧
      (a.flush frame id).1.env.reports =
        a.env.reports ++ (roster.sightings scene id).map Sighting.report := by
  unfold flush
  rw [if_pos (List.contains_iff_mem.2 hid)]
  have htold := notify_reports h { frame with held := frame.held.erase id } hscene id none
  have hsame := a.notify_same id { frame with held := frame.held.erase id } none
  generalize a.notify id { frame with held := frame.held.erase id } none = told at htold hsame ⊢
  have hreported : Reported { told.1 with holding := told.1.holding - 1 } roster :=
    h.congr hsame.listeners hsame.sinks
  exact ⟨htold.1, (emit_reports hreported _).trans htold.2⟩

/-- One effect tells of its event, if it has one. -/
theorem apply_reports {effect : Effect} (h : a.Reported roster)
    (hscene : scene.element.children = frame.element.children)
    (hflush : ∀ id, effect = .flush id → id ∈ frame.held) (chunk : Option String) :
    frame.element.MayBecome true (apply chunk (a, frame) effect).2.element ∧
      (apply chunk (a, frame) effect).1.env.reports = a.env.reports ++
        (effect.told?.toList.flatMap (roster.sightings scene)).map Sighting.report := by
  cases effect with
  | collect | preserve | release | hold =>
    rw [apply_quiet_element rfl, apply_quiet_env rfl]
    exact ⟨.refl _ _, (List.append_nil _).symm⟩
  | flush id =>
    obtain ⟨helement, hreports⟩ := flush_reports h hscene (hflush id rfl)
    exact ⟨helement, hreports.trans (by simp [Effect.told?])⟩
  | notify id =>
    obtain ⟨helement, hreports⟩ := notify_reports h frame hscene id chunk
    exact ⟨helement, hreports.trans (by simp [Effect.told?])⟩

/-- Effects that flush only what is held tell of their events in their order. -/
theorem applyAll_reported {effects : List Effect} {kept : List Nat} (h : a.Reported roster)
    (hscene : scene.element.children = frame.element.children)
    (hheld : frame.held.Perm (effects.filterMap Effect.flush? ++ kept)) (chunk : Option String) :
    frame.element.MayBecome true (a.applyAll frame chunk effects).2.element ∧
      (a.applyAll frame chunk effects).1.env.reports = a.env.reports ++
        ((effects.filterMap Effect.told?).flatMap (roster.sightings scene)).map
          Sighting.report := by
  induction effects generalizing a frame kept with
  | nil => exact ⟨.refl _ _, (List.append_nil _).symm⟩
  | cons effect effects ih =>
    have hflush (id : Nat) (he : effect = .flush id) : id ∈ frame.held :=
      mem_held_of_flush (he ▸ hheld)
    have hsame := a.apply_same frame chunk effect
    have hnext := apply_held_perm a chunk hheld
    obtain ⟨helement, hreports⟩ := apply_reports h hscene hflush chunk
    obtain ⟨helement', hreports'⟩ := ih (h.same hsame) (hscene.trans helement.children.symm) hnext
    refine ⟨helement.trans helement', hreports'.trans ?_⟩
    rw [hreports, List.append_assoc, ← List.map_append, ← List.flatMap_append, List.filterMap_cons]
    cases effect.told? <;> rfl

/-! ### Tokens -/

theorem Reported.modifyParent (h : a.Reported roster) (f : Element → Element) :
    (a.modifyParent f).Reported roster := by
  rw [modifyParent_eq]
  exact ⟨h.listeners, h.sinks⟩

theorem pushFrame_reports (h : a.Reported roster) (frame : Frame) :
    (a.pushFrame frame).env.reports = a.env.reports := by
  unfold pushFrame
  dsimp only
  rw [emit_reports (h.modifyParent _), Follows.modifyParent_env]

theorem popFrame_reports (h : a.Reported roster) (frame : Frame) :
    (a.popFrame frame).env.reports = a.env.reports := by
  rw [popFrame, store, emit_reports (h.modifyParent _), Follows.modifyParent_env]

theorem Reported.accept {token : Token} (h : a.Reported roster) (hb : a.accept token = .ok b) :
    b.Reported roster :=
  h.congr (accept_keeps hb).1 (accept_keeps hb).2

section Tokens

variable {m : Automaton Effect} {policy : Policy} {name : String} {names : List String}
  {outer : List Frame}

/-- What a start tag reports of an element that has no children yet. -/
theorem Reported.start (h : a.Reported roster) (ht : a.Tracks m policy names)
    (hm : policy.Agrees m) (name : String) (attributes : Attributes) (scene : Scene)
    (hpath : scene.path = (name :: names).reverse) (hscene : scene.element.children = []) :
    (a.runStart name attributes).2.element.children = [] ∧
      (a.acceptStart name attributes).env.reports =
        a.env.reports ++ (seen m roster .enter scene).map Sighting.report := by
  have hheld := opened_held hm a.path name attributes (name :: names).reverse
  have hentered : Reported { a with automaton := m.openFor (name :: names) } roster :=
    h.congr rfl rfl
  have hopened : scene.element.children = (Frame.opened a.path name attributes).element.children :=
    hscene
  obtain ⟨hbecomes, hreports⟩ := applyAll_reported hentered hopened hheld none
  have hsame := applyAll_same { a with automaton := m.openFor (name :: names) }
    (Frame.opened a.path name attributes) none
    (m.dueAt .flag (name :: names).reverse ++ m.dueAt .enter (name :: names).reverse)
  rw [acceptStart_eq, ht.runStart_eq, pushFrame_reports (hentered.same hsame), hreports,
    List.filterMap_append, Effect.told?_eq_nil (hm.fits .flag _), List.nil_append, seen, hpath]
  exact ⟨hbecomes.children, rfl⟩

/-- What a text reports of the element around it. -/
theorem Reported.text (h : a.Reported roster) (ht : a.Tracks m policy names)
    (hm : policy.Agrees m) (hframes : a.frames = frame :: outer) {chunk : String} (scene : Scene)
    (hpath : scene.path = names.reverse) (hscene : scene.element.children = frame.element.children)
    (hb : a.acceptText chunk = .ok b) :
    (a.runText frame outer chunk).2.element.children = frame.element.children ∧
      b.env.reports = a.env.reports ++ (seen m roster .inside scene).map Sighting.report := by
  have hadd := Holds.addText_eq a frame chunk
  have hheld := addText_held hm a frame chunk names.reverse
  have hinner : Reported { a with frames := outer } roster := h.congr rfl rfl
  have hchildren : (a.addText frame chunk).element.children = frame.element.children := by
    rw [hadd]
  obtain ⟨hbecomes, hreports⟩ :=
    applyAll_reported hinner (hscene.trans hchildren.symm) hheld (some chunk)
  have hsame := applyAll_same { a with frames := outer } (a.addText frame chunk) (some chunk)
    (m.dueAt .inside names.reverse)
  have hrun := ht.runText_eq frame outer chunk
  have hran : (a.runText frame outer chunk).1.Reported roster := by
    rw [hrun]
    exact hinner.same hsame
  rw [acceptText_eq hframes] at hb
  cases hb
  have hpushed : Reported { (a.runText frame outer chunk).1 with
      frames := (a.runText frame outer chunk).2 :: (a.runText frame outer chunk).1.frames }
      roster := hran.congr rfl rfl
  rw [emit_reports hpushed, hrun, seen, hpath]
  exact ⟨hbecomes.children.trans hchildren, hreports⟩

/-- What an end tag reports of the element that it ends. -/
theorem Reported.finish (h : a.Reported roster) (ht : a.Tracks m policy (name :: names))
    (hframes : a.frames = frame :: outer) (scene : Scene)
    (hpath : scene.path = (name :: names).reverse)
    (hscene : scene.element.children = frame.element.children) (hb : a.acceptEnd = .ok b) :
    (a.runEnd frame outer (m.after (name :: names).reverse) (m.setsFor names)).2.element.children =
        frame.element.children ∧
      b.env.reports = a.env.reports ++ (seen m roster .leave scene).map Sighting.report := by
  have houter : Reported { a with automaton := m.openFor names, frames := outer } roster :=
    h.congr rfl rfl
  obtain ⟨hbecomes, hreports⟩ := applyAll_reported houter hscene (ht.closing_held hframes) none
  have hsame := applyAll_same { a with automaton := m.openFor names, frames := outer } frame none
    (m.dueAt .leave (name :: names).reverse)
  rw [acceptEnd_eq hframes ht.active_eq, ht.runEnd_eq] at hb
  cases hb
  rw [ht.runEnd_eq, popFrame_reports (houter.same hsame), hreports, seen, hpath]
  exact ⟨hbecomes.children, rfl⟩

end Tokens

end Assembly

open Registration

namespace Stream

variable {registrations : List (Registration σ)}

/-- Whoever is told in a stream that was set up is sighted under the number of its registration. -/
theorem journaled_reported (env : σ) (h : ∀ r ∈ registrations, r.RenamesOn EventKind.all) :
    (journaled env registrations).assembly.Reported (roster registrations) := by
  refine ⟨?_, (journaled_discreet env registrations).sinks⟩
  rw [(journaled_setUp env registrations).listeners, subscriptions_loggedAll, Entries.table, roster]
  refine List.forall₂_map_left_iff.2 (List.forall₂_map_right_iff.2 (List.forall₂_same.2 ?_))
  refine fun s _ => ⟨rfl, (listeners_logged registrations s).imp ?_⟩
  rintro listener id ⟨event, told, hget, hparse, rfl⟩
  refine fun m j => ⟨?_, ?_⟩
  · exact (h _ (List.mem_of_getElem? hget) s hparse m j.env).mono
  · simp [Journal.listen, Journal.add, Journal.sightings, Notice.sighting?]

end Stream

end XmlSieve
