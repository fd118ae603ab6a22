import XmlSieve.Proofs.Stream.Families
import XmlSieve.Proofs.Stream.Reporting

/-!
# Children of elements that are renamed

While a document is read, the frame of an open element holds its children that have ended, as they
were stored under the names that listeners gave them, and the slot of the child that is open
(`Housed`).  Whoever is told that an element ends is therefore given what is stored of its family
(`journaled_endings`): in a slot that was reserved for just the children that ended under its name,
what can be expected of them (`endings_eq_families`).  Listeners that rename elements only when they
start see to that for every slot (`Named`).
-/

namespace XmlSieve

variable {σ : Type}

/-! ### What the frames hold -/

/-- The children of an element when `child` is open in it, given the name of the slot that was
reserved for it and whether it is collected. -/
def Offspring.lodged (child : Option (String × Bool)) (children : Entries (Slot Element)) :
    Entries (Slot Element) :=
  match child with
  | none => children
  | some (name, collect) => reserve name collect children

/-- Frames that hold the children of open elements which have ended, where `child` is open in the
innermost. -/
inductive Housed (collects : List String → Bool) :
    Option (String × Bool) → List Frame → List Household → Prop where
  | nil (child : Option (String × Bool)) : Housed collects child [] []
  | cons {child : Option (String × Bool)} {frame : Frame} {frames : List Frame} {house : Household}
      {houses : List Household}
      (first : frame.element.children =
        Offspring.lodged child (Offspring.stored collects house.kids))
      (rest : Housed collects
        (some (house.reserved, collects (Household.path (house :: houses)))) frames houses) :
      Housed collects child (frame :: frames) (house :: houses)

namespace Housed

variable {collects : List String → Bool} {child : Option (String × Bool)} {frame : Frame}
  {frames : List Frame} {house : Household} {houses : List Household}

theorem cons_inv (h : Housed collects child (frame :: frames) (house :: houses)) :
    frame.element.children = Offspring.lodged child (Offspring.stored collects house.kids) ∧
      Housed collects (some (house.reserved, collects (Household.path (house :: houses)))) frames
        houses := by
  cases h with
  | cons first rest => exact ⟨first, rest⟩

/-- The slot of a child that opens is reserved. -/
theorem openChild (h : Housed collects none frames houses) (name : String) (collect : Bool) :
    Housed collects (some (name, collect))
      (Frame.modifyHead (·.openChild name collect) frames) houses := by
  cases h with
  | nil => exact .nil _
  | @cons _ frame frames house houses first rest =>
    refine .cons ?_ rest
    change Offspring.reserve name collect frame.element.children = _
    rw [first]
    rfl

/-- A child that ends is stored. -/
theorem closeChild {c : Offspring} (h : Housed collects (some (c.reserved, collects c.path)) frames
    houses) {f : Element → Element} (hf : ∀ e : Element, (f e).children = e.children) :
    Housed collects none (Frame.modifyHead (fun e =>
      (f e).closeChild c.element.name (collects c.path) c.value) frames)
      (Household.adopt c houses) := by
  cases h with
  | nil => exact .nil _
  | @cons _ frame frames house houses first rest =>
    refine .cons ?_ rest
    change Offspring.settle c.element.name (collects c.path) c.value
      (f frame.element).children = _
    rw [hf, first, Offspring.lodged, Offspring.stored_concat]
    rfl

end Housed

namespace Assembly

variable {a b : Assembly (Journal σ)} {m : Automaton Effect} {policy : Policy} {roster : Roster}
  {house : Household} {houses : List Household}

/-- What is invariant while a document is read whose open elements are `houses`. -/
structure Raises (a : Assembly (Journal σ)) (m : Automaton Effect) (policy : Policy)
    (roster : Roster) (houses : List Household) : Prop where
  tracks : a.Tracks m policy (houses.map (·.name))
  reported : a.Reported roster
  housed : Housed policy.collects none a.frames houses

/-- The scene in the element at `path`, of which nothing is known but these children. -/
def sceneOf (path : List String) (children : Entries (Slot Element)) : Scene :=
  { path, element := { children }, chunk := none }

namespace Raises

theorem start (h : a.Raises m policy roster houses) (hm : policy.Agrees m) (name : String)
    (attributes : Attributes) :
    (a.acceptStart name attributes).Raises m policy roster
        (a.regroup houses (.startTag name attributes)).2 ∧
      (a.acceptStart name attributes).env.reports = a.env.reports ++
        (seen m roster .enter (sceneOf (Household.path houses ++ [name]) [])).map
          Sighting.report := by
  have hpath : Household.path houses ++ [name] = (name :: houses.map (·.name)).reverse := by
    rw [List.reverse_cons, Household.path]
  obtain ⟨hchildren, hreports⟩ := h.reported.start h.tracks hm name attributes
    (sceneOf (Household.path houses ++ [name]) []) hpath rfl
  have hb : a.accept (.startTag name attributes) = .ok (a.acceptStart name attributes) := rfl
  refine ⟨⟨h.tracks.start hm name attributes, h.reported.accept hb, ?_⟩, hreports⟩
  have hcollected := (h.tracks.start_frame hm name attributes).1.collected
  rw [acceptStart_frames]
  refine .cons hchildren ?_
  rw [hcollected]
  exact h.housed.openChild _ _

theorem text (h : a.Raises m policy roster houses) (hm : policy.Agrees m) {chunk : String}
    (hb : a.acceptText chunk = .ok b) :
    b.Raises m policy roster houses ∧ ∃ scene, scene.path = Household.path houses ∧
      b.env.reports = a.env.reports ++ (seen m roster .inside scene).map Sighting.report := by
  obtain ⟨frame, outer, hframes⟩ := exists_frames_of_text hb
  obtain ⟨hchildren, hreports⟩ := h.reported.text h.tracks hm hframes
    (sceneOf (Household.path houses) frame.element.children) rfl rfl hb
  have haccept : a.accept (.text chunk) = .ok b := hb
  refine ⟨⟨h.tracks.text hm hb, h.reported.accept haccept, ?_⟩, _, rfl, hreports⟩
  have hhoused := h.housed
  rw [hframes] at hhoused
  rw [acceptText_frames hframes hb]
  cases hhoused with
  | cons first rest => exact .cons (hchildren.trans first) rest

theorem finish (h : a.Raises m policy roster (house :: houses)) (hm : policy.Agrees m)
    (hb : a.acceptEnd = .ok b) :
    b.Raises m policy roster (Household.adopt
        ⟨Household.path (house :: houses), house.reserved, a.leaving⟩ houses) ∧
      a.leaving.children = Offspring.stored policy.collects house.kids ∧
      b.env.reports = a.env.reports ++
        (seen m roster .leave
          (sceneOf (Household.path (house :: houses)) a.leaving.children)).map
          Sighting.report := by
  obtain ⟨frame, outer, hframes⟩ := exists_frames_of_end hb
  have hactive := h.tracks.active_eq
  have hleaving : a.leaving = (a.runEnd frame outer
      (m.after (house.name :: houses.map (·.name)).reverse)
      (m.setsFor (houses.map (·.name)))).2.element := by
    rw [leaving, hframes, hactive]
  obtain ⟨hchildren, hreports⟩ := h.reported.finish h.tracks hframes
    (sceneOf (Household.path (house :: houses)) frame.element.children) rfl rfl hb
  obtain ⟨hcollected, -, -, -⟩ := h.tracks.end_frame hm hframes rfl
  have htracks := h.tracks.finish hm hb
  have haccept : a.accept (.endTag house.name) = .ok b := hb
  have hafter := acceptEnd_frames hframes hactive rfl hb
  have hhoused := h.housed
  rw [hframes] at hhoused
  obtain ⟨hfirst, hrest⟩ := hhoused.cons_inv
  rw [hcollected, ← hleaving] at hafter
  rw [← hleaving] at hchildren
  refine ⟨⟨?_, h.reported.accept haccept, ?_⟩, hchildren.trans hfirst, ?_⟩
  · rw [Household.names_adopt]
    exact htracks
  · rw [hafter]
    refine Housed.closeChild (c := ⟨Household.path (house :: houses), house.reserved, a.leaving⟩)
      hrest fun e => ?_
    split <;> rfl
  · rw [hchildren]
    exact hreports

end Raises

/-! ### Names that stay -/

/-- An assembly whose open elements still have the names of their slots, as their children had that
have ended. -/
structure Named (a : Assembly σ) (houses : List Household) : Prop where
  frames : a.frames.map (·.element.name) = houses.map (·.reserved)
  kids : ∀ house ∈ houses, ∀ c ∈ house.kids, c.reserved = c.element.name

namespace Named

variable {names : List String}

theorem start (h : a.Named houses) (name : String) (attributes : Attributes) :
    (a.acceptStart name attributes).Named
      (a.regroup houses (.startTag name attributes)).2 := by
  refine ⟨?_, List.forall_mem_cons.2 ⟨by simp, h.kids⟩⟩
  rw [acceptStart_frames, List.map_cons, names_modifyHead, h.frames]
  · rfl
  · exact fun e => rfl

theorem text (h : a.Named houses) (ht : a.Tracks m policy names)
    (hl : a.Lenient m [.startElement]) {chunk : String} (hb : a.acceptText chunk = .ok b) :
    b.Named houses := by
  obtain ⟨frame, outer, hframes⟩ := exists_frames_of_text hb
  have houter : Lenient { a with frames := outer } m [.startElement] := hl.congr rfl
  have helement : (a.runText frame outer chunk).2.element = (a.addText frame chunk).element := by
    rw [ht.runText_eq]
    exact houter.element_eq (by decide) _ _ _
  refine ⟨?_, h.kids⟩
  rw [acceptText_frames hframes hb, ← h.frames, hframes, List.map_cons, List.map_cons, helement,
    Holds.addText_eq]

theorem finish (h : a.Named (house :: houses)) (ht : a.Tracks m policy (house.name :: names))
    (hl : a.Lenient m [.startElement]) (hb : a.acceptEnd = .ok b) :
    house.reserved = a.leaving.name ∧
      b.Named (Household.adopt
        ⟨Household.path (house :: houses), house.reserved, a.leaving⟩ houses) := by
  obtain ⟨frame, outer, hframes⟩ := exists_frames_of_end hb
  have hactive := ht.active_eq
  have hinner : Lenient { a with automaton := m.openFor names, frames := outer } m [.startElement] :=
    hl.congr rfl
  have hleaving : a.leaving = frame.element := by
    rw [leaving, hframes, hactive]
    dsimp only
    rw [ht.runEnd_eq]
    exact hinner.element_eq (by decide) _ _ _
  have hnames := h.frames
  rw [hframes, List.map_cons, List.map_cons, ← hleaving] at hnames
  obtain ⟨hname, houter⟩ := List.cons.inj hnames
  obtain ⟨-, hkids⟩ := List.forall_mem_cons.1 h.kids
  refine ⟨hname.symm, ?_, ?_⟩
  · rw [acceptEnd_frames hframes hactive rfl hb, names_modifyHead, houter]
    · cases houses <;> rfl
    · intro e
      split <;> rfl
  · cases houses with
    | nil => simp [Household.adopt]
    | cons outerHouse houses =>
      obtain ⟨hfirst, hrest⟩ := List.forall_mem_cons.1 hkids
      refine List.forall_mem_cons.2 ⟨List.forall_mem_append.2 ⟨hfirst, ?_⟩, hrest⟩
      exact List.forall_mem_singleton.2 hname.symm

/-- Whole families have the names of their slots. -/
theorem acceptAll {tokens : List Token} (h : a.Named houses)
    (ht : a.Tracks m policy (houses.map (·.name))) (hm : policy.Agrees m)
    (hl : a.Lenient m [.startElement]) (hb : a.acceptAll tokens = .ok b) :
    ∀ f ∈ a.families houses tokens, ∀ c ∈ f.parent :: f.kids, c.reserved = c.element.name := by
  induction tokens generalizing a houses with
  | nil => simp [families]
  | cons token tokens ih =>
    obtain ⟨c, hc, hrest⟩ := exists_of_bind_eq_ok hb
    have hlenient := hl.congr (accept_keeps hc).1
    rw [families_cons hc]
    cases token with
    | startTag name attributes =>
      cases hc
      exact ih (h.start name attributes) (ht.start hm name attributes) hlenient hrest
    | text chunk => exact ih (h.text ht hl hc) (ht.text hm hc) hlenient hrest
    | endTag name =>
      cases houses with
      | nil => exact absurd hc ht.acceptEnd_ne_ok
      | cons house houses =>
        obtain ⟨hname, hnext⟩ := h.finish ht hl hc
        have htracks := ht.finish hm hc
        rw [← Household.names_adopt] at htracks
        refine List.forall_mem_append.2 ⟨?_, ih hnext htracks hlenient hrest⟩
        refine List.forall_mem_singleton.2 (List.forall_mem_cons.2 ⟨hname, ?_⟩)
        exact h.kids house List.mem_cons_self

end Named

end Assembly

/-! ### What is reported -/

/-- The reports of ends of elements. -/
def Journal.endings (j : Journal σ) : List (Nat × String × Entries (Slot Element)) :=
  (j.sightings.filter Sighting.atEnd).map Sighting.report

theorem Journal.endings_of_reports {j j' : Journal σ} {gs : List Sighting}
    (h : j'.reports = j.reports ++ gs.map Sighting.report) :
    j'.endings = j.endings ++ (gs.filter Sighting.atEnd).map Sighting.report := by
  have hfilter (gs : List Sighting) : (gs.filter Sighting.atEnd).map Sighting.report =
      (gs.map Sighting.report).filter fun report =>
        (Subscription.parse? report.2.1).any fun s => s.kind.occasion = .leave := by
    rw [List.filter_map]
    rfl
  rw [endings, endings, hfilter, hfilter, hfilter, ← List.filter_append]
  exact congrArg _ h

namespace Assembly

open Registration

variable {a b : Assembly (Journal σ)} {m : Automaton Effect} {houses : List Household}
  {registrations : List (Registration σ)} {states : List (Selector × StateId)}

/-- The reports of what is seen of a scene are endings if an element ends there. -/
theorem endings_seen (hserves : m.Serves states (requests registrations))
    (hselectors : states.map (·.1) = selectors registrations) {occasion : Occasion} {scene : Scene}
    (h : b.env.reports = a.env.reports ++
      (seen m (roster registrations) occasion scene).map Sighting.report) :
    b.env.endings = a.env.endings ++ if occasion = .leave then
      (audience registrations .leave scene.path).map fun (id, s) =>
        (id, s.name, scene.element.children) else [] := by
  rw [Journal.endings_of_reports h, seen_eq hserves hselectors, filter_atEnd]
  split
  · next ho =>
    rw [List.map_map, ho]
    rfl
  · rfl

/-- The ends of elements are reported with what is stored of their families. -/
theorem Raises.acceptAll {policy : Policy} {tokens : List Token}
    (h : a.Raises m policy (roster registrations) houses) (hm : policy.Agrees m)
    (hserves : m.Serves states (requests registrations))
    (hselectors : states.map (·.1) = selectors registrations) (hb : a.acceptAll tokens = .ok b) :
    b.env.endings = a.env.endings ++ (a.families houses tokens).flatMap (fun f =>
        (audience registrations .leave f.parent.path).map fun (id, s) =>
          (id, s.name, f.parent.element.children)) ∧
      ∀ f ∈ a.families houses tokens,
        f.parent.element.children = Offspring.stored policy.collects f.kids := by
  induction tokens generalizing a houses with
  | nil =>
    cases hb
    simp [families]
  | cons token tokens ih =>
    obtain ⟨c, hc, hrest⟩ := exists_of_bind_eq_ok hb
    rw [families_cons hc]
    cases token with
    | startTag name attributes =>
      cases hc
      obtain ⟨hnext, hreports⟩ := h.start hm name attributes
      obtain ⟨hendings, hkept⟩ := ih hnext hrest
      rw [hendings, endings_seen hserves hselectors hreports, if_neg (by decide), List.append_nil]
      exact ⟨rfl, hkept⟩
    | text chunk =>
      obtain ⟨hnext, scene, -, hreports⟩ := h.text hm hc
      obtain ⟨hendings, hkept⟩ := ih hnext hrest
      rw [hendings, endings_seen hserves hselectors hreports, if_neg (by decide), List.append_nil]
      exact ⟨rfl, hkept⟩
    | endTag name =>
      cases houses with
      | nil => exact absurd hc h.tracks.acceptEnd_ne_ok
      | cons house houses =>
        obtain ⟨hnext, hchildren, hreports⟩ := h.finish hm hc
        obtain ⟨hendings, hkept⟩ := ih hnext hrest
        refine ⟨?_, List.forall_mem_append.2 ⟨List.forall_mem_singleton.2 hchildren, hkept⟩⟩
        rw [hendings, endings_seen hserves hselectors hreports, if_pos rfl, List.append_assoc,
          List.flatMap_append]
        exact congrArg (a.env.endings ++ ·)
          (congrArg (· ++ _) (List.flatMap_singleton _ _).symm)

end Assembly

open Registration

namespace Stream

variable {registrations : List (Registration σ)} {calls : List Call} {verdicts : List Verdict}
  {s : Stream (Journal σ)}

theorem journaled_raises (env : σ) (h : ∀ r ∈ registrations, r.RenamesOn EventKind.all) :
    (journaled env registrations).assembly.Raises (journaled env registrations).assembly.automaton
      (policy registrations) (roster registrations) [] := by
  refine ⟨journaled_tracks env registrations, journaled_reported env h, ?_⟩
  rw [(journaled_closed env registrations).1]
  exact .nil _

/-- Whoever is told that an element ends is given what is stored of its family. -/
theorem journaled_endings (env : σ) (h : ∀ r ∈ registrations, r.RenamesOn EventKind.all)
    (hrun : (journaled env registrations).run calls = .ok (verdicts, s))
    (hu : s.isPaused = false) :
    s.env.endings =
        ((journaled env registrations).assembly.families [] (Call.heard calls).tokens).flatMap
          (fun f => (audience registrations .leave f.parent.path).map fun (id, s) =>
            (id, s.name, f.parent.element.children)) ∧
      ∀ f ∈ (journaled env registrations).assembly.families [] (Call.heard calls).tokens,
        f.parent.element.children =
          Offspring.stored (policy registrations).collects f.kids := by
  obtain ⟨b, hb, hsightings⟩ := exists_acceptAll_of_run env hrun hu
  obtain ⟨states, hserves, hselectors⟩ := journaled_serves env registrations
  obtain ⟨hendings, hstored⟩ :=
    (journaled_raises env h).acceptAll (policy_agrees hserves) hserves hselectors hb
  have hnone : (journaled env registrations).assembly.env.endings = [] := by
    have hdiscreet := (journaled_discreet env registrations).sightings
    exact congrArg (fun gs => (gs.filter Sighting.atEnd).map Sighting.report) hdiscreet
  rw [hnone, List.nil_append] at hendings
  refine ⟨Eq.trans ?_ hendings, hstored⟩
  rw [Journal.endings, hsightings, Journal.endings]

/-- No child is lost or made up where elements are renamed.  Once everything was delivered, those who
wait for the ends of elements were told of all elements of the document that ended, and were given
the children of each.  A slot that was reserved for just the children that ended under its name has
the values of these in their order, and each of them unless one that is not collected took the slot
after it.  If all children of an element ended under the names of their slots, these are its keys;
so it is where listeners rename elements only when they start. -/
theorem endings_eq_families (env : σ) (registrations : List (Registration σ))
    (h : ∀ r ∈ registrations, r.RenamesOn EventKind.all) (calls : List Call) :
    ∃ verdicts s, (journaled env registrations).run calls = .ok (verdicts, s) ∧
      ((∀ r ∈ registrations, r.tireless = r) → Call.pause ∉ calls → s.isPaused = false) ∧
      (s.isPaused = false →
        let families := (journaled env registrations).assembly.families [] (Call.heard calls).tokens
        s.env.endings = families.flatMap (fun f =>
            (audience registrations .leave f.parent.path).map fun (id, s) =>
              (id, s.name, f.parent.element.children)) ∧
          families.map Family.outline = (Branch.closings [] (Call.heard calls).tokens).map
            (fun (path, node) => (path, Node.childPaths path node.content)) ∧
          (∀ f ∈ families, ∀ name, (∀ c ∈ f.kids, c.reserved = name ↔ c.element.name = name) →
            Offspring.Keeps (Entries.get? name f.parent.element.children)
              (policy registrations).collects name f.kids) ∧
          (∀ f ∈ families, (∀ c ∈ f.kids, c.reserved = c.element.name) →
            Entries.names f.parent.element.children = (f.kids.map (·.element.name)).eraseDups) ∧
          ((∀ r ∈ registrations, r.RenamesOn [.startElement]) →
            ∀ f ∈ families, ∀ c ∈ f.parent :: f.kids, c.reserved = c.element.name)) := by
  obtain ⟨verdicts, s, hrun, -⟩ := run_ok (journaled_sound env registrations) calls
  refine ⟨verdicts, s, hrun, fun ht hc => journaled_unpaused env ht hc hrun, fun hu => ?_⟩
  obtain ⟨b, hb, -⟩ := exists_acceptAll_of_run env hrun hu
  obtain ⟨hendings, hstored⟩ := journaled_endings env h hrun hu
  refine ⟨hendings, Assembly.families_outline rfl hb, fun f hf name hslot => ?_,
    fun f hf hslots => ?_, fun hstart => ?_⟩
  · rw [hstored f hf]
    exact Offspring.keeps_stored hslot
  · rw [hstored f hf]
    exact Offspring.names_stored hslots
  · have hnamed : (journaled env registrations).assembly.Named [] :=
      ⟨by rw [(journaled_closed env registrations).1]; rfl, by simp⟩
    exact hnamed.acceptAll (journaled_tracks env registrations)
      (journaled_agrees env registrations) (journaled_lenient env hstart) hb

/-- Children that are collected under the name that they were given when they started. -/
theorem endings_collected_renamed :
    ∃ verdicts s,
      (journaled () [.collect "a", .on "startElement: a" (.renamer "x"),
          .on "endElement: r" .idle]).run
        [.feed (Bytes.ascii ['<', 'r', '>', '<', 'a', '>', '1', '<', '/', 'a', '>', '<', 'b', '/',
          '>', '<', 'a', '>', '2', '<', '/', 'a', '>', '<', '/', 'r', '>']), .finish] =
          .ok (verdicts, s) ∧
      s.env.endings = [(2, "endElement: r",
        [("x", .many [.text "1", .text "2"]), ("b", .one (.text ""))])] := by
  have hrenames : ∀ r ∈ [.collect "a", .on "startElement: a" (.renamer "x"),
      .on "endElement: r" .idle], Registration.RenamesOn (σ := Unit) EventKind.all r := by
    simp only [List.forall_mem_cons]
    refine ⟨trivial, ?_, fun s _ m env => .refl _ _, by simp⟩
    exact renamesOn_renamer (s := ⟨.startElement, .parse "a"⟩) (by decide +kernel) (by decide)
      (by decide +kernel)
  obtain ⟨verdicts, s, hrun, hpaused, htold⟩ := endings_eq_families () _ hrenames
    [.feed (Bytes.ascii ['<', 'r', '>', '<', 'a', '>', '1', '<', '/', 'a', '>', '<', 'b', '/', '>',
      '<', 'a', '>', '2', '<', '/', 'a', '>', '<', '/', 'r', '>']), .finish]
  have hu : s.isPaused = false :=
    hpaused (by simp [Registration.tireless, Listener.tireless_renamer, Listener.tireless_idle])
      (by decide)
  exact ⟨verdicts, s, hrun, (htold hu).1.trans (by with_unfolding_all rfl)⟩

/-- A child that is not collected takes the slot of one that is. -/
theorem endings_taken_over :
    let registrations : List (Registration Unit) :=
      [.collect "a", .on "startElement: a" (.renamer "x"), .on "endElement: r" .idle]
    let calls : List Call :=
      [.feed (Bytes.ascii ['<', 'r', '>', '<', 'a', '>', '1', '<', '/', 'a', '>', '<', 'x', '>',
        '2', '<', '/', 'x', '>', '<', '/', 'r', '>']), .finish]
    (∀ r ∈ registrations, r.RenamesOn EventKind.all) ∧
      ∃ verdicts s, (journaled () registrations).run calls = .ok (verdicts, s) ∧
        s.phase = .ended ∧ s.env.endings = [(2, "endElement: r", [("x", .one (.text "2"))])] ∧
        ∃ f ∈ (journaled () registrations).assembly.families [] (Call.heard calls).tokens,
          f.parent.path = ["r"] ∧
          ∃ c ∈ f.kids, (policy registrations).collects c.path = true ∧ c.element.name = "x" ∧
            c.value = .text "1" := by
  intro registrations calls
  have hrenames : ∀ r ∈ registrations, r.RenamesOn EventKind.all := by
    simp only [registrations, List.forall_mem_cons]
    refine ⟨trivial, ?_, fun s _ m env => .refl _ _, by simp⟩
    exact renamesOn_renamer (s := ⟨.startElement, .parse "a"⟩) (by decide +kernel) (by decide)
      (by decide +kernel)
  obtain ⟨verdicts, s, hrun, -⟩ := run_ok (journaled_sound () registrations) calls
  have hu := journaled_unpaused () (by simp [registrations, Registration.tireless,
    Listener.tireless_renamer, Listener.tireless_idle]) (by decide) hrun
  have hs := ended_of_document hrun hu (by decide) (by decide +kernel)
  obtain ⟨hendings, -⟩ := journaled_endings () hrenames hrun hu
  have hlost :
      ∃ f ∈ (journaled () registrations).assembly.families [] (Call.heard calls).tokens,
        f.parent.path = ["r"] ∧ ∃ c ∈ f.kids, (policy registrations).collects c.path = true ∧
          c.element.name = "x" ∧ c.value.text? = some "1" := by
    decide +kernel
  obtain ⟨f, hf, hpath, c, hc, hcollects, hname, htext⟩ := hlost
  refine ⟨hrenames, verdicts, s, hrun, hs, hendings.trans ?_, f, hf, hpath, c, hc, hcollects, hname,
    ?_⟩
  · simp only [registrations, calls]
    with_unfolding_all rfl
  · cases hvalue : c.value with
    | text chunk =>
      rw [hvalue] at htext
      exact congrArg Content.text (Option.some.inj htext)
    | element e =>
      rw [hvalue] at htext
      cases htext

end Stream

end XmlSieve
