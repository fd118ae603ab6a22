import XmlSieve.Proofs.Stream.Matching

/-!
# Elements as they are given when they end

In a document that is read to its end, every end tag ends an element of the root
(`scenes_closings`).  Those who are told of its end are given the element that it amounts to in the
whole document (`endings_eq_assembled`), which `Node.assembled` says without a stream.
-/

namespace XmlSieve

/-- Whether the event is the end of an element. -/
def Sighting.atEnd (g : Sighting) : Bool :=
  (Subscription.parse? g.event).any fun s => s.kind.occasion = .leave

namespace Branch

/-- The scenes of end tags are those of the elements that end, as they are assembled. -/
theorem scenes_closings (policy : Policy) (stack : List Branch) {p after : Place}
    {tokens : List Token} (h : p.followAll tokens = some after)
    (hp : p.openNames = stack.map (·.name)) :
    ((scenes policy stack tokens).filter (·.1.occasion = .leave)).map
        (fun (_, scene) => (scene.path, Content.element scene.element)) =
      (closings stack tokens).map fun (path, node) =>
        (path, node.assembled policy path.dropLast) := by
  induction tokens generalizing p stack with
  | nil => rfl
  | cons token tokens ih =>
    obtain ⟨q, hq, hrest⟩ := Place.exists_of_followAll_cons h
    have hnames := openNames_grow hp hq
    cases token with
    | startTag | text => exact ih _ hrest hnames
    | endTag name =>
      cases stack with
      | nil => cases Place.follow_eq_some_iff.1 hq with | endTag => cases hp
      | cons b stack =>
        have hnode : Content.element (element policy (b :: stack)) =
            b.node.assembled policy (path (b :: stack)).dropLast := by
          rw [path_cons, List.dropLast_concat, element, path_cons]
          rfl
        rw [closings, List.map_append, List.map_singleton, ← ih _ hrest hnames]
        simp only [← hnode]
        rfl

end Branch

namespace Registration

variable {σ : Type} {registrations : List (Registration σ)}

/-- Among what is told of a scene, the end of an element is told when it ends. -/
theorem filter_atEnd (occasion : Occasion) (scene : Scene) :
    ((audience registrations occasion scene.path).map fun (id, s) =>
        (⟨id, s.name, scene⟩ : Sighting)).filter Sighting.atEnd =
      if occasion = .leave then
        (audience registrations occasion scene.path).map fun (id, s) => ⟨id, s.name, scene⟩
      else [] := by
  have hkind (entry : Nat × Subscription)
      (he : entry ∈ audience registrations occasion scene.path) :
      Sighting.atEnd ⟨entry.1, entry.2.name, scene⟩ = decide (occasion = .leave) := by
    obtain ⟨hid, hoccasion, -⟩ := mem_audience.1 he
    have hproper := subscription_proper (mem_subscriptions hid)
    rw [Sighting.atEnd, Subscription.parse?_name hproper, Option.any_some, hoccasion]
  split
  · next h =>
    refine List.filter_eq_self.2 fun g hg => ?_
    obtain ⟨entry, he, rfl⟩ := List.mem_map.1 hg
    exact (hkind entry he).trans (decide_eq_true h)
  · next h =>
    refine List.filter_eq_nil_iff.2 fun g hg => ?_
    obtain ⟨entry, he, rfl⟩ := List.mem_map.1 hg
    rw [hkind entry he, decide_eq_false h]
    exact Bool.false_ne_true

/-- What is told of ends among all that is told of scenes. -/
theorem filter_atEnd_flatMap (scenes : List (Token × Scene)) :
    (scenes.flatMap fun (token, scene) =>
        (audience registrations token.occasion scene.path).map fun (id, s) =>
          (⟨id, s.name, scene⟩ : Sighting)).filter Sighting.atEnd =
      (scenes.filter (·.1.occasion = .leave)).flatMap fun (_, scene) =>
        (audience registrations .leave scene.path).map fun (id, s) => ⟨id, s.name, scene⟩ := by
  induction scenes with
  | nil => rfl
  | cons entry scenes ih =>
    rw [List.flatMap_cons, List.filter_append, ih, filter_atEnd, List.filter_cons]
    by_cases h : entry.1.occasion = .leave
    · rw [if_pos h, if_pos (decide_eq_true h), List.flatMap_cons, h]
    · rw [if_neg h, if_neg (by simpa using h), List.nil_append]

end Registration

open Registration

namespace Stream

variable {σ : Type}

/-- Elements are given as they are in the document.  If the input is a document, it is that of just
one node.  Once it was delivered, those who wait for the ends of elements were told of the elements
of this root in the order in which they end, and were given what each of them amounts to: an element
that is assembled from the whole of its content. -/
theorem endings_eq_assembled (env : σ) (registrations : List (Registration σ))
    (h : ∀ r ∈ registrations, r.Still) (calls : List Call) (hfinish : Call.finish ∈ calls)
    (haccepted : (Call.heard calls).error = none) :
    ∃ root verdicts s,
      (∀ node : Node, (Call.heard calls).tokens = node.tokens ↔ node = root) ∧
      (journaled env registrations).run calls = .ok (verdicts, s) ∧
      ((∀ r ∈ registrations, r.tireless = r) → Call.pause ∉ calls → s.isPaused = false) ∧
      (s.isPaused = false →
        (s.env.sightings.filter Sighting.atEnd).map
            (fun g => (g.id, g.event, g.scene.path, Content.element g.scene.element)) =
          (root.endings []).flatMap fun (path, node) =>
            (audience registrations .leave path).map fun (id, s) =>
              (id, s.name, path, node.assembled (policy registrations) path.dropLast)) := by
  obtain ⟨after, hfollow, hafter⟩ := Document.follow_transcript (Call.input calls)
  rw [← heard_finish hfinish] at hfollow hafter
  rw [hafter haccepted] at hfollow
  obtain ⟨root, htokens, hendings⟩ := Branch.exists_root hfollow
  obtain ⟨verdicts, s, hrun, -⟩ := run_ok (journaled_sound env registrations) calls
  refine ⟨root.node, verdicts, s, fun node => ⟨fun hnode => ?_, fun hnode => hnode ▸ htokens⟩, hrun,
    fun ht hc => journaled_unpaused env ht hc hrun, fun hu => ?_⟩
  · exact Node.tokens_injective (hnode.symm.trans htokens)
  · have htold := congrArg (List.flatMap fun (path, piece) =>
        (audience registrations .leave path).map fun (id, s) => (id, s.name, path, piece))
      (Branch.scenes_closings (policy registrations) [] hfollow rfl)
    rw [List.flatMap_map, List.flatMap_map, hendings] at htold
    rw [journaled_sightings env h hrun hu, filter_atEnd_flatMap, List.map_flatMap]
    simp only [List.map_map]
    exact htold

/-- A document that is cut in a text, with children that are collected and white space that is
preserved below one of them. -/
theorem endings_collected_preserved :
    ∃ verdicts s,
      (journaled () [.on "endElement" .idle, .collect "b", .preserve "a > b" true]).run
        [.feed (Bytes.ascii ['<', 'a', '>', 'p', ' ']),
          .feed (Bytes.ascii [' ', 'q', '<', 'b', '>', ' ', '<', '/', 'b', '>', '<', 'b', '/', '>',
            '<', '/', 'a', '>']), .finish] = .ok (verdicts, s) ∧
      (s.env.sightings.filter Sighting.atEnd).map
          (fun g => (g.id, g.event, g.scene.path, Content.element g.scene.element)) =
        [(0, "endElement", ["a", "b"],
            .element { name := "b", text := " ", nodes := some [.text " "] }),
          (0, "endElement", ["a", "b"], .element { name := "b", nodes := some [] }),
          (0, "endElement", ["a"], .element
            { name := "a", text := "p q",
              children := [("b", .many
                [.element { name := "b", text := " ", nodes := some [.text " "] },
                  .element { name := "b", nodes := some [] }])] })] := by
  obtain ⟨root, verdicts, s, hroot, hrun, hpaused, htold⟩ := endings_eq_assembled ()
    [.on "endElement" .idle, .collect "b", .preserve "a > b" true]
    (by simp [Registration.Still, Listener.idle])
    [.feed (Bytes.ascii ['<', 'a', '>', 'p', ' ']),
      .feed (Bytes.ascii [' ', 'q', '<', 'b', '>', ' ', '<', '/', 'b', '>', '<', 'b', '/', '>',
        '<', '/', 'a', '>']), .finish] (by decide) (by decide +kernel)
  have hu : s.isPaused = false :=
    hpaused (by simp [Registration.tireless, Listener.tireless_idle]) (by decide)
  have hnode := (hroot (.element "a" [] [.text "p  q", .element "b" [] [.text " "],
    .element "b" [] []])).1 (by decide +kernel)
  refine ⟨verdicts, s, hrun, (htold hu).trans ?_⟩
  rw [← hnode]
  rfl

end Stream

end XmlSieve
