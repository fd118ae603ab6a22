import XmlSieve.Proofs.Element.NodeTrees
import XmlSieve.Proofs.Element.Regrouping
import XmlSieve.Proofs.Stream.Delivered
import XmlSieve.Proofs.Stream.Fidelity

/-!
# Elements that are written and streamed again

What is written of an element is a document, and a stream to which it is fed gives an element for its
root.  If all order is preserved, this element has the tree of the one that was written
(`tree_streamed_again`).  If none is, and the element that was written is the root of a document that
was streamed with the same requests to collect, it is this element again
(`assembled_streamed_again`).
-/

namespace XmlSieve

open Registration

namespace Stream

variable {σ : Type}

/-- The tree of an element survives writing and reading. -/
theorem tree_streamed_again (env : σ) (registrations : List (Registration σ))
    (h : ∀ r ∈ registrations, r.Still) (htireless : ∀ r ∈ registrations, r.tireless = r)
    (hpreserve : .preserve "" true ∈ registrations) (e : Element) (he : e.Ordered)
    (chunks : List Bytes) (hchunks : chunks.flatten = Bytes.encode e.markup) :
    ∃ verdicts s root,
      (journaled env registrations).run (Call.ofChunks chunks) = .ok (verdicts, s) ∧
      (∀ verdict ∈ verdicts, verdict = .ok ()) ∧ s.phase = .ended ∧
      s.env.sightings.filter Sighting.ofRoot =
        (audience registrations .leave [e.name]).map (Sighting.rootEnd root) ∧
      root.name = e.name ∧ root.attributes = e.attributes.spacedOut ∧ root.Ordered ∧
      root.tree = e.tree.tidied := by
  have hdocument : Document.transcript chunks.flatten =
      ⟨(Node.element e.name e.attributes.spacedOut
        (Node.tidiedAll (Element.treeNodes e.nodes))).tokens, none⟩ := by
    have hproper := Element.tree_proper e he
    rw [Element.tree_eq] at hproper
    rw [hchunks, Element.markup_tree e he, Element.tree_eq, Document.transcript_written hproper]
    rfl
  obtain ⟨verdicts, s, root, hrun, hverdicts, hs, hroot, hsightings⟩ :=
    run_ofChunks env h htireless hdocument
  refine ⟨verdicts, s, root, hrun, hverdicts, hs, hsightings, ?_⟩
  have hfaithful : (policy registrations).Faithful ([] ++ [e.name]) :=
    faithful_of_preserve hpreserve (.inl rfl)
  have hproper := Document.transcript_proper chunks.flatten
  rw [hdocument, Node.tokens, List.forall_mem_cons, List.forall_mem_append] at hproper
  obtain ⟨htree, hordered⟩ := Node.tree_element hfaithful hproper.1
    (Node.tree_assembledAll _ hfaithful hproper.2.1)
  rw [hroot, Element.treeContent] at htree
  rw [hroot] at hordered
  rw [Element.tree_eq] at htree
  refine ⟨(Node.element.inj htree).1, (Node.element.inj htree).2.1, hordered, ?_⟩
  rw [Element.tree_eq, Element.tree_eq e, htree]
  rfl

/-- Texts that stand next to one another, one of them empty, signs of markup in them, an empty element,
and a tab in the value of an attribute. -/
theorem tree_streamed_again_merged :
    let e : Element :=
      { name := "a", attributes := [("x", "1\t\x222")],
        nodes := some [.text "p", .text "", .text "]]>", .element { name := "b", nodes := some [] },
          .text "<&"] }
    (e.Ordered ∧ [(Bytes.encode e.markup).take 9, (Bytes.encode e.markup).drop 9].flatten =
        Bytes.encode e.markup) ∧
      ∃ verdicts s root,
        (journaled () [.preserve "" true, .on "endElement" .idle]).run
          (Call.ofChunks [(Bytes.encode e.markup).take 9, (Bytes.encode e.markup).drop 9]) =
            .ok (verdicts, s) ∧
        (∀ verdict ∈ verdicts, verdict = .ok ()) ∧ s.phase = .ended ∧
        s.env.sightings.filter Sighting.ofRoot =
          [⟨1, "endElement", { path := [root.name], element := root, chunk := none }⟩] ∧
        root.name = "a" ∧ root.attributes = [("x", "1 \x222")] ∧ root.Ordered ∧
        root.tree = .element "a" [("x", "1 \x222")] [.text "p]]>", .element "b" [] [], .text "<&"] := by
  intro e
  have he : e.Ordered := by
    refine ⟨by decide +kernel, ⟨by decide +kernel, by decide +kernel⟩, ?_⟩
    exact ⟨trivial, trivial, trivial, ⟨by decide +kernel, ⟨by simp, by simp [Entries.names]⟩, trivial⟩,
      trivial, trivial⟩
  have hchunks : [(Bytes.encode e.markup).take 9, (Bytes.encode e.markup).drop 9].flatten =
      Bytes.encode e.markup := by simp
  obtain ⟨verdicts, s, root, hrun, hverdicts, hs, hsightings, hname, hattributes, hordered, htree⟩ :=
    tree_streamed_again () [.preserve "" true, .on "endElement" .idle]
      (by simp [Registration.Still, Listener.idle])
      (by simp [Registration.tireless, Listener.tireless_idle]) (by simp) e he _ hchunks
  exact ⟨⟨he, hchunks⟩, verdicts, s, root, hrun, hverdicts, hs, hsightings,
    hname, hattributes.trans (by decide +kernel), hordered, htree⟩

/-! ### Elements that were assembled -/

variable {τ : Type} {registrations : List (Registration σ)}

/-- Without requests to preserve order, none is preserved. -/
theorem policy_plain (h : ∀ selector whitespace, .preserve selector whitespace ∉ registrations) :
    (policy registrations).Plain := by
  have hnone : registrations.filterMap preserve? = [] := by
    refine List.filterMap_eq_nil_iff.2 fun r hr => ?_
    cases r with
    | preserve selector whitespace => exact absurd hr (h selector whitespace)
    | on | collect | data | atEnd | atError => rfl
  intro path
  simp [policy, hnone]

theorem mem_filterMap_collect? {selector : Selector} :
    selector ∈ registrations.filterMap collect? ↔
      ∃ text, .collect text ∈ registrations ∧ Selector.parse text = selector := by
  rw [List.mem_filterMap]
  constructor
  · rintro ⟨r, hr, hselector⟩
    cases r with
    | collect text => exact ⟨text, hr, Option.some.inj hselector⟩
    | on | preserve | data | atEnd | atError => cases hselector
  · rintro ⟨text, hmem, rfl⟩
    exact ⟨_, hmem, rfl⟩

/-- What is kept depends only on what is collected, where nothing is preserved. -/
theorem policy_congr {registrations' : List (Registration τ)}
    (h : ∀ selector whitespace, .preserve selector whitespace ∉ registrations)
    (h' : ∀ selector whitespace, .preserve selector whitespace ∉ registrations')
    (hcollect : ∀ selector, .collect selector ∈ registrations' ↔ .collect selector ∈ registrations) :
    policy registrations' = policy registrations := by
  have hcollects : (policy registrations').collects = (policy registrations).collects := by
    funext path
    refine decide_eq_decide.2 (exists_congr fun selector => and_congr_left' ?_)
    rw [mem_filterMap_collect?, mem_filterMap_collect?]
    exact exists_congr fun text => and_congr_left' (hcollect text)
  have hpreserves : (policy registrations').preserves = (policy registrations).preserves := by
    funext path
    rw [(policy_plain h path).1, (policy_plain h' path).1]
  have hverbatim : (policy registrations').verbatim = (policy registrations).verbatim := by
    funext path
    rw [(policy_plain h path).2, (policy_plain h' path).2]
  have hparts (p : Policy) : p = ⟨p.collects, p.preserves, p.verbatim⟩ := rfl
  rw [hparts (policy registrations'), hcollects, hpreserves, hverbatim]

/-- Writing and streaming again is a fixed point of assembling. -/
theorem assembled_streamed_again (env : σ) (registrations : List (Registration σ))
    (h : ∀ r ∈ registrations, r.Still)
    (hpreserve : ∀ selector whitespace, .preserve selector whitespace ∉ registrations)
    (env' : τ) (registrations' : List (Registration τ)) (h' : ∀ r ∈ registrations', r.Still)
    (htireless : ∀ r ∈ registrations', r.tireless = r)
    (hpreserve' : ∀ selector whitespace, .preserve selector whitespace ∉ registrations')
    (hcollect : ∀ selector, .collect selector ∈ registrations' ↔ .collect selector ∈ registrations)
    (calls : List Call) :
    ∃ verdicts s, (journaled env registrations).run calls = .ok (verdicts, s) ∧
      ((∀ r ∈ registrations, r.tireless = r) → Call.pause ∉ calls → Call.finish ∈ calls →
        (Document.transcript (Call.input calls)).error = none → s.phase = .ended) ∧
      (s.phase = .ended → ∀ g ∈ s.env.sightings, g.ofRoot = true →
        ∀ chunks : List Bytes, chunks.flatten = Bytes.encode g.scene.element.markup →
        ∃ verdicts' s',
          (journaled env' registrations').run (Call.ofChunks chunks) = .ok (verdicts', s') ∧
          (∀ verdict ∈ verdicts', verdict = .ok ()) ∧ s'.phase = .ended ∧
          s'.env.sightings.filter Sighting.ofRoot =
            (audience registrations' .leave [g.scene.element.name]).map
              (Sighting.rootEnd g.scene.element.spacedOut)) := by
  obtain ⟨verdicts, s, hrun, -⟩ := run_ok (journaled_sound env registrations) calls
  refine ⟨verdicts, s, hrun, ended_of_tireless hrun, fun hs g hg hroot chunks hchunks => ?_⟩
  obtain ⟨name, attributes, content, e, hdocument, he, hsightings⟩ := roots_of_ended h hrun hs
  have hscene : g.scene.element = e := by
    have hmem : g ∈ s.env.sightings.filter Sighting.ofRoot := List.mem_filter.2 ⟨hg, hroot⟩
    rw [hsightings] at hmem
    obtain ⟨entry, -, rfl⟩ := List.mem_map.1 hmem
    rfl
  have hproper := Document.transcript_proper (Call.input calls)
  rw [hdocument] at hproper
  have hplain := policy_plain hpreserve
  have hsettled : e.Settled (policy registrations) ([] ++ [e.name]) :=
    Node.settled_assembled hplain _ hproper e he
  rw [hscene] at hchunks ⊢
  have hagain : Document.transcript chunks.flatten = ⟨e.regrouped.tidied.tokens, none⟩ := by
    have hwritten := Element.regrouped_proper e hsettled
    rw [Element.regrouped_eq] at hwritten
    rw [hchunks, Element.markup_regrouped e hsettled, Element.regrouped_eq,
      Document.transcript_written hwritten]
  have hassembled := Element.assembled_regrouped hplain e hsettled
  rw [← policy_congr hpreserve hpreserve' hcollect] at hassembled
  rw [Element.regrouped_eq, Node.tidied] at hagain hassembled
  obtain ⟨verdicts', s', root, hrun', hverdicts, hs', hroot', hsightings'⟩ :=
    run_ofChunks env' h' htireless hagain
  rw [hassembled] at hroot'
  cases hroot'
  exact ⟨verdicts', s', hrun', hverdicts, hs', hsightings'⟩

/-- An element with two collected children around another one, and a tab in the value of its
attribute. -/
theorem assembled_streamed_again_collected :
    let e : Element :=
      { name := "a", attributes := [("x", "1\t2")],
        children := [("b", .many [.text "", .text "r"]), ("c", .one (.text "q"))], text := "p" }
    let calls : List Call :=
      [.feed (Bytes.ascii ['<', 'a', ' ', 'x', '=', '"', '1', '&', '#', '9', ';', '2', '"', '>', 'p',
          ' ', '<', 'b', '/', '>', ' ', '<', 'c', '>', 'q', '<', '/', 'c', '>', '<', 'b', '>', 'r',
          '<', '/', 'b', '>', '<', '/', 'a', '>']), .finish]
    ∃ verdicts s verdicts' s',
      (journaled () [.on "endElement" .idle, .collect "b"]).run calls = .ok (verdicts, s) ∧
      s.phase = .ended ∧
      s.env.sightings.filter Sighting.ofRoot =
        [⟨0, "endElement", { path := ["a"], element := e, chunk := none }⟩] ∧
      (journaled () [.collect "b", .on "endElement" .idle]).run
        (Call.ofChunks [Bytes.encode e.markup]) = .ok (verdicts', s') ∧
      (∀ verdict ∈ verdicts', verdict = .ok ()) ∧ s'.phase = .ended ∧
      s'.env.sightings.filter Sighting.ofRoot =
        [⟨1, "endElement",
          { path := ["a"], element := { e with attributes := [("x", "1 2")] }, chunk := none }⟩] := by
  intro e calls
  have hstill : ∀ r ∈ ([.on "endElement" .idle, .collect "b"] : List (Registration Unit)),
      r.Still := by simp [Registration.Still, Listener.idle]
  obtain ⟨verdicts, s, hrun, hended, hagain⟩ := assembled_streamed_again ()
    [.on "endElement" .idle, .collect "b"] hstill (by simp) () [.collect "b", .on "endElement" .idle]
    (by simp [Registration.Still, Listener.idle])
    (by simp [Registration.tireless, Listener.tireless_idle]) (by simp) (by simp) calls
  have hs : s.phase = .ended :=
    hended (by simp [Registration.tireless, Listener.tireless_idle]) (by decide) (by decide)
      (by decide +kernel)
  obtain ⟨name, attributes, content, root, hdocument, hroot, hsightings⟩ :=
    roots_of_ended hstill hrun hs
  have hnode : Node.element name attributes content =
      .element "a" [("x", "1\t2")] [.text "p ", .element "b" [] [], .text " ",
        .element "c" [] [.text "q"], .element "b" [] [.text "r"]] := by
    have htokens : (Document.transcript (Call.input calls)).tokens =
        (Node.element "a" [("x", "1\t2")] [.text "p ", .element "b" [] [], .text " ",
          .element "c" [] [.text "q"], .element "b" [] [.text "r"]]).tokens := by decide +kernel
    rw [hdocument] at htokens
    exact Node.tokens_injective htokens
  cases hnode
  obtain rfl : e = root := Content.element.inj hroot
  have hsightings' : s.env.sightings.filter Sighting.ofRoot =
      [⟨0, "endElement", { path := ["a"], element := e, chunk := none }⟩] := hsightings
  have hg : ⟨0, "endElement", { path := ["a"], element := e, chunk := none }⟩ ∈
      s.env.sightings.filter Sighting.ofRoot := by
    rw [hsightings']
    exact List.mem_singleton_self _
  obtain ⟨hmem, hroot⟩ := List.mem_filter.1 hg
  obtain ⟨verdicts', s', hrun', hverdicts, hs', hgiven⟩ :=
    hagain hs _ hmem hroot [Bytes.encode e.markup] (List.append_nil _)
  exact ⟨verdicts, s, verdicts', s', hrun, hs, hsightings', hrun', hverdicts, hs', hgiven⟩

end Stream

end XmlSieve
