import XmlSieve.Proofs.Element.Verbatim
import XmlSieve.Proofs.Stream.Assembled
import XmlSieve.Proofs.Stream.Ending
import XmlSieve.Proofs.Stream.Forecast

/-!
# Documents delivered to their end

A document can be fed in chunks, after which the end of the input is signalled (`Call.ofChunks`).
If no listener pauses, the stream takes all of it and ends, and no call returns an error
(`run_ofChunks`).  When a stream has ended, those who wait for the end of the root were told of it
just once, and were given the element that the whole document amounts to (`roots_of_ended`).
-/

namespace XmlSieve

open Registration

namespace Sighting

/-- Whether the event is the end of the root. -/
def ofRoot (g : Sighting) : Bool := g.atEnd && decide (g.scene.path.length = 1)

/-- What one of an audience is told of the end of the root `e`. -/
def rootEnd (e : Element) (listener : Nat × Subscription) : Sighting :=
  ⟨listener.1, listener.2.name, { path := [e.name], element := e, chunk := none }⟩

end Sighting

namespace Branch

open Node

/-- Elements that end among the nodes of an element lie below it. -/
theorem scenes_below (policy : Policy) : ∀ (nodes : List Node) (b : Branch) (stack : List Branch),
    ∀ entry ∈ scenes policy (b :: stack) (tokensAll nodes), entry.1.occasion = .leave →
      1 < entry.2.path.length
  | [], b, stack, entry, hentry, _ => by cases hentry
  | .text chunk :: nodes, b, stack, entry, hentry, hleave => by
    rcases List.mem_cons.1 hentry with rfl | hentry
    · cases hleave
    · exact scenes_below policy nodes _ stack entry hentry hleave
  | .element name attributes content :: nodes, b, stack, entry, hentry, hleave => by
    obtain ⟨e, -, hscenes⟩ := scenes_element policy (b :: stack) name attributes content
    rw [tokensAll, scenes_append, hscenes, foldl_grow_tokens, List.append_assoc,
      List.mem_append, List.mem_append, List.mem_singleton, scenes, List.mem_cons] at hentry
    rcases hentry with (rfl | hentry) | rfl | hentry
    · cases hleave
    · exact scenes_below policy content _ (b :: stack) entry hentry hleave
    · simp [path_cons]
    · exact scenes_below policy nodes _ stack entry hentry hleave

/-- All elements that end before the root lie below it. -/
theorem below_root (policy : Policy) (name : String) (attributes : Attributes)
    (content : List Node) :
    ∀ entry ∈ (scenes policy [] (.startTag name attributes :: tokensAll content)).filter
      (·.1.occasion = .leave), 1 < entry.2.path.length := by
  intro entry hentry
  obtain ⟨hmem, hleave⟩ := List.mem_filter.1 hentry
  rcases List.mem_cons.1 hmem with rfl | hmem
  · cases hleave
  · exact scenes_below policy content _ [] entry hmem (of_decide_eq_true hleave)

end Branch

namespace Stream

variable {σ : Type} {registrations : List (Registration σ)} {s t : Stream σ} {chunks : List Bytes}
  {verdicts : List Verdict}

/-! ### The root -/

/-- Of the scenes of a document, those who wait for the end of the root are told of just one. -/
theorem filter_ofRoot (registrations : List (Registration σ)) (policy : Policy) (name : String)
    (attributes : Attributes) (content : List Node) :
    ∃ e, Node.assembled policy [] (.element name attributes content) = .element e ∧
      ((Branch.scenes policy [] (Node.element name attributes content).tokens).flatMap
          fun (token, scene) => (audience registrations token.occasion scene.path).map
            fun (id, s) => (⟨id, s.name, scene⟩ : Sighting)).filter Sighting.ofRoot =
        (audience registrations .leave [name]).map (Sighting.rootEnd e) := by
  obtain ⟨e, he, hscenes⟩ := Branch.scenes_element policy [] name attributes content
  have hname : e.name = name := by
    cases he
    rfl
  refine ⟨e, he, ?_⟩
  have hofRoot : Sighting.ofRoot = fun g => decide (g.scene.path.length = 1) && g.atEnd := by
    funext g
    exact Bool.and_comm _ _
  rw [hofRoot, ← List.filter_filter, filter_atEnd_flatMap, hscenes, List.filter_append,
    List.flatMap_append, List.filter_append]
  have hnone : ((((Branch.scenes policy [] (.startTag name attributes ::
      Node.tokensAll content)).filter (·.1.occasion = .leave)).flatMap fun (_, scene) =>
        (audience registrations .leave scene.path).map fun (id, s) =>
          (⟨id, s.name, scene⟩ : Sighting)).filter
      fun g => decide (g.scene.path.length = 1)) = [] := by
    refine List.filter_eq_nil_iff.2 fun g hg => ?_
    obtain ⟨entry, hentry, hg⟩ := List.mem_flatMap.1 hg
    obtain ⟨_, -, rfl⟩ := List.mem_map.1 hg
    have hlength := Branch.below_root policy name attributes content entry hentry
    rw [decide_eq_true_eq]
    show ¬ entry.2.path.length = 1
    omega
  rw [hnone, List.nil_append]
  refine (List.filter_eq_self.2 fun g hg => ?_).trans ?_
  · obtain ⟨entry, hentry, hg⟩ := List.mem_flatMap.1 hg
    rw [List.mem_singleton.1 (List.mem_filter.1 hentry).1] at hg
    obtain ⟨_, -, rfl⟩ := List.mem_map.1 hg
    rfl
  · rw [← hname]
    exact List.append_nil _

/-- When a stream has ended, its input was a document, and those who wait for the end of the root
were given what the document amounts to. -/
theorem roots_of_ended {env : σ} (h : ∀ r ∈ registrations, r.Still) {calls : List Call}
    {s : Stream (Journal σ)} (hrun : (journaled env registrations).run calls = .ok (verdicts, s))
    (hs : s.phase = .ended) :
    ∃ name attributes content e,
      Document.transcript (Call.input calls) =
        ⟨(Node.element name attributes content).tokens, none⟩ ∧
      Node.assembled (policy registrations) [] (.element name attributes content) = .element e ∧
      s.env.sightings.filter Sighting.ofRoot =
        (audience registrations .leave [name]).map (Sighting.rootEnd e) := by
  obtain ⟨-, herror⟩ := document_of_ended hrun hs
  obtain ⟨b, hb, henv⟩ := exists_acceptAll_of_ended hrun hs
  have hsightings : s.env.sightings = b.env.sightings := by
    rw [henv]
    exact foldl_sightings (journaled_discreet env registrations).onEnd b.env
  obtain ⟨root, htokens, -⟩ := Document.exists_root herror
  obtain ⟨e, he, hroot⟩ := filter_ofRoot registrations (policy registrations) root.name
    root.attributes root.content
  have htokens' : (Document.transcript (Call.input calls)).tokens =
      (Node.element root.name root.attributes root.content).tokens := htokens
  refine ⟨root.name, root.attributes, root.content, e, ?_, he, ?_⟩
  · rw [← herror, ← htokens']
  · rw [hsightings, acceptAll_sightings env h hb, htokens']
    exact hroot

/-! ### Chunks -/

/-- The calls that feed chunks and signal the end of the input. -/
def Call.ofChunks (chunks : List Bytes) : List Call := chunks.map .feed ++ [.finish]

theorem input_ofChunks (chunks : List Bytes) :
    Call.input (Call.ofChunks chunks) = chunks.flatten := by
  induction chunks with
  | nil => rfl
  | cons chunk chunks ih => exact congrArg (chunk ++ ·) ih

/-- Feeding a stream that does not end up failed returns no error, and leaves it open for input. -/
theorem feed_unfailed (hs : s.Sound) (ha : s.Aware) (hp : s.phase = .accepting) {chunk : Bytes}
    {verdict : Verdict} (h : s.perform (.feed chunk) = .ok (verdict, t)) (ht : t.phase ≠ .failed) :
    verdict = .ok () ∧ t.phase = .accepting := by
  have hnoted : (s.noted (.feed chunk)).phase = .accepting := by
    rw [noted, if_pos hp]
    exact hp
  rcases perform_outcome [] hs ha h with ⟨-, hout⟩ | ⟨hd, -⟩
  · cases hout with
    | held => exact ⟨rfl, hnoted⟩
    | ended takes running phase unfailed =>
      rw [hnoted] at phase
      cases phase
    | failed => exact absurd rfl ht
  · rw [delivers, hp] at hd
    cases hd

/-- No call returns an error by which a stream comes to its end. -/
theorem verdicts_of_ended (hs : s.Sound) (ha : s.Aware) (hp : s.phase = .accepting)
    (h : s.run (Call.ofChunks chunks) = .ok (verdicts, t)) (ht : t.phase = .ended) :
    ∀ verdict ∈ verdicts, verdict = .ok () := by
  induction chunks generalizing s verdicts with
  | nil =>
    obtain ⟨verdict, u, rest, hu, -, hrest, rfl⟩ := exists_of_run_cons hs h
    cases hrest
    refine List.forall_mem_singleton.2 ?_
    rcases perform_outcome [] hs ha hu with ⟨-, hout⟩ | ⟨hd, -⟩
    · cases hout with
      | held | ended => rfl
      | failed => cases ht
    · rw [delivers, hp] at hd
      cases hd
  | cons chunk chunks ih =>
    obtain ⟨verdict, u, rest, hu, hsound, hrest, rfl⟩ := exists_of_run_cons hs h
    have hunfailed : u.phase ≠ .failed := by
      intro hfailed
      have hend := endsWell_lasting.run hsound hrest ([], false)
      rw [endsWell, ht, endsWell, hfailed] at hend
      cases hend
    obtain ⟨rfl, haccepting⟩ := feed_unfailed hs ha hp hu hunfailed
    have haware : u.Aware :=
      operate_aware hs ha (show s.operate (.call (.feed chunk)) = .ok (.ok (), u) from hu)
    exact List.forall_mem_cons.2 ⟨rfl, ih hsound haware haccepting hrest⟩

/-- A document that is fed in chunks to listeners that do not pause is delivered to its end. -/
theorem run_ofChunks (env : σ) (h : ∀ r ∈ registrations, r.Still)
    (htireless : ∀ r ∈ registrations, r.tireless = r) {name : String} {attributes : Attributes}
    {content : List Node}
    (hdocument : Document.transcript chunks.flatten =
      ⟨(Node.element name attributes content).tokens, none⟩) :
    ∃ verdicts s e,
      (journaled env registrations).run (Call.ofChunks chunks) = .ok (verdicts, s) ∧
      (∀ verdict ∈ verdicts, verdict = .ok ()) ∧ s.phase = .ended ∧
      Node.assembled (policy registrations) [] (.element name attributes content) = .element e ∧
      s.env.sightings.filter Sighting.ofRoot =
        (audience registrations .leave [name]).map (Sighting.rootEnd e) := by
  obtain ⟨verdicts, s, hrun, -⟩ := run_ok (journaled_sound env registrations) (Call.ofChunks chunks)
  have hfinish : Call.finish ∈ Call.ofChunks chunks := by simp [Call.ofChunks]
  have hpause : Call.pause ∉ Call.ofChunks chunks := by simp [Call.ofChunks]
  have hs : s.phase = .ended :=
    ended_of_tireless hrun htireless hpause hfinish (by rw [input_ofChunks, hdocument])
  obtain ⟨htokenizer, hphase⟩ := journaled_input env registrations
  have haware : (journaled env registrations).Aware := by simp [Aware, htokenizer]
  obtain ⟨name', attributes', content', e, hroot, he, hsightings⟩ := roots_of_ended h hrun hs
  rw [input_ofChunks, hdocument] at hroot
  obtain ⟨rfl, rfl, rfl⟩ : name = name' ∧ attributes = attributes' ∧ content = content' :=
    Node.element.inj (Node.tokens_injective (congrArg Transcript.tokens hroot))
  exact ⟨verdicts, s, e, hrun,
    verdicts_of_ended (journaled_sound env registrations) haware hphase hrun hs, hs, he, hsightings⟩

end Stream

end XmlSieve
