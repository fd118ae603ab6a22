import XmlSieve.Proofs.Element.Verbatim
import XmlSieve.Proofs.Stream.PassThrough
import XmlSieve.Proofs.Stream.Tasks

/-!
# Preserved elements are written as they passed through

Where nothing holds output back, a token adds to the journal one fragment for each sink and what is
seen of its scene (`Follows.accept_records`), so that the journal of a document falls into parts,
one for each token (`Follows.acceptAll_records`).  An element that keeps order and white space is
given to those who wait for its end as an element that is written like the fragments from its start
tag through its end tag (`endings_verbatim`).
-/

namespace XmlSieve

variable {σ : Type}

namespace Branch

/-- Tokens are located in the open elements that those before them lead to. -/
theorem located_append (stack : List Branch) (tokens more : List Token) :
    Token.located (path stack) (tokens ++ more) =
      Token.located (path stack) tokens ++ Token.located (path (tokens.foldl grow stack)) more := by
  induction tokens generalizing stack with
  | nil => rfl
  | cons token tokens ih =>
    cases token with
    | startTag name attributes =>
      have hrest := ih ({ name, attributes } :: stack)
      rw [path_cons] at hrest
      exact congrArg (_ :: ·) hrest
    | text chunk =>
      have hrest := ih (add (.text chunk) stack)
      rw [path_add] at hrest
      exact congrArg (_ :: ·) hrest
    | endTag name =>
      have hrest := ih (grow stack (.endTag name))
      have houter : path (grow stack (.endTag name)) = (path stack).dropLast := by
        cases stack with
        | nil => rfl
        | cons b stack => rw [grow, path_add, path_cons, List.dropLast_concat]
      rw [houter] at hrest
      exact congrArg (_ :: ·) hrest

theorem length_located (names : List String) (tokens : List Token) :
    (Token.located names tokens).length = tokens.length := by
  induction tokens generalizing names with
  | nil => rfl
  | cons token tokens ih => cases token <;> exact congrArg (· + 1) (ih _)

/-- A start tag is located in the element that it opens. -/
theorem eq_of_located {before after : List Token} {name : String} {attributes : Attributes}
    {names : List String}
    (h : (Token.located [] (before ++ .startTag name attributes :: after))[before.length]? =
      some (.startTag name attributes, names)) :
    names = path (before.foldl grow []) ++ [name] := by
  have happend := located_append [] before (.startTag name attributes :: after)
  rw [path, List.map_nil, List.reverse_nil] at happend
  have hlength := length_located [] before
  rw [happend, List.getElem?_append_right hlength.le, hlength, Nat.sub_self] at h
  exact (Prod.mk.inj (Option.some.inj h)).2.symm

end Branch

namespace Assembly

variable {a b : Assembly (Journal σ)} {m : Automaton Effect} {policy : Policy} {roster : Roster}
  {stack : List Branch} {token : Token} {tokens : List Token} {task : Task (Journal σ)}
  {frame : Frame} {chunk : Option String} {id : Nat}

/-! ### What is added to the journal -/

/-- Writing adds one fragment for the sink with the number `id`, and telling listeners adds none. -/
structure Notes (a : Assembly (Journal σ)) (id : Nat) : Prop where
  listeners : ∀ entry ∈ a.listeners, ∀ listener ∈ entry.2, ∀ (m : Match) (j : Journal σ),
    Journal.Adds id j [] (listener m j).env
  sinks : ∀ fragment (j : Journal σ),
    Journal.Adds id j [fragment] (a.sinks.foldl (fun env sink => sink fragment env) j)

namespace Notes

theorem prints (h : a.Notes id) : a.Prints id where
  listeners entry he listener hl m j := by
    rw [(h.listeners entry he listener hl m j).written]
    simp
  sinks fragment j := by
    rw [(h.sinks fragment j).written]
    simp

theorem congr (h : a.Notes id) (hlisteners : b.listeners = a.listeners)
    (hsinks : b.sinks = a.sinks) : b.Notes id := by
  refine ⟨?_, ?_⟩
  · rw [hlisteners]
    exact h.listeners
  · rw [hsinks]
    exact h.sinks

theorem same (h : a.Notes id) (hs : SameSetting a b) : b.Notes id :=
  h.congr hs.listeners hs.sinks

theorem modifyParent (h : a.Notes id) (f : Element → Element) : (a.modifyParent f).Notes id := by
  rw [modifyParent_eq]
  exact ⟨h.listeners, h.sinks⟩

end Notes

theorem emit_adds (h : a.Notes id) (hholding : a.holding = 0) (fragment : String) :
    Journal.Adds id a.env [fragment] (a.emit fragment).env := by
  have hsinks : a.sinks.isEmpty = false := by simpa using h.prints.nonempty
  have hemitting : a.emitting = true := by rw [emitting, hsinks, decide_eq_true hholding]; rfl
  rw [emit, if_pos hemitting]
  exact h.sinks fragment a.env

theorem notify_adds (h : a.Notes id) (event : Nat) (frame : Frame) (chunk : Option String) :
    Journal.Adds id a.env [] (a.notify event frame chunk).1.env := by
  refine notify_upholds (P := fun _ j => Journal.Adds id a.env [] j) ?_ (.refl id a.env) chunk
  intro event listeners hget listener hl m j _ hj
  exact hj.trans (h.listeners _ (List.mem_of_getElem? hget) listener hl m j)

/-- Effects that flush nothing add no fragment. -/
theorem applyAll_adds {effects : List Effect} (h : a.Notes id)
    (hflush : effects.filterMap Effect.flush? = []) :
    Journal.Adds id a.env [] (a.applyAll frame chunk effects).1.env := by
  refine applyAll_upholds (Q := Journal.Adds id a.env []) ?_ hflush (.refl id a.env) frame chunk
  exact fun b hb hadds event frame chunk =>
    hadds.trans (notify_adds (h.same hb) event frame chunk)

/-- A token whose effects have run adds one fragment. -/
theorem completed_adds (h : a.Notes id) (hholding : a.holding = 0) (frame : Frame) (token : Token) :
    ∃ fragment, Journal.Adds id a.env [fragment] (completed (a, frame) token).env := by
  have hparent (f : Element → Element) (fragment : String) :
      Journal.Adds id a.env [fragment] ((a.modifyParent f).emit fragment).env := by
    have hadds := emit_adds (h.modifyParent f) ((modifyParent_holding a f).trans hholding) fragment
    rwa [Follows.modifyParent_env] at hadds
  cases token with
  | startTag name attributes => exact ⟨_, hparent _ _⟩
  | text content =>
    have hpushed : Notes { a with frames := frame :: a.frames } id := ⟨h.listeners, h.sinks⟩
    exact ⟨_, emit_adds hpushed hholding _⟩
  | endTag name => exact ⟨_, hparent _ _⟩

namespace Follows

/-- Where nothing is held back, neither does the task of a token. -/
theorem task_fluent (h : a.Follows m policy roster stack)
    (hfluent : ∀ occasion path, Fluent (m.dueAt occasion path))
    (htask : a.task? token = some task) : Fluent task.effects := by
  rcases task_cases htask with ⟨name, attributes, -, rfl⟩ | ⟨_, _, _, -, -, rfl⟩ |
    ⟨_, _, _, set, sets, -, -, hactive, rfl⟩
  · rw [h.enter { name, attributes }]
    exact List.forall_mem_append.2 ⟨hfluent .flag _, hfluent .enter _⟩
  · rw [h.due]
    exact hfluent .inside _
  · rw [h.automaton] at hactive ⊢
    cases stack with
    | nil => cases hactive
    | cons branch stack =>
      obtain ⟨rfl, -⟩ := List.cons.inj hactive
      exact hfluent .leave _

end Follows

/-- The notices that a token adds: one fragment, and what is seen of its scene. -/
structure Records (m : Automaton Effect) (roster : Roster) (id : Nat) (entry : Token × Scene)
    (part : List Notice) : Prop where
  fragment : part.filterMap (Notice.fragment? id) = [Markup.ofToken entry.1]
  sightings : part.filterMap Notice.sighting? = seen m roster entry.1.occasion entry.2

namespace Follows

theorem accept_records (h : a.Follows m policy roster stack) (hm : policy.Agrees m)
    (hfluent : ∀ occasion path, Fluent (m.dueAt occasion path)) (hnotes : a.Notes id)
    (hholding : a.holding = 0) {p q : Place} (hp : p.openNames = stack.map (·.name))
    (hq : p.follow token = some q) (hb : a.accept token = .ok b) :
    ∃ part, b.env.notices = a.env.notices ++ part ∧
      Records m roster id (token, Branch.scene policy stack token) part := by
  have hwritten := (h.accept_written hm hfluent hnotes.prints hholding hp hq hb).1
  have hsightings := (h.accept hm hb).2
  obtain ⟨task, htask, rfl⟩ := exists_task hb
  have heffects := h.task_fluent hfluent htask
  obtain ⟨hlisteners, hsinks, henv, hheld⟩ := task_keeps htask
  have htold := hnotes.congr hlisteners hsinks
  have hran : Journal.Adds id a.env [] task.done.1.env :=
    henv ▸ applyAll_adds htold heffects.flush?
  have hfree : task.done.1.holding = 0 :=
    (applyAll_fluent heffects _ _).trans (hheld.trans hholding)
  have hdone : task.done.1.Notes id :=
    htold.same (task.assembly.applyAll_same task.frame task.chunk task.effects)
  obtain ⟨fragment, hadds⟩ := completed_adds hdone hfree task.done.2 token
  have hall : Journal.Adds id a.env [fragment] (completed task.done token).env := hran.trans hadds
  rw [hall.written, String.append_right_inj] at hwritten
  obtain ⟨part, hpart, hfragment⟩ := hall
  refine ⟨part, hpart, ?_, ?_⟩
  · rw [hfragment, ← hwritten]
    simp
  · rw [Journal.sightings, hpart, List.filterMap_append] at hsightings
    exact List.append_cancel_left hsightings

/-- The notices that tokens add fall into parts, one for each of them. -/
theorem acceptAll_records (h : a.Follows m policy roster stack) (hm : policy.Agrees m)
    (hfluent : ∀ occasion path, Fluent (m.dueAt occasion path)) (hnotes : a.Notes id)
    (hholding : a.holding = 0) {p q : Place} (hp : p.openNames = stack.map (·.name))
    (hq : p.followAll tokens = some q) (hb : a.acceptAll tokens = .ok b) :
    ∃ parts, b.env.notices = a.env.notices ++ parts.flatten ∧
      List.Forall₂ (Records m roster id) (Branch.scenes policy stack tokens) parts := by
  induction tokens generalizing a stack p with
  | nil =>
    cases hb
    exact ⟨[], (List.append_nil _).symm, .nil⟩
  | cons token tokens ih =>
    obtain ⟨next, hnext, hq⟩ := Place.exists_of_followAll_cons hq
    obtain ⟨c, hc, hb⟩ := exists_of_bind_eq_ok hb
    obtain ⟨part, hpart, hrecords⟩ := h.accept_records hm hfluent hnotes hholding hp hnext hc
    have hkept := (h.accept_written hm hfluent hnotes.prints hholding hp hnext hc).2
    obtain ⟨parts, hparts, hrest⟩ := ih (h.accept hm hc).1
      (hnotes.congr (accept_keeps hc).1 (accept_keeps hc).2) hkept
      (Branch.openNames_grow hp hnext) hq hb
    refine ⟨part :: parts, ?_, .cons hrecords hrest⟩
    rw [hparts, hpart, List.append_assoc, List.flatten_cons]

end Follows

end Assembly

open Registration

namespace Stream

variable {registrations : List (Registration σ)}

/-- A stream that was set up adds every fragment once for each of its sinks. -/
theorem journaled_notes (env : σ) {id : Nat} {sink : String → σ → σ}
    (h : registrations[id]? = some (.data sink)) :
    (journaled env registrations).assembly.Notes id := by
  constructor
  · exact fun entry he listener hl => journaled_telling env he hl id
  · intro fragment j
    have hadds := foldl_sinks_adds registrations id fragment j
    rw [journaled, (registered_output _ _).1]
    rwa [h] at hadds

/-- Where white space is preserved at an element, it is in all of the element. -/
theorem faithful_of_preserve {selector name : String} {outer : List String}
    (h : .preserve selector true ∈ registrations)
    (hmatch : (Selector.parse selector).Matches (outer ++ [name])) :
    (policy registrations).Faithful (outer ++ [name]) := by
  intro below
  have haround : outer ++ [name] ∈ pathsTo (outer ++ [name] ++ below) := by
    induction below using List.reverseRecOn with
    | nil => simp [pathsTo_concat]
    | append_singleton below other ih =>
      rw [← List.append_assoc, pathsTo_concat]
      exact List.mem_append_left _ ih
  have hrequest : (Selector.parse selector, true) ∈ registrations.filterMap preserve? :=
    List.mem_filterMap.2 ⟨_, h, rfl⟩
  exact ⟨decide_eq_true ⟨_, haround, _, hrequest, hmatch⟩,
    decide_eq_true ⟨_, haround, _, hrequest, hmatch, rfl⟩⟩

/-- What is related to a list that ends with `x` ends with something related to `x`. -/
theorem forall₂_concat {α β : Type} {R : α → β → Prop} {xs : List α} {x : α} {ys : List β}
    (h : List.Forall₂ R (xs ++ [x]) ys) : ∃ front y, ys = front ++ [y] ∧ R x y := by
  have hreverse := List.forall₂_reverse_iff.2 h
  rw [List.reverse_append, List.reverse_singleton, List.singleton_append,
    List.forall₂_cons_left_iff] at hreverse
  obtain ⟨y, back, hy, -, hys⟩ := hreverse
  refine ⟨back.reverse, y, ?_, hy⟩
  rw [← List.reverse_reverse ys, hys, List.reverse_cons]

section Element

variable {m : Automaton Effect} {states : List (Selector × StateId)} {id : Nat}
  {tokens before after : List Token} {parts : List (List Notice)} {name : String}
  {attributes : Attributes} {content : List Node} {names : List String}

/-- Each part has the fragment of its token. -/
theorem fragments_of_records {policy : Policy} {roster : Roster} {stack : List Branch}
    (h : List.Forall₂ (Assembly.Records m roster id) (Branch.scenes policy stack tokens) parts) :
    List.Forall₂ (fun token part => part.filterMap (Notice.fragment? id) = [Markup.ofToken token])
      tokens parts := by
  have hfragments := h.imp fun _ _ hrecords => hrecords.fragment
  rw [← Branch.scenes_tokens policy stack tokens]
  exact List.forall₂_map_left_iff.2 hfragments

theorem flatten_fragments
    (h : List.Forall₂
      (fun token part => part.filterMap (Notice.fragment? id) = [Markup.ofToken token])
      tokens parts) :
    String.join (parts.flatten.filterMap (Notice.fragment? id)) = Markup.ofTokens tokens := by
  induction h with
  | nil => rfl
  | cons hfirst _ ih =>
    rw [List.flatten_cons, List.filterMap_append, hfirst, String.join_append, ih]
    simp [Markup.ofTokens]

/-- The parts from the start tag of a faithful element through its end tag. -/
theorem ending_of_records (hserves : m.Serves states (requests registrations))
    (hselectors : states.map (·.1) = selectors registrations)
    (h : List.Forall₂ (Assembly.Records m (roster registrations) id)
      (Branch.scenes (policy registrations) []
        (before ++ ((Node.element name attributes content).tokens ++ after))) parts)
    (hlocated : (Token.located []
      (before ++ ((Node.element name attributes content).tokens ++ after)))[before.length]? =
        some (.startTag name attributes, names))
    (hfaithful : (policy registrations).Faithful names) :
    ∃ upTo closing,
      (parts.drop before.length).take (Node.element name attributes content).tokens.length =
        upTo ++ [closing] ∧
      (closing.filterMap Notice.sighting?).map
          (fun g => (g.id, g.event, g.scene.element.markup)) =
        (audience registrations .leave names).map fun (i, s) =>
          (i, s.name,
            String.join ((upTo ++ [closing]).flatten.filterMap (Notice.fragment? id))) := by
  obtain ⟨e, he, hscenes⟩ := Branch.scenes_element (policy registrations)
    (before.foldl Branch.grow []) name attributes content
  have hnames : names = Branch.path (before.foldl Branch.grow []) ++ [name] :=
    Branch.eq_of_located hlocated
  have hslice := List.forall₂_take (Node.element name attributes content).tokens.length
    (List.forall₂_drop before.length h)
  rw [Branch.scenes_append, Branch.scenes_append,
    List.drop_left' (Branch.length_scenes _ _ _), List.take_left' (Branch.length_scenes _ _ _)]
    at hslice
  have hwritten := flatten_fragments (fragments_of_records hslice)
  rw [hscenes] at hslice
  obtain ⟨upTo, closing, hsplit, hclosing⟩ := forall₂_concat hslice
  refine ⟨upTo, closing, hsplit, ?_⟩
  rw [hnames] at hfaithful
  have hmarkup : e.markup = Markup.ofTokens (Node.element name attributes content).tokens := by
    rw [← Markup.ofNode_markup, ← he]
    exact Markup.ofNode_element hfaithful attributes
      (Markup.ofNodes_assembledAll content hfaithful)
  rw [← hsplit, hwritten, hclosing.sightings, seen_eq hserves hselectors, List.map_map, ← hmarkup,
    hnames]
  rfl

end Element

/-- Preserved elements are written as they passed through.  Listeners leave elements as they are,
none of them waits for an update, and there is a sink.  A stream that nobody pauses delivers a
document to its end, and when a stream has done so, what its listeners were told falls into parts,
one for each token, of which each has just one fragment for the sink.  While the end tag of an
element is taken whose white space some `preserve` keeps, those who wait for its end, and nobody
else, are told of an element that is written just as the fragments from its start tag through its
end tag. -/
theorem endings_verbatim (env : σ) (registrations : List (Registration σ))
    (h : ∀ r ∈ registrations, r.Still)
    (hupdate : ∀ s ∈ subscriptions registrations, s.kind ≠ .updateElement) (id : Nat)
    (sink : String → σ → σ) (hsink : registrations[id]? = some (.data sink))
    (calls : List Call) :
    ∃ verdicts s, (journaled env registrations).run calls = .ok (verdicts, s) ∧
      ((∀ r ∈ registrations, r.tireless = r) → Call.pause ∉ calls → Call.finish ∈ calls →
        (Document.transcript (Call.input calls)).error = none → s.phase = .ended) ∧
      (s.phase = .ended → ∃ tokens parts rest,
        Tokenizer.hear [.feed (Call.input calls), .finish, .drain] = .ok ⟨tokens, none⟩ ∧
        s.env.notices = parts.flatten ++ rest ∧
        List.Forall₂
          (fun token part => part.filterMap (Notice.fragment? id) = [Markup.ofToken token])
          tokens parts ∧
        rest.filterMap (Notice.fragment? id) = [] ∧
        ∀ before name attributes content after path selector,
          tokens = before ++ ((Node.element name attributes content).tokens ++ after) →
          (Token.located [] tokens)[before.length]? = some (.startTag name attributes, path) →
          .preserve selector true ∈ registrations → (Selector.parse selector).Matches path →
          ∃ upTo closing,
            (parts.drop before.length).take (Node.element name attributes content).tokens.length =
              upTo ++ [closing] ∧
            (closing.filterMap Notice.sighting?).map
                (fun g => (g.id, g.event, g.scene.element.markup)) =
              (audience registrations .leave path).map fun (i, s) =>
                (i, s.name,
                  String.join ((upTo ++ [closing]).flatten.filterMap (Notice.fragment? id)))) := by
  obtain ⟨verdicts, s, hrun, -⟩ := run_ok (journaled_sound env registrations) calls
  refine ⟨verdicts, s, hrun, ended_of_tireless hrun, fun hs => ?_⟩
  obtain ⟨-, herror⟩ := document_of_ended hrun hs
  obtain ⟨b, hb, henv⟩ := exists_acceptAll_of_ended hrun hs
  obtain ⟨place, hfollow, -⟩ := Document.follow_transcript (Call.input calls)
  obtain ⟨states, hserves, hselectors⟩ := journaled_serves env registrations
  obtain ⟨-, honEnd, hstart, hholding, -⟩ :=
    registered_output ({ env } : Journal σ) (loggedAll registrations.zipIdx)
  obtain ⟨parts, hparts, hrecords⟩ := (journaled_follows env h).acceptAll_records
    (policy_agrees hserves) (fluent_of_no_update hserves hupdate) (journaled_notes env hsink)
    hholding (p := .prolog) rfl hfollow hb
  obtain ⟨rest, hrest, hnone⟩ := foldl_endings_adds registrations id b.env
  refine ⟨_, parts, rest, ?_, ?_, fragments_of_records hrecords, hnone, ?_⟩
  · rw [Tokenizer.hear_document, ← herror]
  · have hnotices : (journaled env registrations).assembly.env.notices = [] :=
      congrArg Journal.notices hstart
    rw [henv, journaled, honEnd, hrest, hparts, hnotices, List.nil_append]
  · intro before name attributes content after path selector htokens hlocated hpreserve hmatch
    rw [htokens] at hrecords hlocated
    have hpath : path = Branch.path (before.foldl Branch.grow []) ++ [name] :=
      Branch.eq_of_located hlocated
    refine ending_of_records hserves hselectors hrecords hlocated ?_
    rw [hpath] at hmatch ⊢
    exact faithful_of_preserve hpreserve hmatch

/-- An element with a literal section and an empty element in it, which two requests preserve and
one of them keeps the white space of. -/
theorem endings_verbatim_overlap :
    ∃ verdicts s, ∃ parts : List (List Notice), ∃ rest upTo closing,
      (journaled () [.preserve "b" false, .preserve "a > b" true, .on "endElement: b" .idle,
          .data fun _ env => env]).run
        [.feed (Bytes.ascii ['<', 'a', '>', ' ', '<', 'b', ' ', 'x', '=', '"', '1', '"', '>', 'p',
            ' ', '<', 'c', '/', '>', '<', '!', '[', 'C', 'D']),
          .feed (Bytes.ascii ['A', 'T', 'A', '[', '<', ']', ']', '>', '<', '/', 'b', '>', '<', '/',
            'a', '>']), .finish] = .ok (verdicts, s) ∧
      s.phase = .ended ∧ s.env.notices = parts.flatten ++ rest ∧
      (parts.drop 2).take 6 = upTo ++ [closing] ∧
      (closing.filterMap Notice.sighting?).map (fun g => (g.id, g.event, g.scene.element.markup)) =
        [(2, "endElement: b",
          String.join ((upTo ++ [closing]).flatten.filterMap (Notice.fragment? 3)))] := by
  obtain ⟨verdicts, s, hrun, hended, hparts⟩ := endings_verbatim ()
    [.preserve "b" false, .preserve "a > b" true, .on "endElement: b" .idle,
      .data fun _ env => env]
    (by simp [Registration.Still, Listener.idle]) (by decide) 3 (fun _ env => env) rfl
    [.feed (Bytes.ascii ['<', 'a', '>', ' ', '<', 'b', ' ', 'x', '=', '"', '1', '"', '>', 'p',
        ' ', '<', 'c', '/', '>', '<', '!', '[', 'C', 'D']),
      .feed (Bytes.ascii ['A', 'T', 'A', '[', '<', ']', ']', '>', '<', '/', 'b', '>', '<', '/',
        'a', '>']), .finish]
  have hs : s.phase = .ended :=
    hended (by simp [Registration.tireless, Listener.tireless_idle]) (by decide) (by decide)
      (by decide +kernel)
  obtain ⟨tokens, parts, rest, htokens, hnotices, -, -, helements⟩ := hparts hs
  rw [Tokenizer.hear_document] at htokens
  have hheard : (Document.transcript (Call.input
      [.feed (Bytes.ascii ['<', 'a', '>', ' ', '<', 'b', ' ', 'x', '=', '"', '1', '"', '>', 'p',
          ' ', '<', 'c', '/', '>', '<', '!', '[', 'C', 'D']),
        .feed (Bytes.ascii ['A', 'T', 'A', '[', '<', ']', ']', '>', '<', '/', 'b', '>', '<', '/',
          'a', '>']), .finish])).tokens =
      [.startTag "a" [], .text " "] ++ ((Node.element "b" [("x", "1")]
        [.text "p ", .element "c" [] [], .text "<"]).tokens ++ [.endTag "a"]) := by
    decide +kernel
  rw [Except.ok.inj htokens] at hheard
  subst hheard
  obtain ⟨upTo, closing, hsplit, htold⟩ := helements _ _ _ _ _ ["a", "b"] "a > b" rfl
    (by decide +kernel) (by simp) (by decide +kernel)
  exact ⟨verdicts, s, parts, rest, upTo, closing, hrun, hs, hnotices, hsplit, htold⟩

end Stream

end XmlSieve
