import XmlSieve.Proofs.Element.Fragments
import XmlSieve.Proofs.Stream.PassThrough
import XmlSieve.Proofs.Stream.Tracking

/-!
# Renaming elements that are written

Listeners that rename an element when it starts or in an update of it leave the output a document.
Output is held back from the outermost open element that an update waits for, so that what was
written ends inside the elements around it (`shown`).  When the element ends, the last of its
updates to be told writes it up to its end tag (`Leaves`), under the name that it is left with, and
the end tag is written under the same name.
-/

namespace XmlSieve

variable {σ : Type}

open Markup

/-! ### What was written -/

/-- The open frames of which the start tag was written: nothing holds output back in them or around
them. -/
def Frame.shown : List Frame → List Frame
  | [] => []
  | frame :: outer =>
    if Assembly.heldIn (frame :: outer) = 0 then frame :: outer else shown outer

/-- The place that was reached in the output, where the elements with these names were written and
did not end, and `p` was reached in the document. -/
def Place.shown (p : Place) : List String → Place
  | [] => if p = epilog then epilog else prolog
  | innermost :: outer => content innermost outer

theorem Place.openNames_shown (p : Place) (names : List String) :
    (p.shown names).openNames = names := by
  cases names with
  | nil => by_cases h : p = epilog <;> simp [shown, openNames, h]
  | cons => rfl

theorem Place.shown_ne_epilog {p : Place} (h : p ≠ epilog) (names : List String) :
    p.shown names ≠ epilog := by
  cases names with
  | nil => simp [shown, h]
  | cons => simp [shown]

/-- Where no output is held back, the places in the output and in the document are alike. -/
theorem Place.shown_eq_inside {p : Place} {names : List String} (h : names = [] → p = epilog) :
    p.shown names = inside names := by
  cases names with
  | nil => rw [shown, if_pos (h rfl), inside]
  | cons => rfl

theorem Place.shown_congr {p q : Place} (hp : p ≠ epilog) (hq : q ≠ epilog)
    (names : List String) : p.shown names = q.shown names := by
  cases names with
  | nil => rw [shown, shown, if_neg hp, if_neg hq]
  | cons => rfl

namespace Frame

theorem shown_of_none {frames : List Frame} (h : Assembly.heldIn frames = 0) :
    shown frames = frames := by
  cases frames with
  | nil => rfl
  | cons frame outer => rw [shown, if_pos h]

/-- The names of frames that are shown. -/
def shownNames (frames : List Frame) : List String := (shown frames).map (·.element.name)

theorem shownNames_cons_of_none {frame : Frame} {outer : List Frame}
    (h : Assembly.heldIn (frame :: outer) = 0) :
    shownNames (frame :: outer) = frame.element.name :: shownNames outer := by
  have houter : Assembly.heldIn outer = 0 := by
    rw [Assembly.heldIn_cons] at h
    omega
  rw [shownNames, shownNames, shown_of_none h, shown_of_none houter, List.map_cons]

theorem shownNames_cons_of_held {frame : Frame} {outer : List Frame}
    (h : Assembly.heldIn (frame :: outer) ≠ 0) :
    shownNames (frame :: outer) = shownNames outer := by
  rw [shownNames, shown, if_neg h, shownNames]

theorem shownNames_modifyHead {f : Element → Element} (h : ∀ e, (f e).name = e.name)
    (frames : List Frame) : shownNames (modifyHead f frames) = shownNames frames := by
  cases frames with
  | nil => rfl
  | cons frame outer =>
    have hheld : Assembly.heldIn ({ frame with element := f frame.element } :: outer) =
        Assembly.heldIn (frame :: outer) := Assembly.heldIn_modifyHead f (frame :: outer)
    unfold shownNames modifyHead shown
    rw [hheld]
    split
    · rw [List.map_cons, List.map_cons, h]
    · rfl

end Frame

namespace Assembly

variable {a b : Assembly (Journal σ)} {m : Automaton Effect} {policy : Policy} {id : Nat}
  {frame : Frame} {token : Token}

/-! ### The effects of an end tag -/

/-- What comes of effects in an element that ends, where `outer` updates of elements around it hold
output back: nothing is written before the last of its own updates, if it has any, and then all of
the element up to its end tag. -/
structure Leaves (a : Assembly (Journal σ)) (frame : Frame) (outer id : Nat)
    (r : Assembly (Journal σ) × Frame) : Prop where
  becomes : frame.element.MayBecome true r.2.element
  idle : frame.held = [] → r.2.held = [] ∧ r.2.element = frame.element
  holding : r.1.holding = r.2.held.length + outer
  written : r.1.env.written id = a.env.written id ++
    if outer = 0 ∧ frame.held ≠ [] ∧ r.2.held = [] then r.2.element.openMarkup else ""

theorem applyAll_leaves {effects : List Effect} {outer : Nat} (hprints : a.Prints id)
    (hfits : ∀ effect ∈ effects, effect.Fits .leave)
    (hconfined : ∀ effect ∈ effects, ∀ n, effect.told? = some n →
      a.Confined n effect.flush?.isSome)
    (hholding : a.holding = frame.held.length + outer) :
    Leaves a frame outer id (a.applyAll frame none effects) := by
  have hflushes : Flushes a frame outer id (a.applyAll frame none effects) :=
    applyAll_flushes hprints hfits (fun n hn => hconfined (.notify n) hn n rfl) hholding
  refine ⟨applyAll_becomes (fun effect he n hn => ?_) frame none, hflushes.idle, hflushes.holding,
    hflushes.written⟩
  exact (hconfined effect he n hn).mono

/-! ### The invariant -/

/-- What is invariant while a document is read up to `p` and written to the sink with the number
`id`. -/
structure Writes (a : Assembly (Journal σ)) (m : Automaton Effect) (policy : Policy) (id : Nat)
    (p : Place) : Prop where
  tracks : a.Tracks m policy p.openNames
  prints : a.Prints id
  lenient : a.Lenient m [.startElement, .updateElement]
  printable : ∀ frame ∈ a.frames, frame.element.Printable ∧ isName frame.element.name = true
  reaches : Reaches (a.env.written id) (p.shown (Frame.shownNames a.frames))

theorem printable_modifyHead {frames : List Frame} {f : Element → Element}
    (h : ∀ frame ∈ frames, frame.element.Printable ∧ isName frame.element.name = true)
    (hf : ∀ e : Element, e.Printable → (f e).Printable) (hname : ∀ e, (f e).name = e.name) :
    ∀ frame ∈ Frame.modifyHead f frames,
      frame.element.Printable ∧ isName frame.element.name = true := by
  cases frames with
  | nil => exact h
  | cons frame outer =>
    obtain ⟨⟨hprintable, hisName⟩, hrest⟩ := List.forall_mem_cons.1 h
    refine List.forall_mem_cons.2 ⟨⟨hf _ hprintable, ?_⟩, hrest⟩
    rw [hname]
    exact hisName

theorem addText_printable (a : Assembly σ) (h : frame.element.Printable) (chunk : String) :
    (a.addText frame chunk).element.Printable := by
  have htext (node : String) : Balanced (ofNode (.text node)) := by
    rw [ofNode]
    exact .text node
  unfold addText
  by_cases hv : a.verbatim > 0
  · simp only [hv, if_true]
    split
    · exact (h.addText (frame.element.text ++ chunk)).addNode (htext _)
    · exact h.addText _
  · simp only [hv, if_false]
    split
    · exact (h.addText (frame.spacing.push frame.element.text chunk).2).addNode (htext _)
    · exact h.addText _

/-- What is reached when the element of `frame` has opened. -/
theorem reaches_start {frames : List Frame} {p : Place} {name s : String} {attributes : Attributes}
    (h : Reaches s (p.shown (Frame.shownNames frames))) (hp : p ≠ .epilog)
    (hname : isName frame.element.name = true) (hattributes : attributes.Proper) :
    Reaches (s ++ if heldIn (frame :: frames) = 0 then startTag frame.element.name attributes else "")
      ((Place.content name p.openNames).shown (Frame.shownNames (frame :: frames))) := by
  by_cases hh : heldIn (frame :: frames) = 0
  · have hstart := h.start (Place.shown_ne_epilog hp _) hname hattributes
    rw [Place.openNames_shown] at hstart
    rw [if_pos hh, Frame.shownNames_cons_of_none hh]
    exact hstart
  · rw [if_neg hh, String.append_empty, Frame.shownNames_cons_of_held hh,
      Place.shown_congr (by simp) hp]
    exact h

/-- What is reached after a text in the innermost element. -/
theorem reaches_text {outer : List Frame} {p : Place} {s : String}
    (h : Reaches s (p.shown (Frame.shownNames (frame :: outer)))) (content : String) :
    Reaches (s ++ if heldIn (frame :: outer) = 0 then escape content else "")
      (p.shown (Frame.shownNames (frame :: outer))) := by
  by_cases hh : heldIn (frame :: outer) = 0
  · rw [Frame.shownNames_cons_of_none hh] at h ⊢
    rw [if_pos hh]
    exact h.balanced (.text content)
  · rw [if_neg hh, String.append_empty]
    exact h

/-- What is reached when an element has ended that was left as `e`. -/
theorem reaches_end {outer : List Frame} {name : String} {names : List String} {s : String}
    {e : Element}
    (h : Reaches s ((Place.content name names).shown (Frame.shownNames (frame :: outer))))
    (hframe : isName frame.element.name = true) (he : e.Printable) (hname : isName e.name = true)
    (hidle : frame.held = [] → e = frame.element) (hroot : outer = [] ↔ names = []) :
    Reaches (s ++ (if heldIn outer = 0 ∧ frame.held ≠ [] then e.openMarkup else "") ++
        (if heldIn outer = 0 then endTag e.name else ""))
      ((Place.inside names).shown (Frame.shownNames outer)) := by
  have hcontent : Place.content name names ≠ .epilog := by simp
  by_cases hh : heldIn outer = 0
  · have hinside (hnil : Frame.shownNames outer = []) : Place.inside names = .epilog := by
      rw [Frame.shownNames, Frame.shown_of_none hh, List.map_eq_nil_iff] at hnil
      rw [hroot.1 hnil, Place.inside]
    rw [if_pos hh, Place.shown_eq_inside hinside]
    by_cases hheld : frame.held = []
    · -- The start tag was written before.
      have hzero : heldIn (frame :: outer) = 0 := by
        rw [heldIn_cons, hheld, hh]
        rfl
      rw [Frame.shownNames_cons_of_none hzero] at h
      rw [if_neg fun h => h.2 hheld, String.append_empty, hidle hheld]
      exact h.finish hframe
    · -- The last update of the element writes it.
      have hpos : heldIn (frame :: outer) ≠ 0 := by
        rw [heldIn_cons]
        have hlength := List.length_pos_of_ne_nil hheld
        omega
      rw [Frame.shownNames_cons_of_held hpos] at h
      have hdone := he.reaches hname h (Place.shown_ne_epilog hcontent _)
      rw [Place.openNames_shown] at hdone
      rwa [if_pos ⟨hh, hheld⟩]
  · have hpos : heldIn (frame :: outer) ≠ 0 := by
      rw [heldIn_cons]
      omega
    have hinside : Place.inside names ≠ .epilog := by
      cases names with
      | nil => exact absurd (by rw [hroot.2 rfl]; rfl) hh
      | cons => simp [Place.inside]
    rw [Frame.shownNames_cons_of_held hpos] at h
    rw [if_neg fun h => hh h.1, if_neg hh, String.append_empty, String.append_empty,
      Place.shown_congr hinside hcontent]
    exact h

namespace Writes

variable {p q : Place} {name : String} {attributes : Attributes}

theorem start (h : a.Writes m policy id p) (hm : policy.Agrees m) (hp : p ≠ .epilog)
    (hname : isName name = true) (hattributes : attributes.Proper) :
    (a.acceptStart name attributes).Writes m policy id (.content name p.openNames) := by
  obtain ⟨-, hholding⟩ := h.tracks.start_frame hm name attributes
  have htracks := h.tracks.start hm name attributes
  have hrun := h.tracks.runStart_eq name attributes
  -- The frame that opens is that of the tag, under another name at most.
  have hbecomes : Element.MayBecome true { name, attributes }
      (a.runStart name attributes).2.element := by
    rw [hrun]
    refine applyAll_becomes (fun effect he n hn => ?_) (Frame.opened a.path name attributes) none
    rcases List.mem_append.1 he with he | he <;> exact h.lenient.confined he hn
  have hprintable := (Element.Printable.opened name hattributes).becomes hbecomes
  have hisName := hbecomes.isName hname
  have hflush : ((a.automaton.enter name).1.flags ++
      (a.automaton.enter name).1.enter).filterMap Effect.flush? = [] := by
    rw [h.tracks.automaton, Automaton.enter_openFor, hm.flush?_start]
  obtain ⟨hwritten, -⟩ := acceptStart_written h.prints name attributes hflush
  have hb : a.accept (.startTag name attributes) = .ok (a.acceptStart name attributes) := rfl
  have hkeeps := accept_keeps hb
  refine ⟨htracks, accept_prints h.prints hb, h.lenient.congr hkeeps.1, ?_, ?_⟩
  · rw [acceptStart_frames]
    refine List.forall_mem_cons.2 ⟨⟨?_, hisName⟩, printable_modifyHead h.printable
      (fun e he => he.openChild hisName _) fun e => rfl⟩
    by_cases hp : (a.runStart name attributes).1.preserving > 0
    · simpa [hp] using hprintable.startNodes
    · simp only [hp, if_false]
      exact ⟨hprintable.attributes, hprintable.children, hprintable.nodes⟩
  · have hframes := acceptStart_frames a name attributes
    have hheld : heldIn (a.acceptStart name attributes).frames =
        (a.runStart name attributes).1.holding := by
      rw [hframes, heldIn_cons, heldIn_modifyHead, hholding]
    have houter : Frame.shownNames (Frame.modifyHead
        (·.openChild (a.runStart name attributes).2.element.name
          (a.runStart name attributes).2.collected) a.frames) = Frame.shownNames a.frames := by
      refine Frame.shownNames_modifyHead ?_ a.frames
      exact fun e => rfl
    rw [hwritten, ← hheld, hframes]
    exact reaches_start (houter ▸ h.reaches) hp hisName hprintable.attributes

theorem text (h : a.Writes m policy id p) (hm : policy.Agrees m) {content : String}
    (hb : a.acceptText content = .ok b) : b.Writes m policy id p := by
  obtain ⟨frame, outer, hframes⟩ := exists_frames_of_text hb
  obtain ⟨hframe, hholding⟩ := h.tracks.text_frame hm hframes content
  have htracks := h.tracks.text hm hb
  have haccept : a.accept (.text content) = .ok b := hb
  have hkeeps := accept_keeps haccept
  obtain ⟨hwritten, -⟩ := acceptText_written h.prints hframes
    (by rw [h.tracks.due_eq]; exact Effect.flush?_eq_nil (hm.fits .inside _) (by simp)) hb
  -- No listener for the text changes the element.
  have helement : (a.runText frame outer content).2.element = (a.addText frame content).element := by
    have houter : Lenient { a with frames := outer } m [.startElement, .updateElement] :=
      h.lenient.congr rfl
    rw [h.tracks.runText_eq]
    exact houter.element_eq (by decide) _ _ _
  have hafter := acceptText_frames hframes hb
  have hname : (a.runText frame outer content).2.element.name = frame.element.name := by
    rw [helement, Holds.addText_eq]
  obtain ⟨⟨hprintable, hisName⟩, hrest⟩ := List.forall_mem_cons.1 (hframes ▸ h.printable)
  have hlength := hframe.length_held (h.tracks.head hframes)
  have hheld : heldIn ((a.runText frame outer content).2 :: outer) = heldIn (frame :: outer) := by
    rw [heldIn_cons, heldIn_cons, hlength]
  have hshown : Frame.shownNames b.frames = Frame.shownNames a.frames := by
    rw [hafter, hframes]
    by_cases hh : heldIn (frame :: outer) = 0
    · rw [Frame.shownNames_cons_of_none hh, Frame.shownNames_cons_of_none (hheld.trans hh), hname]
    · rw [Frame.shownNames_cons_of_held hh, Frame.shownNames_cons_of_held (hheld ▸ hh)]
  refine ⟨htracks, accept_prints h.prints haccept, h.lenient.congr hkeeps.1, ?_, ?_⟩
  · rw [hafter]
    refine List.forall_mem_cons.2 ⟨⟨?_, hname ▸ hisName⟩, hrest⟩
    rw [helement]
    exact addText_printable a hprintable content
  · rw [hwritten, hshown]
    rw [hholding, ← heldIn_cons, hheld, hframes]
    exact reaches_text (hframes ▸ h.reaches) content

/-- What comes of the effects of an end tag. -/
theorem leaves {names : List String} {outer : List Frame}
    (h : a.Writes m policy id (.content name names)) (hm : policy.Agrees m)
    (hframes : a.frames = frame :: outer) :
    Leaves { a with automaton := m.openFor names, frames := outer } frame (heldIn outer) id
      (a.runEnd frame outer (m.after (name :: names).reverse) (m.setsFor names)) := by
  have hrun := h.tracks.runEnd_eq frame outer
  rw [hrun]
  refine applyAll_leaves (h.prints.congr rfl rfl) (hm.fits .leave _) (fun effect he n hn => ?_) ?_
  · cases effect with
    | notify n' =>
      cases hn
      exact h.lenient.finish he
    | flush n' =>
      cases hn
      exact h.lenient.update he
    | collect | preserve | release | hold => cases hn
  · exact h.tracks.holding_cons hframes

theorem finish {names : List String} (h : a.Writes m policy id (.content name names))
    (hm : policy.Agrees m) (hb : a.acceptEnd = .ok b) : b.Writes m policy id (.inside names) := by
  obtain ⟨frame, outer, hframes⟩ := exists_frames_of_end hb
  have htracks : b.Tracks m policy (Place.inside names).openNames := by
    rw [Place.openNames_inside]
    exact h.tracks.finish hm hb
  have haccept : a.accept (.endTag name) = .ok b := hb
  have hkeeps := accept_keeps haccept
  have hactive := h.tracks.active_eq
  have hwritten := (acceptEnd_written h.prints hframes hactive hb).1
  have hleaves := h.leaves hm hframes
  obtain ⟨-, hnone, hholding, -⟩ := h.tracks.end_frame hm hframes rfl
  have hafter := acceptEnd_frames hframes hactive rfl hb
  generalize a.runEnd frame outer (m.after (name :: names).reverse) (m.setsFor names) = r
    at hwritten hleaves hnone hholding hafter
  have hbefore : (({ a with automaton := m.openFor names, frames := outer } :
      Assembly (Journal σ)).env.written id) = a.env.written id := rfl
  rw [hleaves.written, hbefore, hholding] at hwritten
  obtain ⟨⟨hprintable, hisName⟩, hrest⟩ := List.forall_mem_cons.1 (hframes ▸ h.printable)
  have hprintable' := hprintable.becomes hleaves.becomes
  have hisName' := hleaves.becomes.isName hisName
  have hshown : Frame.shownNames b.frames = Frame.shownNames outer := by
    rw [hafter]
    refine Frame.shownNames_modifyHead (fun e => ?_) outer
    split <;> rfl
  refine ⟨htracks, accept_prints h.prints haccept, h.lenient.congr hkeeps.1, ?_, ?_⟩
  · rw [hafter]
    refine printable_modifyHead hrest (fun e he => ?_) fun e => by split <;> rfl
    split
    · exact (he.addNode (hprintable'.node hisName')).closeChild (hprintable'.content hisName') _
    · exact he.closeChild (hprintable'.content hisName') _
  · have hroot : outer = [] ↔ names = [] := by
      cases h.tracks.tail hframes <;> simp
    have hreaches := reaches_end (hframes ▸ h.reaches) hisName hprintable' hisName'
      (fun hheld => (hleaves.idle hheld).2) hroot
    rw [hwritten, hshown]
    simpa [hnone] using hreaches

theorem accept (h : a.Writes m policy id p) (hm : policy.Agrees m) (hproper : token.Proper)
    (hq : p.follow token = some q) (hb : a.accept token = .ok b) : b.Writes m policy id q := by
  cases Place.follow_eq_some_iff.1 hq with
  | startTag name attributes hp =>
    cases hb
    exact h.start hm hp hproper.1 hproper.2
  | text => exact h.text hm hb
  | endTag => exact h.finish hm hb

theorem acceptAll {tokens : List Token} (h : a.Writes m policy id p) (hm : policy.Agrees m)
    (hproper : ∀ token ∈ tokens, token.Proper) (hq : p.followAll tokens = some q)
    (hb : a.acceptAll tokens = .ok b) : b.Writes m policy id q := by
  induction tokens generalizing a p with
  | nil =>
    cases hq
    cases hb
    exact h
  | cons token tokens ih =>
    obtain ⟨next, hnext, hq⟩ := Place.exists_of_followAll_cons hq
    obtain ⟨c, hc, hb⟩ := exists_of_bind_eq_ok hb
    obtain ⟨htoken, htokens⟩ := List.forall_mem_cons.1 hproper
    exact ih (h.accept hm htoken hnext hc) htokens hq hb

/-- What was written of all of a document is a document. -/
theorem transcript_written (h : a.Writes m policy id .epilog) :
    (Document.transcript (Bytes.encode (a.env.written id))).error = none := by
  have hframes : a.frames = [] := by
    have htracked := h.tracks.frames
    generalize a.frames = frames at htracked
    cases htracked
    rfl
  obtain ⟨tokens, hproper, hwritten, hfollow⟩ := h.reaches
  rw [hframes] at hfollow
  rw [← hwritten, Document.transcript_ofTokens hproper hfollow]

end Writes

end Assembly

open Registration

namespace Stream

variable {registrations : List (Registration σ)}

/-- A stream that was set up has written nothing yet. -/
theorem journaled_writes (env : σ) {id : Nat} {sink : String → σ → σ}
    (h : ∀ r ∈ registrations, r.RenamesOn [.startElement, .updateElement])
    (hsink : registrations[id]? = some (.data sink)) :
    (journaled env registrations).assembly.Writes (journaled env registrations).assembly.automaton
      (policy registrations) id .prolog := by
  have hframes := (journaled_closed env registrations).1
  obtain ⟨-, -, henv, -⟩ :=
    registered_output ({ env } : Journal σ) (loggedAll registrations.zipIdx)
  refine ⟨journaled_tracks env registrations, journaled_prints env hsink, journaled_lenient env h,
    by simp [hframes], ?_⟩
  rw [hframes]
  exact ⟨[], by simp, (congrArg (Journal.written id) henv).symm, rfl⟩

/-- The output stays a document when listeners for the starts and the updates of elements rename
them, and other listeners leave them as they are.  A stream that nobody pauses delivers a document
to its end, and when a stream has done so, what it wrote to a sink is heard without an error. -/
theorem written_renamed (env : σ) (registrations : List (Registration σ))
    (h : ∀ r ∈ registrations, r.RenamesOn [.startElement, .updateElement]) (id : Nat)
    (sink : String → σ → σ) (hsink : registrations[id]? = some (.data sink))
    (calls : List Call) :
    ∃ verdicts s, (journaled env registrations).run calls = .ok (verdicts, s) ∧
      ((∀ r ∈ registrations, r.tireless = r) → Call.pause ∉ calls → Call.finish ∈ calls →
        (Document.transcript (Call.input calls)).error = none → s.phase = .ended) ∧
      (s.phase = .ended → ∃ tokens,
        Tokenizer.hear [.feed (Bytes.encode (s.env.written id)), .finish, .drain] =
          .ok ⟨tokens, none⟩) := by
  obtain ⟨verdicts, s, hrun, -⟩ := run_ok (journaled_sound env registrations) calls
  refine ⟨verdicts, s, hrun, ended_of_tireless hrun, fun hs => ?_⟩
  obtain ⟨-, herror⟩ := document_of_ended hrun hs
  obtain ⟨b, hb, hwritten⟩ := exists_written_of_ended hrun hs id
  obtain ⟨after, hfollow, hepilog⟩ := Document.follow_transcript (Call.input calls)
  have hall := (journaled_writes env h hsink).acceptAll (journaled_agrees env registrations)
    (Document.transcript_proper _) hfollow hb
  rw [hepilog herror] at hall
  refine ⟨(Document.transcript (Bytes.encode (s.env.written id))).tokens, ?_⟩
  rw [Tokenizer.hear_document, hwritten, ← hall.transcript_written]

/-- An element that is renamed when it starts, around one that is renamed in an update. -/
theorem written_renamed_update :
    ∃ verdicts s,
      (journaled () [.data fun _ env => env, .on "startElement: a" (.renamer "x"),
          .on "updateElement: b" (.renamer "y")]).run
        [.feed (Bytes.ascii ['<', 'a', '>', '<', 'b', '/', '>', '<', '/', 'a', '>']), .finish] =
          .ok (verdicts, s) ∧
      s.phase = .ended ∧ ∃ tokens,
        Tokenizer.hear [.feed (Bytes.encode (s.env.written 0)), .finish, .drain] =
          .ok ⟨tokens, none⟩ := by
  have hrenames : ∀ r ∈ [.data fun _ env => env, .on "startElement: a" (.renamer "x"),
      .on "updateElement: b" (.renamer "y")],
      Registration.RenamesOn (σ := Unit) [.startElement, .updateElement] r := by
    simp only [List.forall_mem_cons]
    refine ⟨trivial, ?_, ?_, by simp⟩
    · exact renamesOn_renamer (s := ⟨.startElement, .parse "a"⟩) (by decide +kernel) (by decide)
        (by decide +kernel)
    · exact renamesOn_renamer (s := ⟨.updateElement, .parse "b"⟩) (by decide +kernel) (by decide)
        (by decide +kernel)
  obtain ⟨verdicts, s, hrun, hended, hheard⟩ := written_renamed () _ hrenames 0 _ rfl
    [.feed (Bytes.ascii ['<', 'a', '>', '<', 'b', '/', '>', '<', '/', 'a', '>']), .finish]
  have hs : s.phase = .ended :=
    hended (by simp [Registration.tireless, Listener.tireless_renamer]) (by decide)
      (by decide) (by decide +kernel)
  exact ⟨verdicts, s, hrun, hs, hheard hs⟩

/-- A listener that renames an element when it ends is too late for its start tag. -/
theorem written_end_renamed :
    (∀ r ∈ [.data fun _ env => env, .on "endElement: a" (.renamer "b")],
      Registration.RenamesOn (σ := Unit) EventKind.all r) ∧
    ∃ verdicts s,
      (journaled () [.data fun _ env => env, .on "endElement: a" (.renamer "b")]).run
        [.feed (Bytes.ascii ['<', 'a', '>', '<', '/', 'a', '>']), .finish] = .ok (verdicts, s) ∧
      s.phase = .ended ∧ s.env.written 0 = "<a></b>" ∧
      ∀ tokens, Tokenizer.hear [.feed (Bytes.encode (s.env.written 0)), .finish, .drain] ≠
        .ok ⟨tokens, none⟩ := by
  constructor
  · simp only [List.forall_mem_cons]
    refine ⟨trivial, ?_, by simp⟩
    exact renamesOn_renamer (s := ⟨.endElement, .parse "a"⟩) (by decide +kernel) (by decide)
      (by decide +kernel)
  obtain ⟨verdicts, s, hrun, -⟩ := run_ok (journaled_sound ()
    [.data fun _ env => env, .on "endElement: a" (.renamer "b")])
    [.feed (Bytes.ascii ['<', 'a', '>', '<', '/', 'a', '>']), .finish]
  have hs := ended_of_tireless hrun (by simp [Registration.tireless, Listener.tireless_renamer])
    (by decide) (by decide) (by decide +kernel)
  obtain ⟨b, hb, hwritten⟩ := exists_written_of_ended hrun hs 0
  have hall : (((journaled () [.data fun _ env => env, .on "endElement: a" (.renamer "b")]).assembly
      |>.acceptAll (Document.transcript (Call.input
        [.feed (Bytes.ascii ['<', 'a', '>', '<', '/', 'a', '>']), .finish])).tokens).map
          (·.env.written 0)).toOption = some "<a></b>" := by
    decide +kernel
  have hend : s.env.written 0 = "<a></b>" := by
    rw [hb] at hall
    exact hwritten.trans (Option.some.inj hall)
  refine ⟨verdicts, s, hrun, hs, hend, fun tokens hheard => ?_⟩
  rw [hend, Tokenizer.hear_document] at hheard
  have herror : (Document.transcript (Bytes.encode "<a></b>")).error.isSome = true := by
    decide +kernel
  rw [Except.ok.inj hheard] at herror
  cases herror

end Stream

end XmlSieve
