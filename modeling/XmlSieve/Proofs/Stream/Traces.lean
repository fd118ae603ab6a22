import XmlSieve.Proofs.Stream.Finality
import XmlSieve.Proofs.Stream.Walking
import XmlSieve.Proofs.Token.Rereading

/-!
# What listeners can look up

Whatever is done with a stream whose listeners leave elements as they are, the elements around every
match that it tells of are linked (`Ancestry.Linked`): a start tag reserves a slot of its parent for
the element that it opens (`Ancestry.Linked.open`), nothing happens to an open element but that its
children and its text change, and the names of elements have no slashes.  So every listener finds by
looking a path up what a walk along its names leads to (`Stream.traces_walk`).
-/

namespace XmlSieve

variable {σ : Type}

/-- Names that can be written have no slashes. -/
theorem noSlash_of_isName {name : String} (h : isName name = true) : NoSlash name := by
  intro hmem
  have hbyte : '/'.toUInt8 ∈ Bytes.encode name := by
    refine List.mem_flatMap.2 ⟨'/', hmem, ?_⟩
    rw [Bytes.utf8EncodeChar_ascii (by decide)]
    exact List.mem_singleton_self _
  exact absurd (isNameByte_of_mem h hbyte) (by decide)

/-! ### Linked elements -/

/-- What opens has the last place under its name. -/
theorem Element.child?_openChild (e : Element) (name : String) (collect : Bool) :
    (e.openChild name collect).child? name = some Element.placeholder := by
  rw [child?, slot?, openChild, get?_insert_self, reserve]
  cases collect <;> simp [Slot.latest?, Slot.values]

namespace Ancestry

variable {a : Ancestry} {document : Element} {frame other : Frame} {outer : List Frame}
  {f : Element → Element}

/-- The ancestry with the innermost open element changed, or the document if none is open. -/
def modify (f : Element → Element) : Ancestry → Ancestry
  | ⟨document, []⟩ => ⟨f document, []⟩
  | ⟨document, frame :: outer⟩ => ⟨document, Frame.modifyHead f (frame :: outer)⟩

namespace Linked

theorem empty (document : Element) : Linked ⟨document, []⟩ := ⟨by simp, rfl, .singleton _⟩

/-- Of the innermost open element nothing counts but its name and its path. -/
theorem head (h : Linked ⟨document, frame :: outer⟩)
    (hname : other.element.name = frame.element.name) (hpath : other.path = frame.path) :
    Linked ⟨document, other :: outer⟩ := by
  obtain ⟨hnames, hpaths, hreserved⟩ := h
  obtain ⟨hfirst, hrest⟩ := List.forall_mem_cons.1 hnames
  refine ⟨List.forall_mem_cons.2 ⟨hname ▸ hfirst, hrest⟩, ?_, ?_⟩
  · rw [List.map_cons, List.map_cons, hname, hpath]
    exact hpaths
  · obtain ⟨hlast, hothers⟩ := List.isChain_cons.1 hreserved
    exact List.isChain_cons.2 ⟨fun parent hparent => hname ▸ hlast parent hparent, hothers⟩

theorem modify (h : a.Linked) (hf : ∀ e, (f e).name = e.name) : (a.modify f).Linked := by
  obtain ⟨document, frames⟩ := a
  cases frames with
  | nil => exact empty _
  | cons frame outer => exact h.head (hf frame.element) rfl

/-- An element opens in the innermost, which reserves a slot for it. -/
theorem «open» (h : a.Linked) (hname : NoSlash frame.element.name)
    (hpath : frame.path = (a.frames.head?.map (·.path)).getD "" ++ "/" ++ frame.element.name)
    (collect : Bool) :
    Linked ⟨(a.modify (·.openChild frame.element.name collect)).document,
      frame :: (a.modify (·.openChild frame.element.name collect)).frames⟩ := by
  have hparent := h.modify (f := (·.openChild frame.element.name collect)) fun _ => rfl
  refine ⟨List.forall_mem_cons.2 ⟨hname, hparent.names⟩, ?_, ?_⟩
  · rw [List.map_cons, List.map_cons, openPaths_cons, ← hparent.paths, hpath]
    obtain ⟨document, frames⟩ := a
    cases frames <;> rfl
  · refine List.isChain_cons.2 ⟨?_, hparent.reserved⟩
    obtain ⟨document, frames⟩ := a
    cases frames <;> rintro parent ⟨⟩ <;> exact Element.child?_openChild _ _ _

end Linked

end Ancestry

/-! ### Tokens -/

namespace Assembly

variable {a b : Assembly σ} {token : Token} {task : Task σ}

theorem SameSetting.ancestry (h : SameSetting a b) : b.ancestry = a.ancestry := by
  rw [Assembly.ancestry, h.document, h.frames, Assembly.ancestry]

theorem modifyParent_ancestry (a : Assembly σ) (f : Element → Element) :
    (a.modifyParent f).ancestry = a.ancestry.modify f := by
  unfold modifyParent
  split <;> simp_all [Assembly.ancestry, Ancestry.modify, Frame.modifyHead]

/-- The ancestry when an element has opened. -/
theorem pushFrame_ancestry (a : Assembly σ) (frame : Frame) :
    ∃ opened : Frame, opened.element.name = frame.element.name ∧ opened.path = frame.path ∧
      let around := a.ancestry.modify (·.openChild opened.element.name frame.collected)
      (a.pushFrame frame).ancestry = ⟨around.document, opened :: around.frames⟩ := by
  refine ⟨if a.preserving > 0 then frame.startNodes else frame, ?_, ?_, ?_⟩
  · split <;> rfl
  · split <;> rfl
  · unfold pushFrame
    have hcollected : (if a.preserving > 0 then frame.startNodes else frame).collected =
        frame.collected := by split <;> rfl
    generalize (if a.preserving > 0 then frame.startNodes else frame) = opened at hcollected ⊢
    have hemit := (emit_same (a.modifyParent (·.openChild opened.element.name opened.collected))
      (Markup.startTag opened.element.name opened.element.attributes)).ancestry
    rw [← hcollected, ← modifyParent_ancestry, ← hemit]
    rfl

/-- A task finds linked elements around it, and what comes of it is linked if its effects leave the
element as it is. -/
theorem task_linked (h : a.ancestry.Linked)
    (hname : ∀ name attributes, token = .startTag name attributes → NoSlash name)
    (htask : a.task? token = some task) :
    task.assembly.ancestry.Linked ∧
      (task.done.2.element = task.frame.element → (completed task.done token).ancestry.Linked) := by
  have hsame := (task.assembly.applyAll_same task.frame task.chunk task.effects).ancestry
  have hpath := applyAll_path task.assembly task.frame task.chunk task.effects
  rw [Task.done, Task.after]
  generalize task.assembly.applyAll task.frame task.chunk task.effects = r at hsame hpath ⊢
  rcases task_cases htask with ⟨name, attributes, rfl, rfl⟩ |
    ⟨chunk, frame, outer, rfl, hframes, rfl⟩ |
    ⟨name, frame, outer, set, sets, rfl, hframes, -, rfl⟩
  · refine ⟨h, fun helement => ?_⟩
    obtain ⟨opened, hopened, hopenedPath, heq⟩ := r.1.pushFrame_ancestry r.2
    rw [helement] at hopened
    rw [completed, heq, hsame]
    refine Ancestry.Linked.open h (hopened ▸ hname name attributes rfl) ?_ _
    rw [hopened, hopenedPath, hpath]
    rfl
  · rw [ancestry, hframes] at h
    refine ⟨h.tail, fun helement => ?_⟩
    have hr : (completed r (.text chunk)).ancestry = ⟨a.document, r.2 :: outer⟩ := by
      rw [completed, (emit_same _ _).ancestry]
      obtain ⟨hdocument, houter⟩ := Ancestry.mk.inj hsame
      rw [ancestry, hdocument, houter]
    rw [Holds.addText_eq] at helement hpath
    have hname := congrArg Element.name helement
    rw [hr]
    exact h.head hname hpath
  · rw [ancestry, hframes] at h
    refine ⟨h.tail, fun _ => ?_⟩
    rw [completed, popFrame, (emit_same _ _).ancestry, store, modifyParent_ancestry, hsame]
    refine h.tail.modify fun e => ?_
    split <;> rfl

end Assembly

/-! ### Streams -/

/-- The match that is noted, if it is one. -/
def Notice.match? : Notice → Option Match
  | matched _ m => some m
  | data _ _ | ended _ | failed _ _ => none

namespace Journal

/-- The matches that listeners were told of, in their order. -/
def matched (j : Journal σ) : List Match := j.notices.filterMap (·.match?)

/-- The elements around every match that was noted are linked. -/
def Linked (j : Journal σ) : Prop := ∀ m ∈ j.matched, m.ancestry.Linked

theorem Linked.add {j : Journal σ} (h : j.Linked) (env : σ) {notice : Notice}
    (hnotice : ∀ m, notice.match? = some m → m.ancestry.Linked) : (j.add env notice).Linked := by
  intro m hmem
  rw [matched, Journal.add, List.filterMap_append] at hmem
  rcases List.mem_append.1 hmem with hmem | hmem
  · exact h m hmem
  · obtain ⟨notice', hsame, hm⟩ := List.mem_filterMap.1 hmem
    exact hnotice m (List.mem_singleton.1 hsame ▸ hm)

theorem Linked.add_other {j : Journal σ} (h : j.Linked) (env : σ) {notice : Notice}
    (hnotice : notice.match? = none) : (j.add env notice).Linked :=
  h.add env (by simp [hnotice])

end Journal

/-- A listener that leaves elements as they are, and notes no match but the one it is told of. -/
def Listener.Linking (listener : Listener (Journal σ)) : Prop :=
  ∀ m j, (listener m j).element = m.element ∧
    (m.ancestry.Linked → j.Linked → (listener m j).env.Linked)

namespace Stream

open Operation Registration

variable {s : Stream (Journal σ)}

/-- The open elements are linked, so are those around the matches that were noted, and nobody breaks
this. -/
structure Linked (s : Stream (Journal σ)) : Prop where
  ancestry : s.assembly.ancestry.Linked
  journal : s.env.Linked
  listeners : ∀ entry ∈ s.assembly.listeners, ∀ listener ∈ entry.2, listener.Linking
  sinks : ∀ sink ∈ s.assembly.sinks, ∀ fragment j, j.Linked → (sink fragment j).Linked
  onEnd : ∀ listener ∈ s.onEnd, ∀ j, j.Linked → (listener j).Linked
  onError : ∀ listener ∈ s.onError, ∀ e j, j.Linked → (listener e j).Linked

namespace Linked

theorem create (env : σ) : (create ({ env } : Journal σ)).Linked := by
  refine ⟨.empty _, ?_, ?_, ?_, ?_, ?_⟩ <;>
    simp [Stream.create, Journal.Linked, Journal.matched, Stream.env]

/-- Around linked elements, listeners and sinks keep the element and the journal linked. -/
theorem upholds (h : s.Linked) {a : Assembly (Journal σ)} (ha : a.ancestry.Linked)
    (hlisteners : a.listeners = s.assembly.listeners) (hsinks : a.sinks = s.assembly.sinks)
    (element : Element) : a.Upholds fun e j => e = element ∧ j.Linked := by
  constructor
  · rw [hlisteners]
    rintro entry he listener hl m j hm ⟨helement, hj⟩
    obtain ⟨hsame, hlinked⟩ := h.listeners entry he listener hl m j
    exact ⟨hsame.trans helement, hlinked (hm ▸ ha) hj⟩
  · rw [hsinks]
    rintro sink hsink fragment e j ⟨helement, hj⟩
    exact ⟨helement, h.sinks sink hsink fragment j hj⟩

theorem accept (h : s.Linked) {token : Token} {assembly : Assembly (Journal σ)}
    (hname : ∀ name attributes, token = .startTag name attributes → NoSlash name)
    (hb : s.assembly.accept token = .ok assembly) :
    assembly.ancestry.Linked ∧ assembly.env.Linked := by
  obtain ⟨task, htask, rfl⟩ := Assembly.exists_task hb
  obtain ⟨hlisteners, hsinks, henv, -⟩ := Assembly.task_keeps htask
  obtain ⟨haround, hafter⟩ := Assembly.task_linked h.ancestry hname htask
  have hupholds := h.upholds haround hlisteners hsinks task.frame.element
  obtain ⟨helement, hjournal⟩ := hupholds.done ⟨rfl, henv ▸ h.journal⟩ token
  exact ⟨hafter helement, hjournal⟩

theorem steady : Steady (Linked (σ := σ)) where
  reads h _ _ := ⟨h.ancestry, h.journal, h.listeners, h.sinks, h.onEnd, h.onError⟩
  pauses h _ := ⟨h.ancestry, h.journal, h.listeners, h.sinks, h.onEnd, h.onError⟩
  takes {s tokenizer token assembly} h hnext hb := by
    have hname (name : String) (attributes : Attributes) (ht : token = .startTag name attributes) :
        NoSlash name :=
      noSlash_of_isName (Tokenizer.next_startTag_proper (ht ▸ hnext)).1
    obtain ⟨hancestry, hjournal⟩ := h.accept hname hb
    obtain ⟨hlisteners, hsinks⟩ := Assembly.accept_keeps hb
    exact ⟨hancestry, hjournal, hlisteners ▸ h.listeners, hsinks ▸ h.sinks, h.onEnd, h.onError⟩
  ends {s} h := by
    refine ⟨h.ancestry, ?_, h.listeners, h.sinks, h.onEnd, h.onError⟩
    exact List.foldlRecOn (motive := Journal.Linked) _ _ h.journal
      fun j hj listener hl => h.onEnd listener hl j hj
  fails {s} h e := by
    refine ⟨h.ancestry, ?_, h.listeners, h.sinks, h.onEnd, h.onError⟩
    exact List.foldlRecOn (motive := Journal.Linked) _ _ h.journal
      fun j hj listener hl => h.onError listener hl e j hj

theorem register (h : s.Linked) {r : Registration σ} (hr : r.Still) (id : Nat) :
    (s.register (r.logged id)).Linked := by
  obtain ⟨hsinks, honEnd, henv, -, hdocument⟩ := s.register_output (r.logged id)
  have hframes := (s.register_input (r.logged id)).2.2.1
  refine ⟨?_, henv ▸ h.journal, ?_, ?_, ?_, ?_⟩
  · rw [Assembly.ancestry, hdocument, hframes]
    exact h.ancestry
  · refine register_listeners h.listeners ?_
    intro event listener hlogged
    cases r with
    | on event' told =>
      cases hlogged
      refine fun m j => ⟨hr m j.env, fun hm hj => hj.add _ fun m' hm' => ?_⟩
      exact Option.some.inj hm' ▸ hm
    | collect | preserve | data | atEnd | atError => cases hlogged
  · rw [hsinks]
    refine List.forall_mem_append.2 ⟨h.sinks, ?_⟩
    cases r with
    | data sink => exact List.forall_mem_singleton.2 fun fragment j hj => hj.add_other _ rfl
    | on | collect | preserve | atEnd | atError => exact List.forall_mem_nil _
  · rw [honEnd]
    refine List.forall_mem_append.2 ⟨h.onEnd, ?_⟩
    cases r with
    | atEnd listener => exact List.forall_mem_singleton.2 fun j hj => hj.add_other _ rfl
    | on | collect | preserve | data | atError => exact List.forall_mem_nil _
  · rw [register_onError]
    refine List.forall_mem_append.2 ⟨h.onError, ?_⟩
    cases r with
    | atError listener => exact List.forall_mem_singleton.2 fun e j hj => hj.add_other _ rfl
    | on | collect | preserve | data | atEnd => exact List.forall_mem_nil _

end Linked

/-- What is registered with a journal was registered under a number. -/
theorem exists_of_register_mem_loggedFrom {operations : List (Operation σ)} {n : Nat}
    {r : Registration (Journal σ)} (h : .register r ∈ loggedFrom n operations) :
    ∃ r' ∈ registrations operations, ∃ id, r = r'.logged id := by
  have hmem : r ∈ registrations (loggedFrom n operations) := List.mem_filterMap.2 ⟨_, h, rfl⟩
  rw [registrations_loggedFrom] at hmem
  obtain ⟨⟨r', id⟩, hr', rfl⟩ := List.mem_map.1 hmem
  exact ⟨r', List.fst_mem_of_mem_zipIdx hr', id, rfl⟩

/-- Whatever is done with a stream whose listeners leave elements as they are, looking a path up
around a match finds what the path leads to, where each open element has the last place under its
name in the element around it.  So each is found under its own path, and paths that only begin like
it never lead through it. -/
theorem traces_walk (env : σ) (operations : List (Operation σ))
    (hstill : ∀ r ∈ registrations operations, r.Still) :
    ∃ verdicts t,
      (create ({ env } : Journal σ)).operateAll (loggedFrom 0 operations) = .ok (verdicts, t) ∧
      ∀ m ∈ t.env.matched,
        m.ancestry.Linked ∧
        (∀ path result, m.ancestry.Leads path result ↔ m.ancestry.trace? path = result) ∧
        (∀ frame ∈ m.ancestry.frames, m.ancestry.trace? frame.path = some frame.element) ∧
        ∀ inner frame outer, m.ancestry.frames = inner ++ frame :: outer →
          ∀ (path : String) (c : Char) (rest : List Char), c ≠ '/' →
            path.toList = frame.path.toList ++ c :: rest →
            m.ancestry.trace? path = Ancestry.trace? ⟨m.ancestry.document, outer⟩ path := by
  obtain ⟨verdicts, t, hrun⟩ :=
    operateAll_ok (.create ({ env } : Journal σ)) (loggedFrom 0 operations)
  have hlinked : t.Linked := by
    refine Linked.steady.operateAll (fun hmem h => ?_) (.create _) (.create env) hrun
    obtain ⟨r, hr, id, rfl⟩ := exists_of_register_mem_loggedFrom hmem
    exact h.register (hstill r hr) id
  refine ⟨verdicts, t, hrun, fun m hmem => ?_⟩
  have hm := hlinked.journal m hmem
  refine ⟨hm, hm.leads_iff, hm.trace?_path, ?_⟩
  intro inner frame outer hframes path c rest hc hpath
  obtain ⟨event, element, ⟨document, frames⟩, chunk⟩ := m
  obtain rfl : frames = inner ++ frame :: outer := hframes
  exact hm.trace?_beside hc hpath

/-- Around the item, `/rss/channel` is the channel that is open and not the one before it, and
`/rss/channels` is a closed element.  There is nothing yet at the path of the item. -/
theorem traces_walk_channels :
    let document := Bytes.encode ("<rss><channels n='2'>all</channels>" ++
      "<channel n='1'>old</channel><channel n='2'>new<item/></channel></rss>")
    let operations : List (Operation Unit) :=
      [.register (.collect "channel"), .register (.on "endElement: item" .idle),
        .call (.feed document), .call .finish]
    (∀ r ∈ registrations operations, r.Still) ∧
    ∃ verdicts t m,
      (create ({ env := () } : Journal Unit)).operateAll (loggedFrom 0 operations) =
        .ok (verdicts, t) ∧
      m ∈ t.env.matched ∧ m.ancestry.paths = ["", "/rss", "/rss/channel"] ∧
      (∃ e, m.ancestry.Leads "/rss/channel" (some e) ∧ e.text = "new") ∧
      (∃ e, m.ancestry.Leads "/rss/channels" (some e) ∧ e.text = "all") ∧
      m.ancestry.Leads "/rss/channel/item" none := by
  intro document operations
  have hstill : ∀ r ∈ registrations operations, r.Still := by
    simp [operations, registrations, Operation.registration?, Registration.Still, Listener.idle]
  obtain ⟨verdicts, t, hrun, hwalks⟩ := traces_walk () operations hstill
  have hcomputed : ((create ({ env := () } : Journal Unit)).operateAll (loggedFrom 0 operations)).map
      (fun r => r.2.env.matched.map fun m => (m.ancestry.paths,
        ["/rss/channel", "/rss/channels", "/rss/channel/item"].map fun path =>
          (m.ancestry.trace? path).map (·.text))) =
      .ok [(["", "/rss", "/rss/channel"], [some "new", some "all", none])] := by
    decide +kernel
  rw [hrun] at hcomputed
  obtain ⟨m, hmatched, hm⟩ := List.map_eq_singleton_iff.1 (Except.ok.inj hcomputed)
  have hmem : m ∈ t.env.matched := by simp [hmatched]
  obtain ⟨-, hleads, -⟩ := hwalks m hmem
  obtain ⟨hpaths, hlookups⟩ := Prod.mk.inj hm
  obtain ⟨⟨channel, hchannel, hnew⟩, ⟨channels, hchannels, hall⟩, hitem⟩ : _ ∧ _ ∧ _ := by
    simpa using hlookups
  exact ⟨hstill, verdicts, t, m, hrun, hmem, hpaths, ⟨channel, (hleads _ _).2 hchannel, hnew⟩,
    ⟨channels, (hleads _ _).2 hchannels, hall⟩, (hleads _ _).2 hitem⟩

end Stream

end XmlSieve
