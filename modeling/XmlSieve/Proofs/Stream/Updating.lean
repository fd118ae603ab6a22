import XmlSieve.Proofs.Stream.Accounts
import XmlSieve.Proofs.Stream.PassThrough
import XmlSieve.Proofs.Stream.Tracking

/-!
# Updating elements that are written

`Node.output` says what is written of a document in which listeners update elements: every token as
it stands, but in place of an outermost element that is updated, from its start tag to its end tag,
all of it as the last account leaves it.  Every token of the document keeps up an invariant
(`Assembly.Updates`), by which output is held back if and only if a listener waits for the update of
an open element.  By induction over the document, what is written of a node is nothing where output is
held back, and otherwise its output (`Updates.node`).  So the output of a stream is that of its
document (`written_updated`).
-/

namespace XmlSieve

variable {σ : Type}

open Markup

/-! ### The output of a document -/

/-- What is written where an element named `name` ends, given the accounts of its updates: its end
tag if there are none, and otherwise all of the element as the last of them leaves it. -/
def Account.closing (name : String) (accounts : List Account) : String :=
  match accounts.getLast? with
  | none => endTag name
  | some last => last.left.markup

/-- The last update of an element writes it up to its end tag. -/
theorem Account.leave_closing {e : Element} {name : String} (h : e.name = name)
    (accounts : List Account) :
    (if accounts = [] then "" else (leave e accounts).openMarkup) ++ endTag (leave e accounts).name =
      closing name accounts := by
  induction accounts using List.reverseRecOn with
  | nil => simp [leave, closing, h]
  | append_singleton accounts last ih => simp [leave, closing, Element.markup]

namespace Node

variable {roll : List String → List Nat}

/-- Who is told of updates in a node below `path`, in the order in which they are, where `roll` says
who is of the update of the element at each path. -/
def callers (roll : List String → List Nat) (path : List String) (node : Node) : List Nat :=
  (node.endings path).flatMap fun (path, _) => roll path

def callersAll (roll : List String → List Nat) (path : List String) (nodes : List Node) : List Nat :=
  (endingsAll path nodes).flatMap fun (path, _) => roll path

mutual

/-- What is written of a node below `path`, given the accounts of updates in it: an element that
nobody updates as it stands, and any other as the last of the accounts leaves it. -/
def output (roll : List String → List Nat) (path : List String) : Node → List Account → String
  | .text chunk, _ => escape chunk
  | .element name attributes content, accounts =>
    if roll (path ++ [name]) = [] then
      startTag name attributes ++ outputAll roll (path ++ [name]) content accounts ++ endTag name
    else Account.closing name accounts

/-- What is written of nodes below `path`, where the accounts are those in one after the other. -/
def outputAll (roll : List String → List Nat) (path : List String) :
    List Node → List Account → String
  | [], _ => ""
  | node :: nodes, accounts =>
    output roll path node (accounts.take (callers roll path node).length) ++
      outputAll roll path nodes (accounts.drop (callers roll path node).length)

end

mutual

/-- Where nobody is told of any update, all tokens are written. -/
theorem output_of_none (h : ∀ path, roll path = []) (path : List String) :
    ∀ (node : Node) (accounts : List Account),
      node.output roll path accounts = ofTokens node.tokens
  | .text chunk, _ => by simp [output, tokens, ofTokens, ofToken]
  | .element name attributes content, accounts => by
    rw [output, if_pos (h _), outputAll_of_none h, tokens, ofTokens, ofTokens_append, ofToken,
      ofTokens, ofTokens, ofToken, String.append_empty, String.append_assoc]

theorem outputAll_of_none (h : ∀ path, roll path = []) (path : List String) :
    ∀ (nodes : List Node) (accounts : List Account),
      outputAll roll path nodes accounts = ofTokens (tokensAll nodes)
  | [], _ => rfl
  | node :: nodes, accounts => by
    rw [outputAll, output_of_none h, outputAll_of_none h, tokensAll, ofTokens_append]

end

theorem callers_element (roll : List String → List Nat) (path : List String) (name : String)
    (attributes : Attributes) (content : List Node) :
    callers roll path (.element name attributes content) =
      callersAll roll (path ++ [name]) content ++ roll (path ++ [name]) := by
  rw [callers, endings, List.flatMap_append, callersAll, List.flatMap_singleton]

theorem callersAll_cons (roll : List String → List Nat) (path : List String) (node : Node)
    (nodes : List Node) :
    callersAll roll path (node :: nodes) = callers roll path node ++ callersAll roll path nodes := by
  rw [callersAll, endingsAll, List.flatMap_append, callers, callersAll]

/-- The accounts in the content of an element come before those of the element. -/
theorem output_element {path : List String} {name : String} {content : List Node}
    {accounts more : List Account} (hmore : more.map (·.id) = roll (path ++ [name]))
    (attributes : Attributes) :
    output roll path (.element name attributes content) (accounts ++ more) =
      (if roll (path ++ [name]) = [] then
        startTag name attributes ++ outputAll roll (path ++ [name]) content accounts else "") ++
        Account.closing name more := by
  rw [output]
  by_cases hnone : roll (path ++ [name]) = []
  · rw [hnone, List.map_eq_nil_iff] at hmore
    rw [if_pos hnone, if_pos hnone, hmore, List.append_nil, Account.closing]
    rfl
  · have hne : more ≠ [] := fun hnil => hnone (by rw [← hmore, hnil, List.map_nil])
    rw [if_neg hnone, if_neg hnone, String.empty_append, Account.closing, Account.closing,
      List.getLast?_append_of_ne_nil _ hne]

/-- The accounts in the first of several nodes come first. -/
theorem outputAll_cons {path : List String} {node : Node} {accounts : List Account}
    (h : accounts.map (·.id) = callers roll path node) (nodes : List Node) (more : List Account) :
    outputAll roll path (node :: nodes) (accounts ++ more) =
      output roll path node accounts ++ outputAll roll path nodes more := by
  have hlength : (callers roll path node).length = accounts.length := by rw [← h, List.length_map]
  rw [outputAll, hlength, List.take_left, List.drop_left]

end Node

/-! ### Holding back -/

/-- How many updates hold output back in open elements, given their names, innermost first. -/
def Automaton.heldFor (m : Automaton Effect) : List String → Nat
  | [] => 0
  | name :: outer =>
    ((m.dueAt .leave (name :: outer).reverse).filterMap Effect.flush?).length + m.heldFor outer

/-- Who is told of the update of the element at `path`, where `roll` says who is told of each event.
-/
def Automaton.updatersAt (m : Automaton Effect) (roll : Nat → List Nat) (path : List String) :
    List Nat :=
  ((m.dueAt .leave path).filterMap Effect.flush?).flatMap roll

theorem Tracked.heldIn_eq {m : Automaton Effect} {policy : Policy} {frames : List Frame}
    {names : List String} (h : Tracked m policy frames names) :
    Assembly.heldIn frames = m.heldFor names := by
  induction h with
  | nil => rfl
  | cons first rest ih => rw [Assembly.heldIn_cons, first.held.length_eq, ih, Automaton.heldFor]

namespace Assembly

variable {a b : Assembly (Journal (Ledger σ))} {m : Automaton Effect} {policy : Policy}
  {roll : Nat → List Nat} {id : Nat} {name : String} {names : List String}

theorem Tracks.holding_eq (h : a.Tracks m policy names) : a.holding = m.heldFor names :=
  h.holding.trans h.frames.heldIn_eq

/-- An element is updated if somebody is told of it. -/
theorem Audited.updatersAt_eq_nil (h : a.Audited m roll) (path : List String) :
    m.updatersAt roll path = [] ↔ (m.dueAt .leave path).filterMap Effect.flush? = [] := by
  rw [Automaton.updatersAt, List.flatMap_eq_nil_iff]
  constructor
  · intro hnone
    refine List.eq_nil_iff_forall_not_mem.2 fun event hevent => ?_
    obtain ⟨effect, he, hflush⟩ := List.mem_filterMap.1 hevent
    cases effect with
    | flush n =>
      cases hflush
      exact (h.flush he).1 (hnone _ hevent)
    | collect | preserve | release | hold | notify => cases hflush
  · intro hnone
    simp [hnone]

/-- Nothing is held back in an element if nobody is told of an update of it, nor of those around it. -/
theorem Audited.heldFor_cons_eq_zero_iff (h : a.Audited m roll) (name : String)
    (names : List String) : m.heldFor (name :: names) = 0 ↔
      m.updatersAt roll (names.reverse ++ [name]) = [] ∧ m.heldFor names = 0 := by
  rw [h.updatersAt_eq_nil, Automaton.heldFor, Nat.add_eq_zero_iff, List.length_eq_zero_iff,
    List.reverse_cons]

/-! ### The invariant -/

/-- What is invariant while a document is read whose open elements have these names, innermost
first. -/
structure Updates (a : Assembly (Journal (Ledger σ))) (m : Automaton Effect) (policy : Policy)
    (roll : Nat → List Nat) (id : Nat) (names : List String) : Prop where
  tracks : a.Tracks m policy names
  prints : a.Prints id
  audited : a.Audited m roll
  named : a.frames.map (·.element.name) = names

/-- Accounts are given under these numbers, and this is written of them. -/
def Grows (a b : Assembly (Journal (Ledger σ))) (id : Nat) (ids : List Nat)
    (text : List Account → String) : Prop :=
  ∃ accounts, b.env.accounts = a.env.accounts ++ accounts ∧ accounts.map (·.id) = ids ∧
    b.env.written id = a.env.written id ++ text accounts

theorem modifyParent_audited (h : a.Audited m roll) (f : Element → Element) :
    (a.modifyParent f).Audited m roll := by
  rw [modifyParent_eq]
  exact h.congr rfl rfl

theorem pushFrame_accounts (h : a.Audited m roll) (frame : Frame) :
    (a.pushFrame frame).env.accounts = a.env.accounts := by
  unfold pushFrame
  dsimp only
  rw [emit_accounts (modifyParent_audited h _), Follows.modifyParent_env]

theorem popFrame_accounts (h : a.Audited m roll) (frame : Frame) :
    (a.popFrame frame).env.accounts = a.env.accounts := by
  rw [popFrame, store, emit_accounts (modifyParent_audited h _), Follows.modifyParent_env]

theorem Audited.accept {token : Token} (h : a.Audited m roll) (hb : a.accept token = .ok b) :
    b.Audited m roll :=
  h.congr (accept_keeps hb).1 (accept_keeps hb).2

namespace Updates

/-- A start tag is written unless it or one around it waits for an update. -/
theorem start (h : a.Updates m policy roll id names) (hm : policy.Agrees m) (name : String)
    (attributes : Attributes) :
    (a.acceptStart name attributes).Updates m policy roll id (name :: names) ∧
      (a.acceptStart name attributes).env.accounts = a.env.accounts ∧
      (a.acceptStart name attributes).env.written id = a.env.written id ++
        if m.heldFor (name :: names) = 0 then startTag name attributes else "" := by
  have hrun := h.tracks.runStart_eq name attributes
  have hentered : Audited { a with automaton := m.openFor (name :: names) } m roll :=
    h.audited.congr rfl rfl
  -- No update ends here, so that the element stays as the tag has it.
  have hnone := hm.flush?_start (name :: names).reverse
  have hunaccounted := applyAll_unaccounted (Frame.opened a.path name attributes) hentered
    (fun effect he => (List.mem_append.1 he).elim (fun he => ⟨_, _, he⟩) fun he => ⟨_, _, he⟩)
    hnone none
  have hsame := applyAll_same { a with automaton := m.openFor (name :: names) }
    (Frame.opened a.path name attributes) none
    (m.dueAt .flag (name :: names).reverse ++ m.dueAt .enter (name :: names).reverse)
  rw [← hrun] at hunaccounted hsame
  obtain ⟨hgiven, helement⟩ := hunaccounted
  have hwritten := acceptStart_written h.prints name attributes (by
    rw [h.tracks.automaton, Automaton.enter_openFor, hnone])
  have htracks := h.tracks.start hm name attributes
  have hb : a.accept (.startTag name attributes) = .ok (a.acceptStart name attributes) := rfl
  refine ⟨⟨htracks, accept_prints h.prints hb, h.audited.accept hb, ?_⟩, ?_, ?_⟩
  · rw [acceptStart_frames]
    refine congrArg₂ List.cons (congrArg Element.name helement)
      ((names_modifyHead ?_ a.frames).trans h.named)
    exact fun e => rfl
  · rw [acceptStart_eq, pushFrame_accounts (hentered.congr hsame.listeners hsame.sinks), hgiven]
  · rw [hwritten.1, ← hwritten.2, htracks.holding_eq, helement]
    rfl

/-- A text is written unless an element around it waits for an update. -/
theorem text (h : a.Updates m policy roll id names) (hm : policy.Agrees m) {content : String}
    (hb : a.acceptText content = .ok b) :
    b.Updates m policy roll id names ∧ b.env.accounts = a.env.accounts ∧
      b.env.written id = a.env.written id ++ if m.heldFor names = 0 then escape content else "" := by
  obtain ⟨frame, outer, hframes⟩ := exists_frames_of_text hb
  have hinner : Audited { a with frames := outer } m roll := h.audited.congr rfl rfl
  have hnone : (m.dueAt .inside names.reverse).filterMap Effect.flush? = [] :=
    Effect.flush?_eq_nil (hm.fits .inside _) (by simp)
  have hunaccounted := applyAll_unaccounted (a.addText frame content) hinner
    (fun effect he => ⟨_, _, he⟩) hnone (some content)
  have hsame := applyAll_same { a with frames := outer } (a.addText frame content) (some content)
    (m.dueAt .inside names.reverse)
  rw [← h.tracks.runText_eq] at hunaccounted hsame
  obtain ⟨hgiven, helement⟩ := hunaccounted
  have hwritten := acceptText_written h.prints hframes (by rw [h.tracks.due_eq, hnone]) hb
  have htracks := h.tracks.text hm hb
  have haccept : a.accept (.text content) = .ok b := hb
  refine ⟨⟨htracks, accept_prints h.prints haccept, h.audited.accept haccept, ?_⟩, ?_, ?_⟩
  · rw [acceptText_frames hframes hb, List.map_cons, helement, ← h.named, hframes]
    exact congrArg (· :: _) (congrArg (·.element.name) (Holds.addText_eq a frame content))
  · rw [acceptText_eq hframes] at hb
    cases hb
    have hpushed : Audited { (a.runText frame outer content).1 with
        frames := (a.runText frame outer content).2 ::
          (a.runText frame outer content).1.frames } m roll :=
      hinner.congr hsame.listeners hsame.sinks
    exact (emit_accounts hpushed _).trans hgiven
  · rw [hwritten.1, ← hwritten.2, htracks.holding_eq]

/-- The innermost element is held back exactly if somebody is told of an update of it. -/
theorem held_eq_nil_iff (h : a.Updates m policy roll id (name :: names))
    (hframes : a.frames = frame :: outer) :
    frame.held = [] ↔ m.updatersAt roll (name :: names).reverse = [] := by
  rw [← List.length_eq_zero_iff, (h.tracks.head hframes).held.length_eq, List.length_eq_zero_iff]
  exact (h.audited.updatersAt_eq_nil _).symm

/-- Where an element ends its updates are accounted for, and it is closed accordingly unless one
around it waits for an update. -/
theorem finish (h : a.Updates m policy roll id (name :: names)) (hm : policy.Agrees m)
    (hb : a.acceptEnd = .ok b) :
    b.Updates m policy roll id names ∧ ∃ accounts,
      b.env.accounts = a.env.accounts ++ accounts ∧
      accounts.map (·.id) = m.updatersAt roll (name :: names).reverse ∧
      b.env.written id = a.env.written id ++
        if m.heldFor names = 0 then Account.closing name accounts else "" := by
  obtain ⟨frame, outer, hframes⟩ := exists_frames_of_end hb
  have hinner : Audited { a with automaton := m.openFor names, frames := outer } m roll :=
    h.audited.congr rfl rfl
  have hprints : Prints { a with automaton := m.openFor names, frames := outer } id :=
    h.prints.congr rfl rfl
  have hnamed := h.named
  rw [hframes, List.map_cons] at hnamed
  obtain ⟨hname, houter⟩ := List.cons.inj hnamed
  have hrun := h.tracks.runEnd_eq frame outer
  have hflushes := applyAll_flushes hprints (hm.fits .leave (name :: names).reverse)
    (fun n hn => hinner.confined hn) (h.tracks.holding_cons hframes)
  have haccounted := applyAll_accounted hinner (fun effect he => ⟨_, _, he⟩)
    (h.tracks.closing_held hframes) none
  obtain ⟨-, hdone, hleft, hsame⟩ := h.tracks.end_frame hm hframes rfl
  have hactive := h.tracks.active_eq
  have hwritten := (acceptEnd_written h.prints hframes hactive hb).1
  have hafter := acceptEnd_frames hframes hactive rfl hb
  have htracks := h.tracks.finish hm hb
  have haccept : a.accept (.endTag name) = .ok b := hb
  have hpopped : b.env.accounts = (a.runEnd frame outer (m.after (name :: names).reverse)
      (m.setsFor names)).1.env.accounts := by
    rw [acceptEnd_eq hframes hactive] at hb
    cases hb
    exact popFrame_accounts (hinner.congr hsame.listeners hsame.sinks) _
  rw [← hrun] at hflushes haccounted
  generalize a.runEnd frame outer (m.after (name :: names).reverse) (m.setsFor names) = r
    at hflushes haccounted hdone hleft hwritten hafter hpopped
  obtain ⟨accounts, hgiven, (hids : accounts.map (·.id) = m.updatersAt roll (name :: names).reverse),
    helement⟩ := haccounted
  refine ⟨⟨htracks, accept_prints h.prints haccept, h.audited.accept haccept, ?_⟩,
    accounts, hpopped.trans hgiven, hids, ?_⟩
  · rw [hafter]
    refine (names_modifyHead (fun e => ?_) outer).trans houter
    split <;> rfl
  · have hupdated : frame.held = [] ↔ accounts = [] := by
      rw [h.held_eq_nil_iff hframes, ← hids, List.map_eq_nil_iff]
    have hheldIn : heldIn outer = m.heldFor names := (h.tracks.tail hframes).heldIn_eq
    rw [hwritten, hflushes.written, hleft, hheldIn, String.append_assoc, helement,
      ← Account.leave_closing hname]
    refine congrArg (_ ++ ·) ?_
    by_cases hzero : m.heldFor names = 0
    · simp [hzero, hdone, hupdated]
    · simp [hzero]

mutual

/-- A node is written as its output says, unless an element around it waits for an update. -/
theorem node (hm : policy.Agrees m) : ∀ (node : Node) {a b : Assembly (Journal (Ledger σ))}
    {names : List String}, a.Updates m policy roll id names → a.acceptAll node.tokens = .ok b →
      b.Updates m policy roll id names ∧ Grows a b id
        (node.callers (m.updatersAt roll) names.reverse) fun accounts =>
          if m.heldFor names = 0 then node.output (m.updatersAt roll) names.reverse accounts else ""
  | .text chunk, a, b, names, h, hb => by
    obtain ⟨c, hc, hb⟩ := exists_of_bind_eq_ok hb
    cases hb
    obtain ⟨hnext, haccounts, hwritten⟩ := h.text hm hc
    refine ⟨hnext, [], by rw [haccounts, List.append_nil], rfl, ?_⟩
    simpa only [Node.output] using hwritten
  | .element name attributes content, a, b, names, h, hb => by
    rw [Node.tokens] at hb
    obtain ⟨d, hd, hb⟩ := exists_of_acceptAll_append (a := a.acceptStart name attributes) hb
    obtain ⟨e, he, hb⟩ := exists_of_bind_eq_ok hb
    cases hb
    obtain ⟨hopened, hnone, hstart⟩ := h.start hm name attributes
    obtain ⟨hread, inside, hinside, hinsideIds, hcontent⟩ := nodes hm content hopened hd
    obtain ⟨hclosed, own, hown, hownIds, hend⟩ := hread.finish hm he
    have hpath : (name :: names).reverse = names.reverse ++ [name] := List.reverse_cons
    dsimp only at hcontent
    rw [hpath] at hinsideIds hcontent hownIds
    refine ⟨hclosed, inside ++ own, ?_, ?_, ?_⟩
    · rw [hown, hinside, hnone, List.append_assoc]
    · rw [List.map_append, hinsideIds, hownIds, Node.callers_element]
    · have hupdated := h.audited.heldFor_cons_eq_zero_iff name names
      dsimp only
      rw [hend, hcontent, hstart, Node.output_element hownIds]
      by_cases hzero : m.heldFor names = 0
      · by_cases hroll : m.updatersAt roll (names.reverse ++ [name]) = []
        · simp [hupdated, hzero, hroll, String.append_assoc]
        · simp [hupdated, hzero, hroll]
      · simp [hupdated, hzero]

theorem nodes (hm : policy.Agrees m) : ∀ (nodes : List Node) {a b : Assembly (Journal (Ledger σ))}
    {names : List String}, a.Updates m policy roll id names →
      a.acceptAll (Node.tokensAll nodes) = .ok b →
      b.Updates m policy roll id names ∧ Grows a b id
        (Node.callersAll (m.updatersAt roll) names.reverse nodes) fun accounts =>
          if m.heldFor names = 0 then Node.outputAll (m.updatersAt roll) names.reverse nodes accounts
          else ""
  | [], a, b, names, h, hb => by
    cases hb
    exact ⟨h, [], (List.append_nil _).symm, rfl, by simp [Node.outputAll]⟩
  | first :: rest, a, b, names, h, hb => by
    obtain ⟨c, hc, hb⟩ := exists_of_acceptAll_append hb
    obtain ⟨hread, accounts, haccounts, hids, hfirst⟩ := node hm first h hc
    obtain ⟨hdone, more, hmore, hmoreIds, hrest⟩ := nodes hm rest hread hb
    dsimp only at hfirst hrest
    refine ⟨hdone, accounts ++ more, ?_, ?_, ?_⟩
    · rw [hmore, haccounts, List.append_assoc]
    · rw [List.map_append, hids, hmoreIds, Node.callersAll_cons]
    · dsimp only
      rw [hrest, hfirst, Node.outputAll_cons hids, String.append_assoc]
      by_cases hzero : m.heldFor names = 0 <;> simp [hzero]

end

end Updates

end Assembly

open Registration

namespace Stream

variable {registrations : List (Registration σ)}

/-- A stream that was set up has written nothing yet and has no accounts. -/
theorem journaled_updates (env : σ) {id : Nat} {sink : String → σ → σ}
    (h : ∀ r ∈ registrations, r.updates = true ∨ r.Still)
    (hsink : registrations[id]? = some (.data sink)) :
    (journaled { env } (accountedAll registrations)).assembly.Updates
        (journaled { env } (accountedAll registrations)).assembly.automaton
        (policy (accountedAll registrations)) (roll (accountedAll registrations)) id [] ∧
      (journaled { env } (accountedAll registrations)).assembly.env = { env := { env } } := by
  have haccounted : (accountedAll registrations)[id]? = some (.data fun fragment ledger =>
      { ledger with env := sink fragment ledger.env }) := by
    rw [getElem?_accountedAll, hsink]
    rfl
  refine ⟨⟨journaled_tracks _ _, journaled_prints _ haccounted, journaled_audited _ h, ?_⟩, ?_⟩
  · rw [(journaled_closed _ _).1]
    rfl
  · exact (registered_output _ _).2.2.1

theorem subscriptions_without_updates (registrations : List (Registration σ)) :
    ∀ s ∈ subscriptions (registrations.filter fun r => !r.updates), s.kind ≠ .updateElement := by
  intro s hs hkind
  obtain ⟨r, hr, hsubscription⟩ := List.mem_filterMap.1 (List.mem_eraseDups.1 hs)
  have hnone := (List.mem_filter.1 hr).2
  rw [updates, hsubscription, Option.any_some, hkind] at hnone
  cases hnone

/-- The output with updates is the output without them in which every outermost element that is
updated is replaced.  Listeners for updates do with elements what they like, all others leave them as
they are; calls come to the same if they give accounts.  A stream that nobody pauses delivers a
document to its end, and when a stream has done so, all who wait for an update of an element have
accounted for it once, where it ends, and what was written is the document with the outermost of
these elements, from start tag to end tag, as the last of them left it.  A stream without
subscriptions to updates writes the document as it stands. -/
theorem written_updated (env : σ) (registrations : List (Registration σ))
    (h : ∀ r ∈ registrations, r.updates = true ∨ r.Still) (id : Nat) (sink : String → σ → σ)
    (hsink : registrations[id]? = some (.data sink)) (calls : List Call) :
    ∃ verdicts s t, (journaled env registrations).run calls = .ok (verdicts, s) ∧
      (journaled { env } (accountedAll registrations)).run calls = .ok (verdicts, t) ∧
      s.env = t.env.withoutAccounts ∧
      ((∀ r ∈ registrations, r.tireless = r) → Call.pause ∉ calls → Call.finish ∈ calls →
        (Document.transcript (Call.input calls)).error = none → s.phase = .ended) ∧
      (s.phase = .ended → ∃ root : Node,
        Tokenizer.hear [.feed (Call.input calls), .finish, .drain] = .ok ⟨root.tokens, none⟩ ∧
        t.env.accounts.map (·.id) = root.callers (updaters registrations) [] ∧
        s.env.written id = root.output (updaters registrations) [] t.env.accounts ∧
        ∀ calls' verdicts' s', Call.input calls' = Call.input calls →
          (journaled env (registrations.filter fun r => !r.updates)).run calls' =
            .ok (verdicts', s') → s'.phase = .ended →
          ∀ id' sink', (registrations.filter fun r => !r.updates)[id']? = some (.data sink') →
            s'.env.written id' = root.output (fun _ => []) [] []) := by
  obtain ⟨verdicts, t, hledger, -⟩ :=
    run_ok (journaled_sound { env } (accountedAll registrations)) calls
  obtain ⟨s, hrun, hphase, henv⟩ := run_accounted { env } hledger
  refine ⟨verdicts, s, t, hrun, hledger, henv, ended_of_tireless hrun, fun hs => ?_⟩
  rw [hphase] at hs
  obtain ⟨-, herror⟩ := document_of_ended hledger hs
  obtain ⟨b, hb, hwritten, haccounts⟩ := exists_accounts_of_ended hledger hs id
  obtain ⟨root, htokens, -⟩ := Document.exists_root herror
  obtain ⟨hupdates, hstart⟩ := journaled_updates env h hsink
  rw [htokens] at hb
  obtain ⟨-, accounts, hgiven, hids, htext⟩ :=
    hupdates.node (journaled_agrees _ _) root.node hb
  obtain ⟨states, hserves, hselectors⟩ := journaled_serves { env } (accountedAll registrations)
  have hroll : (journaled { env } (accountedAll registrations)).assembly.automaton.updatersAt
      (roll (accountedAll registrations)) = updaters registrations :=
    funext fun path =>
      (flatMap_roll hserves hselectors path).trans (updaters_accountedAll registrations path)
  rw [hroll] at hids htext
  have hall : t.env.accounts = accounts := by
    rw [haccounts, hgiven, hstart]
    rfl
  refine ⟨root.node, ?_, ?_, ?_, ?_⟩
  · rw [Tokenizer.hear_document, ← htokens, ← herror]
  · rw [hall]
    exact hids
  · have hsame : s.env.written id = t.env.written id := by
      rw [henv]
      rfl
    rw [hall, hsame, hwritten, htext, hstart]
    exact String.empty_append
  · intro calls' verdicts' s' hinput hrun' hs' id' sink' hsink'
    have hstill : ∀ r ∈ registrations.filter fun r => !r.updates, r.Still := by
      intro r hr
      obtain ⟨hmem, hnone⟩ := List.mem_filter.1 hr
      exact (h r hmem).resolve_left (by simpa using hnone)
    rw [written_tokens hstill (subscriptions_without_updates registrations) hsink' hrun' hs',
      hinput, htokens, Node.output_of_none fun _ => rfl]

/-- Listeners that update elements, some of which are inside of others. -/
def nestedUpdates : List (Registration Unit) :=
  [.data fun _ env => env,
    .on "updateElement: a" (.renamer "p"),
    .on "updateElement: r a" fun m env =>
      { element := { m.element with attributes := [("k", "v")] }, env },
    .on "updateElement: b" fun m env => { element := { m.element with text := "q" }, env },
    .on "endElement" .idle]

/-- An element that two listeners update around one that another does, in two chunks. -/
def nestedCalls : List Call :=
  [.feed (Bytes.ascii ['<', 'r', '>', '<', 'a', '>', 'x', '<', 'b', '>', 'y', '<', '/', 'b', '>',
      '<', '/', 'a', '>']),
    .feed (Bytes.ascii ['z', '<', 'b', '/', '>', '<', '/', 'r', '>']), .finish]

/-- Only the outermost elements are replaced, each once, as the last of all changes left it. -/
theorem written_updated_nested :
    ∃ verdicts s t, (journaled () nestedUpdates).run nestedCalls = .ok (verdicts, s) ∧
      (journaled { env := () } (accountedAll nestedUpdates)).run nestedCalls = .ok (verdicts, t) ∧
      s.env = t.env.withoutAccounts ∧ s.phase = .ended ∧
      t.env.accounts.map (·.id) = [3, 1, 2, 3] ∧
      s.env.written 0 =
        Node.output (updaters nestedUpdates) [] (.element "r" []
          [.element "a" [] [.text "x", .element "b" [] [.text "y"]], .text "z",
            .element "b" [] []]) t.env.accounts ∧
      s.env.written 0 = "<r><p k=\x22v\x22><b>q</b>x</p>z<b>q</b></r>" := by
  have hstill : ∀ r ∈ nestedUpdates, r.updates = true ∨ r.Still := by
    simp only [nestedUpdates, List.forall_mem_cons]
    exact ⟨.inr trivial, .inl (by decide +kernel), .inl (by decide +kernel),
      .inl (by decide +kernel), .inr fun _ _ => rfl, by simp⟩
  have htireless : ∀ r ∈ nestedUpdates, r.tireless = r := by
    simp only [nestedUpdates, List.forall_mem_cons]
    exact ⟨rfl, rfl, rfl, rfl, rfl, by simp⟩
  obtain ⟨verdicts, s, t, hrun, hledger, henv, hended, hwritten⟩ :=
    written_updated () nestedUpdates hstill 0 _ rfl nestedCalls
  have hs := hended htireless (by decide) (by decide) (by decide +kernel)
  obtain ⟨root, hheard, hids, houtput, -⟩ := hwritten hs
  obtain rfl : root = .element "r" [] [.element "a" [] [.text "x", .element "b" [] [.text "y"]],
      .text "z", .element "b" [] []] := by
    rw [Tokenizer.hear_document] at hheard
    have htokens : (Document.transcript (Call.input nestedCalls)).tokens = root.tokens :=
      congrArg Transcript.tokens (Except.ok.inj hheard)
    exact Node.tokens_injective (htokens.symm.trans (by decide +kernel))
  refine ⟨verdicts, s, t, hrun, hledger, henv, hs, hids.trans (by decide +kernel), houtput, ?_⟩
  obtain ⟨b, hb, hend⟩ := exists_written_of_ended hrun hs 0
  have hall : (((journaled () nestedUpdates).assembly.acceptAll
      (Document.transcript (Call.input nestedCalls)).tokens).map (·.env.written 0)).toOption =
        some "<r><p k=\x22v\x22><b>q</b>x</p>z<b>q</b></r>" := by
    decide +kernel
  rw [hb] at hall
  exact hend.trans (Option.some.inj hall)

end Stream

end XmlSieve
