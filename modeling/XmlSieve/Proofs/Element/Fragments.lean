import XmlSieve.Element.Children
import XmlSieve.Proofs.Entries
import XmlSieve.Proofs.Stream.Latitude
import XmlSieve.Proofs.Token.Rereading

/-!
# Balanced fragments

A fragment of a document is `Balanced` if it is made of escaped text and of elements of which each
is written with the same name in its start tag and its end tag.  It is what tokens are written as
that lead back to where they began (`Balanced.exists_tokens`), so that a document that was written up to some
place (`Markup.Reaches`) can go on with it.  An element is `Printable` if what it
holds is written as balanced fragments.  Whatever is done to elements while they are assembled keeps
them so (`Printable.openChild`, `Printable.closeChild`, `Printable.addNode`), and a renamed element
is as printable as before (`Printable.becomes`).
-/

namespace XmlSieve

theorem Attributes.Proper.nil : Attributes.Proper [] := ⟨by simp, List.nodup_nil⟩

namespace Markup

/-- Text and elements one after the other. -/
inductive Balanced : String → Prop where
  | empty : Balanced ""
  | text (content : String) : Balanced (escape content)
  | element {name : String} {attributes : Attributes} {s : String} (hname : isName name = true)
      (hattributes : attributes.Proper) (content : Balanced s) :
      Balanced (startTag name attributes ++ s ++ endTag name)
  | append {s t : String} (front : Balanced s) (back : Balanced t) : Balanced (s ++ t)

end Markup

namespace Markup

/-- A balanced fragment is what proper tokens are written as that lead nowhere else. -/
theorem Balanced.exists_tokens {s : String} (h : Balanced s) :
    ∃ tokens, (∀ token ∈ tokens, token.Proper) ∧ ofTokens tokens = s ∧
      ∀ innermost outer,
        (Place.content innermost outer).followAll tokens = some (.content innermost outer) := by
  induction h with
  | empty => exact ⟨[], by simp, rfl, fun _ _ => rfl⟩
  | text content =>
    by_cases hempty : content = ""
    · subst hempty
      exact ⟨[], by simp, by decide, fun _ _ => rfl⟩
    · exact ⟨[.text content], by simpa [Token.Proper] using hempty,
        by simp [ofTokens, ofToken], fun _ _ => rfl⟩
  | @element name attributes s hname hattributes _ ih =>
    obtain ⟨tokens, hproper, hs, hfollow⟩ := ih
    refine ⟨.startTag name attributes :: (tokens ++ [.endTag name]), ?_, ?_, ?_⟩
    · intro token ht
      simp only [List.mem_cons, List.mem_append, List.not_mem_nil, or_false] at ht
      rcases ht with rfl | ht | rfl
      · exact ⟨hname, hattributes⟩
      · exact hproper token ht
      · exact hname
    · simp [ofTokens, ofTokens_append, ofToken, hs, String.append_assoc]
    · intro innermost outer
      have hinner := Place.followAll_append (hfollow name (innermost :: outer)) [.endTag name]
      rw [Place.followAll_cons, Place.follow, if_neg (by simp)]
      refine hinner.trans ?_
      simp [Place.followAll, Place.follow, Place.inside]
  | append _ _ ihs iht =>
    obtain ⟨front, hfront, hs, hfollow⟩ := ihs
    obtain ⟨back, hback, ht, hfollow'⟩ := iht
    refine ⟨front ++ back, ?_, by rw [ofTokens_append, hs, ht], fun innermost outer => ?_⟩
    · exact List.forall_mem_append.2 ⟨hfront, hback⟩
    · rw [Place.followAll_append (hfollow innermost outer), hfollow']

/-- Whether `s` is what proper tokens are written as that lead from the start of a document to
`q`. -/
def Reaches (s : String) (q : Place) : Prop :=
  ∃ tokens, (∀ token ∈ tokens, token.Proper) ∧ ofTokens tokens = s ∧
    Place.prolog.followAll tokens = some q

namespace Reaches

variable {s t : String} {q : Place} {name innermost : String} {outer : List String}
  {attributes : Attributes}

theorem start (h : Reaches s q) (hq : q ≠ .epilog) (hname : isName name = true)
    (hattributes : attributes.Proper) :
    Reaches (s ++ startTag name attributes) (.content name q.openNames) := by
  obtain ⟨tokens, hproper, rfl, hfollow⟩ := h
  refine ⟨tokens ++ [.startTag name attributes], ?_, ?_, ?_⟩
  · exact List.forall_mem_append.2 ⟨hproper, by simp [Token.Proper, hname, hattributes]⟩
  · simp [ofTokens_append, ofTokens, ofToken]
  · rw [Place.followAll_append hfollow]
    simp [Place.followAll, Place.follow, hq]

theorem balanced (h : Reaches s (.content innermost outer)) (ht : Balanced t) :
    Reaches (s ++ t) (.content innermost outer) := by
  obtain ⟨tokens, hproper, rfl, hfollow⟩ := h
  obtain ⟨more, hmore, rfl, hstay⟩ := ht.exists_tokens
  refine ⟨tokens ++ more, List.forall_mem_append.2 ⟨hproper, hmore⟩, ofTokens_append _ _, ?_⟩
  rw [Place.followAll_append hfollow, hstay]

theorem finish (h : Reaches s (.content name outer)) (hname : isName name = true) :
    Reaches (s ++ endTag name) (.inside outer) := by
  obtain ⟨tokens, hproper, rfl, hfollow⟩ := h
  refine ⟨tokens ++ [.endTag name], ?_, ?_, ?_⟩
  · exact List.forall_mem_append.2 ⟨hproper, by simp [Token.Proper, hname]⟩
  · simp [ofTokens_append, ofTokens, ofToken]
  · rw [Place.followAll_append hfollow]
    simp [Place.followAll, Place.follow]

end Reaches

end Markup

namespace Element

open Markup

/-- An element that is written as a balanced fragment, whatever its name: its attributes can be
written, and so can its children, each under the name of its slot, and its nodes. -/
structure Printable (e : Element) : Prop where
  attributes : e.attributes.Proper
  children : ∀ entry ∈ e.children, ∀ value ∈ entry.2.values, Balanced (ofContent entry.1 value)
  nodes : ∀ nodes, e.nodes = some nodes → ∀ node ∈ nodes, Balanced (ofNode node)

theorem balanced_ofContents {name : String} {values : List (Content Element)}
    (h : ∀ value ∈ values, Balanced (ofContent name value)) : Balanced (ofContents name values) := by
  induction values with
  | nil => exact .empty
  | cons value values ih =>
    exact (h value (by simp)).append (ih fun v hv => h v (by simp [hv]))

theorem balanced_ofChildren {children : Entries (Slot Element)}
    (h : ∀ entry ∈ children, ∀ value ∈ entry.2.values, Balanced (ofContent entry.1 value)) :
    Balanced (ofChildren children) := by
  induction children with
  | nil => exact .empty
  | cons entry children ih =>
    obtain ⟨name, slot⟩ := entry
    refine Balanced.append ?_ (ih fun entry he => h entry (by simp [he]))
    have hslot := h (name, slot) (by simp)
    cases slot with
    | one value => exact hslot value (by simp [Slot.values])
    | many values => exact balanced_ofContents hslot

theorem balanced_ofNodes {nodes : List (Content Element)}
    (h : ∀ node ∈ nodes, Balanced (ofNode node)) : Balanced (ofNodes nodes) := by
  induction nodes with
  | nil => exact .empty
  | cons node nodes ih =>
    exact (h node (by simp)).append (ih fun n hn => h n (by simp [hn]))

namespace Printable

variable {e e' : Element} {name : String}

theorem body (h : e.Printable) : Balanced (Markup.body e) := by
  obtain ⟨name, attributes, children, text, nodes⟩ := e
  cases nodes with
  | some nodes => exact balanced_ofNodes (h.nodes nodes rfl)
  | none => exact (balanced_ofChildren h.children).append (.text text)

theorem node (h : e.Printable) (hname : isName e.name = true) :
    Balanced (ofNode (.element e)) := by
  rw [ofNode]
  exact .element hname h.attributes h.body

/-- The element as it is kept by its parent is written as a balanced fragment. -/
theorem content (h : e.Printable) (hname : isName name = true) :
    Balanced (ofContent name e.toContent) := by
  unfold toContent
  split
  · rw [ofContent]
    exact .element hname .nil (.text e.text)
  · rw [ofContent]
    exact .element hname h.attributes h.body

/-- An element that was written up to its end tag, and this. -/
theorem reaches {s : String} {q : Place} (h : e.Printable) (hname : isName e.name = true)
    (hs : Reaches s q) (hq : q ≠ .epilog) :
    Reaches (s ++ e.openMarkup ++ endTag e.name) (.inside q.openNames) := by
  rw [openMarkup, ← String.append_assoc]
  exact ((hs.start hq hname h.attributes).balanced h.body).finish hname

/-! ### Assembling -/

/-- An element that opens. -/
theorem opened (name : String) {attributes : Attributes} (h : attributes.Proper) :
    Printable { name, attributes } :=
  ⟨h, by simp, by simp⟩

theorem becomes {renames : Bool} (h : e.Printable) (he : e.MayBecome renames e') :
    e'.Printable := by
  rw [he.eq_named]
  exact ⟨h.attributes, h.children, h.nodes⟩

theorem addText (h : e.Printable) (text : String) : Printable { e with text } :=
  ⟨h.attributes, h.children, h.nodes⟩

theorem startNodes (h : e.Printable) : Printable { e with nodes := some [] } := by
  refine ⟨h.attributes, h.children, fun nodes hnodes => ?_⟩
  cases hnodes
  simp

theorem addNode (h : e.Printable) {node : Content Element} (hnode : Balanced (ofNode node)) :
    (e.addNode node).Printable := by
  refine ⟨h.attributes, h.children, fun nodes hnodes => ?_⟩
  obtain ⟨before, hbefore, rfl⟩ := Option.map_eq_some_iff.1 hnodes
  refine List.forall_mem_append.2 ⟨h.nodes before hbefore, ?_⟩
  simpa using hnode

/-- Changing the slot of a name. -/
theorem insert (h : e.Printable) {slot : Slot Element}
    (hslot : ∀ value ∈ slot.values, Balanced (ofContent name value)) :
    Printable { e with children := Entries.insert name slot e.children } := by
  refine ⟨h.attributes, fun entry he => ?_, h.nodes⟩
  rcases Entries.mem_insert he with rfl | he
  · exact hslot
  · exact h.children entry he

theorem slot (h : e.Printable) {slot : Slot Element} (hslot : e.slot? name = some slot) :
    ∀ value ∈ slot.values, Balanced (ofContent name value) :=
  h.children (name, slot) (Entries.mem_of_get? hslot)

theorem openChild (h : e.Printable) (hname : isName name = true) (collect : Bool) :
    (e.openChild name collect).Printable := by
  have hplaceholder : Balanced (ofContent name placeholder) := by
    rw [placeholder, ofContent]
    exact .element hname .nil (.text "")
  refine h.insert fun value hv => ?_
  unfold reserve at hv
  cases collect with
  | false =>
    rw [show value = placeholder by simpa [Slot.values] using hv]
    exact hplaceholder
  | true =>
    simp only [if_true, Slot.values, List.mem_append, List.mem_singleton] at hv
    rcases hv with hv | rfl
    · cases hslot : e.slot? name with
      | none => simp [hslot] at hv
      | some slot =>
        rw [hslot] at hv
        exact h.slot hslot value hv
    · exact hplaceholder

theorem closeChild (h : e.Printable) {value : Content Element}
    (hvalue : Balanced (ofContent name value)) (collect : Bool) :
    (e.closeChild name collect value).Printable := by
  refine h.insert fun v hv => ?_
  unfold settle at hv
  split at hv
  · next values hslot =>
    simp only [Slot.values, List.mem_append, List.mem_singleton] at hv
    rcases hv with hv | rfl
    · exact h.slot hslot v (List.mem_of_mem_dropLast hv)
    · exact hvalue
  · rw [show v = value by simpa [Slot.values] using hv]
    exact hvalue

end Printable

end Element

end XmlSieve
