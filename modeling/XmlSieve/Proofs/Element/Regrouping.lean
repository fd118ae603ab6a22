import XmlSieve.Proofs.Element.Settled
import XmlSieve.Proofs.Element.Tidying

/-!
# Elements that are written slot by slot

An element without nodes is written with its children slot by slot and its text after them: as the
tokens of the node `Element.regrouped` (`Element.markup_regrouped`).  When a settled element was
written and read, assembling makes the same element of it, but for spaces in the values of attributes
(`Element.assembled_regrouped`): children that are grouped by name are collected in the order in which
they stand.
-/

namespace XmlSieve

namespace Element

/-! ### Writing -/

mutual

/-- The node that an element without nodes is written as: its children slot by slot, and its
text. -/
def regrouped : Element → Node
  | ⟨name, attributes, children, text, _⟩ =>
    .element name attributes (regroupedChildren children ++ [.text text])

def regroupedChildren : List (String × Slot Element) → List Node
  | [] => []
  | (name, slot) :: children => regroupedSlot name slot ++ regroupedChildren children

def regroupedSlot (name : String) : Slot Element → List Node
  | .one value => [regroupedContent name value]
  | .many values => regroupedContents name values

def regroupedContents (name : String) : List (Content Element) → List Node
  | [] => []
  | value :: values => regroupedContent name value :: regroupedContents name values

def regroupedContent (name : String) : Content Element → Node
  | .text text => .element name [] [.text text]
  | .element e => regrouped e

end

theorem regrouped_eq (e : Element) :
    e.regrouped = .element e.name e.attributes (regroupedChildren e.children ++ [.text e.text]) := by
  obtain ⟨name, attributes, children, text, nodes⟩ := e
  rfl

end Element

theorem Node.tokensAll_append (nodes more : List Node) :
    tokensAll (nodes ++ more) = tokensAll nodes ++ tokensAll more := by
  induction nodes with
  | nil => rfl
  | cons node nodes ih => rw [List.cons_append, tokensAll, ih, tokensAll, List.append_assoc]

namespace Element

variable {policy : Policy}

mutual

theorem markup_regrouped : ∀ (e : Element) {path : List String}, e.Settled policy path →
    e.markup = Markup.ofTokens e.regrouped.tokens
  | ⟨name, attributes, children, text, nodes⟩, path, h => by
    obtain ⟨-, -, -, rfl, -, hchildren⟩ := h
    rw [regrouped, Node.tokens, Markup.ofTokens, Markup.ofTokens_append, Node.tokensAll_concat,
      Markup.ofTokens_append, ← ofChildren_regrouped children hchildren]
    simp [markup, openMarkup, Markup.body, Node.tokens, Markup.ofTokens, Markup.ofToken,
      String.append_assoc]

theorem ofChildren_regrouped : ∀ (children : List (String × Slot Element)) {path : List String},
    SettledChildren policy path children →
    Markup.ofChildren children = Markup.ofTokens (Node.tokensAll (regroupedChildren children))
  | [], _, _ => rfl
  | (name, slot) :: children, path, h => by
    rw [Markup.ofChildren, regroupedChildren, Node.tokensAll_append, Markup.ofTokens_append,
      ofSlot_regrouped slot h.1, ofChildren_regrouped children h.2]

theorem ofSlot_regrouped : ∀ (slot : Slot Element) {path : List String} {name : String},
    SettledSlot policy path name slot →
    Markup.ofSlot name slot = Markup.ofTokens (Node.tokensAll (regroupedSlot name slot))
  | .one value, path, name, h => by
    rw [Markup.ofSlot, regroupedSlot, Node.tokensAll, Node.tokensAll, List.append_nil,
      ofContent_regrouped value h.2]
  | .many values, path, name, h => by
    rw [Markup.ofSlot, regroupedSlot, ofContents_regrouped values h.2.2]

theorem ofContents_regrouped : ∀ (values : List (Content Element)) {path : List String}
    {name : String}, SettledContents policy path name values →
    Markup.ofContents name values =
      Markup.ofTokens (Node.tokensAll (regroupedContents name values))
  | [], _, _, _ => rfl
  | value :: values, path, name, h => by
    rw [Markup.ofContents, regroupedContents, Node.tokensAll, Markup.ofTokens_append,
      ofContent_regrouped value h.1, ofContents_regrouped values h.2]

theorem ofContent_regrouped : ∀ (value : Content Element) {path : List String} {name : String},
    SettledContent policy path name value →
    Markup.ofContent name value = Markup.ofTokens (regroupedContent name value).tokens
  | .text text, path, name, _ => by
    simp [Markup.ofContent, regroupedContent, Node.tokens, Node.tokensAll, Markup.ofTokens,
      Markup.ofToken, String.append_assoc]
  | .element e, path, name, h => by
    obtain ⟨rfl, -, he⟩ := h
    rw [Markup.ofContent, regroupedContent, ← markup_regrouped e he]
    rfl

end

mutual

/-- All tokens of a settled element can be written, except for empty texts. -/
theorem regrouped_proper : ∀ (e : Element) {path : List String}, e.Settled policy path →
    ∀ token ∈ e.regrouped.tokens, token = .text "" ∨ token.Proper
  | ⟨name, attributes, children, text, nodes⟩, path, h, token, htoken => by
    rw [regrouped, Node.tokens, Node.tokensAll_concat, List.mem_cons, List.mem_append,
      List.mem_append, Node.tokens, List.mem_singleton, List.mem_singleton] at htoken
    rcases htoken with rfl | (htoken | rfl) | rfl
    · exact .inr ⟨h.1, h.2.1⟩
    · exact regroupedChildren_proper children h.2.2.2.2.2 token htoken
    · exact Token.text_proper text
    · exact .inr h.1

theorem regroupedChildren_proper : ∀ (children : List (String × Slot Element))
    {path : List String}, SettledChildren policy path children →
    ∀ token ∈ Node.tokensAll (regroupedChildren children), token = .text "" ∨ token.Proper
  | (name, slot) :: children, path, h, token, htoken => by
    rw [regroupedChildren, Node.tokensAll_append, List.mem_append] at htoken
    rcases htoken with htoken | htoken
    · exact regroupedSlot_proper slot h.1 token htoken
    · exact regroupedChildren_proper children h.2 token htoken

theorem regroupedSlot_proper : ∀ (slot : Slot Element) {path : List String} {name : String},
    SettledSlot policy path name slot →
    ∀ token ∈ Node.tokensAll (regroupedSlot name slot), token = .text "" ∨ token.Proper
  | .one value, path, name, h, token, htoken => by
    rw [regroupedSlot, Node.tokensAll, Node.tokensAll, List.append_nil] at htoken
    exact regroupedContent_proper value h.2 token htoken
  | .many values, path, name, h, token, htoken =>
    regroupedContents_proper values h.2.2 token htoken

theorem regroupedContents_proper : ∀ (values : List (Content Element)) {path : List String}
    {name : String}, SettledContents policy path name values →
    ∀ token ∈ Node.tokensAll (regroupedContents name values), token = .text "" ∨ token.Proper
  | value :: values, path, name, h, token, htoken => by
    rw [regroupedContents, Node.tokensAll, List.mem_append] at htoken
    rcases htoken with htoken | htoken
    · exact regroupedContent_proper value h.1 token htoken
    · exact regroupedContents_proper values h.2 token htoken

theorem regroupedContent_proper : ∀ (value : Content Element) {path : List String} {name : String},
    SettledContent policy path name value →
    ∀ token ∈ (regroupedContent name value).tokens, token = .text "" ∨ token.Proper
  | .text text, path, name, h, token, htoken => by
    rw [regroupedContent, Node.tokens, Node.tokensAll, Node.tokensAll, List.append_nil, Node.tokens,
      List.mem_cons, List.mem_append, List.mem_singleton, List.mem_singleton] at htoken
    rcases htoken with rfl | rfl | rfl
    · exact .inr ⟨h.1, by simp, List.nodup_nil⟩
    · exact Token.text_proper text
    · exact .inr h.1
  | .element e, path, name, h, token, htoken => regrouped_proper e h.2.2 token htoken

end

/-! ### Assembling again -/

theorem exists_regroupedContent (name : String) (value : Content Element) :
    ∃ name' attributes content, regroupedContent name value = .element name' attributes content := by
  cases value with
  | text text => exact ⟨_, _, _, rfl⟩
  | element e => exact ⟨_, _, _, regrouped_eq e⟩

end Element

namespace Node

/-- An element in front of others is tidied apart from them. -/
theorem tidiedAll_cons {node : Node}
    (h : ∃ name attributes content, node = .element name attributes content) (nodes : List Node) :
    tidiedAll (node :: nodes) = node.tidied :: tidiedAll nodes := by
  obtain ⟨name, attributes, content, rfl⟩ := h
  rfl

end Node

namespace Element

theorem tidiedAll_regroupedContents (name : String) (values : List (Content Element))
    (more : List Node) :
    Node.tidiedAll (regroupedContents name values ++ more) =
      Node.tidiedAll (regroupedContents name values) ++ Node.tidiedAll more := by
  induction values with
  | nil => rfl
  | cons value values ih =>
    have hvalue := exists_regroupedContent name value
    rw [regroupedContents, List.cons_append, Node.tidiedAll_cons hvalue, ih,
      Node.tidiedAll_cons hvalue, List.cons_append]

theorem tidiedAll_regroupedSlot (name : String) (slot : Slot Element) (more : List Node) :
    Node.tidiedAll (regroupedSlot name slot ++ more) =
      Node.tidiedAll (regroupedSlot name slot) ++ Node.tidiedAll more := by
  cases slot with
  | one value => exact tidiedAll_regroupedContents name [value] more
  | many values => exact tidiedAll_regroupedContents name values more

theorem tidiedAll_regroupedChildren (children : List (String × Slot Element)) (more : List Node) :
    Node.tidiedAll (regroupedChildren children ++ more) =
      Node.tidiedAll (regroupedChildren children) ++ Node.tidiedAll more := by
  induction children with
  | nil => rfl
  | cons child children ih =>
    rw [regroupedChildren, List.append_assoc, tidiedAll_regroupedSlot, ih,
      tidiedAll_regroupedSlot, List.append_assoc]

theorem assembledAll_text (policy : Policy) (path : List String) (text : String) :
    Node.assembledAll policy path (Node.tidiedAll [.text text]) =
      if text = "" then [] else [.text text] := by
  by_cases h : text = ""
  · rw [h, if_pos rfl]
    rfl
  · simp [Node.tidiedAll, Node.tidied, Node.prepend, h, Node.assembledAll, Node.assembled]

mutual

/-- A settled element is assembled again from what is read of it. -/
theorem assembled_regrouped (hplain : policy.Plain) : ∀ (e : Element) {path : List String},
    e.Settled policy (path ++ [e.name]) →
    e.regrouped.tidied.assembled policy path = .element e.spacedOut
  | ⟨name, attributes, children, text, nodes⟩, path, h => by
    obtain ⟨-, -, htext, rfl, hnodup, hchildren⟩ := h
    rw [regrouped, Node.tidied, Node.assembled, tidiedAll_regroupedChildren,
      Node.assembledAll_append, assembledAll_text,
      assembledAll_regroupedChildren hplain children hchildren, ← pieces,
      ofPieces_unfolded hplain _ _ htext ((names_spacedOutChildren children).symm ▸ hnodup)
        hchildren.fits]
    rfl

theorem assembledAll_regroupedChildren (hplain : policy.Plain) :
    ∀ (children : List (String × Slot Element)) {path : List String},
    SettledChildren policy path children →
    Node.assembledAll policy path (Node.tidiedAll (regroupedChildren children)) =
      (unfolded (spacedOutChildren children)).map .element
  | [], _, _ => rfl
  | (name, slot) :: children, path, h => by
    rw [regroupedChildren, tidiedAll_regroupedSlot, Node.assembledAll_append,
      assembledAll_regroupedSlot hplain slot h.1,
      assembledAll_regroupedChildren hplain children h.2, spacedOutChildren, unfolded_cons,
      List.map_append]

theorem assembledAll_regroupedSlot (hplain : policy.Plain) :
    ∀ (slot : Slot Element) {path : List String} {name : String},
    SettledSlot policy (path ++ [name]) name slot →
    Node.assembledAll policy path (Node.tidiedAll (regroupedSlot name slot)) =
      ((spacedOutSlot slot).values.map (·.named name)).map .element
  | .one value, path, name, h => by
    rw [regroupedSlot, Node.tidiedAll_cons (exists_regroupedContent name value),
      Node.assembledAll, assembled_regroupedContent hplain value h.2]
    rfl
  | .many values, path, name, h => assembledAll_regroupedContents hplain values h.2.2

theorem assembledAll_regroupedContents (hplain : policy.Plain) :
    ∀ (values : List (Content Element)) {path : List String} {name : String},
    SettledContents policy (path ++ [name]) name values →
    Node.assembledAll policy path (Node.tidiedAll (regroupedContents name values)) =
      ((spacedOutContents values).map (·.named name)).map .element
  | [], _, _, _ => rfl
  | value :: values, path, name, h => by
    rw [regroupedContents, Node.tidiedAll_cons (exists_regroupedContent name value),
      Node.assembledAll, assembled_regroupedContent hplain value h.1,
      assembledAll_regroupedContents hplain values h.2]
    rfl

theorem assembled_regroupedContent (hplain : policy.Plain) :
    ∀ (value : Content Element) {path : List String} {name : String},
    SettledContent policy (path ++ [name]) name value →
    (regroupedContent name value).tidied.assembled policy path =
      .element ((spacedOutContent value).named name)
  | .text text, path, name, h => by
    have hpieces : ofPieces policy (path ++ [name]) name []
        (pieces (unfolded []) text) = { name, text } :=
      ofPieces_unfolded hplain name [] h.2 List.nodup_nil (by simp)
    rw [regroupedContent, Node.tidied, Node.assembled, assembledAll_text]
    exact congrArg Content.element hpieces
  | .element e, path, name, h => by
    obtain ⟨rfl, -, he⟩ := h
    exact assembled_regrouped hplain e he

end

end Element

end XmlSieve
