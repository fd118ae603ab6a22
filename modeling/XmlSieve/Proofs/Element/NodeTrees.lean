import XmlSieve.Proofs.Element.Tidying
import XmlSieve.Proofs.Element.Verbatim

/-!
# Elements as trees of their nodes

Where an element keeps its nodes, and all elements among them do, it stands for a `Node`, its tree
(`Element.tree`).  Such an element is `Element.Ordered` if everything in it that has a name can be
written; it is written as the tokens of its tree are (`Element.markup_tree`).  The other way round,
an element that is assembled with its order and its white space kept is ordered, and its tree is the
node that it was assembled from (`Node.tree_assembled`).
-/

namespace XmlSieve

namespace Element

mutual

/-- The element with its nodes, as a node. -/
def tree : Element → Node
  | ⟨name, attributes, _, _, nodes⟩ => .element name attributes (treeNodes nodes)

def treeNodes : Option (List (Content Element)) → List Node
  | none => []
  | some nodes => treeContents nodes

def treeContents : List (Content Element) → List Node
  | [] => []
  | content :: contents => treeContent content :: treeContents contents

def treeContent : Content Element → Node
  | .text text => .text text
  | .element e => tree e

end

mutual

/-- The element and all elements that are reached through nodes keep their nodes, and have names and
attributes that can be written. -/
def Ordered : Element → Prop
  | ⟨name, attributes, _, _, nodes⟩ =>
    isName name = true ∧ attributes.Proper ∧ OrderedNodes nodes

def OrderedNodes : Option (List (Content Element)) → Prop
  | none => False
  | some nodes => OrderedContents nodes

def OrderedContents : List (Content Element) → Prop
  | [] => True
  | content :: contents => OrderedContent content ∧ OrderedContents contents

def OrderedContent : Content Element → Prop
  | .text _ => True
  | .element e => Ordered e

end

theorem tree_eq (e : Element) : e.tree = .element e.name e.attributes (treeNodes e.nodes) := by
  obtain ⟨name, attributes, children, text, nodes⟩ := e
  rfl

/-! ### Writing -/

mutual

/-- An ordered element is written as its tree is. -/
theorem markup_tree : ∀ (e : Element), e.Ordered → e.markup = Markup.ofTokens e.tree.tokens
  | ⟨name, attributes, children, text, nodes⟩, h => by
    rw [tree, Node.tokens, Markup.ofTokens, Markup.ofTokens_append,
      ← body_treeNodes name attributes children text nodes h.2.2]
    simp [markup, openMarkup, Markup.ofTokens, Markup.ofToken, String.append_assoc]

theorem body_treeNodes (name : String) (attributes : Attributes)
    (children : List (String × Slot Element)) (text : String) : ∀ nodes, OrderedNodes nodes →
    Markup.body ⟨name, attributes, children, text, nodes⟩ =
      Markup.ofTokens (Node.tokensAll (treeNodes nodes))
  | some nodes, h => ofNodes_treeContents nodes h

theorem ofNodes_treeContents : ∀ (nodes : List (Content Element)), OrderedContents nodes →
    Markup.ofNodes nodes = Markup.ofTokens (Node.tokensAll (treeContents nodes))
  | [], _ => rfl
  | content :: contents, h => by
    rw [Markup.ofNodes, treeContents, Node.tokensAll, Markup.ofTokens_append,
      ofNode_treeContent content h.1, ofNodes_treeContents contents h.2]

theorem ofNode_treeContent : ∀ (node : Content Element), OrderedContent node →
    Markup.ofNode node = Markup.ofTokens (treeContent node).tokens
  | .text _, _ => String.append_empty.symm
  | .element e, h => (Markup.ofNode_markup e).trans (markup_tree e h)

end

/-! ### Tokens -/

mutual

/-- All tokens of an ordered element can be written, except for empty texts. -/
theorem tree_proper : ∀ (e : Element), e.Ordered →
    ∀ token ∈ e.tree.tokens, token = .text "" ∨ token.Proper
  | ⟨name, attributes, children, text, nodes⟩, h, token, htoken => by
    rw [tree, Node.tokens, List.mem_cons, List.mem_append, List.mem_singleton] at htoken
    rcases htoken with rfl | htoken | rfl
    · exact .inr ⟨h.1, h.2.1⟩
    · exact treeNodes_proper nodes h.2.2 token htoken
    · exact .inr h.1

theorem treeNodes_proper : ∀ nodes, OrderedNodes nodes →
    ∀ token ∈ Node.tokensAll (treeNodes nodes), token = .text "" ∨ token.Proper
  | some nodes, h => treeContents_proper nodes h

theorem treeContents_proper : ∀ nodes, OrderedContents nodes →
    ∀ token ∈ Node.tokensAll (treeContents nodes), token = .text "" ∨ token.Proper
  | content :: contents, h, token, htoken => by
    rw [treeContents, Node.tokensAll, List.mem_append] at htoken
    rcases htoken with htoken | htoken
    · exact treeContent_proper content h.1 token htoken
    · exact treeContents_proper contents h.2 token htoken

theorem treeContent_proper : ∀ node, OrderedContent node →
    ∀ token ∈ (treeContent node).tokens, token = .text "" ∨ token.Proper
  | .text text, _, token, htoken => by
    rw [List.mem_singleton.1 htoken]
    exact Token.text_proper text
  | .element e, h, token, htoken => tree_proper e h token htoken

end

end Element

/-! ### Assembling -/

namespace Node

open Element

variable {policy : Policy}

/-- An element has the tree that it was assembled from if its content has. -/
theorem tree_element {path : List String} {name : String} (h : policy.Faithful (path ++ [name]))
    {attributes : Attributes} {content : List Node}
    (hstart : isName name = true ∧ attributes.Proper)
    (hcontent : treeContents ((assembledAll policy (path ++ [name]) content).filterMap
        (pieceNode? true)) = content ∧
      OrderedContents ((assembledAll policy (path ++ [name]) content).filterMap
        (pieceNode? true))) :
    treeContent (assembled policy path (.element name attributes content)) =
        .element name attributes content ∧
      OrderedContent (assembled policy path (.element name attributes content)) := by
  rw [assembled, ofPieces, if_pos h.here.1, h.here.2]
  exact ⟨congrArg _ hcontent.1, hstart.1, hstart.2, hcontent.2⟩

mutual

/-- Where order and white space are kept, the tree of what a node amounts to is the node. -/
theorem tree_assembled : ∀ (node : Node) {path : List String}, policy.Faithful path →
    (∀ token ∈ node.tokens, token.Proper) →
    treeContent (node.assembled policy path) = node ∧ OrderedContent (node.assembled policy path)
  | .text chunk, path, _, _ => ⟨rfl, trivial⟩
  | .element name attributes content, path, h, hproper => by
    rw [tokens, List.forall_mem_cons, List.forall_mem_append] at hproper
    exact tree_element (h.child name) hproper.1
      (tree_assembledAll content (h.child name) hproper.2.1)

theorem tree_assembledAll : ∀ (nodes : List Node) {path : List String}, policy.Faithful path →
    (∀ token ∈ tokensAll nodes, token.Proper) →
    treeContents ((assembledAll policy path nodes).filterMap (pieceNode? true)) = nodes ∧
      OrderedContents ((assembledAll policy path nodes).filterMap (pieceNode? true))
  | [], path, _, _ => ⟨rfl, trivial⟩
  | node :: nodes, path, h, hproper => by
    rw [tokensAll, List.forall_mem_append] at hproper
    obtain ⟨htree, hordered⟩ := tree_assembledAll nodes h hproper.2
    obtain ⟨hfirst, hfirst'⟩ := tree_assembled node h hproper.1
    have hkept : pieceNode? true (node.assembled policy path) =
        some (node.assembled policy path) := by
      cases node with
      | element => rfl
      | text chunk =>
        have hne : chunk ≠ "" := hproper.1 (.text chunk) (List.mem_singleton_self _)
        simp [assembled, pieceNode?, hne]
    rw [assembledAll, List.filterMap_cons, hkept]
    exact ⟨congrArg₂ _ hfirst htree, hfirst', hordered⟩

end

end Node

end XmlSieve
