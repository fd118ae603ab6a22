import XmlSieve.Proofs.Element.Outline
import XmlSieve.Proofs.Token.Writing

/-!
# Elements that are kept as they stand

A policy is `Faithful` from an element on if it preserves order and white space in this element and
in all that are in it.  Such an element is written as its tokens are (`ofNode_assembled`): its nodes
were put one behind the other as its tokens came, which `Branch.grow` does for any tokens of a node
(`foldl_grow_tokens`), so that the end tag finds all of the element (`scenes_element`).
-/

namespace XmlSieve

/-- Order and white space are preserved in the element at `path` and in all that are in it. -/
def Policy.Faithful (policy : Policy) (path : List String) : Prop :=
  ∀ below, policy.preserves (path ++ below) = true ∧ policy.verbatim (path ++ below) = true

variable {policy : Policy} {path : List String}

theorem Policy.Faithful.child (h : policy.Faithful path) (name : String) :
    policy.Faithful (path ++ [name]) := by
  intro below
  rw [List.append_assoc]
  exact h _

theorem Policy.Faithful.here (h : policy.Faithful path) :
    policy.preserves path = true ∧ policy.verbatim path = true := by
  have hnil := h []
  rwa [List.append_nil] at hnil

/-! ### Writing what was assembled -/

namespace Markup

open Node Element

/-- Where white space is kept, nothing but empty texts is left out of the nodes. -/
theorem ofNodes_pieceNode? (pieces : List (Content Element)) :
    ofNodes (pieces.filterMap (pieceNode? true)) = ofNodes pieces := by
  induction pieces with
  | nil => rfl
  | cons piece pieces ih =>
    rw [List.filterMap_cons, ofNodes, ← ih]
    cases piece with
    | element e => rfl
    | text chunk =>
      by_cases hempty : chunk = ""
      · subst hempty
        exact (String.empty_append).symm
      · simp [pieceNode?, hempty, ofNodes]

theorem body_ofPieces (h : policy.Faithful path) (name : String) (attributes : Attributes)
    (pieces : List (Content Element)) :
    body (ofPieces policy path name attributes pieces) = ofNodes pieces := by
  rw [ofPieces, if_pos h.here.1, body, h.here.2, ofNodes_pieceNode?]

/-- An element is written as its tokens are if its content is. -/
theorem ofNode_element {name : String} (h : policy.Faithful (path ++ [name]))
    (attributes : Attributes) {content : List Node}
    (hcontent : ofNodes (assembledAll policy (path ++ [name]) content) =
      ofTokens (tokensAll content)) :
    ofNode (assembled policy path (.element name attributes content)) =
      ofTokens (tokens (.element name attributes content)) := by
  rw [assembled, ofNode, body_ofPieces h, hcontent, tokens, ofTokens, ofTokens_append]
  simp [ofPieces, ofTokens, ofToken, String.append_assoc]

/-- An element is written as the node that it is. -/
theorem ofNode_markup (e : Element) : ofNode (.element e) = e.markup := by
  rw [ofNode, markup, openMarkup]

mutual

theorem ofNode_assembled : ∀ (node : Node) {path : List String}, policy.Faithful path →
    ofNode (assembled policy path node) = ofTokens node.tokens
  | .text chunk, path, _ => by
    rw [assembled, ofNode, tokens, ofTokens, ofTokens, String.append_empty]
    rfl
  | .element name attributes content, path, h =>
    ofNode_element (h.child name) attributes (ofNodes_assembledAll content (h.child name))

theorem ofNodes_assembledAll : ∀ (nodes : List Node) {path : List String}, policy.Faithful path →
    ofNodes (assembledAll policy path nodes) = ofTokens (tokensAll nodes)
  | [], path, _ => rfl
  | node :: nodes, path, h => by
    rw [assembledAll, ofNodes, tokensAll, ofTokens_append, ofNode_assembled node h,
      ofNodes_assembledAll nodes h]

end

end Markup

/-! ### The tokens of a node -/

namespace Branch

open Node

mutual

/-- The tokens of a node add it to the innermost open element. -/
theorem foldl_grow_tokens : ∀ (node : Node) (b : Branch) (stack : List Branch),
    node.tokens.foldl grow (b :: stack) = add node (b :: stack)
  | .text chunk, b, stack => rfl
  | .element name attributes content, b, stack => by
    rw [tokens, List.foldl_cons, grow, List.foldl_append,
      foldl_grow_tokensAll content { name, attributes } (b :: stack)]
    rfl

theorem foldl_grow_tokensAll : ∀ (nodes : List Node) (b : Branch) (stack : List Branch),
    (tokensAll nodes).foldl grow (b :: stack) = { b with content := b.content ++ nodes } :: stack
  | [], b, stack => by rw [tokensAll, List.foldl_nil, List.append_nil]
  | node :: nodes, b, stack => by
    rw [tokensAll, List.foldl_append, foldl_grow_tokens node b stack, add,
      foldl_grow_tokensAll nodes _ stack, List.append_assoc]
    rfl

end

theorem scenes_append (policy : Policy) (stack : List Branch) (tokens more : List Token) :
    scenes policy stack (tokens ++ more) =
      scenes policy stack tokens ++ scenes policy (tokens.foldl grow stack) more := by
  induction tokens generalizing stack with
  | nil => rfl
  | cons token tokens ih => exact congrArg (_ :: ·) (ih (grow stack token))

theorem scenes_tokens (policy : Policy) (stack : List Branch) (tokens : List Token) :
    (scenes policy stack tokens).map (·.1) = tokens := by
  induction tokens generalizing stack with
  | nil => rfl
  | cons token tokens ih => exact congrArg (token :: ·) (ih _)

theorem length_scenes (policy : Policy) (stack : List Branch) (tokens : List Token) :
    (scenes policy stack tokens).length = tokens.length := by
  conv_rhs => rw [← scenes_tokens policy stack tokens, List.length_map]

/-- The end tag of an element finds all of it, as it is assembled. -/
theorem scenes_element (policy : Policy) (stack : List Branch) (name : String)
    (attributes : Attributes) (content : List Node) :
    ∃ e, assembled policy (Branch.path stack) (.element name attributes content) = .element e ∧
      scenes policy stack (Node.element name attributes content).tokens =
        scenes policy stack (.startTag name attributes :: tokensAll content) ++
          [(.endTag name,
            { path := Branch.path stack ++ [name], element := e, chunk := none })] := by
  refine ⟨_, rfl, ?_⟩
  rw [tokens, ← List.cons_append, scenes_append, List.foldl_cons, grow, foldl_grow_tokensAll]
  simp only [scenes, scene, element, path_cons, List.nil_append]

end Branch

end XmlSieve
