import XmlSieve.Proofs.Element.Reference
import XmlSieve.Proofs.Token.Nesting

/-!
# Outlines

While a document is read, its open elements are a stack of `Branch`es, each with what has been read
of its content, and every token makes the stack grow (`Branch.grow`).  The `Scene` of a token is
what there is to be seen of its element then.  The tokens of a document that is read to its end are
those of one `Node`, the root, and elements end in the order of `Node.endings` (`exists_root`).
-/

namespace XmlSieve

/-- What there is to be seen of an element. -/
structure Scene where
  /-- The names of the elements from the root to this one. -/
  path : List String
  element : Element
  chunk : Option String

namespace Node

mutual

/-- The tokens of a node. -/
def tokens : Node → List Token
  | .text chunk => [.text chunk]
  | .element name attributes content =>
    .startTag name attributes :: (tokensAll content ++ [.endTag name])

def tokensAll : List Node → List Token
  | [] => []
  | node :: nodes => tokens node ++ tokensAll nodes

end

mutual

/-- The elements in a node below `path`, in the order in which they end, each with its path. -/
def endings (path : List String) : Node → List (List String × Node)
  | .text _ => []
  | .element name attributes content =>
    endingsAll (path ++ [name]) content ++ [(path ++ [name], .element name attributes content)]

def endingsAll (path : List String) : List Node → List (List String × Node)
  | [] => []
  | node :: nodes => endings path node ++ endingsAll path nodes

end

theorem tokensAll_concat (nodes : List Node) (node : Node) :
    tokensAll (nodes ++ [node]) = tokensAll nodes ++ node.tokens := by
  induction nodes with
  | nil => simp [tokensAll]
  | cons n nodes ih => rw [List.cons_append, tokensAll, ih, tokensAll, List.append_assoc]

theorem endingsAll_concat (path : List String) (nodes : List Node) (node : Node) :
    endingsAll path (nodes ++ [node]) = endingsAll path nodes ++ node.endings path := by
  induction nodes with
  | nil => simp [endingsAll]
  | cons n nodes ih => rw [List.cons_append, endingsAll, ih, endingsAll, List.append_assoc]

/-! Tokens tell where a node ends, so that they are those of one node only. -/

mutual

theorem tokens_append_inj : ∀ (node other : Node) {rest rest' : List Token},
    node.tokens ++ rest = other.tokens ++ rest' → node = other ∧ rest = rest'
  | .text chunk, .text chunk', _, _, h => by simpa [tokens] using h
  | .text chunk, .element name attributes content, _, _, h => by simp [tokens] at h
  | .element name attributes content, .text chunk, _, _, h => by simp [tokens] at h
  | .element name attributes content, .element name' attributes' content', rest, rest', h => by
    have hparts : name = name' ∧ attributes = attributes' ∧
        tokensAll content ++ .endTag name :: rest =
          tokensAll content' ++ .endTag name' :: rest' := by
      simpa [tokens, and_assoc] using h
    obtain ⟨rfl, rfl, hcontent⟩ := hparts
    obtain ⟨rfl, hrest⟩ := tokensAll_append_inj content content' hcontent
    exact ⟨rfl, hrest⟩

theorem tokensAll_append_inj : ∀ (nodes others : List Node) {name name' : String}
    {rest rest' : List Token},
    tokensAll nodes ++ .endTag name :: rest = tokensAll others ++ .endTag name' :: rest' →
      nodes = others ∧ rest = rest'
  | [], [], _, _, _, _, h => ⟨rfl, (List.cons.inj h).2⟩
  | [], other :: others, _, _, _, _, h => by cases other <;> simp [tokensAll, tokens] at h
  | node :: nodes, [], _, _, _, _, h => by cases node <;> simp [tokensAll, tokens] at h
  | node :: nodes, other :: others, _, _, _, _, h => by
    rw [tokensAll, tokensAll, List.append_assoc, List.append_assoc] at h
    obtain ⟨rfl, hnodes⟩ := tokens_append_inj node other h
    obtain ⟨rfl, hrest⟩ := tokensAll_append_inj nodes others hnodes
    exact ⟨rfl, hrest⟩

end

theorem tokens_injective {node other : Node} (h : node.tokens = other.tokens) : node = other :=
  (tokens_append_inj node other (congrArg (· ++ []) h)).1

end Node

/-- An element that is open, with what has been read of its content. -/
structure Branch where
  name : String
  attributes : Attributes
  content : List Node := []

namespace Branch

variable {b : Branch} {stack : List Branch} {tokens : List Token}

/-- The names from the root to the innermost open element, which is the first of the stack. -/
def path (stack : List Branch) : List String := (stack.map (·.name)).reverse

theorem path_cons (b : Branch) (stack : List Branch) :
    path (b :: stack) = path stack ++ [b.name] := by
  simp [path]

/-- The element of a branch, if it ended here. -/
def node (b : Branch) : Node := .element b.name b.attributes b.content

/-- Adds a node to the innermost open element. -/
def add (node : Node) : List Branch → List Branch
  | [] => []
  | b :: stack => { b with content := b.content ++ [node] } :: stack

/-- The open elements after a token. -/
def grow (stack : List Branch) : Token → List Branch
  | .startTag name attributes => { name, attributes } :: stack
  | .text chunk => add (.text chunk) stack
  | .endTag _ =>
    match stack with
    | [] => []
    | b :: stack => add b.node stack

/-! ### Scenes -/

/-- The element of the innermost branch, as far as it has been read. -/
def element (policy : Policy) : List Branch → Element
  | [] => {}
  | b :: stack => .ofPieces policy (path (b :: stack)) b.name b.attributes
      (Node.assembledAll policy (path (b :: stack)) b.content)

/-- What there is to be seen of the element of a token: where it starts, its name and attributes;
at a text or where it ends, what has been read of it, this text included. -/
def scene (policy : Policy) (stack : List Branch) : Token → Scene
  | .startTag name attributes =>
    { path := path stack ++ [name], element := { name, attributes }, chunk := none }
  | .text chunk =>
    { path := path stack, element := element policy (add (.text chunk) stack), chunk := some chunk }
  | .endTag _ => { path := path stack, element := element policy stack, chunk := none }

/-- The tokens that follow, each with its scene. -/
def scenes (policy : Policy) (stack : List Branch) : List Token → List (Token × Scene)
  | [] => []
  | token :: tokens =>
    (token, scene policy stack token) :: scenes policy (grow stack token) tokens

/-- The elements that end in the tokens that follow, each with its path. -/
def closings (stack : List Branch) : List Token → List (List String × Node)
  | [] => []
  | .endTag name :: tokens =>
    (match stack with
      | [] => []
      | b :: _ => [(path stack, b.node)]) ++ closings (grow stack (.endTag name)) tokens
  | .startTag name attributes :: tokens => closings (grow stack (.startTag name attributes)) tokens
  | .text chunk :: tokens => closings (grow stack (.text chunk)) tokens

/-! ### The root -/

/-- The tokens that lead to a stack. -/
def written : List Branch → List Token
  | [] => []
  | b :: stack => written stack ++ .startTag b.name b.attributes :: Node.tokensAll b.content

/-- The elements that have ended on the way to a stack. -/
def ended : List Branch → List (List String × Node)
  | [] => []
  | b :: stack => ended stack ++ Node.endingsAll (path (b :: stack)) b.content

theorem written_add (node : Node) (b : Branch) (stack : List Branch) :
    written (add node (b :: stack)) = written (b :: stack) ++ node.tokens := by
  simp [written, add, Node.tokensAll_concat]

theorem ended_add (node : Node) (b : Branch) (stack : List Branch) :
    ended (add node (b :: stack)) =
      ended (b :: stack) ++ node.endings (path (b :: stack)) := by
  have hpath : path ({ b with content := b.content ++ [node] } :: stack) = path (b :: stack) := rfl
  rw [add, ended, hpath, Node.endingsAll_concat, ended, List.append_assoc]

/-- The tokens of a branch that ends are those that led to it, and its end tag. -/
theorem written_node (b : Branch) (stack : List Branch) :
    written stack ++ b.node.tokens = written (b :: stack) ++ [.endTag b.name] := by
  simp [written, node, Node.tokens]

theorem ended_node (b : Branch) (stack : List Branch) :
    ended stack ++ b.node.endings (path stack) =
      ended (b :: stack) ++ [(path (b :: stack), b.node)] := by
  simp [ended, node, Node.endings, path_cons]

theorem eq_nil_of_epilog {after : Place} (h : Place.epilog.followAll tokens = some after) :
    tokens = [] := by
  cases tokens with
  | nil => rfl
  | cons token tokens =>
    obtain ⟨q, hq, -⟩ := Place.exists_of_followAll_cons h
    cases Place.follow_eq_some_iff.1 hq with
    | startTag name attributes hp => exact absurd rfl hp

/-- The open elements after a token, where those at a place are known. -/
theorem openNames_grow {p q : Place} {token : Token}
    (hp : p.openNames = stack.map (·.name)) (hq : p.follow token = some q) :
    q.openNames = (grow stack token).map (·.name) := by
  cases Place.follow_eq_some_iff.1 hq with
  | startTag name attributes => exact congrArg (name :: ·) hp
  | text =>
    rw [hp]
    cases stack <;> rfl
  | endTag name outer =>
    cases stack with
    | nil => cases hp
    | cons b stack =>
      rw [Place.openNames_inside, (List.cons.inj hp).2]
      cases stack <;> rfl

/-- A token that leaves an element open is added to what led to the stack. -/
theorem written_grow {token : Token} (hname : ∀ name, token = .endTag name → b.name = name)
    (hopen : grow (b :: stack) token ≠ []) :
    written (grow (b :: stack) token) = written (b :: stack) ++ [token] := by
  cases token with
  | startTag name attributes => simp [grow, written, Node.tokensAll]
  | text chunk => exact written_add (.text chunk) b stack
  | endTag name =>
    obtain rfl := hname name rfl
    cases stack with
    | nil => exact absurd rfl hopen
    | cons outer stack => exact (written_add b.node outer stack).trans (written_node b _)

/-- What has ended with a token that leaves an element open is no longer among what is to end. -/
theorem ended_grow {token : Token} (hopen : grow (b :: stack) token ≠ []) :
    ended (grow (b :: stack) token) ++ closings (grow (b :: stack) token) tokens =
      ended (b :: stack) ++ closings (b :: stack) (token :: tokens) := by
  cases token with
  | startTag name attributes => simp [grow, ended, Node.endingsAll, closings]
  | text chunk =>
    have hadd := ended_add (.text chunk) b stack
    rw [Node.endings, List.append_nil] at hadd
    rw [grow, hadd]
    rfl
  | endTag name =>
    cases stack with
    | nil => exact absurd rfl hopen
    | cons outer stack =>
      have hadd := (ended_add b.node outer stack).trans (ended_node b _)
      rw [grow, hadd, List.append_assoc]
      rfl

/-- Where a stack is open and the tokens that follow close it, all tokens are those of one root. -/
theorem exists_root_of_open (b : Branch) (stack : List Branch)
    (h : (Place.content b.name (stack.map (·.name))).followAll tokens = some .epilog) :
    ∃ root : Branch, written (b :: stack) ++ tokens = root.node.tokens ∧
      ended (b :: stack) ++ closings (b :: stack) tokens = root.node.endings [] := by
  induction tokens generalizing b stack with
  | nil => cases h
  | cons token tokens ih =>
    obtain ⟨q, hq, h⟩ := Place.exists_of_followAll_cons h
    cases Place.follow_eq_some_iff.1 hq with
    | startTag name attributes =>
      have hopen : grow (b :: stack) (.startTag name attributes) ≠ [] := List.cons_ne_nil _ _
      rw [← ended_grow hopen, List.append_cons, ← written_grow (by simp) hopen]
      exact ih { name, attributes } (b :: stack) h
    | text chunk =>
      have hopen : grow (b :: stack) (.text chunk) ≠ [] := List.cons_ne_nil _ _
      rw [← ended_grow hopen, List.append_cons, ← written_grow (by simp) hopen]
      exact ih { b with content := b.content ++ [.text chunk] } stack h
    | endTag =>
      cases stack with
      | nil =>
        obtain rfl : tokens = [] := eq_nil_of_epilog h
        exact ⟨b, (written_node b []).symm, (ended_node b []).symm⟩
      | cons outer stack =>
        have hopen : grow (b :: outer :: stack) (.endTag b.name) ≠ [] := List.cons_ne_nil _ _
        rw [← ended_grow hopen, List.append_cons, ← written_grow (by simp) hopen]
        exact ih { outer with content := outer.content ++ [b.node] } stack h

/-- Tokens that lead from before the root to after it are those of one root. -/
theorem exists_root (h : Place.prolog.followAll tokens = some .epilog) :
    ∃ root : Branch, tokens = root.node.tokens ∧ closings [] tokens = root.node.endings [] := by
  cases tokens with
  | nil => cases h
  | cons token tokens =>
    obtain ⟨q, hq, h⟩ := Place.exists_of_followAll_cons h
    cases Place.follow_eq_some_iff.1 hq with
    | startTag name attributes =>
      obtain ⟨root, htokens, hendings⟩ := exists_root_of_open { name, attributes } [] h
      exact ⟨root, htokens, hendings⟩

end Branch

/-- The tokens of a document that is read to its end are those of one root. -/
theorem Document.exists_root {document : Bytes} (h : (transcript document).error = none) :
    ∃ root : Branch, (transcript document).tokens = root.node.tokens ∧
      Branch.closings [] (transcript document).tokens = root.node.endings [] := by
  obtain ⟨after, hfollow, hepilog⟩ := follow_transcript document
  rw [hepilog h] at hfollow
  exact Branch.exists_root hfollow

end XmlSieve
