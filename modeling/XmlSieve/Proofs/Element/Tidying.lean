import XmlSieve.Proofs.Element.Outline
import XmlSieve.Proofs.Token.Rereading

/-!
# Nodes read from what was written of them

`Node.tidied` is what is left of a node once it was written and read: texts that stand next to one
another are one, no text is empty, and the values of attributes have spaces for tabs and line ends.
A document that was written from the tokens of an element is that of the tidied element
(`Document.transcript_written`), whatever texts stand in it.
-/

namespace XmlSieve

namespace Node

/-- Puts a node in front of others.  Text becomes one with text that follows it, and no text is left
of an empty one. -/
def prepend : Node → List Node → List Node
  | .element name attributes content, nodes => .element name attributes content :: nodes
  | .text s, .text t :: nodes => .text (s ++ t) :: nodes
  | .text s, nodes => if s.isEmpty then nodes else .text s :: nodes

mutual

def tidied : Node → Node
  | .text chunk => .text chunk
  | .element name attributes content => .element name attributes.spacedOut (tidiedAll content)

/-- The nodes as they are read from what was written of them one after the other. -/
def tidiedAll : List Node → List Node
  | [] => []
  | node :: nodes => (tidied node).prepend (tidiedAll nodes)

end

theorem prepend_empty (nodes : List Node) : (Node.text "").prepend nodes = nodes := by
  cases nodes with
  | nil => rfl
  | cons node nodes =>
    cases node with
    | element => rfl
    | text t => rw [prepend, String.empty_append]

/-! ### Tokens that are written -/

/-- The tokens of which something is written. -/
def written (tokens : List Token) : List Token := tokens.filter (· ≠ .text "")

theorem ofTokens_written (tokens : List Token) :
    Markup.ofTokens (written tokens) = Markup.ofTokens tokens := by
  induction tokens with
  | nil => rfl
  | cons token tokens ih =>
    rw [written, List.filter_cons]
    split
    · exact congrArg (Markup.ofToken token ++ ·) ih
    · next h =>
      have htoken : token = .text "" := by simpa using h
      rw [htoken]
      exact ih.trans String.empty_append.symm

theorem written_append (tokens more : List Token) :
    written (tokens ++ more) = written tokens ++ written more := List.filter_append _ _

theorem written_element (name : String) (attributes : Attributes) (content : List Node) :
    written (Node.element name attributes content).tokens =
      .startTag name attributes :: (written (tokensAll content) ++ [.endTag name]) := by
  rw [tokens, written, List.filter_cons_of_pos (by simp), List.filter_append]
  rfl

/-! ### The tokens of a tidied node -/

/-- What is merged onto a tag, and onto what begins with one. -/
theorem mergeOnto_text {s : String} (hs : s ≠ "") (nodes : List Node) (name : String)
    (rest : List Token) :
    (Token.text s).mergeOnto (tokensAll nodes ++ .endTag name :: rest) =
      tokensAll ((Node.text s).prepend nodes) ++ .endTag name :: rest := by
  cases nodes with
  | nil => simp [prepend, hs, tokensAll, tokens, Token.mergeOnto]
  | cons node nodes =>
    cases node with
    | element => simp [prepend, hs, tokensAll, tokens, Token.mergeOnto]
    | text t => rfl

/-- Merging what is written of nodes onto the end tag that follows them tidies the nodes. -/
theorem foldr_writtenAll : ∀ (nodes : List Node) (name : String) (rest : List Token),
    ((written (tokensAll nodes)).map Token.spacedOut).foldr Token.mergeOnto
        (.endTag name :: rest) =
      tokensAll (tidiedAll nodes) ++ .endTag name :: rest
  | [], name, rest => rfl
  | .text chunk :: nodes, name, rest => by
    rw [tokensAll, written_append, List.map_append, List.foldr_append,
      foldr_writtenAll nodes name rest, tidiedAll, tidied]
    by_cases h : chunk = ""
    · rw [h, prepend_empty]
      rfl
    · rw [← mergeOnto_text h, tokens, written, List.filter_cons_of_pos (by simp [h])]
      rfl
  | .element name' attributes content :: nodes, name, rest => by
    rw [tokensAll, written_append, written_element, List.map_append, List.foldr_append,
      foldr_writtenAll nodes name rest, List.map_cons, List.map_append, List.foldr_cons,
      List.foldr_append]
    have hcontent := foldr_writtenAll content name'
      (tokensAll (tidiedAll nodes) ++ .endTag name :: rest)
    have hclose : [Token.endTag name'].map Token.spacedOut = [.endTag name'] := rfl
    have hopen (tokens : List Token) : (Token.startTag name' attributes).spacedOut.mergeOnto tokens =
        .startTag name' attributes.spacedOut :: tokens := rfl
    have htag (tokens : List Token) : [Token.endTag name'].foldr Token.mergeOnto tokens =
        .endTag name' :: tokens := rfl
    rw [hclose, htag, hcontent, hopen, tidiedAll, tidied, prepend, tokensAll, tokens]
    simp only [List.cons_append, List.append_assoc, List.nil_append]

/-- Merging what is written of an element tidies the element. -/
theorem merge_written (name : String) (attributes : Attributes) (content : List Node) :
    Token.merge ((written (Node.element name attributes content).tokens).map Token.spacedOut) =
      (Node.element name attributes content).tidied.tokens := by
  rw [written_element, tidied, tokens, ← foldr_writtenAll content name [], Token.merge,
    List.map_cons, List.map_append, List.foldr_cons, List.foldr_append]
  rfl

/-! ### The tokens of a node follow one another -/

/-- Nodes lead back to the element that they stand in. -/
theorem followAll_written : ∀ (nodes : List Node) (innermost : String) (outer : List String),
    (Place.content innermost outer).followAll (written (tokensAll nodes)) =
      some (.content innermost outer)
  | [], innermost, outer => rfl
  | .text chunk :: nodes, innermost, outer => by
    have htext : (Place.content innermost outer).followAll (written [.text chunk]) =
        some (.content innermost outer) := by
      by_cases h : chunk = ""
      · rw [h]
        rfl
      · rw [written, List.filter_cons_of_pos (by simp [h])]
        rfl
    rw [tokensAll, written_append, tokens, Place.followAll_append htext]
    exact followAll_written nodes innermost outer
  | .element name attributes content :: nodes, innermost, outer => by
    have hcontent := followAll_written content name (innermost :: outer)
    rw [tokensAll, written_append, written_element, List.cons_append, List.append_assoc,
      Place.followAll_cons]
    refine (Place.followAll_append hcontent _).trans ?_
    rw [List.singleton_append, Place.followAll_cons, Place.follow, if_pos rfl]
    exact followAll_written nodes innermost outer

/-- An element makes a document. -/
theorem follow_written (name : String) (attributes : Attributes) (content : List Node) :
    Place.prolog.followAll (written (Node.element name attributes content).tokens) =
      some .epilog := by
  have hcontent := followAll_written content name []
  rw [written_element, Place.followAll_cons]
  refine (Place.followAll_append hcontent _).trans ?_
  rw [Place.followAll_cons, Place.follow, if_pos rfl]
  rfl

end Node

/-- A text can be written, unless it is empty. -/
theorem Token.text_proper (content : String) :
    text content = text "" ∨ (text content).Proper := by
  by_cases h : content = ""
  · exact .inl (congrArg text h)
  · exact .inr h

/-- What is written of an element is read as the tidied element. -/
theorem Document.transcript_written {name : String} {attributes : Attributes} {content : List Node}
    (h : ∀ token ∈ (Node.element name attributes content).tokens, token = .text "" ∨ token.Proper) :
    transcript (Bytes.encode (Markup.ofTokens (Node.element name attributes content).tokens)) =
      ⟨(Node.element name attributes content).tidied.tokens, none⟩ := by
  have hproper : ∀ token ∈ Node.written (Node.element name attributes content).tokens,
      token.Proper := by
    intro token htoken
    obtain ⟨hmem, hne⟩ := List.mem_filter.1 htoken
    exact (h token hmem).resolve_left (of_decide_eq_true hne)
  rw [← Node.ofTokens_written, ← Node.merge_written]
  exact transcript_ofTokens hproper (Node.follow_written name attributes content)

end XmlSieve
