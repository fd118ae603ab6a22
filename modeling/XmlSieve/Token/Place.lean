import XmlSieve.Text.Reference
import XmlSieve.Token.Attributes
import XmlSieve.Token.Construct

/-!
# Places in a document

Where a construct stands decides what it means.  A `Place` is the part of the document that has
been reached, with the elements open there; `Place.read` gives the token that a construct amounts to
and the place after it, or the fault that it is.
-/

namespace XmlSieve

/-- A part of a document. -/
inductive Place where
  /-- Before the root. -/
  | prolog
  /-- Inside the root: the innermost open element and those around it, innermost first. -/
  | content (innermost : String) (outer : List String)
  /-- After the root. -/
  | epilog
  deriving DecidableEq, Repr, Inhabited

/-- What a construct amounts to, with the place after it. -/
inductive Reading where
  /-- Nothing: it is passed over. -/
  | nothing (after : Place)
  /-- One token. -/
  | token (token : Token) (after : Place)
  /-- A start tag that closes itself: an element without content. -/
  | emptyElement (name : String) (attributes : Attributes) (after : Place)
  deriving DecidableEq, Repr, Inhabited

namespace Place

/-- The open elements, innermost first. -/
def openNames : Place → List String
  | content innermost outer => innermost :: outer
  | prolog | epilog => []

/-- How many elements are open. -/
def depth (p : Place) : Nat := p.openNames.length

/-- The place with the elements `names` open, once the root has started. -/
def inside : List String → Place
  | [] => epilog
  | name :: outer => content name outer

/-- The text that `bs` is. -/
def decodeText (bs : Bytes) : Except Fault String :=
  match bs.decode? with
  | some text => .ok text
  | none => .error .badEncoding

/-- The text that `raw` stands for once its references are replaced. -/
def decodeCharacters (raw : Bytes) : Except Fault String :=
  match Reference.expand raw with
  | .ok expanded => decodeText expanded
  | .error cause => .error (.malformed cause)

/-- A literal section: only in content, and as it stands. -/
def readLiteral (bs : Bytes) : Place → Except Fault Reading
  | p@(content _ _) => do
    let text ← decodeText bs
    return if text.isEmpty then .nothing p else .token (.text text) p
  | prolog | epilog => .error (.malformed .misplaced)

/-- Characters: text in content, and nothing but blanks elsewhere. -/
def readCharacters (raw : Bytes) : Place → Except Fault Reading
  | p@(content _ _) => do
    let text ← decodeCharacters raw
    return .token (.text text) p
  | prolog =>
    if raw.all isBlankByte then .ok (.nothing prolog) else .error (.malformed .misplaced)
  | epilog =>
    if raw.all isBlankByte then .ok (.nothing epilog) else .error (.malformed .junkAfterRoot)

/-- A declaration: only before the root. -/
def readDeclaration : Place → Except Fault Reading
  | prolog => .ok (.nothing prolog)
  | content _ _ | epilog => .error (.malformed .misplaced)

/-- The bytes of the name that is all of the body of an end tag but for blanks after it. -/
def endTagName? (body : Bytes) : Option Bytes :=
  match body.splitName? with
  | some (name, rest) => if rest.all isBlankByte then some name else none
  | none => none

/-- An end tag: it closes the innermost open element and no other. -/
def readEndTag (body : Bytes) (p : Place) : Except Fault Reading :=
  match endTagName? body with
  | none => .error (.malformed .invalidToken)
  | some raw => do
    let name ← decodeText raw
    match p with
    | content innermost outer =>
      if innermost = name then .ok (.token (.endTag name) (inside outer))
      else .error (.malformed .mismatchedTag)
    | prolog | epilog => .error (.malformed .mismatchedTag)

/-- The body of a start tag without the slash by which it closes itself, and whether it does. -/
def splitSlash (body : Bytes) : Bytes × Bool :=
  if body.getLast? = some Byte.slash then (body.dropLast, true) else (body, false)

/-- A start tag: anywhere but after the root. -/
def readStartTag (body : Bytes) (p : Place) : Except Fault Reading :=
  let (body, closesItself) := splitSlash body
  match body.splitName? with
  | none => .error (.malformed .invalidToken)
  | some (raw, rest) =>
    if p = epilog then .error (.malformed .junkAfterRoot)
    else do
      let name ← decodeText raw
      match Attributes.parse rest with
      | .error cause => .error (.malformed cause)
      | .ok attributes =>
        if closesItself then .ok (.emptyElement name attributes (inside p.openNames))
        else .ok (.token (.startTag name attributes) (content name p.openNames))

/-- What `construct` amounts to at the place `p`. -/
def read (p : Place) : Construct → Except Fault Reading
  | .aside => .ok (.nothing p)
  | .declaration => p.readDeclaration
  | .literal bs => p.readLiteral bs
  | .endTag body => p.readEndTag body
  | .startTag body => p.readStartTag body
  | .characters raw => p.readCharacters raw

end Place

end XmlSieve
