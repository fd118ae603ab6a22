/-!
# Faults

Why a document is refused (`Malformation`), the errors that end a stream (`StreamError`) with their
wording (`StreamError.message`), and the ways to break the rules of the interface itself (`Misuse`).
-/

namespace XmlSieve

/-- A way for markup to be malformed. -/
inductive Malformation where
  /-- Bytes that no construct of markup has in this place. -/
  | invalidToken
  /-- A reference to an entity other than the five that need no declaration. -/
  | undefinedEntity
  /-- A reference to a number that is not the number of a character. -/
  | invalidCharacterNumber
  /-- Two attributes of one tag with the same name. -/
  | duplicateAttribute
  /-- An end tag that does not close the innermost open element. -/
  | mismatchedTag
  /-- Text or a start tag after the end of the root. -/
  | junkAfterRoot
  /-- Text or a literal section outside the root, or a declaration after its start. -/
  | misplaced
  /-- The input ended before the root did. -/
  | noElement
  /-- The input ended inside a construct. -/
  | unclosedToken
  /-- A fault that someone else found, in their words. -/
  | reported (text : String)
  deriving DecidableEq, Repr, Inhabited

/-- The wording of a malformation. -/
def Malformation.message : Malformation → String
  | invalidToken => "not well-formed (invalid token)"
  | undefinedEntity => "undefined entity"
  | invalidCharacterNumber => "reference to invalid character number"
  | duplicateAttribute => "duplicate attribute"
  | mismatchedTag => "mismatched tag"
  | junkAfterRoot => "junk after document element"
  | misplaced => "syntax error"
  | noElement => "no element found"
  | unclosedToken => "unclosed token"
  | reported text => text

/-- An error that ends a stream. -/
inductive StreamError where
  /-- Malformed markup in a construct that starts in `line`. -/
  | malformed (cause : Malformation) (line : Nat)
  /-- Bytes that are no text, in a construct that starts in `line`. -/
  | badEncoding (line : Nat)
  /-- The source of the bytes failed. -/
  | readFailed (reason : String)
  /-- The stream had already failed or finished. -/
  | closed
  deriving DecidableEq, Repr, Inhabited

namespace StreamError

/-- The wording of an error. -/
def message : StreamError → String
  | malformed cause line => cause.message ++ " in line " ++ toString line
  | badEncoding line => "invalid UTF-8 in line " ++ toString line
  | readFailed reason => "read error: " ++ reason
  | closed => "stream is closed"

/-- The line an error was found in, where it has one. -/
def line? : StreamError → Option Nat
  | malformed _ line | badEncoding line => some line
  | readFailed _ | closed => none

end StreamError

/-- What is wrong with a construct, before its line is known. -/
inductive Fault where
  | malformed (cause : Malformation)
  | badEncoding
  deriving DecidableEq, Repr, Inhabited

/-- The error for a fault in a construct that starts in `line`. -/
def Fault.inLine (line : Nat) : Fault → StreamError
  | malformed cause => .malformed cause line
  | badEncoding => .badEncoding line

/-- A call that the state of its object rules out. -/
inductive Misuse where
  /-- Input was fed after its end had been signalled. -/
  | feedAfterFinish
  /-- The automaton left an element that it had not entered. -/
  | leaveWithoutEnter
  /-- Text was delivered while no element was open. -/
  | textOutsideElement
  /-- An element ended while none was open. -/
  | endWithoutStart
  deriving DecidableEq, Repr, Inhabited

end XmlSieve
