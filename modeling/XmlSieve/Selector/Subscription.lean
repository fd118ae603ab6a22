import XmlSieve.Selector.Basic

/-!
# Subscriptions

A subscription names a kind of event and a selector, as in `endElement: channel item`.
`Subscription.parse?` reads one and `Subscription.name` is its canonical form.
-/

namespace XmlSieve

/-- When a subscriber wants to hear of an element. -/
inductive EventKind where
  /-- When it starts. -/
  | startElement
  /-- When it ends. -/
  | endElement
  /-- When it ends, with the right to change how it is written. -/
  | updateElement
  /-- At each piece of text directly inside it. -/
  | text
  deriving DecidableEq, Repr, Inhabited

namespace EventKind

/-- The word for a kind of event. -/
def word : EventKind → String
  | startElement => "startElement"
  | endElement => "endElement"
  | updateElement => "updateElement"
  | text => "text"

def all : List EventKind := [startElement, endElement, updateElement, text]

end EventKind

structure Subscription where
  kind : EventKind
  selector : Selector
  deriving DecidableEq, Repr, Inhabited

/-- What is left of `cs` after `word`, if it begins with it. -/
def afterWord? : List Char → List Char → Option (List Char)
  | [], cs => some cs
  | _ :: _, [] => none
  | w :: word, c :: cs => if w = c then afterWord? word cs else none

namespace Subscription

/-- The selector that follows the word for the kind: none at all, or one after a colon. -/
def selectorAfter? : List Char → Option Selector
  | [] => some (Selector.parse "")
  | c :: cs => if c = ':' then some (Selector.parse (String.ofList cs)) else none

/-- Reads a subscription; anything that does not begin with the word for a kind of event, alone or
with a colon after it, is none. -/
def parse? (event : String) : Option Subscription :=
  match EventKind.all.findSome? fun kind =>
    (afterWord? kind.word.toList event.toList).map (kind, ·) with
  | some (kind, rest) => (selectorAfter? rest).map (⟨kind, ·⟩)
  | none => none

/-- The canonical name of the event subscribed to. -/
def name (s : Subscription) : String :=
  if s.selector.isEmpty then s.kind.word else s.kind.word ++ ": " ++ s.selector.canonical

end Subscription

end XmlSieve
