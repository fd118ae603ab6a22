import XmlSieve.Stream.Ancestry

/-!
# Listeners

A listener is told of a match and answers with the element as it wants it to be.  Listeners share an
environment `σ`, which each call may change; nothing else of what they do is visible to the stream.
-/

namespace XmlSieve

/-- What a listener is told. -/
structure Match where
  /-- The canonical name of the event subscribed to. -/
  event : String
  /-- The matched element, as far as it is assembled. -/
  element : Element
  ancestry : Ancestry
  /-- The piece of text, for a text event. -/
  chunk : Option String := none

/-- What a listener answers. -/
structure Reaction (σ : Type) where
  /-- The element, with the changes the listener made. -/
  element : Element
  /-- Whether delivery is to stop after the current token. -/
  pause : Bool := false
  env : σ

abbrev Listener (σ : Type) := Match → σ → Reaction σ

/-- Tells listeners of a match one after the other; each sees the element as the one before it left
it. -/
def Listener.tellAll {σ : Type} (listeners : List (Listener σ)) (m : Match) (env : σ) :
    Reaction σ :=
  listeners.foldl
    (fun r listener =>
      let r' := listener { m with element := r.element } r.env
      { r' with pause := r.pause || r'.pause })
    { element := m.element, env }

end XmlSieve
