import XmlSieve.Element.Children
import XmlSieve.Element.Markup
import XmlSieve.Selector.Automaton
import XmlSieve.Selector.Subscription
import XmlSieve.Stream.Listener
import XmlSieve.Token

/-!
# Assembly

`Assembly.accept` takes the tokens of a document one by one.  It runs the selector automaton, builds
the element that each open frame stands for, tells the listeners of the matches, and writes the
document through to the sinks.  Three counters say what holds for the open elements as a whole: how
many requests apply to preserve document order, how many of these to keep white space, and how many
updates hold output back.
-/

namespace XmlSieve

/-- What a selector calls for in an element that it matches. -/
inductive Effect where
  /-- The parent keeps all children of this name. -/
  | collect
  /-- Document order is preserved from here on. -/
  | preserve (whitespace : Bool)
  /-- The request to preserve order ends. -/
  | release (whitespace : Bool)
  /-- Output is held back for an update. -/
  | hold (id : Nat)
  /-- The listeners of an update are told, and what was held back is written. -/
  | flush (id : Nat)
  /-- The listeners of an event are told. -/
  | notify (id : Nat)
  deriving DecidableEq, Repr

structure Assembly (σ : Type) where
  automaton : Automaton Effect := {}
  /-- The listeners by canonical event name; effects refer to them by place. -/
  listeners : Entries (List (Listener σ)) := []
  /-- Where the document is written through to. -/
  sinks : List (String → σ → σ) := []
  /-- The container of the root. -/
  document : Element := {}
  /-- The open elements, innermost first. -/
  frames : List Frame := []
  /-- How many updates hold output back. -/
  holding : Nat := 0
  /-- How many requests to preserve order apply. -/
  preserving : Nat := 0
  /-- How many of these keep white space. -/
  verbatim : Nat := 0
  /-- Whether delivery is paused. -/
  paused : Bool := false
  env : σ

namespace Assembly

variable {σ : Type}

/-! ### Registration -/

/-- The effects of a new subscription, by occasion. -/
def subscriptionEffects (kind : EventKind) (id : Nat) : List (Occasion × Effect) :=
  match kind with
  | .startElement => [(.enter, .notify id)]
  | .endElement => [(.leave, .notify id)]
  | .text => [(.inside, .notify id)]
  | .updateElement => [(.enter, .hold id), (.leave, .flush id)]

/-- Registers effects for the elements that `selector` matches. -/
def register (a : Assembly σ) (selector : Selector) (effects : List (Occasion × Effect)) :
    Assembly σ :=
  let (state, automaton) := a.automaton.compile selector
  { a with automaton := effects.foldl (fun m (occasion, e) => m.on occasion state e) automaton }

/-- Adds a listener to a subscription. -/
def subscribe (a : Assembly σ) (s : Subscription) (listener : Listener σ) : Assembly σ :=
  match Entries.get? s.name a.listeners with
  | some known =>
    { a with listeners := Entries.insert s.name (known ++ [listener]) a.listeners }
  | none =>
    { a with listeners := Entries.insert s.name [listener] a.listeners }.register s.selector
      (subscriptionEffects s.kind a.listeners.length)

/-- Keeps all elements that `selector` matches in lists in their parents. -/
def collect (a : Assembly σ) (selector : Selector) : Assembly σ :=
  a.register selector [(.flag, .collect)]

/-- Preserves the document order, and the white space if asked, below the elements that `selector`
matches. -/
def preserve (a : Assembly σ) (selector : Selector) (whitespace : Bool) : Assembly σ :=
  a.register selector [(.enter, .preserve whitespace), (.leave, .release whitespace)]

/-! ### Output -/

/-- Whether there is somewhere to write to and nothing holds output back. -/
def emitting (a : Assembly σ) : Bool := !a.sinks.isEmpty && a.holding = 0

/-- Writes `fragment` to every sink, unless output is held back. -/
def emit (a : Assembly σ) (fragment : String) : Assembly σ :=
  if a.emitting then { a with env := a.sinks.foldl (fun env sink => sink fragment env) a.env }
  else a

/-! ### Effects

While the effects of a token run, the frame of its element is not among the open frames, which are
those of its ancestors. -/

/-- What listeners see around the current element. -/
def ancestry (a : Assembly σ) : Ancestry := ⟨a.document, a.frames⟩

/-- Tells the listeners of the event with the number `id`. -/
def notify (a : Assembly σ) (id : Nat) (frame : Frame) (chunk : Option String) :
    Assembly σ × Frame :=
  match a.listeners[id]? with
  | none => (a, frame)
  | some (event, listeners) =>
    let r := Listener.tellAll listeners
      { event, element := frame.element, ancestry := a.ancestry, chunk } a.env
    ({ a with paused := a.paused || r.pause, env := r.env }, { frame with element := r.element })

/-- Begins to preserve order from `frame` on. -/
def beginPreserving (a : Assembly σ) (frame : Frame) (whitespace : Bool) : Assembly σ × Frame :=
  ({ a with
      preserving := a.preserving + 1
      verbatim := if whitespace then a.verbatim + 1 else a.verbatim },
    { frame with preserved := whitespace :: frame.preserved })

/-- Ends a request to preserve order that applies since `frame` opened.  One that was registered
later never began. -/
def endPreserving (a : Assembly σ) (frame : Frame) (whitespace : Bool) : Assembly σ × Frame :=
  if frame.preserved.contains whitespace then
    ({ a with
        preserving := a.preserving - 1
        verbatim := if whitespace then a.verbatim - 1 else a.verbatim },
      { frame with preserved := frame.preserved.erase whitespace })
  else (a, frame)

/-- Begins to hold output back at `frame`. -/
def beginHolding (a : Assembly σ) (frame : Frame) (id : Nat) : Assembly σ × Frame :=
  ({ a with holding := a.holding + 1 }, { frame with held := id :: frame.held })

/-- Tells the listeners of an update and, where it was the last to hold output back, writes the
element as they left it, up to its end tag.  An element that opened before the update was subscribed
to is already written, and nothing happens. -/
def flush (a : Assembly σ) (frame : Frame) (id : Nat) : Assembly σ × Frame :=
  if frame.held.contains id then
    let (told, frame) := a.notify id { frame with held := frame.held.erase id } none
    ({ told with holding := told.holding - 1 }.emit frame.element.openMarkup, frame)
  else (a, frame)

/-- Runs one effect in the element of `frame`. -/
def apply (chunk : Option String) (state : Assembly σ × Frame) (effect : Effect) :
    Assembly σ × Frame :=
  let (a, frame) := state
  match effect with
  | .collect => (a, { frame with collected := true })
  | .preserve whitespace => a.beginPreserving frame whitespace
  | .release whitespace => a.endPreserving frame whitespace
  | .hold id => a.beginHolding frame id
  | .flush id => a.flush frame id
  | .notify id => a.notify id frame chunk

/-- Runs effects in the element of `frame`. -/
def applyAll (a : Assembly σ) (frame : Frame) (chunk : Option String) (effects : List Effect) :
    Assembly σ × Frame :=
  effects.foldl (apply chunk) (a, frame)

/-! ### Tokens -/

/-- The path of the innermost open element. -/
def path (a : Assembly σ) : String := (a.frames.head?.map (·.path)).getD ""

/-- Changes the innermost open element, or the container of the root if none is open. -/
def modifyParent (a : Assembly σ) (f : Element → Element) : Assembly σ :=
  match a.frames with
  | [] => { a with document := f a.document }
  | frame :: outer => { a with frames := { frame with element := f frame.element } :: outer }

/-- How many elements are open. -/
def depth (a : Assembly σ) : Nat := a.frames.length

/-- Opens an element. -/
def acceptStart (a : Assembly σ) (name : String) (attributes : Attributes) : Assembly σ :=
  let (entered, automaton) := a.automaton.enter name
  let frame := Frame.opened a.path name attributes
  let (a, frame) := { a with automaton }.applyAll frame none entered.flags
  let (a, frame) := a.applyAll frame none entered.enter
  let frame := if a.preserving > 0 then frame.startNodes else frame
  let e := frame.element
  let a := (a.modifyParent (·.openChild e.name frame.collected)).emit
    (Markup.startTag e.name e.attributes)
  { a with frames := frame :: a.frames }

/-- Adds a chunk of text to the element of `frame`: to its text, and to its nodes where order is
preserved. -/
def addText (a : Assembly σ) (frame : Frame) (chunk : String) : Frame :=
  let frame := if a.verbatim > 0 then frame.addVerbatim chunk else frame.addCollapsed chunk
  let node := if a.verbatim > 0 then chunk else trim chunk
  if a.preserving > 0 && !node.isEmpty then
    { frame with element := frame.element.addNode (.text node) }
  else frame

/-- Takes a chunk of text in the innermost open element. -/
def acceptText (a : Assembly σ) (chunk : String) : Except Misuse (Assembly σ) :=
  match a.frames with
  | [] => .error .textOutsideElement
  | frame :: outer =>
    let a := { a with frames := outer }
    let (a, frame) := a.applyAll (a.addText frame chunk) (some chunk) (a.automaton.due .inside)
    .ok ({ a with frames := frame :: a.frames }.emit (escape chunk))

/-- Stores the element of a frame that has closed. -/
def store (a : Assembly σ) (frame : Frame) : Assembly σ :=
  let e := frame.element
  a.modifyParent fun parent =>
    (if a.preserving > 0 then parent.addNode (.element e) else parent).closeChild e.name
      frame.collected e.toContent

/-- Closes the innermost open element. -/
def acceptEnd (a : Assembly σ) : Except Misuse (Assembly σ) :=
  match a.frames with
  | [] => .error .endWithoutStart
  | frame :: outer =>
    match a.automaton.leave with
    | .error misuse => .error misuse
    | .ok (effects, automaton) =>
      let (a, frame) := { a with automaton, frames := outer }.applyAll frame none effects
      .ok ((a.store frame).emit (Markup.endTag frame.element.name))

/-- Takes one token. -/
def accept (a : Assembly σ) : Token → Except Misuse (Assembly σ)
  | .startTag name attributes => .ok (a.acceptStart name attributes)
  | .endTag _ => a.acceptEnd
  | .text chunk => a.acceptText chunk

end Assembly

end XmlSieve
