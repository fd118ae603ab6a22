import XmlSieve.Fault
import XmlSieve.Selector.Basic
import XmlSieve.Selector.HookTable

/-!
# The selector automaton

All selectors of a stream share one `Automaton`.  Compiling a selector adds a chain of states from
an entry state, which is active at the document, to the state that stands for the selector; a state
from which the next name may be any number of levels away also has a loop on every name.  While a
document is read, `enter` and `leave` keep one set of active states for each open element, and the
state of a selector is active exactly in the elements that the selector matches.
-/

namespace XmlSieve

/-- A step of the automaton on the name of an element: on one name, or on any. -/
structure Edge where
  source : StateId
  label : Option String
  target : StateId
  deriving DecidableEq, Repr

/-- Whether the edge is taken from one of `set` on `name`. -/
def Edge.fires (e : Edge) (set : StateSet) (name : String) : Bool :=
  set.contains e.source && e.label.all (· == name)

/-- Hooks that are due when an element starts. -/
structure Entered (η : Type) where
  flags : List η
  enter : List η

structure Automaton (η : Type) where
  /-- How many states there are; they are numbered from zero. -/
  size : Nat := 0
  edges : List Edge := []
  /-- The state that stands for each selector compiled, under its canonical form. -/
  finals : List (String × StateId) := []
  /-- The states active at the document. -/
  initial : StateSet := ∅
  /-- The states active in each open element, innermost first. -/
  active : List StateSet := []
  hooks : HookTable η := {}

namespace Automaton

variable {η : Type}

instance : Inhabited (Automaton η) := ⟨{}⟩

/-! ### Construction -/

def addEdge (a : Automaton η) (source : StateId) (label : Option String) (target : StateId) :
    Automaton η :=
  { a with edges := a.edges ++ [⟨source, label, target⟩] }

/-- Adds a state. -/
def addState (a : Automaton η) : StateId × Automaton η := (a.size, { a with size := a.size + 1 })

/-- Adds the chain for `parts` from the state `current`, and gives its last state.  Unless the next
level is asked for (`adjacent`), a state before a name loops on every name. -/
def addChain (a : Automaton η) (current : StateId) (adjacent : Bool) :
    List Part → StateId × Automaton η
  | [] => (current, a)
  | .child :: parts => a.addChain current true parts
  | .name name :: parts =>
    let looped := if adjacent then a else a.addEdge current none current
    let (next, grown) := looped.addState
    (grown.addEdge current (some name) next).addChain next false parts

/-- Adds the states for a selector that has none yet. -/
def addSelector (a : Automaton η) (selector : Selector) : StateId × Automaton η :=
  let (entry, grown) := a.addState
  let (final, chained) :=
    { grown with initial := grown.initial.insert entry }.addChain entry false selector.parts
  let looped := if selector.isEmpty then chained.addEdge entry none entry else chained
  (final, { looped with finals := looped.finals ++ [(selector.canonical, final)] })

/-- The state that stands for the selector with this canonical form, if it was compiled. -/
def finalState? (a : Automaton η) (canonical : String) : Option StateId :=
  a.finals.lookup canonical

/-- The state that stands for `selector`, with states added for it if it has none. -/
def compile (a : Automaton η) (selector : Selector) : StateId × Automaton η :=
  match a.finalState? selector.canonical with
  | some state => (state, a)
  | none => a.addSelector selector

/-- Registers a hook. -/
def on (a : Automaton η) (occasion : Occasion) (state : StateId) (hook : η) : Automaton η :=
  { a with hooks := a.hooks.register occasion state hook }

/-! ### Runs -/

/-- The states active below an element with the states `set` active, in a child named `name`. -/
def transition (a : Automaton η) (set : StateSet) (name : String) : StateSet :=
  StateSet.ofList ((a.edges.filter (·.fires set name)).map (·.target))

/-- The states active in the innermost open element, or at the document. -/
def current (a : Automaton η) : StateSet := a.active.head?.getD a.initial

/-- How many elements are open. -/
def depth (a : Automaton η) : Nat := a.active.length

/-- Opens an element named `name`. -/
def enter (a : Automaton η) (name : String) : Entered η × Automaton η :=
  let set := a.transition a.current name
  (⟨a.hooks.fire .flag set, a.hooks.fire .enter set⟩, { a with active := set :: a.active })

/-- Closes the innermost open element, and gives the hooks that are due. -/
def leave (a : Automaton η) : Except Misuse (List η × Automaton η) :=
  match a.active with
  | [] => .error .leaveWithoutEnter
  | set :: outer => .ok (a.hooks.fire .leave set, { a with active := outer })

/-- The hooks due on an occasion in the innermost open element. -/
def due (a : Automaton η) (occasion : Occasion) : List η := a.hooks.fire occasion a.current

end Automaton

end XmlSieve
