import XmlSieve.Selector.StateSet

/-!
# Hook tables

A `HookTable` says what is to happen on which occasion in which state.  `HookTable.fire` collects
what a set of states calls for: states in ascending order, and the hooks of one state in the order
in which they were registered.
-/

namespace XmlSieve

/-- When a hook is due. -/
inductive Occasion where
  /-- An element starts, before it is set up. -/
  | flag
  /-- An element starts. -/
  | enter
  /-- Text occurs directly inside an element. -/
  | inside
  /-- An element ends. -/
  | leave
  deriving DecidableEq, Repr, Inhabited

/-- A hook with the occasion and the state it waits for. -/
structure HookEntry (η : Type) where
  occasion : Occasion
  state : StateId
  hook : η

/-- Hooks in the order in which they were registered. -/
structure HookTable (η : Type) where
  entries : List (HookEntry η) := []

namespace HookTable

variable {η : Type}

def register (table : HookTable η) (occasion : Occasion) (state : StateId) (hook : η) :
    HookTable η :=
  ⟨table.entries ++ [⟨occasion, state, hook⟩]⟩

/-- The hooks for one occasion in one state. -/
def hooksAt (table : HookTable η) (occasion : Occasion) (state : StateId) : List η :=
  (table.entries.filter fun e => e.occasion = occasion ∧ e.state = state).map (·.hook)

def count (table : HookTable η) (occasion : Occasion) (state : StateId) : Nat :=
  (table.hooksAt occasion state).length

/-- The hooks for one occasion in any state of a set. -/
def fire (table : HookTable η) (occasion : Occasion) (set : StateSet) : List η :=
  set.toList.flatMap (table.hooksAt occasion)

end HookTable

end XmlSieve
