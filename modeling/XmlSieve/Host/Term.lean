import XmlSieve.Bytes
import XmlSieve.Host.Session

/-!
# Terms

The values that a host exchanges with its sessions.  An element becomes a map (`Term.ofElement?`):
next to its children, under their names, stand the keys `$name`, `$` for the attributes, `$text` and
`$children` for the nodes, of which the attributes and the text are left out when there are none.
-/

namespace XmlSieve

inductive Term where
  | atom (name : String)
  | binary (bytes : Bytes)
  | integer (value : Int)
  | list (terms : List Term)
  | tuple (terms : List Term)
  /-- Terms under distinct binary keys, in no particular order. -/
  | map (pairs : List (Bytes × Term))
  /-- A session, by its number. -/
  | session (id : Nat)

namespace Term

instance : Inhabited Term := ⟨tuple []⟩

/-! ### Making terms -/

def ofString (s : String) : Term := .binary (Bytes.encode s)

def ofNat (n : Nat) : Term := .integer n

def ofBool (b : Bool) : Term := .atom (if b then "true" else "false")

/-- Whether no key occurs twice. -/
def keysDistinct : List (Bytes × Term) → Bool
  | [] => true
  | (key, _) :: rest => !(rest.any fun (other, _) => other == key) && keysDistinct rest

/-- A map; there is none with a repeated key. -/
def map? (pairs : List (Bytes × Term)) : Option Term :=
  if keysDistinct pairs then some (.map pairs) else none

/-- The map of the attributes. -/
def ofAttributes? (attributes : Attributes) : Option Term :=
  map? (attributes.map fun (name, value) => (Bytes.encode name, ofString value))

/-- The entry for the attributes, if there are any. -/
def attributeEntry? (attributes : Attributes) : Option (List (Bytes × Term)) :=
  if attributes.isEmpty then some []
  else (ofAttributes? attributes).map fun term => [(Bytes.ascii ['$'], term)]

/-- The entry for the text, if there is any. -/
def textEntry (text : String) : List (Bytes × Term) :=
  if text.isEmpty then [] else [(Bytes.ascii ['$', 't', 'e', 'x', 't'], ofString text)]

/-- The entry for the name. -/
def nameEntry (name : String) : List (Bytes × Term) :=
  [(Bytes.ascii ['$', 'n', 'a', 'm', 'e'], ofString name)]

mutual

/-- The map for an element. -/
def ofElement? : Element → Option Term
  | ⟨name, attributes, children, text, nodes⟩ => do
    let attributeEntry ← attributeEntry? attributes
    let nodeEntry ← ofNodes? nodes
    let childEntries ← ofChildren? children
    map? (nameEntry name ++ attributeEntry ++ textEntry text ++ nodeEntry ++ childEntries)

/-- The entry for the nodes, where document order is preserved. -/
def ofNodes? : Option (List (Content Element)) → Option (List (Bytes × Term))
  | none => some []
  | some nodes => do
    let terms ← ofContents? nodes
    return [(Bytes.ascii ['$', 'c', 'h', 'i', 'l', 'd', 'r', 'e', 'n'], .list terms)]

/-- An entry for each slot. -/
def ofChildren? : List (String × Slot Element) → Option (List (Bytes × Term))
  | [] => some []
  | (name, slot) :: rest => do
    let term ← ofSlot? slot
    let entries ← ofChildren? rest
    return (Bytes.encode name, term) :: entries

def ofSlot? : Slot Element → Option Term
  | .one value => ofContent? value
  | .many values => do
    let terms ← ofContents? values
    return .list terms

def ofContents? : List (Content Element) → Option (List Term)
  | [] => some []
  | value :: rest => do
    let term ← ofContent? value
    let terms ← ofContents? rest
    return term :: terms

def ofContent? : Content Element → Option Term
  | .text text => some (ofString text)
  | .element e => ofElement? e

end

/-- The pair of an event and the element it is about. -/
def ofMatch? (m : QueuedMatch) : Option Term :=
  (ofElement? m.element).map fun element => .tuple [ofString m.event, element]

def ofMatches? (queue : List QueuedMatch) : Option Term := (queue.mapM ofMatch?).map .list

def ofPhase : Phase → Term
  | .accepting => .atom "open"
  | .finishing => .atom "finishing"
  | .ended => .atom "ended"
  | .failed => .atom "failed"

def ofStatus (s : Status) : Term :=
  .tuple [ofPhase s.phase, ofNat s.available, ofNat s.outputBytes, ofBool s.paused, ofNat s.line]

def ofLine? : Option Nat → Term
  | some line => ofNat line
  | none => .atom "nil"

def ofError : StreamError → Term
  | .closed => .tuple [.atom "error", .atom "closed"]
  | e => .tuple [.atom "error", ofString e.message, ofLine? e.line?]

def ofVerdict : Verdict → Term
  | .ok () => .atom "ok"
  | .error e => ofError e

/-! ### Reading terms -/

/-- The session that a term stands for. -/
def session? : Term → Option Nat
  | .session id => some id
  | _ => none

def bytes? : Term → Option Bytes
  | .binary bytes => some bytes
  | _ => none

/-- The text that a term is. -/
def text? (t : Term) : Option String := t.bytes?.bind Bytes.decode?

def bool? : Term → Option Bool
  | .atom name => if name = "true" then some true else if name = "false" then some false else none
  | _ => none

/-- A count: an integer of 64 bits without sign. -/
def count? : Term → Option Nat
  | .integer n => if 0 ≤ n ∧ n < 0x10000000000000000 then some n.toNat else none
  | _ => none

end Term

end XmlSieve
