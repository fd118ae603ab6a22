import XmlSieve.Stream.Basic

/-!
# Sessions

A host that cannot be called back takes what a stream has to say when it asks for it.  A `Session`
is a stream whose listeners put everything into an `Outbox`: matches in a queue, pass-through
output, and how the stream ended.
-/

namespace XmlSieve

/-- A match, with the element as it was at delivery. -/
structure QueuedMatch where
  /-- The canonical name of the event. -/
  event : String
  element : Element

/-- What was not taken yet, and how the stream ended. -/
structure Outbox where
  queue : List QueuedMatch := []
  output : String := ""
  ended : Bool := false
  error : Option String := none

namespace Outbox

def addMatch (o : Outbox) (m : QueuedMatch) : Outbox := { o with queue := o.queue ++ [m] }

def addOutput (o : Outbox) (fragment : String) : Outbox := { o with output := o.output ++ fragment }

/-- The listener that queues what it is told of and changes nothing. -/
def record : Listener Outbox := fun m o =>
  { element := m.element, env := o.addMatch ⟨m.event, m.element⟩ }

end Outbox

structure Session where
  stream : Stream Outbox
  /-- Whether pass-through output is kept. -/
  capturing : Bool := false

/-- What can be asked about a session at any time. -/
structure Status where
  phase : Phase
  /-- How many matches are queued. -/
  available : Nat
  /-- How long the output that was not taken is in UTF-8. -/
  outputBytes : Nat
  paused : Bool
  line : Nat

namespace Session

/-- A session with nothing subscribed. -/
def create : Session :=
  { stream := ((Stream.create {}).addEndListener fun o => { o with ended := true }).addErrorListener
      fun e o => { o with error := some e.message } }

def outbox (s : Session) : Outbox := s.stream.env

/-- Queues a copy of every element that the event is about.  Answers whether it is an event. -/
def subscribe (s : Session) (event : String) : Bool × Session :=
  let (accepted, stream) := s.stream.on event Outbox.record
  (accepted, { s with stream })

def collect (s : Session) (selector : String) : Session :=
  { s with stream := s.stream.collect selector }

def preserve (s : Session) (selector : String) (whitespace : Bool) : Session :=
  { s with stream := s.stream.preserve selector whitespace }

/-- Keeps pass-through output from here on; asking again changes nothing. -/
def captureOutput (s : Session) : Session :=
  if s.capturing then s
  else { stream := s.stream.onData fun fragment o => o.addOutput fragment, capturing := true }

def pause (s : Session) : Session := { s with stream := s.stream.pause }

/-- Runs a call of the stream. -/
def run (s : Session) (call : Stream Outbox → Except Misuse (Verdict × Stream Outbox)) :
    Except Misuse (Verdict × Session) :=
  match call s.stream with
  | .error misuse => .error misuse
  | .ok (verdict, stream) => .ok (verdict, { s with stream })

/-- Takes up to `max` matches off the queue. -/
def takeMatches (s : Session) (max : Nat) : List QueuedMatch × Session :=
  (s.outbox.queue.take max,
    { s with stream := s.stream.modifyEnv fun o => { o with queue := o.queue.drop max } })

/-- Takes the output there is. -/
def takeOutput (s : Session) : String × Session :=
  (s.outbox.output, { s with stream := s.stream.modifyEnv fun o => { o with output := "" } })

def status (s : Session) : Status where
  phase := s.stream.phase
  available := s.outbox.queue.length
  outputBytes := s.outbox.output.utf8ByteSize
  paused := s.stream.isPaused
  line := s.stream.line

end Session

end XmlSieve
