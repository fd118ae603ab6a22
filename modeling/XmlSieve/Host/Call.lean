import XmlSieve.Host.Term

/-!
# Calls

A host holds sessions by number and calls functions on them by name.  `Request.decode` finds the
function and reads its arguments; `Host.call` carries the request out and answers with a term.
-/

namespace XmlSieve

/-- Why a call gave no answer. -/
inductive Raised where
  /-- There is no function of this name with as many arguments. -/
  | undefinedFunction
  /-- An argument is not of the kind that the function takes, or the answer has no term. -/
  | badArgument
  /-- The session was used against its rules. -/
  | misused (misuse : Misuse)
  deriving DecidableEq, Repr

/-- What can be asked of one session. -/
inductive Action where
  | subscribe (event : String)
  | collect (selector : String)
  | preserve (selector : String) (whitespace : Bool)
  | captureOutput
  | feed (chunk : Bytes)
  | finish
  | takeEvents (max : Nat)
  | takeOutput
  | pause
  | resume
  | status
  deriving DecidableEq, Repr

/-- What can be asked of a host. -/
inductive Request where
  /-- A new session. -/
  | create
  /-- An action in the session with the number `id`. -/
  | act (id : Nat) (action : Action)
  deriving DecidableEq, Repr

namespace Request

/-- The request for an action whose arguments, after the session, were read as `action`. -/
def inSession (session : Term) (action : Option Action) : Except Raised Request :=
  match session.session?, action with
  | some id, some action => .ok (.act id action)
  | _, _ => .error .badArgument

/-- The request that calling a function by name makes. -/
def decode (function : String) (args : List Term) : Except Raised Request :=
  match function, args with
  | "stream_new", [] => .ok .create
  | "stream_subscribe", [s, event] => inSession s (event.text?.map .subscribe)
  | "stream_collect", [s, selector] => inSession s (selector.text?.map .collect)
  | "stream_preserve", [s, selector, whitespace] =>
    inSession s do return .preserve (← selector.text?) (← whitespace.bool?)
  | "stream_capture_output", [s] => inSession s (some .captureOutput)
  | "stream_feed", [s, chunk] => inSession s (chunk.bytes?.map .feed)
  | "stream_finish", [s] => inSession s (some .finish)
  | "stream_take_events", [s, max] => inSession s (max.count?.map .takeEvents)
  | "stream_take_output", [s] => inSession s (some .takeOutput)
  | "stream_pause", [s] => inSession s (some .pause)
  | "stream_resume", [s] => inSession s (some .resume)
  | "stream_status", [s] => inSession s (some .status)
  | _, _ => .error .undefinedFunction

end Request

namespace Session

/-- The answer where a call of the stream gave `result`. -/
def answerRun (s : Session) (result : Except Misuse (Verdict × Session)) :
    Except Raised Term × Session :=
  match result with
  | .error misuse => (.error (.misused misuse), s)
  | .ok (verdict, s) => (.ok (Term.ofVerdict verdict), s)

/-- Carries out an action.  Matches leave the queue even if one of them has no term. -/
def perform (s : Session) : Action → Except Raised Term × Session
  | .subscribe event =>
    let (accepted, s) := s.subscribe event
    (.ok (Term.ofBool accepted), s)
  | .collect selector => (.ok (.tuple []), s.collect selector)
  | .preserve selector whitespace => (.ok (.tuple []), s.preserve selector whitespace)
  | .captureOutput => (.ok (.tuple []), s.captureOutput)
  | .feed chunk => s.answerRun (s.run (·.feed chunk))
  | .finish => s.answerRun (s.run (·.finish))
  | .takeEvents max =>
    let (taken, s) := s.takeMatches max
    ((Term.ofMatches? taken).elim (.error .badArgument) .ok, s)
  | .takeOutput =>
    let (output, s) := s.takeOutput
    (.ok (Term.ofString output), s)
  | .pause => (.ok (.tuple []), s.pause)
  | .resume => s.answerRun (s.run (·.resume))
  | .status => (.ok (Term.ofStatus s.status), s)

end Session

/-- The sessions of a host, by number. -/
structure Host where
  sessions : List Session := []

namespace Host

/-- Carries out a request. -/
def perform (h : Host) : Request → Except Raised Term × Host
  | .create => (.ok (.session h.sessions.length), ⟨h.sessions ++ [Session.create]⟩)
  | .act id action =>
    match h.sessions[id]? with
    | none => (.error .badArgument, h)
    | some session =>
      let (answer, session) := session.perform action
      (answer, ⟨h.sessions.set id session⟩)

/-- Calls a function by name. -/
def call (h : Host) (function : String) (args : List Term) : Except Raised Term × Host :=
  match Request.decode function args with
  | .error raised => (.error raised, h)
  | .ok request => h.perform request

end Host

end XmlSieve
