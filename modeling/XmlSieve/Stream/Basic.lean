import XmlSieve.Stream.Assembly
import XmlSieve.Token.Tokenizer

/-!
# Streams

A `Stream` takes a document in chunks (`feed`, then `finish`) and delivers every token as soon as it
is complete, unless it is paused; what arrives meanwhile is kept until `resume`.  It ends in one of
two ways, and says so once: to the listeners for the end when everything was delivered, or to the
listeners for errors when the document is malformed or `abort` is called.
-/

namespace XmlSieve

/-- How far a stream has come. -/
inductive Phase where
  /-- It takes input. -/
  | accepting
  /-- The end of the input was signalled, and some of it may not have been delivered. -/
  | finishing
  /-- Everything was delivered. -/
  | ended
  /-- An error was reported. -/
  | failed
  deriving DecidableEq, Repr, Inhabited

structure Stream (σ : Type) where
  tokenizer : Tokenizer := {}
  assembly : Assembly σ
  /-- The listeners for the end of the document. -/
  onEnd : List (σ → σ) := []
  /-- The listeners for the error that ends the stream. -/
  onError : List (StreamError → σ → σ) := []
  phase : Phase := .accepting

/-- What a call answers: nothing, or the error that ended the stream. -/
abbrev Verdict := Except StreamError Unit

namespace Stream

variable {σ : Type}

/-- A stream whose listeners start from `env`. -/
def create (env : σ) : Stream σ := { assembly := { env } }

/-! ### What can be seen from outside -/

/-- What the listeners share. -/
def env (s : Stream σ) : σ := s.assembly.env

def isPaused (s : Stream σ) : Bool := s.assembly.paused

/-- The line that has been reached. -/
def line (s : Stream σ) : Nat := s.tokenizer.line

/-- How many elements are open. -/
def depth (s : Stream σ) : Nat := s.assembly.depth

/-- The container of the root. -/
def document (s : Stream σ) : Element := s.assembly.document

/-! ### Registration -/

/-- Changes what the listeners share. -/
def modifyEnv (s : Stream σ) (f : σ → σ) : Stream σ :=
  { s with assembly := { s.assembly with env := f s.assembly.env } }

/-- Subscribes to an event such as `endElement: channel item`.  Answers whether it is one; the
listener is dropped if not. -/
def on (s : Stream σ) (event : String) (listener : Listener σ) : Bool × Stream σ :=
  match Subscription.parse? event with
  | none => (false, s)
  | some subscription =>
    (true, { s with assembly := s.assembly.subscribe subscription listener })

/-- Keeps all elements that the selector matches in lists in their parents. -/
def collect (s : Stream σ) (selector : String) : Stream σ :=
  { s with assembly := s.assembly.collect (Selector.parse selector) }

/-- Preserves document order below the elements that the selector matches. -/
def preserve (s : Stream σ) (selector : String) (whitespace : Bool) : Stream σ :=
  { s with assembly := s.assembly.preserve (Selector.parse selector) whitespace }

/-- Writes the document through to `sink`. -/
def onData (s : Stream σ) (sink : String → σ → σ) : Stream σ :=
  { s with assembly := { s.assembly with sinks := s.assembly.sinks ++ [sink] } }

def addEndListener (s : Stream σ) (listener : σ → σ) : Stream σ :=
  { s with onEnd := s.onEnd ++ [listener] }

def addErrorListener (s : Stream σ) (listener : StreamError → σ → σ) : Stream σ :=
  { s with onError := s.onError ++ [listener] }

/-! ### Delivery -/

/-- Ends with everything delivered. -/
def complete (s : Stream σ) : Stream σ :=
  { s.modifyEnv fun env => s.onEnd.foldl (fun env listener => listener env) env with
    phase := .ended }

/-- Ends with an error. -/
def fail (s : Stream σ) (e : StreamError) : Stream σ :=
  { s.modifyEnv fun env => s.onError.foldl (fun env listener => listener e env) env with
    phase := .failed }

/-- Ends the stream where all of the input was delivered. -/
def settle (s : Stream σ) : Stream σ :=
  if s.phase = .finishing && s.tokenizer.isDone then s.complete else s

/-- Delivers tokens until the stream is paused, needs more input or ends. -/
def drain (s : Stream σ) : Except Misuse (Verdict × Stream σ) :=
  if s.isPaused then .ok (.ok (), s)
  else
    match h : s.tokenizer.next with
    | (.error e, tokenizer) => .ok (.error e, { s with tokenizer }.fail e)
    | (.ok none, tokenizer) => .ok (.ok (), { s with tokenizer }.settle)
    | (.ok (some token), tokenizer) =>
      have : tokenizer.remaining < s.tokenizer.remaining := Tokenizer.next_token_lt h
      match s.assembly.accept token with
      | .error misuse => .error misuse
      | .ok assembly => { s with tokenizer, assembly }.drain
  termination_by s.tokenizer.remaining

/-! ### Input and control -/

/-- Takes a chunk of input and delivers every token that it completes. -/
def feed (s : Stream σ) (chunk : Bytes) : Except Misuse (Verdict × Stream σ) :=
  if s.phase = .accepting then
    match s.tokenizer.feed chunk with
    | .error misuse => .error misuse
    | .ok tokenizer => { s with tokenizer }.drain
  else .ok (.error .closed, s)

/-- Signals the end of the input. -/
def finish (s : Stream σ) : Except Misuse (Verdict × Stream σ) :=
  if s.phase = .accepting then
    { s with tokenizer := s.tokenizer.finish, phase := .finishing }.drain
  else .ok (.error .closed, s)

/-- Stops delivery. -/
def pause (s : Stream σ) : Stream σ := { s with assembly := { s.assembly with paused := true } }

/-- Delivers what was kept, and goes on. -/
def resume (s : Stream σ) : Except Misuse (Verdict × Stream σ) :=
  let s := { s with assembly := { s.assembly with paused := false } }
  match s.phase with
  | .accepting | .finishing => s.drain
  | .ended => .ok (.ok (), s)
  | .failed => .ok (.error .closed, s)

/-- Ends the stream with an error from elsewhere, unless it has failed already. -/
def abort (s : Stream σ) (e : StreamError) : Stream σ := if s.phase = .failed then s else s.fail e

end Stream

end XmlSieve
