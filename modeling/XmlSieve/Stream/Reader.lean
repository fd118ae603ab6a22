import XmlSieve.Stream.Basic
import XmlSieve.Stream.Source

/-!
# Readers

A `Reader` feeds a stream from a source (`Reader.run`) until the source is exhausted or the stream
is paused.  `Reader.resume` first delivers what the stream has kept, and reads on only if nothing
paused it again.
-/

namespace XmlSieve

structure Reader (σ : Type) where
  source : Source
  stream : Stream σ
  /-- How many bytes one read asks for. -/
  chunkSize : Nat
  /-- Whether the end of the source was met. -/
  atEnd : Bool := false

namespace Reader

variable {σ : Type}

/-- The number of bytes one read asks for unless told otherwise. -/
def defaultChunkSize : Nat := 8192

/-- A reader for `stream`; it asks for at least one byte. -/
def create (source : Source) (stream : Stream σ) (chunkSize : Nat) : Reader σ :=
  { source, stream, chunkSize := max chunkSize 1 }

def isPaused (r : Reader σ) : Bool := r.stream.isPaused

/-- Reads and feeds until the source is exhausted, the stream is paused or it ends. -/
def run (r : Reader σ) : Except Misuse (Verdict × Reader σ) :=
  if r.atEnd || r.isPaused then .ok (.ok (), r)
  else
    match h : r.source.read r.chunkSize with
    | (.interrupted, source) =>
      have : source.weight < r.source.weight := Source.weight_read_interrupted h
      { r with source }.run
    | (.failure reason, source) =>
      .ok (.error (.readFailed reason),
        { r with source, stream := r.stream.abort (.readFailed reason) })
    | (.data [], source) =>
      match r.stream.finish with
      | .error misuse => .error misuse
      | .ok (verdict, stream) => .ok (verdict, { r with source, stream, atEnd := true })
    | (.data (b :: bytes), source) =>
      have : source.weight < r.source.weight := Source.weight_read_data (List.cons_ne_nil b bytes) h
      match r.stream.feed (b :: bytes) with
      | .error misuse => .error misuse
      | .ok (.error e, stream) => .ok (.error e, { r with source, stream })
      | .ok (.ok (), stream) => { r with source, stream }.run
  termination_by r.source.weight

def pause (r : Reader σ) : Reader σ := { r with stream := r.stream.pause }

/-- Delivers what the stream has kept, then reads on unless it is paused again. -/
def resume (r : Reader σ) : Except Misuse (Verdict × Reader σ) :=
  match r.stream.resume with
  | .error misuse => .error misuse
  | .ok (.error e, stream) => .ok (.error e, { r with stream })
  | .ok (.ok (), stream) =>
    if stream.isPaused then .ok (.ok (), { r with stream }) else { r with stream }.run

end Reader

end XmlSieve
