import XmlSieve.Bytes

/-!
# Sources

A `Source` is where a reader gets its bytes from: a list of what the reads will meet.  A read never
crosses from one piece of data into the next, and an empty piece reads as the end of the input.
-/

namespace XmlSieve

/-- Something that reads from a source will meet. -/
inductive Supply where
  | data (bytes : Bytes)
  /-- A read is interrupted and may be tried again. -/
  | interrupted
  /-- A read fails for good. -/
  | failure (reason : String)
  deriving DecidableEq, Repr

/-- What one read gave. -/
inductive ReadResult where
  /-- These bytes; none at the end of the input. -/
  | data (bytes : Bytes)
  | interrupted
  | failure (reason : String)
  deriving DecidableEq, Repr

structure Source where
  /-- What is left of the piece of data that is being read. -/
  current : Bytes := []
  supplies : List Supply := []
  deriving DecidableEq, Repr, Inhabited

namespace Source

/-- Gives at most `size` bytes of `piece` and keeps the rest. -/
def serve (size : Nat) (piece : Bytes) (supplies : List Supply) : ReadResult × Source :=
  (.data (piece.take size), { current := piece.drop size, supplies })

/-- Reads at most `size` bytes. -/
def read (size : Nat) (s : Source) : ReadResult × Source :=
  if s.current.isEmpty then
    match s.supplies with
    | [] => (.data [], s)
    | .data piece :: rest => serve size piece rest
    | .interrupted :: rest => (.interrupted, { s with supplies := rest })
    | .failure reason :: rest => (.failure reason, { s with supplies := rest })
  else serve size s.current s.supplies

/-! ### Reading uses the source up -/

/-- How much there is to one supply. -/
def Supply.weight : Supply → Nat
  | .data bytes => bytes.length + 1
  | .interrupted | .failure _ => 1

/-- How much there is to supplies. -/
def suppliesWeight : List Supply → Nat
  | [] => 0
  | supply :: rest => Supply.weight supply + suppliesWeight rest

/-- How much is left. -/
def weight (s : Source) : Nat := s.current.length + suppliesWeight s.supplies

theorem weight_serve_lt {size : Nat} {piece bytes : Bytes} {supplies : List Supply} {s : Source}
    (hb : bytes ≠ []) (h : serve size piece supplies = (.data bytes, s)) :
    s.weight < piece.length + suppliesWeight supplies := by
  simp only [serve, Prod.mk.injEq, ReadResult.data.injEq] at h
  obtain ⟨rfl, rfl⟩ := h
  have hpos := List.length_pos_iff.2 hb
  simp only [List.length_take] at hpos
  simp only [weight, List.length_drop]
  omega

theorem weight_read_interrupted {size : Nat} {s t : Source}
    (h : s.read size = (.interrupted, t)) : t.weight < s.weight := by
  unfold read at h
  split at h
  · split at h
    · simp at h
    · simp [serve] at h
    · next hs =>
      simp only [Prod.mk.injEq, true_and] at h
      rw [← h]
      simp [weight, hs, suppliesWeight, Supply.weight]
    · simp at h
  · simp [serve] at h

theorem weight_read_data {size : Nat} {s t : Source} {bytes : Bytes} (hb : bytes ≠ [])
    (h : s.read size = (.data bytes, t)) : t.weight < s.weight := by
  unfold read at h
  split at h
  · next hc =>
    split at h
    · simp only [Prod.mk.injEq, ReadResult.data.injEq] at h
      exact absurd h.1.symm hb
    · next piece rest hs =>
      have := weight_serve_lt hb h
      simp only [weight, hs, suppliesWeight, Supply.weight] at this ⊢
      omega
    · simp at h
    · simp at h
  · exact weight_serve_lt hb h

end Source

end XmlSieve
