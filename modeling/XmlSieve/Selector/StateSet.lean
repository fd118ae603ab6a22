/-!
# Sets of states

A `StateSet` is a finite set of automaton states.  It is kept in ascending order without repetition,
so that equal sets are equal lists and a walk over a set has one order.
-/

namespace XmlSieve

/-- A state of the selector automaton. -/
abbrev StateId := Nat

/-- Puts `s` in its place in an ascending list, unless it is there. -/
def insertAscending (s : Nat) : List Nat → List Nat
  | [] => [s]
  | t :: ts =>
    if s < t then s :: t :: ts
    else if s = t then t :: ts
    else t :: insertAscending s ts

theorem mem_insertAscending {s u : Nat} {ts : List Nat} :
    u ∈ insertAscending s ts ↔ u = s ∨ u ∈ ts := by
  induction ts with
  | nil => simp [insertAscending]
  | cons t ts ih =>
    simp only [insertAscending]
    split
    · simp
    · split
      · next h => simp [h]
      · simp only [List.mem_cons, ih]
        exact ⟨fun h => h.elim (fun h => .inr (.inl h)) fun h => h.imp_right .inr,
          fun h => h.elim (fun h => .inr (.inl h)) fun h => h.imp_right .inr⟩

theorem pairwise_insertAscending {s : Nat} {ts : List Nat}
    (h : ts.Pairwise (· < ·)) : (insertAscending s ts).Pairwise (· < ·) := by
  induction ts with
  | nil => simp [insertAscending]
  | cons t ts ih =>
    obtain ⟨ht, hts⟩ := List.pairwise_cons.1 h
    simp only [insertAscending]
    split
    · next hst =>
      refine List.pairwise_cons.2 ⟨fun u hu => ?_, h⟩
      rcases List.mem_cons.1 hu with rfl | hu
      · exact hst
      · exact Nat.lt_trans hst (ht u hu)
    · split
      · exact h
      · next h₁ h₂ =>
        refine List.pairwise_cons.2 ⟨fun u hu => ?_, ih hts⟩
        rcases mem_insertAscending.1 hu with rfl | hu
        · omega
        · exact ht u hu

/-- A finite set of states. -/
structure StateSet where
  toList : List StateId := []
  ascending : toList.Pairwise (· < ·) := by simp
  deriving DecidableEq

namespace StateSet

instance : EmptyCollection StateSet := ⟨{}⟩

instance : Inhabited StateSet := ⟨∅⟩

instance : Membership StateId StateSet := ⟨fun set s => s ∈ set.toList⟩

def contains (set : StateSet) (s : StateId) : Bool := set.toList.contains s

def isEmpty (set : StateSet) : Bool := set.toList.isEmpty

def size (set : StateSet) : Nat := set.toList.length

def insert (set : StateSet) (s : StateId) : StateSet :=
  ⟨insertAscending s set.toList, pairwise_insertAscending set.ascending⟩

def ofList (states : List StateId) : StateSet := states.foldl insert ∅

end StateSet

end XmlSieve
