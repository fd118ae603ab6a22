import Mathlib.Data.List.Perm.Basic
import XmlSieve.Host.Term
import XmlSieve.Proofs.Text.Encoding

/-!
# Comparing terms and elements

A host compares maps by their keys and what is under them: `Term.Same` is equality of terms where
the entries of a map may be reordered, at every depth.  `Element.Alike` is equality of elements up
to the order of attributes and of the keys of children, at every depth.  Entries whose keys are told
apart by some property can be compared one after the other (`SameMap.append_iff`), and so can two
elements: this is what `Element.Alike` asks of them.
-/

namespace XmlSieve

namespace Term

/-! ### Terms -/

mutual

/-- Equality of terms; maps are equal if one can be reordered so that it has the same keys as the
other, with equal terms under them. -/
def Same : Term → Term → Prop
  | .atom a, .atom b => a = b
  | .binary a, .binary b => a = b
  | .integer a, .integer b => a = b
  | .list a, .list b => SameAll a b
  | .tuple a, .tuple b => SameAll a b
  | .map a, .map b => ∃ reordered, reordered.Perm b ∧ SameEntries a reordered
  | .session a, .session b => a = b
  | _, _ => False

/-- Equality of terms, one by one. -/
def SameAll : List Term → List Term → Prop
  | [], [] => True
  | s :: ss, t :: ts => Same s t ∧ SameAll ss ts
  | _, _ => False

/-- Equality of entries, one by one. -/
def SameEntries : List (Bytes × Term) → List (Bytes × Term) → Prop
  | [], [] => True
  | (key, s) :: ss, (other, t) :: ts => key = other ∧ Same s t ∧ SameEntries ss ts
  | _, _ => False

end

/-- Equality of entries up to their order. -/
def SameMap (a b : List (Bytes × Term)) : Prop :=
  ∃ reordered, reordered.Perm b ∧ SameEntries a reordered

end Term

/-! ### Elements -/

namespace Element

mutual

/-- Equality of elements up to the order of attributes and of the keys of children. -/
def Alike : Element → Element → Prop
  | ⟨name, attributes, children, text, nodes⟩, ⟨name', attributes', children', text', nodes'⟩ =>
    name = name' ∧ attributes.Perm attributes' ∧ text = text' ∧ NodesAlike nodes nodes' ∧
      ∃ reordered, reordered.Perm children' ∧ ChildrenAlike children reordered
  termination_by structural e => e

def NodesAlike : Option (List (Content Element)) → Option (List (Content Element)) → Prop
  | none, none => True
  | some nodes, some nodes' => ContentsAlike nodes nodes'
  | _, _ => False
  termination_by structural e => e

def ChildrenAlike : List (String × Slot Element) → List (String × Slot Element) → Prop
  | [], [] => True
  | (name, slot) :: children, (name', slot') :: children' =>
    name = name' ∧ SlotAlike slot slot' ∧ ChildrenAlike children children'
  | _, _ => False
  termination_by structural e => e

def SlotAlike : Slot Element → Slot Element → Prop
  | .one value, .one value' => ContentAlike value value'
  | .many values, .many values' => ContentsAlike values values'
  | _, _ => False
  termination_by structural e => e

def ContentsAlike : List (Content Element) → List (Content Element) → Prop
  | [], [] => True
  | value :: values, value' :: values' => ContentAlike value value' ∧ ContentsAlike values values'
  | _, _ => False
  termination_by structural e => e

def ContentAlike : Content Element → Content Element → Prop
  | .text text, .text text' => text = text'
  | .element e, .element f => Alike e f
  | _, _ => False
  termination_by structural e => e

end

end Element

namespace Term

variable {a b c d : List (Bytes × Term)}

theorem sameEntries_iff :
    SameEntries a b ↔ List.Forall₂ (fun s t => s.1 = t.1 ∧ Same s.2 t.2) a b := by
  induction a generalizing b with
  | nil => cases b <;> simp [SameEntries]
  | cons s a ih => cases b <;> simp [SameEntries, ih, and_assoc]

namespace SameMap

/-! ### Maps, part by part -/

theorem nil : SameMap [] [] := ⟨[], .refl _, trivial⟩

theorem append (h : SameMap a b) (h' : SameMap c d) : SameMap (a ++ c) (b ++ d) := by
  obtain ⟨r, hr, hs⟩ := h
  obtain ⟨r', hr', hs'⟩ := h'
  refine ⟨r ++ r', hr.append hr', ?_⟩
  rw [sameEntries_iff] at hs hs' ⊢
  exact List.rel_append hs hs'

/-- The entries of some keys are the same if all of them are. -/
theorem filter (p : Bytes → Bool) (h : SameMap a b) :
    SameMap (a.filter fun s => p s.1) (b.filter fun s => p s.1) := by
  obtain ⟨r, hr, hs⟩ := h
  refine ⟨r.filter fun s => p s.1, hr.filter _, ?_⟩
  rw [sameEntries_iff] at hs ⊢
  exact List.rel_filter (fun s t hst => iff_of_eq (congrArg (p · = true) hst.1)) hs

/-- Entries that are told apart by their keys. -/
theorem filter_parts {p : Bytes → Bool} (ha : ∀ s ∈ a, p s.1 = true) (hc : ∀ s ∈ c, p s.1 = false) :
    ((a ++ c).filter fun s => p s.1) = a ∧ ((a ++ c).filter fun s => !p s.1) = c := by
  rw [List.filter_append, List.filter_append, List.filter_eq_self.2 ha,
    List.filter_eq_nil_iff.2 fun s hs => by simp [hc s hs], List.filter_eq_nil_iff.2 fun s hs => by
      simp [ha s hs], List.filter_eq_self.2 fun s hs => by simp [hc s hs]]
  exact ⟨List.append_nil a, List.nil_append c⟩

/-- Entries that are told apart by their keys are compared apart from one another. -/
theorem append_iff (p : Bytes → Bool) (ha : ∀ s ∈ a, p s.1 = true) (hb : ∀ s ∈ b, p s.1 = true)
    (hc : ∀ s ∈ c, p s.1 = false) (hd : ∀ s ∈ d, p s.1 = false) :
    SameMap (a ++ c) (b ++ d) ↔ SameMap a b ∧ SameMap c d := by
  obtain ⟨hfront, hback⟩ := filter_parts ha hc
  obtain ⟨hfront', hback'⟩ := filter_parts hb hd
  constructor
  · intro h
    have hp := h.filter p
    have hq := h.filter fun key => !p key
    rw [hfront, hfront'] at hp
    rw [hback, hback'] at hq
    exact ⟨hp, hq⟩
  · intro h
    exact h.1.append h.2

theorem singleton_iff {key : Bytes} {s t : Term} : SameMap [(key, s)] [(key, t)] ↔ Same s t := by
  constructor
  · rintro ⟨r, hr, hs⟩
    rw [List.perm_singleton.1 hr] at hs
    exact hs.2.1
  · intro h
    exact ⟨_, .refl _, rfl, h, trivial⟩

theorem not_nil_cons {s : Bytes × Term} : ¬ SameMap [] (s :: a) := by
  rintro ⟨r, hr, hs⟩
  cases r with
  | nil => exact absurd hr.length_eq (by simp)
  | cons t r => exact hs

theorem not_cons_nil {s : Bytes × Term} : ¬ SameMap (s :: a) [] := by
  rintro ⟨r, hr, hs⟩
  rw [List.perm_nil.1 hr] at hs
  exact hs

end SameMap

end Term

end XmlSieve
