import XmlSieve.Proofs.Element.Reference

/-!
# Children under their final names

An `Offspring` is a child element that has ended, with the name under which its slot was reserved
when it opened: listeners may have renamed it since.  `Offspring.stored` is what a parent holds of
its children, one after the other.  A slot that was reserved for just the children that ended under
its name has of these what can be expected (`Keeps`): their values in their order, where a value is
kept until a child that is not collected takes the slot (`keeps_stored`).  If this is so of all
children, the keys are their names (`names_stored`).
-/

namespace XmlSieve

/-- A child element that has ended. -/
structure Offspring where
  /-- The names from the root to it, as they were in the document. -/
  path : List String
  /-- The name under which its slot was reserved. -/
  reserved : String
  /-- The element as it was stored. -/
  element : Element

namespace Offspring

variable {collects : List String → Bool} {kids : List Offspring} {children : Entries (Slot Element)}

/-- The value of the child, as its parent holds it. -/
def value (c : Offspring) : Content Element := c.element.toContent

/-- Those of a name among children. -/
def named (name : String) (kids : List Offspring) : List Offspring :=
  kids.filter fun c => c.element.name = name

/-- The children of an element after one of them opened. -/
def reserve (name : String) (collect : Bool) (children : Entries (Slot Element)) :
    Entries (Slot Element) :=
  Entries.insert name (Element.reserve (Entries.get? name children) collect) children

/-- The children of an element after one of them ended. -/
def settle (name : String) (collect : Bool) (value : Content Element)
    (children : Entries (Slot Element)) : Entries (Slot Element) :=
  Entries.insert name (Element.settle (Entries.get? name children) collect value) children

/-- The children of an element after `c` opened and ended. -/
def store (collects : List String → Bool) (children : Entries (Slot Element)) (c : Offspring) :
    Entries (Slot Element) :=
  settle c.element.name (collects c.path) c.value (reserve c.reserved (collects c.path) children)

/-- What an element holds of its children. -/
def stored (collects : List String → Bool) (kids : List Offspring) : Entries (Slot Element) :=
  kids.foldl (store collects) []

theorem stored_concat (collects : List String → Bool) (kids : List Offspring) (c : Offspring) :
    stored collects (kids ++ [c]) = store collects (stored collects kids) c := by
  rw [stored, List.foldl_append]
  rfl

/-- What a slot has of the children `kids`, if it is the slot of `name` and was reserved for just those
that ended under this name. -/
structure Keeps (slot : Option (Slot Element)) (collects : List String → Bool) (name : String)
    (kids : List Offspring) : Prop where
  /-- There is a slot if there is a child of the name. -/
  present : slot.isSome = true ↔ ∃ c ∈ kids, c.element.name = name
  /-- The values in the slot are values of children of the name, in their order. -/
  values : ∀ found, slot = some found → found.values.Sublist ((named name kids).map value)
  /-- A child of the name and those that followed are kept, if all of the latter are collected. -/
  kept : ∀ before c after, kids = before ++ c :: after → c.element.name = name →
    (∀ d ∈ after, d.element.name = name → collects d.path = true) →
    ∃ found, slot = some found ∧ ((named name (c :: after)).map value).IsSuffix found.values

/-- The slot of a name after a child that was reserved under this name has ended. -/
def gain (slot : Option (Slot Element)) (collect : Bool) (value : Content Element) :
    Slot Element :=
  if collect then .many ((slot.map Slot.values).getD [] ++ [value]) else .one value

theorem settle_reserve (slot : Option (Slot Element)) (collect : Bool) (value : Content Element) :
    Element.settle (some (Element.reserve slot collect)) collect value =
      gain slot collect value := by
  cases collect with
  | false => rfl
  | true => simp [Element.settle, Element.reserve, gain]

theorem values_gain (slot : Option (Slot Element)) (collect : Bool) (value : Content Element) :
    (gain slot collect value).values =
      (if collect then (slot.map Slot.values).getD [] else []) ++ [value] := by
  cases collect <;> simp [gain, Slot.values]

/-- A child that ended under the name of its slot is added to this slot or replaces what was in it. -/
theorem store_of_eq {c : Offspring} (h : c.reserved = c.element.name)
    (children : Entries (Slot Element)) :
    store collects children c =
      Entries.insert c.element.name
        (gain (Entries.get? c.element.name children) (collects c.path) c.value) children := by
  rw [store, settle, reserve, h, Element.get?_insert_self, Element.insert_insert, settle_reserve]

/-- A child leaves the slots of other names alone. -/
theorem get?_store_of_ne {c : Offspring} {name : String} (hreserved : c.reserved ≠ name)
    (hname : c.element.name ≠ name) (children : Entries (Slot Element)) :
    Entries.get? name (store collects children c) = Entries.get? name children := by
  rw [store, settle, reserve, Entries.get?_insert_of_ne (Ne.symm hname),
    Entries.get?_insert_of_ne (Ne.symm hreserved)]

theorem named_concat (name : String) (kids : List Offspring) (c : Offspring) :
    named name (kids ++ [c]) = named name kids ++ if c.element.name = name then [c] else [] := by
  rw [named, List.filter_append, named]
  by_cases h : c.element.name = name <;> simp [h]

section Concat

variable {slot : Option (Slot Element)} {name : String} {c : Offspring}

/-- One more child of the name. -/
theorem Keeps.concat (h : Keeps slot collects name kids) (hname : c.element.name = name) :
    Keeps (some (gain slot (collects c.path) c.value)) collects name (kids ++ [c]) := by
  have hnamed : named name (kids ++ [c]) = named name kids ++ [c] := by
    rw [named_concat, if_pos hname]
  refine ⟨iff_of_true rfl ⟨c, by simp, hname⟩, fun found hfound => ?_,
    fun before d after hkids hd hafter => ⟨_, rfl, ?_⟩⟩
  · cases hfound
    rw [values_gain, hnamed, List.map_append]
    refine List.Sublist.append ?_ (.refl _)
    cases collects c.path with
    | false => exact List.nil_sublist _
    | true =>
      cases hslot : slot with
      | none => exact List.nil_sublist _
      | some old => exact h.values old hslot
  · rw [values_gain]
    rcases List.eq_nil_or_concat' after with rfl | ⟨after, last, rfl⟩
    · -- The child that is kept is the new one.
      obtain ⟨-, hlast⟩ := List.append_inj' hkids rfl
      cases hlast
      simp [named, hd]
    · rw [← List.cons_append, ← List.append_assoc] at hkids
      obtain ⟨hbefore, hlast⟩ := List.append_inj' hkids rfl
      cases hlast
      obtain ⟨found, hfound, front, hfront⟩ := h.kept before d after hbefore hd
        fun e he => hafter e (by simp [he])
      refine ⟨front, ?_⟩
      rw [← List.cons_append, named_concat, if_pos hname, List.map_append, ← List.append_assoc,
        hfront, hafter c (by simp) hname, hfound]
      rfl

/-- One more child of another name. -/
theorem Keeps.concat_of_ne (h : Keeps slot collects name kids) (hname : c.element.name ≠ name) :
    Keeps slot collects name (kids ++ [c]) := by
  refine ⟨h.present.trans ?_, fun found hfound => ?_, fun before d after hkids hd hafter => ?_⟩
  · simp [or_and_right, exists_or, hname]
  · rw [named_concat, if_neg hname, List.append_nil]
    exact h.values found hfound
  · rcases List.eq_nil_or_concat' after with rfl | ⟨after, last, rfl⟩
    · obtain ⟨-, hlast⟩ := List.append_inj' hkids rfl
      cases hlast
      exact absurd hd hname
    · rw [← List.cons_append, ← List.append_assoc] at hkids
      obtain ⟨hbefore, hlast⟩ := List.append_inj' hkids rfl
      cases hlast
      rw [← List.cons_append, named_concat, if_neg hname, List.append_nil]
      exact h.kept before d after hbefore hd fun e he => hafter e (by simp [he])

end Concat

/-- What an element holds of its children in a slot that was reserved for just those of its name. -/
theorem keeps_stored {name : String} (h : ∀ c ∈ kids, c.reserved = name ↔ c.element.name = name) :
    Keeps (Entries.get? name (stored collects kids)) collects name kids := by
  induction kids using List.reverseRecOn with
  | nil => exact ⟨by simp [stored, Entries.get?], by simp [stored, Entries.get?], by simp⟩
  | append_singleton kids c ih =>
    obtain ⟨hkids, hc⟩ := List.forall_mem_append.1 h
    have hfirst := hc c (by simp)
    rw [stored_concat]
    by_cases hname : c.element.name = name
    · rw [store_of_eq ((hfirst.2 hname).trans hname.symm), hname, Element.get?_insert_self]
      exact (ih hkids).concat hname
    · rw [get?_store_of_ne (mt hfirst.1 hname) hname]
      exact (ih hkids).concat_of_ne hname

/-- The keys of an element are the names of its children, in the order in which these first occurred,
if all of them ended under the names of their slots. -/
theorem names_stored (h : ∀ c ∈ kids, c.reserved = c.element.name) :
    (stored collects kids).names = (kids.map (·.element.name)).eraseDups := by
  induction kids using List.reverseRecOn with
  | nil => rfl
  | append_singleton kids c ih =>
    obtain ⟨hkids, hc⟩ := List.forall_mem_append.1 h
    rw [stored_concat, store_of_eq (hc c (by simp)), Entries.names_insert, ih hkids,
      List.map_append, List.map_singleton, eraseDups_concat]
    simp only [List.mem_eraseDups]

end Offspring

end XmlSieve
