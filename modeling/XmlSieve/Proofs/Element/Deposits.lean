import XmlSieve.Proofs.Element.Offspring

/-!
# Children stored one after the other

A `Deposit` is a child that opens and closes under one name: its slot is reserved and then settled
with its value.  Each of the children of an element may or may not be collected, also among those of
one name.  What is in a slot after all of them is the fold of `Offspring.gain` over the children of
its name (`slot?_keepAll`); the keys stay where they first occurred (`names_keepAll`); and of what
was reserved nothing is left: the values in a slot are the latest of those that were there and those
that were stored (`Deposit.valuesIn_foldl_suffix`).
-/

namespace XmlSieve

/-- A child that opens and closes: its name, whether it is collected, and its value. -/
structure Deposit where
  name : String
  collect : Bool
  value : Content Element

/-- The values in a slot, of which there are none where there is no slot. -/
def Slot.valuesIn (slot : Option (Slot Element)) : List (Content Element) :=
  (slot.map Slot.values).getD []

namespace Deposit

/-- The slot of the child's name after the child, by what was in it before. -/
def addTo (slot : Option (Slot Element)) (d : Deposit) : Option (Slot Element) :=
  some (Offspring.gain slot d.collect d.value)

/-- Those of a name. -/
def named (name : String) (deposits : List Deposit) : List Deposit :=
  deposits.filter (·.name = name)

theorem valuesIn_addTo (slot : Option (Slot Element)) (d : Deposit) :
    Slot.valuesIn (addTo slot d) =
      (if d.collect then Slot.valuesIn slot else []) ++ [d.value] :=
  Offspring.values_gain slot d.collect d.value

theorem named_concat (name : String) (deposits : List Deposit) (d : Deposit) :
    named name (deposits ++ [d]) = named name deposits ++ if d.name = name then [d] else [] := by
  rw [named, List.filter_append, named]
  by_cases h : d.name = name <;> simp [h]

/-- The values in a slot are the latest of those that were there and those that were added. -/
theorem valuesIn_foldl_suffix (slot : Option (Slot Element)) (deposits : List Deposit) :
    Slot.valuesIn (deposits.foldl addTo slot) <:+ Slot.valuesIn slot ++ deposits.map (·.value) := by
  induction deposits using List.reverseRecOn with
  | nil => simp
  | append_singleton deposits d ih =>
    rw [List.foldl_concat, valuesIn_addTo, List.map_append, List.map_singleton, ← List.append_assoc]
    cases d.collect with
    | true => exact List.suffix_append_self_iff.2 ih
    | false => exact List.suffix_append_self_iff.2 (List.nil_suffix)

end Deposit

namespace Element

/-- Stores a child: it opens, and it closes with its value. -/
def keep (e : Element) (d : Deposit) : Element :=
  (e.openChild d.name d.collect).closeChild d.name d.collect d.value

/-- Stores children one after the other. -/
def keepAll (e : Element) (deposits : List Deposit) : Element := deposits.foldl keep e

theorem keepAll_concat (e : Element) (deposits : List Deposit) (d : Deposit) :
    e.keepAll (deposits ++ [d]) = (e.keepAll deposits).keep d :=
  List.foldl_concat ..

/-- What was reserved for a child is what its value takes the place of. -/
theorem keep_eq (e : Element) (d : Deposit) :
    e.keep d = { e with
      children := Entries.insert d.name (Offspring.gain (e.slot? d.name) d.collect d.value)
        e.children } := by
  simp only [keep, openChild, closeChild, slot?, get?_insert_self, insert_insert,
    Offspring.settle_reserve]

theorem slot?_keep (e : Element) (d : Deposit) (name : String) :
    (e.keep d).slot? name =
      if d.name = name then Deposit.addTo (e.slot? name) d else e.slot? name := by
  rw [keep_eq]
  split
  · next h =>
    subst h
    exact get?_insert_self ..
  · next h => exact Entries.get?_insert_of_ne (Ne.symm h)

/-- A slot has what the children of its name leave in it; those of other names do not touch it. -/
theorem slot?_keepAll (e : Element) (deposits : List Deposit) (name : String) :
    (e.keepAll deposits).slot? name =
      (Deposit.named name deposits).foldl Deposit.addTo (e.slot? name) := by
  induction deposits using List.reverseRecOn with
  | nil => rfl
  | append_singleton deposits d ih =>
    rw [keepAll_concat, slot?_keep, ih, Deposit.named_concat]
    split
    · rw [List.foldl_concat]
    · rw [List.append_nil]

/-- The keys that were there stay first; the others follow in the order in which they occur. -/
theorem names_keepAll (e : Element) (deposits : List Deposit) :
    Entries.names (e.keepAll deposits).children =
      Entries.names e.children ++
        ((deposits.map (·.name)).filter (· ∉ Entries.names e.children)).eraseDups := by
  induction deposits using List.reverseRecOn with
  | nil => simp [keepAll]
  | append_singleton deposits d ih =>
    rw [keepAll_concat, keep_eq, Entries.names_insert, ih, List.map_append, List.map_singleton,
      List.filter_append]
    by_cases hold : d.name ∈ Entries.names e.children
    · simp [hold]
    · have hnew : [d.name].filter (· ∉ Entries.names e.children) = [d.name] := by simp [hold]
      rw [hnew, eraseDups_concat]
      simp only [List.mem_append, hold, false_or, List.mem_eraseDups]
      split
      · rfl
      · rw [List.append_assoc]

/-- Only the children of an element change. -/
theorem keepAll_children (e : Element) (deposits : List Deposit) :
    { e.keepAll deposits with children := e.children } = e := by
  induction deposits using List.reverseRecOn with
  | nil => cases e; rfl
  | append_singleton deposits d ih =>
    rw [keepAll_concat, keep_eq]
    exact ih

/-- After children were stored one after the other, each collected or not, every slot has what the
children of its name leave in it: one that is collected is added to the values there, any other
replaces them.  The keys that were there stay first, the others follow in the order in which they
first occurred, and nothing but the children changes.  The values in a slot are the latest of those
that were there and those that were stored, so that nothing is left of what was reserved; and a
child that is collected leaves all of them before its own. -/
theorem keepAll_exact (e : Element) (deposits : List Deposit) :
    (∀ name, (e.keepAll deposits).slot? name =
        (deposits.filter (·.name = name)).foldl
          (fun slot d => some (if d.collect then .many (Slot.valuesIn slot ++ [d.value])
            else .one d.value)) (e.slot? name)) ∧
      Entries.names (e.keepAll deposits).children =
        Entries.names e.children ++
          ((deposits.map (·.name)).filter (· ∉ Entries.names e.children)).eraseDups ∧
      { e.keepAll deposits with children := e.children } = e ∧
      (∀ name, Slot.valuesIn ((e.keepAll deposits).slot? name) <:+
        Slot.valuesIn (e.slot? name) ++ (deposits.filter (·.name = name)).map (·.value)) ∧
      ∀ d : Deposit, Slot.valuesIn (((e.keepAll deposits).keep d).slot? d.name) =
        (if d.collect then Slot.valuesIn ((e.keepAll deposits).slot? d.name) else []) ++
          [d.value] := by
  refine ⟨slot?_keepAll e deposits, names_keepAll e deposits, keepAll_children e deposits, ?_, ?_⟩
  · intro name
    rw [slot?_keepAll]
    exact Deposit.valuesIn_foldl_suffix (e.slot? name) (Deposit.named name deposits)
  · intro d
    rw [slot?_keep, if_pos rfl, Deposit.valuesIn_addTo]

/-- A child that is not collected, and two after it that are. -/
example :
    (Element.keepAll {} [⟨"a", false, .text "1"⟩, ⟨"a", true, .text ""⟩, ⟨"b", false, .text "2"⟩,
      ⟨"a", true, .text "3"⟩]).children =
      [("a", .many [.text "1", .text "", .text "3"]), ("b", .one (.text "2"))] := by rfl

end Element

end XmlSieve
