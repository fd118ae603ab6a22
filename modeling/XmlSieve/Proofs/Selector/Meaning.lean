import Mathlib.Tactic.Common
import XmlSieve.Selector.Basic

/-!
# What selectors mean

A selector is a list of steps, each of which leads to an element of its name: an adjacent step to a
child, any other step to a descendant.  `Selector.Matches` says which paths of names, from the root
to an element, its steps lead along.
-/

namespace XmlSieve

/-- A step to an element of this name. -/
structure Step where
  /-- Whether the element is on the next level. -/
  adjacent : Bool
  name : String
  deriving DecidableEq, Repr

namespace Step

/-- The steps that parts describe, where `adjacent` says whether `>` stood before them.  A `>` that
no name follows describes nothing. -/
def ofParts (adjacent : Bool) : List Part → List Step
  | [] => []
  | .child :: parts => ofParts true parts
  | .name name :: parts => ⟨adjacent, name⟩ :: ofParts false parts

/-- The steps lead along the path: each passes over some levels, or over none if it is adjacent, to
an element of its name, and the last element is the end of the path. -/
inductive Leads : List Step → List String → Prop where
  | nil : Leads [] []
  | cons {step : Step} {steps : List Step} {passed path : List String}
      (adjacent : step.adjacent = true → passed = []) (rest : Leads steps path) :
      Leads (step :: steps) (passed ++ step.name :: path)

variable {step : Step} {steps : List Step} {name : String} {path : List String}

theorem leads_nil : Leads [] path ↔ path = [] := by
  constructor
  · rintro ⟨⟩
    rfl
  · rintro rfl
    exact .nil

theorem not_leads_nil : ¬ Leads (step :: steps) [] := by
  intro h
  generalize hpath : ([] : List String) = path at h
  cases h with
  | cons _ _ => simp at hpath

/-- The first level is the element of the first step, or it is passed over. -/
theorem leads_cons :
    Leads (step :: steps) (name :: path) ↔
      (name = step.name ∧ Leads steps path) ∨
        (step.adjacent = false ∧ Leads (step :: steps) path) := by
  constructor
  · intro h
    generalize hpath : name :: path = path' at h
    cases h with
    | @cons _ _ passed rest adjacent hrest =>
      cases passed with
      | nil =>
        cases hpath
        exact .inl ⟨rfl, hrest⟩
      | cons n passed =>
        cases hpath
        have hfar : step.adjacent = false := by
          rw [Bool.eq_false_iff]
          exact fun h => absurd (adjacent h) (by simp)
        exact .inr ⟨hfar, .cons (by simp [hfar]) hrest⟩
  · rintro (⟨rfl, h⟩ | ⟨hfar, h⟩)
    · exact @Leads.cons _ _ [] _ (fun _ => rfl) h
    · generalize hsteps : step :: steps = steps' at h
      cases h with
      | nil => cases hsteps
      | @cons _ _ passed rest adjacent hrest =>
        cases hsteps
        exact @Leads.cons _ _ (name :: passed) _ (by simp [hfar]) hrest

/-- Whether the steps lead along the path. -/
def leads : List Step → List String → Bool
  | [], path => path.isEmpty
  | _ :: _, [] => false
  | step :: steps, name :: path =>
    (name == step.name && leads steps path) || (!step.adjacent && leads (step :: steps) path)

theorem leads_iff (steps : List Step) (path : List String) :
    leads steps path = true ↔ Leads steps path := by
  fun_induction leads steps path with
  | case1 path => simp [leads_nil]
  | case2 step steps => simp [not_leads_nil]
  | case3 step steps name path ih₁ ih₂ => simp [leads_cons, ih₁, ih₂]

instance (steps : List Step) (path : List String) : Decidable (Leads steps path) :=
  decidable_of_iff _ (leads_iff steps path)

end Step

namespace Selector

/-- The steps of a selector. -/
def steps (s : Selector) : List Step := Step.ofParts false s.parts

/-- Whether the selector matches an element, given the names from the root to it. -/
def Matches (s : Selector) (path : List String) : Prop :=
  s.isEmpty = true ∨ Step.Leads s.steps path

instance (s : Selector) (path : List String) : Decidable (s.Matches path) :=
  inferInstanceAs (Decidable (_ ∨ _))

end Selector

end XmlSieve
