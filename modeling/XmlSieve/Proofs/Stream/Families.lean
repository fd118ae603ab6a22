import XmlSieve.Proofs.Element.Offspring
import XmlSieve.Proofs.Stream.Assembled

/-!
# Families

Listeners may rename elements whenever they are told of them.  To say what becomes of the children
then, `Assembly.families` goes through a document along with an assembly and notes, for every element
that ends, how it was stored and which child elements had ended in it before: a `Family`.  Families
are the elements of the document that end, with their child elements (`families_outline`), whatever
these are named.
-/

namespace XmlSieve

variable {σ : Type}

/-! ### Families -/

/-- An element that is open. -/
structure Household where
  /-- Its name in the document. -/
  name : String
  /-- The name under which its slot was reserved. -/
  reserved : String
  /-- Its child elements that have ended. -/
  kids : List Offspring := []

/-- An element that has ended, with its child elements. -/
structure Family where
  parent : Offspring
  kids : List Offspring

namespace Household

/-- The names from the root to the innermost open element, which is the first of `houses`. -/
def path (houses : List Household) : List String := (houses.map (·.name)).reverse

theorem path_cons (house : Household) (houses : List Household) :
    path (house :: houses) = path houses ++ [house.name] := by
  simp [path]

/-- The open elements after one inside of them has ended. -/
def adopt (child : Offspring) : List Household → List Household
  | [] => []
  | house :: outer => { house with kids := house.kids ++ [child] } :: outer

theorem names_adopt (child : Offspring) (houses : List Household) :
    (adopt child houses).map (·.name) = houses.map (·.name) := by
  cases houses <;> rfl

theorem path_adopt (child : Offspring) (houses : List Household) :
    path (adopt child houses) = path houses := congrArg List.reverse (names_adopt child houses)

end Household

namespace Assembly

/-- The innermost open element as the effects of its end tag leave it. -/
def leaving (a : Assembly σ) : Element :=
  match a.frames, a.automaton.active with
  | frame :: outer, set :: sets => (a.runEnd frame outer set sets).2.element
  | _, _ => {}

/-- The family of the element that a token ends, if it ends one, and the open elements after it. -/
def regroup (a : Assembly σ) (houses : List Household) : Token → List Family × List Household
  | .startTag name attributes =>
    ([], { name, reserved := (a.runStart name attributes).2.element.name } :: houses)
  | .text _ => ([], houses)
  | .endTag _ =>
    match houses with
    | [] => ([], [])
    | house :: outer =>
      let child := ⟨Household.path (house :: outer), house.reserved, a.leaving⟩
      ([⟨child, house.kids⟩], Household.adopt child outer)

/-- The families of the elements that end in tokens, where those in `houses` are open before. -/
def families (a : Assembly σ) (houses : List Household) : List Token → List Family
  | [] => []
  | token :: tokens =>
    (a.regroup houses token).1 ++
      match a.accept token with
      | .ok b => b.families (a.regroup houses token).2 tokens
      | .error _ => []

theorem families_cons {a b : Assembly σ} {token : Token} (h : a.accept token = .ok b)
    (houses : List Household) (tokens : List Token) :
    a.families houses (token :: tokens) =
      (a.regroup houses token).1 ++ b.families (a.regroup houses token).2 tokens := by
  rw [families, h]

end Assembly

namespace Node

/-- The paths of the child elements in the content of an element at `path`. -/
def childPaths (path : List String) (content : List Node) : List (List String) :=
  content.filterMap fun
    | .text _ => none
    | .element name _ _ => some (path ++ [name])

/-- The content of a node. -/
def content : Node → List Node
  | .text _ => []
  | .element _ _ content => content

end Node

namespace Household

/-- The paths of open elements and of their children that have ended. -/
def outline : List Household → List (List String × List (List String))
  | [] => []
  | house :: outer => (path (house :: outer), house.kids.map (·.path)) :: outline outer

end Household

/-- The paths of the elements of a family. -/
def Family.outline (f : Family) : List String × List (List String) :=
  (f.parent.path, f.kids.map (·.path))

/-- The paths of open branches and of the elements that have ended in them. -/
def Branch.outline : List Branch → List (List String × List (List String))
  | [] => []
  | b :: stack =>
    (path (b :: stack), Node.childPaths (path (b :: stack)) b.content) :: outline stack

namespace Branch

variable {stack : List Branch} {houses : List Household}

theorem childPaths_concat (path : List String) (content : List Node) (node : Node) :
    Node.childPaths path (content ++ [node]) =
      Node.childPaths path content ++ Node.childPaths path [node] := by
  rw [Node.childPaths, List.filterMap_append, Node.childPaths, Node.childPaths]

/-- Households and branches of one outline are as many, and the innermost of them have one path and
children at the same paths. -/
theorem outline_cases (h : Household.outline houses = outline stack) :
    (houses = [] ∧ stack = []) ∨ ∃ house outer b branches,
      houses = house :: outer ∧ stack = b :: branches ∧
      Household.path (house :: outer) = path (b :: branches) ∧
      house.kids.map (·.path) = Node.childPaths (path (b :: branches)) b.content ∧
      Household.outline outer = outline branches := by
  cases houses with
  | nil =>
    cases stack with
    | nil => exact .inl ⟨rfl, rfl⟩
    | cons b stack => cases h
  | cons house houses =>
    cases stack with
    | nil => cases h
    | cons b stack =>
      obtain ⟨hhead, htail⟩ := List.cons.inj h
      obtain ⟨hpath, hkids⟩ := Prod.mk.inj hhead
      exact .inr ⟨house, houses, b, stack, rfl, rfl, hpath, hkids, htail⟩

theorem path_of_outline (h : Household.outline houses = outline stack) :
    Household.path houses = path stack := by
  rcases outline_cases h with ⟨rfl, rfl⟩ | ⟨house, outer, b, branches, rfl, rfl, hpath, -⟩
  · rfl
  · exact hpath

theorem outline_add_text (chunk : String) (stack : List Branch) :
    outline (add (.text chunk) stack) = outline stack := by
  cases stack with
  | nil => rfl
  | cons b stack =>
    have hpath := path_add (.text chunk) (b :: stack)
    rw [add] at hpath ⊢
    rw [outline, hpath, childPaths_concat, outline]
    simp [Node.childPaths]

theorem outline_adopt (h : Household.outline houses = outline stack) (b : Branch)
    (child : Offspring) (hchild : child.path = path (b :: stack)) :
    Household.outline (Household.adopt child houses) = outline (add b.node stack) := by
  rcases outline_cases h with
    ⟨rfl, rfl⟩ | ⟨house, outer, b', branches, rfl, rfl, hpath, hkids, htail⟩
  · rfl
  · have hadopt := Household.path_adopt child (house :: outer)
    have hadd := path_add b.node (b' :: branches)
    rw [Household.adopt] at hadopt ⊢
    rw [add] at hadd ⊢
    rw [Household.outline, outline, hadopt, hadd, hpath, htail, List.map_append, hkids,
      childPaths_concat, List.map_singleton, hchild, path_cons b]
    rfl

end Branch

namespace Assembly

open Branch

variable {a b : Assembly σ} {houses : List Household} {stack : List Branch} {token : Token}
  {tokens : List Token}

/-- Families are the elements that end in the document, each with its child elements. -/
theorem families_outline (h : Household.outline houses = Branch.outline stack)
    (hb : a.acceptAll tokens = .ok b) :
    (a.families houses tokens).map Family.outline =
      (closings stack tokens).map fun (path, node) => (path, Node.childPaths path node.content) := by
  induction tokens generalizing a houses stack with
  | nil => rfl
  | cons token tokens ih =>
    obtain ⟨c, hc, hrest⟩ := exists_of_bind_eq_ok hb
    rw [families_cons hc, List.map_append]
    cases token with
    | startTag name attributes =>
      have hpath := path_of_outline h
      have hnext : Household.outline (a.regroup houses (.startTag name attributes)).2 =
          Branch.outline ({ name, attributes } :: stack) := by
        simp only [regroup, Household.outline, Branch.outline, h, Household.path_cons, path_cons,
          hpath]
        rfl
      exact ih hnext hrest
    | text chunk => exact ih (h.trans (outline_add_text chunk stack).symm) hrest
    | endTag name =>
      rcases outline_cases h with
        ⟨rfl, rfl⟩ | ⟨house, outer, b', branches, rfl, rfl, hpath, hkids, htail⟩
      · exact ih rfl hrest
      · rw [closings, List.map_append]
        refine congrArg₂ (· ++ ·) ?_ (ih (outline_adopt htail b' _ hpath) hrest)
        simp only [regroup, List.map_singleton, Family.outline, hpath, hkids]
        rfl

end Assembly

end XmlSieve
