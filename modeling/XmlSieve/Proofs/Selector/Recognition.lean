import XmlSieve.Proofs.Selector.Meaning
import XmlSieve.Selector.Automaton

/-!
# The automaton recognises selectors

A selector that is compiled adds states of its own, numbered above all that exist, and edges between
these (`addSelector_eq`).  Edges therefore never lead from the states of one selector to those of
another, so that compiling a selector leaves the answers for all others as they were
(`mem_after_addSelector_old`), and its own final state is active after exactly the paths that the
selector matches (`mem_after_addSelector_final`).
-/

namespace XmlSieve

namespace StateSet

theorem mem_insert {set : StateSet} {s t : StateId} : t ∈ set.insert s ↔ t = s ∨ t ∈ set :=
  mem_insertAscending

theorem mem_foldl_insert {states : List StateId} {set : StateSet} {t : StateId} :
    t ∈ states.foldl insert set ↔ t ∈ states ∨ t ∈ set := by
  induction states generalizing set with
  | nil => simp
  | cons s states ih =>
    rw [List.foldl_cons, ih, mem_insert, List.mem_cons]
    tauto

theorem mem_ofList {states : List StateId} {t : StateId} : t ∈ ofList states ↔ t ∈ states := by
  rw [ofList, mem_foldl_insert]
  exact or_iff_left List.not_mem_nil

theorem contains_iff {set : StateSet} {t : StateId} : set.contains t = true ↔ t ∈ set :=
  List.contains_iff_mem

end StateSet

/-! ### Runs -/

/-- Whether an edge can be taken on the name of an element. -/
def Edge.Admits (e : Edge) (name : String) : Prop := e.label = none ∨ e.label = some name

theorem Edge.fires_iff {e : Edge} {set : StateSet} {name : String} :
    e.fires set name = true ↔ e.source ∈ set ∧ e.Admits name := by
  rw [fires, Bool.and_eq_true, StateSet.contains_iff, Admits]
  cases e.label <;> simp

/-- Edges that lead from one state to another along a path. -/
inductive Run (edges : List Edge) : StateId → List String → StateId → Prop where
  | nil (s : StateId) : Run edges s [] s
  | cons {e : Edge} {name : String} {path : List String} {t : StateId} (mem : e ∈ edges)
      (admits : e.Admits name) (rest : Run edges e.target path t) :
      Run edges e.source (name :: path) t

namespace Run

variable {edges edges' : List Edge} {s t n : StateId} {name : String} {path : List String}

theorem nil_iff : Run edges s [] t ↔ t = s := by
  constructor
  · rintro ⟨⟩
    rfl
  · rintro rfl
    exact .nil _

theorem cons_iff : Run edges s (name :: path) t ↔
    ∃ e ∈ edges, e.source = s ∧ e.Admits name ∧ Run edges e.target path t := by
  constructor
  · rintro ⟨⟩
    next e mem admits rest => exact ⟨e, mem, rfl, admits, rest⟩
  · rintro ⟨e, mem, rfl, admits, rest⟩
    exact .cons mem admits rest

/-- A run from below `n` stays below `n` if every edge does, and depends on the edges there alone.
-/
theorem iff_below (hlt : ∀ e ∈ edges, e.source < n → e.target < n)
    (hedges : ∀ e, e.source < n → (e ∈ edges ↔ e ∈ edges')) (hs : s < n) :
    Run edges s path t ↔ Run edges' s path t ∧ t < n := by
  induction path generalizing s with
  | nil =>
    rw [nil_iff, nil_iff]
    constructor
    · rintro rfl
      exact ⟨rfl, hs⟩
    · exact And.left
  | cons name path ih =>
    rw [cons_iff, cons_iff]
    constructor
    · rintro ⟨e, he, rfl, hadmits, hrest⟩
      obtain ⟨hrun, ht⟩ := (ih (hlt e he hs)).1 hrest
      exact ⟨⟨e, (hedges e hs).1 he, rfl, hadmits, hrun⟩, ht⟩
    · rintro ⟨⟨e, he, rfl, hadmits, hrest⟩, ht⟩
      have he' := (hedges e hs).2 he
      exact ⟨e, he', rfl, hadmits, (ih (hlt e he' hs)).2 ⟨hrest, ht⟩⟩

/-- A run from above `n` stays above `n` if every edge does. -/
theorem stays_above {n s t : Nat} (hge : ∀ e ∈ edges, n ≤ e.source → n ≤ e.target) (hs : n ≤ s)
    (h : Run edges s path t) : n ≤ t := by
  induction path generalizing s with
  | nil =>
    rw [nil_iff.1 h]
    exact hs
  | cons name path ih =>
    obtain ⟨e, he, rfl, -, hrest⟩ := cons_iff.1 h
    exact ih (hge e he hs) hrest

end Run

namespace Automaton

variable {η : Type} {a : Automaton η}

/-- The states active in an element, given the names from the root to it. -/
def after (a : Automaton η) (path : List String) : StateSet := path.foldl a.transition a.initial

theorem mem_transition {set : StateSet} {name : String} {t : StateId} :
    t ∈ a.transition set name ↔ ∃ e ∈ a.edges, e.source ∈ set ∧ e.Admits name ∧ e.target = t := by
  rw [transition, StateSet.mem_ofList, List.mem_map]
  simp only [List.mem_filter, Edge.fires_iff]
  constructor
  · rintro ⟨e, ⟨he, hs, hadmits⟩, rfl⟩
    exact ⟨e, he, hs, hadmits, rfl⟩
  · rintro ⟨e, he, hs, hadmits, rfl⟩
    exact ⟨e, ⟨he, hs, hadmits⟩, rfl⟩

theorem mem_foldl_transition {path : List String} {set : StateSet} {t : StateId} :
    t ∈ path.foldl a.transition set ↔ ∃ s ∈ set, Run a.edges s path t := by
  induction path generalizing set with
  | nil => simp [Run.nil_iff]
  | cons name path ih =>
    rw [List.foldl_cons, ih]
    simp only [mem_transition, Run.cons_iff]
    constructor
    · rintro ⟨s, ⟨e, he, hs, hadmits, rfl⟩, hrun⟩
      exact ⟨e.source, hs, e, he, rfl, hadmits, hrun⟩
    · rintro ⟨s, hs, e, he, rfl, hadmits, hrun⟩
      exact ⟨e.target, ⟨e, he, hs, hadmits, rfl⟩, hrun⟩

theorem mem_after {path : List String} {t : StateId} :
    t ∈ a.after path ↔ ∃ s ∈ a.initial, Run a.edges s path t :=
  mem_foldl_transition

/-! ### What compiling adds -/

/-- The edges of a chain of states from `n` on, one state for each step. -/
def chain (n : StateId) : List Step → List Edge
  | [] => []
  | step :: steps =>
    (if step.adjacent then [] else [⟨n, none, n⟩]) ++
      ⟨n, some step.name, n + 1⟩ :: chain (n + 1) steps

/-- The edges of a selector whose entry state is `n`. -/
def edgesOf (n : StateId) (selector : Selector) : List Edge :=
  chain n selector.steps ++ if selector.isEmpty then [⟨n, none, n⟩] else []

theorem addChain_eq {n : Nat} {adjacent : Bool} {parts : List Part} (h : a.size = n + 1) :
    a.addChain n adjacent parts =
      (n + (Step.ofParts adjacent parts).length,
        { a with
          size := a.size + (Step.ofParts adjacent parts).length
          edges := a.edges ++ chain n (Step.ofParts adjacent parts) }) := by
  induction parts generalizing a n adjacent with
  | nil => simp [addChain, Step.ofParts, chain]
  | cons part parts ih =>
    cases part with
    | child => exact ih h
    | name name =>
      have hlength (k : Nat) : n + 1 + k = n + (k + 1) := by omega
      cases adjacent with
      | true =>
        simp only [addChain, Step.ofParts, if_pos, addState, addEdge, h]
        rw [ih rfl]
        simp [chain, Nat.add_assoc, hlength, Nat.add_comm 2]
      | false =>
        simp only [addChain, Step.ofParts, Bool.false_eq_true, if_false, addState, addEdge, h]
        rw [ih rfl]
        simp [chain, Nat.add_assoc, hlength, Nat.add_comm 2]

theorem addSelector_eq (a : Automaton η) (selector : Selector) :
    a.addSelector selector =
      (a.size + selector.steps.length,
        { a with
          size := a.size + 1 + selector.steps.length
          edges := a.edges ++ edgesOf a.size selector
          initial := a.initial.insert a.size
          finals := a.finals ++ [(selector.canonical, a.size + selector.steps.length)] }) := by
  simp only [addSelector, addState]
  rw [addChain_eq rfl]
  by_cases h : selector.isEmpty = true
  · simp [h, edgesOf, addEdge, Selector.steps]
  · simp [h, edgesOf, Selector.steps]

theorem mem_chain_le {n source target : Nat} {label : Option String} {steps : List Step}
    (h : ⟨source, label, target⟩ ∈ chain n steps) :
    n ≤ source ∧ n ≤ target ∧ source ≤ n + steps.length ∧ target ≤ n + steps.length := by
  induction steps generalizing n with
  | nil => cases h
  | cons step steps ih =>
    rw [chain, List.mem_append, List.mem_cons] at h
    rw [List.length_cons]
    rcases h with h | h | h
    · split_ifs at h
      · cases h
      · cases List.mem_singleton.1 h
        omega
    · cases h
      omega
    · have := ih h
      omega

theorem mem_edgesOf_le {n source target : Nat} {label : Option String} {selector : Selector}
    (h : ⟨source, label, target⟩ ∈ edgesOf n selector) :
    n ≤ source ∧ n ≤ target ∧ source ≤ n + selector.steps.length ∧
      target ≤ n + selector.steps.length := by
  rcases List.mem_append.1 h with h | h
  · exact mem_chain_le h
  · split_ifs at h
    · cases List.mem_singleton.1 h
      omega
    · cases h

/-- The edges from the first state of a chain are the loop, unless the step is adjacent, and the
step. -/
theorem mem_chain_first {n : Nat} {step : Step} {steps : List Step} {e : Edge} (he : e.source = n) :
    e ∈ chain n (step :: steps) ↔
      (step.adjacent = false ∧ e = ⟨n, none, n⟩) ∨ e = ⟨n, some step.name, n + 1⟩ := by
  rw [chain, List.mem_append, List.mem_cons]
  constructor
  · rintro (h | h | h)
    · split_ifs at h with hadj
      · cases h
      · exact .inl ⟨Bool.eq_false_iff.2 hadj, List.mem_singleton.1 h⟩
    · exact .inr h
    · exact absurd (he ▸ (mem_chain_le h).1) (Nat.not_succ_le_self n)
  · rintro (⟨hadj, rfl⟩ | rfl)
    · simp [hadj]
    · simp

/-- The edges from its other states are those of the rest of the chain. -/
theorem mem_chain_rest {n : Nat} {step : Step} {steps : List Step} {e : Edge}
    (he : n + 1 ≤ e.source) : e ∈ chain n (step :: steps) ↔ e ∈ chain (n + 1) steps := by
  rw [chain, List.mem_append, List.mem_cons]
  constructor
  · rintro (h | rfl | h)
    · split_ifs at h
      · cases h
      · rw [List.mem_singleton.1 h] at he
        exact absurd he (Nat.not_succ_le_self n)
    · exact absurd he (Nat.not_succ_le_self n)
    · exact h
  · exact fun h => .inr (.inr h)

/-! ### Runs through a chain -/

/-- Where the edges from `n` on are those of a chain, its last state is reached along the paths
that the steps lead along. -/
theorem run_chain {edges : List Edge} {n : Nat} {steps : List Step} (path : List String)
    (hedges : ∀ e, n ≤ e.source → (e ∈ edges ↔ e ∈ chain n steps)) :
    Run edges n path (n + steps.length) ↔ Step.Leads steps path := by
  induction steps generalizing n path with
  | nil =>
    rw [Step.leads_nil]
    cases path with
    | nil => simp [Run.nil_iff]
    | cons name path =>
      simp only [Run.cons_iff, reduceCtorEq, iff_false]
      rintro ⟨e, he, rfl, -⟩
      exact List.not_mem_nil ((hedges e (Nat.le_refl _)).1 he)
  | cons step steps ih =>
    have htail (path : List String) :
        Run edges (n + 1) path (n + (step :: steps).length) ↔ Step.Leads steps path := by
      rw [← ih (n := n + 1) path, List.length_cons, Nat.add_assoc, Nat.add_comm 1]
      intro e he
      rw [hedges e (Nat.le_of_succ_le he), mem_chain_rest he]
    have hhead (e : Edge) (he : e.source = n) : e ∈ edges ↔
        (step.adjacent = false ∧ e = ⟨n, none, n⟩) ∨ e = ⟨n, some step.name, n + 1⟩ := by
      rw [hedges e (Nat.le_of_eq he.symm), mem_chain_first he]
    induction path with
    | nil =>
      rw [Run.nil_iff, List.length_cons]
      exact iff_of_false (by simp) Step.not_leads_nil
    | cons name path ihpath =>
      rw [Run.cons_iff, Step.leads_cons]
      constructor
      · rintro ⟨e, he, hs, hadmits, hrun⟩
        rcases (hhead e hs).1 he with ⟨hadj, rfl⟩ | rfl
        · exact .inr ⟨hadj, ihpath.1 hrun⟩
        · rcases hadmits with h | h
          · cases h
          · cases h
            exact .inl ⟨rfl, (htail path).1 hrun⟩
      · rintro (⟨rfl, h⟩ | ⟨hadj, h⟩)
        · have he := (hhead ⟨n, some step.name, n + 1⟩ rfl).2 (.inr rfl)
          exact ⟨_, he, rfl, .inr rfl, (htail path).2 h⟩
        · have he := (hhead ⟨n, none, n⟩ rfl).2 (.inl ⟨hadj, rfl⟩)
          exact ⟨_, he, rfl, .inl rfl, ihpath.2 h⟩

/-- A state with a loop on every name is reached from itself along every path. -/
theorem run_loop {edges : List Edge} {n : StateId} {path : List String}
    (h : ⟨n, none, n⟩ ∈ edges) : Run edges n path n := by
  induction path with
  | nil => exact .nil n
  | cons name path ih => exact .cons h (.inl rfl) ih

/-- Where the edges from `n` on are those of a selector, its last state is reached along the paths
that it matches. -/
theorem run_edgesOf {edges : List Edge} {n : Nat} {selector : Selector} (path : List String)
    (hedges : ∀ e, n ≤ e.source → (e ∈ edges ↔ e ∈ edgesOf n selector)) :
    Run edges n path (n + selector.steps.length) ↔ selector.Matches path := by
  by_cases hempty : selector.isEmpty = true
  · have hsteps : selector.steps = [] := by
      rw [Selector.steps, List.isEmpty_iff.1 hempty]
      rfl
    have hloop : ⟨n, none, n⟩ ∈ edges := (hedges _ (Nat.le_refl _)).2 (by simp [edgesOf, hempty])
    rw [hsteps]
    exact iff_of_true (run_loop hloop) (.inl hempty)
  · have hchain (e : Edge) (he : n ≤ e.source) : e ∈ edges ↔ e ∈ chain n selector.steps := by
      rw [hedges e he, edgesOf, if_neg hempty, List.append_nil]
    rw [run_chain path hchain, Selector.Matches]
    exact (or_iff_right hempty).symm

/-! ### Compiling -/

/-- Edges and initial states are among the states that exist. -/
structure Bounded (a : Automaton η) : Prop where
  edges : ∀ e ∈ a.edges, e.source < a.size ∧ e.target < a.size
  initial : ∀ s ∈ a.initial, s < a.size

theorem Bounded.addSelector (ha : a.Bounded) (selector : Selector) :
    (a.addSelector selector).2.Bounded := by
  have hgrown (n : Nat) (hn : n < a.size) : n < a.size + 1 + selector.steps.length := by omega
  have hnew (n : Nat) (hn : n ≤ a.size + selector.steps.length) :
      n < a.size + 1 + selector.steps.length := by omega
  rw [addSelector_eq]
  constructor
  · intro e he
    rcases List.mem_append.1 he with he | he
    · exact (ha.edges e he).imp (hgrown _) (hgrown _)
    · have hle := mem_edgesOf_le he
      exact ⟨hnew _ hle.2.2.1, hnew _ hle.2.2.2⟩
  · intro s hs
    rcases StateSet.mem_insert.1 hs with rfl | hs
    · exact hnew _ (Nat.le_add_right _ _)
    · exact hgrown _ (ha.initial s hs)

/-- The edges from the new states on are those of the selector. -/
theorem mem_edges_addSelector (ha : a.Bounded) (selector : Selector) {e : Edge}
    (he : a.size ≤ e.source) :
    e ∈ a.edges ++ edgesOf a.size selector ↔ e ∈ edgesOf a.size selector := by
  rw [List.mem_append, or_iff_right]
  exact fun h => absurd (ha.edges e h).1 (Nat.not_lt.2 he)

/-- The edges from the old states are the old edges. -/
theorem mem_edges_addSelector_old {selector : Selector} {e : Edge} (he : e.source < a.size) :
    e ∈ a.edges ++ edgesOf a.size selector ↔ e ∈ a.edges := by
  rw [List.mem_append, or_iff_left]
  exact fun h => absurd he (Nat.not_lt.2 (mem_edgesOf_le h).1)

/-- Runs from old states stay among these and are runs of the old automaton. -/
theorem run_addSelector_old (ha : a.Bounded) {selector : Selector} {s t : StateId}
    {path : List String} (hs : s < a.size) :
    Run (a.edges ++ edgesOf a.size selector) s path t ↔ Run a.edges s path t ∧ t < a.size :=
  Run.iff_below
    (fun e he hlt => (ha.edges e ((mem_edges_addSelector_old hlt).1 he)).2)
    (fun _ hlt => mem_edges_addSelector_old hlt) hs

/-- Runs from the entry state of a selector stay among its states. -/
theorem run_addSelector_new (ha : a.Bounded) {selector : Selector} {t : StateId}
    {path : List String} (h : Run (a.edges ++ edgesOf a.size selector) a.size path t) :
    a.size ≤ t :=
  h.stays_above (fun _ he hle => (mem_edgesOf_le ((mem_edges_addSelector ha _ hle).1 he)).2.1)
    (Nat.le_refl _)

/-- Compiling a selector does not change which of the old states are active. -/
theorem mem_after_addSelector_old (ha : a.Bounded) {selector : Selector} {s : StateId}
    {path : List String} (hs : s < a.size) :
    s ∈ (a.addSelector selector).2.after path ↔ s ∈ a.after path := by
  rw [mem_after, mem_after, addSelector_eq]
  constructor
  · rintro ⟨entry, hentry, hrun⟩
    rcases StateSet.mem_insert.1 hentry with rfl | hentry
    · exact absurd (run_addSelector_new ha hrun) (Nat.not_le.2 hs)
    · exact ⟨entry, hentry, ((run_addSelector_old ha (ha.initial entry hentry)).1 hrun).1⟩
  · rintro ⟨entry, hentry, hrun⟩
    exact ⟨entry, StateSet.mem_insert.2 (.inr hentry),
      (run_addSelector_old ha (ha.initial entry hentry)).2 ⟨hrun, hs⟩⟩

/-- The state of a selector is active after the paths that the selector matches. -/
theorem mem_after_addSelector_final (ha : a.Bounded) {selector : Selector} {path : List String} :
    (a.addSelector selector).1 ∈ (a.addSelector selector).2.after path ↔
      selector.Matches path := by
  have hmatch := run_edgesOf path fun e => mem_edges_addSelector ha selector (e := e)
  rw [← hmatch, mem_after, addSelector_eq]
  constructor
  · rintro ⟨entry, hentry, hrun⟩
    rcases StateSet.mem_insert.1 hentry with rfl | hentry
    · exact hrun
    · have hold := ((run_addSelector_old ha (ha.initial entry hentry)).1 hrun).2
      exact absurd hold (Nat.not_lt.2 (Nat.le_add_right _ _))
  · exact fun hrun => ⟨_, StateSet.mem_insert.2 (.inl rfl), hrun⟩

end Automaton

end XmlSieve
