import XmlSieve.Proofs.Stream.Operations
import XmlSieve.Proofs.Stream.Tracking

/-!
# The three stacks of a stream

The tokenizer, the automaton and the assembly each keep a stack of the open elements, and nothing
that can be done with a stream puts them out of step (`stacks_agree`).  The frames know the elements
by the names in the document: their paths spell what the tokenizer has open (`Assembly.Stacked`),
whatever listeners make of the elements.
-/

namespace XmlSieve

variable {σ : Type}

/-! ### Paths -/

/-- The path of an element, given the names from the root to it. -/
def pathTo (names : List String) : String := "/" ++ "/".intercalate names

/-- The paths of open elements, given their names; both innermost first. -/
def openPaths : List String → List String
  | [] => []
  | name :: outer => pathTo (name :: outer).reverse :: openPaths outer

theorem intercalate_concat (separator name last : String) (names : List String) :
    separator.intercalate (name :: names ++ [last]) =
      separator.intercalate (name :: names) ++ separator ++ last := by
  induction names generalizing name with
  | nil => simp [String.intercalate_cons_cons]
  | cons next names ih =>
    simp only [List.cons_append] at ih
    simp only [List.cons_append, String.intercalate_cons_cons, ih, String.append_assoc]

theorem pathTo_singleton (name : String) : pathTo [name] = "/" ++ name := by
  rw [pathTo, String.intercalate_singleton]

theorem pathTo_concat {names : List String} (h : names ≠ []) (name : String) :
    pathTo (names ++ [name]) = pathTo names ++ "/" ++ name := by
  obtain ⟨first, rest, rfl⟩ := List.exists_cons_of_ne_nil h
  rw [pathTo, intercalate_concat, pathTo]
  simp only [String.append_assoc]

/-- The path of a child is that of its parent with the name behind it. -/
theorem openPaths_cons (name : String) (outer : List String) :
    openPaths (name :: outer) =
      ((openPaths outer).head?.getD "" ++ "/" ++ name) :: openPaths outer := by
  cases outer with
  | nil => rw [openPaths, openPaths, List.reverse_singleton, pathTo_singleton]; rfl
  | cons parent outer =>
    rw [openPaths, List.reverse_cons, pathTo_concat (by simp)]
    rfl

/-- Outermost first, the paths are those of the first names, the first two and so on. -/
theorem reverse_openPaths (names : List String) :
    (openPaths names).reverse =
      (List.range names.length).map fun i => pathTo (names.reverse.take (i + 1)) := by
  induction names with
  | nil => rfl
  | cons name outer ih =>
    rw [openPaths, List.reverse_cons, ih, List.length_cons, List.range_succ, List.map_append]
    congr 1
    · refine List.map_congr_left fun i hi => ?_
      have hlt : i < outer.length := List.mem_range.1 hi
      rw [List.reverse_cons,
        List.take_append_of_le_length (hlt.trans_eq List.length_reverse.symm)]
    · rw [List.map_singleton, List.take_of_length_le (by simp)]

/-! ### The paths of the frames -/

namespace Assembly

variable {a b : Assembly σ} {p q : Place} {frame : Frame} {outer : List Frame}

theorem modifyHead_paths (f : Element → Element) (frames : List Frame) :
    (Frame.modifyHead f frames).map (·.path) = frames.map (·.path) := by
  cases frames <;> rfl

/-- Effects leave a frame its path. -/
theorem applyAll_path (a : Assembly σ) (frame : Frame) (chunk : Option String)
    (effects : List Effect) : (a.applyAll frame chunk effects).2.path = frame.path := by
  rw [a.applyAll_frame]

/-- The stacks of the assembly are as high as `p` is deep, and the paths of its frames spell the
names of the elements open there. -/
structure Stacked (p : Place) (a : Assembly σ) : Prop where
  inStep : a.InStep p
  paths : a.frames.map (·.path) = openPaths p.openNames

theorem Stacked.path_eq (h : a.Stacked p) : a.path = (openPaths p.openNames).head?.getD "" := by
  rw [path, ← h.paths, List.head?_map]

theorem Stacked.start (h : a.Stacked p) (name : String) (attributes : Attributes) :
    (a.acceptStart name attributes).Stacked (.content name p.openNames) := by
  refine ⟨acceptStart_inStep h.inStep name attributes, ?_⟩
  have hpath : (a.runStart name attributes).2.path = a.path ++ "/" ++ name :=
    applyAll_path _ _ _ _
  rw [acceptStart_frames, List.map_cons, modifyHead_paths, h.paths, Place.openNames, openPaths_cons,
    ← h.path_eq, ← hpath]

theorem Stacked.text (h : a.Stacked p) {content : String} (hb : a.acceptText content = .ok b)
    (hstep : b.InStep p) : b.Stacked p := by
  obtain ⟨frame, outer, hframes⟩ := exists_frames_of_text hb
  refine ⟨hstep, ?_⟩
  have hpath : (a.runText frame outer content).2.path = frame.path := by
    rw [runText, applyAll_path, Holds.addText_eq]
  rw [acceptText_frames hframes hb, List.map_cons, hpath, ← h.paths, hframes, List.map_cons]

theorem Stacked.finish {innermost : String} {names : List String}
    (h : a.Stacked (.content innermost names)) (hb : a.acceptEnd = .ok b)
    (hstep : b.InStep (.inside names)) : b.Stacked (.inside names) := by
  obtain ⟨frame, outer, hframes⟩ := exists_frames_of_end hb
  obtain ⟨set, sets, hactive⟩ := List.exists_cons_of_length_eq_add_one h.inStep.active
  have hpaths := h.paths
  rw [hframes, List.map_cons, Place.openNames, openPaths] at hpaths
  refine ⟨hstep, ?_⟩
  rw [acceptEnd_frames hframes hactive rfl hb, modifyHead_paths, Place.openNames_inside]
  exact List.tail_eq_of_cons_eq hpaths

/-- A token that follows keeps the stacks and the paths. -/
theorem Stacked.accept {token : Token} (h : a.Stacked p) (hq : p.follow token = some q)
    (hb : a.accept token = .ok b) : b.Stacked q := by
  obtain ⟨b', hb', hstep⟩ := accept_inStep h.inStep hq
  rw [hb] at hb'
  cases hb'
  cases Place.follow_eq_some_iff.1 hq with
  | startTag name attributes =>
    cases hb
    exact h.start name attributes
  | text => exact h.text hb hstep
  | endTag => exact h.finish hb hstep

/-- No registration, no token and no listener puts the stacks out of step. -/
theorem stacked_invariant : Invariant (σ := σ) fun _ p a => a.Stacked p where
  unseen h _ _ := ⟨⟨h.inStep.frames, h.inStep.active⟩, h.paths⟩
  register {_ p s} h r := by
    obtain ⟨-, -, hframes, hactive⟩ := s.register_input r
    refine ⟨⟨?_, ?_⟩, ?_⟩
    · rw [hframes]
      exact h.inStep.frames
    · rw [hactive]
      exact h.inStep.active
    · rw [hframes]
      exact h.paths
  accept h hq hb := h.accept hq hb

end Assembly

/-! ### Streams -/

/-- The names of the open elements, outermost first: those the tokenizer has open, and the one whose
end it owes. -/
def Tokenizer.openElements (t : Tokenizer) : List String :=
  (t.owed.toList ++ t.place.openNames).reverse

theorem Tokenizer.openElements_eq (t : Tokenizer) :
    t.openElements = t.standing.openNames.reverse := by
  unfold openElements standing
  cases t.owed <;> rfl

theorem Tokenizer.length_openElements (t : Tokenizer) :
    t.openElements.length = t.depth + if t.owed.isSome then 1 else 0 := by
  unfold openElements depth Place.depth
  cases t.owed <;> simp

namespace Stream

/-- Whatever is done with a stream, nothing is a misuse, the automaton and the assembly have as many
elements open as the tokenizer, with the one whose end is owed, and the paths of the open elements
spell the names that the tokenizer has open.  Whenever a token is delivered it is accepted, and the
two stacks of the assembly are as high before and after it. -/
theorem stacks_agree (env : σ) (operations : List (Operation σ)) :
    (∃ verdicts s, (create env).operateAll operations = .ok (verdicts, s) ∧
      s.assembly.automaton.depth = s.depth ∧
      s.depth = s.tokenizer.depth + (if s.tokenizer.owed.isSome then 1 else 0) ∧
      s.assembly.ancestry.paths = "" ::
        (List.range s.depth).map fun i => pathTo (s.tokenizer.openElements.take (i + 1))) ∧
    ∀ delivery ∈ (create env).history [] operations,
      delivery.assembly.automaton.depth = delivery.assembly.depth ∧
      ∃ after, delivery.assembly.accept delivery.token = .ok after ∧
        after.automaton.depth = after.depth := by
  have hstart : (create env).Keeps (fun _ p a => a.Stacked p) [] :=
    ⟨.create env, ⟨rfl, rfl⟩, rfl⟩
  have hdepth {p : Place} {a : Assembly σ} (h : a.Stacked p) : a.automaton.depth = a.depth :=
    h.inStep.active.trans h.inStep.frames.symm
  obtain ⟨verdicts, s, hall, hs, hpasses⟩ :=
    operateAll_keeps Assembly.stacked_invariant hstart operations
  have hopen : s.depth = s.tokenizer.openElements.length := by
    rw [Tokenizer.openElements_eq, List.length_reverse]
    exact hs.holds.inStep.frames
  refine ⟨⟨verdicts, s, hall, hdepth hs.holds, ?_, ?_⟩, ?_⟩
  · rw [hopen, Tokenizer.length_openElements]
  · rw [hopen, Tokenizer.openElements_eq, List.length_reverse, ← reverse_openPaths,
      ← hs.holds.paths]
    rfl
  · rintro delivery hmem
    obtain ⟨p, q, after, hbefore, -, haccept, hafter⟩ := hpasses.of_mem delivery hmem
    exact ⟨hdepth hbefore, after, haccept, hdepth hafter⟩

end Stream

end XmlSieve
