import XmlSieve.Proofs.Stream.Stacks

/-!
# Looking up paths is walking

`Ancestry.trace?` decides by the innermost open element whose path begins the one that is looked up,
and never goes back.  A walk along the names of a path goes from the document down a tree in which an
open element is the latest child of its name in the element around it (`Ancestry.walk?`).  The two
lead to the same element (`Linked.leads_iff`) if the paths of the open elements spell their names and
no name has a slash in it (`Ancestry.Linked`).
-/

namespace XmlSieve

/-! ### Names and paths -/

/-- A name that has no slash in it. -/
def NoSlash (name : String) : Prop := '/' ∉ name.toList

/-- The characters of the path along `names`. -/
def spelled (names : List String) : List Char := names.flatMap fun name => '/' :: name.toList

section Spelling

variable {cs : List Char} {base names : List String}

theorem spelled_cons (name : String) (names : List String) :
    spelled (name :: names) = '/' :: (name.toList ++ spelled names) := rfl

theorem spelled_append (names more : List String) :
    spelled (names ++ more) = spelled names ++ spelled more := List.flatMap_append

theorem toList_pathTo (h : names ≠ []) : (pathTo names).toList = spelled names := by
  induction names with
  | nil => exact absurd rfl h
  | cons name names ih =>
    cases names with
    | nil => simp [pathTo_singleton, spelled]
    | cons next names =>
      have hrest := ih (List.cons_ne_nil _ _)
      rw [spelled_cons, ← hrest, pathTo, String.intercalate_cons_cons]
      simp [pathTo]

theorem segments_append {word first : List Char} {rest : List (List Char)} (hword : '/' ∉ word)
    (h : segments cs = first :: rest) : segments (word ++ cs) = (word ++ first) :: rest := by
  induction word with
  | nil => exact h
  | cons c word ih =>
    rw [List.mem_cons, not_or] at hword
    rw [List.cons_append, segments, if_neg (Ne.symm hword.1), ih hword.2]
    rfl

/-- A path falls into the names that it spells. -/
theorem segments_spelled {word : List Char} (hword : '/' ∉ word) (h : ∀ n ∈ names, NoSlash n) :
    segments (word ++ spelled names) = word :: names.map String.toList := by
  have hnames : segments (spelled names) = [] :: names.map String.toList := by
    induction names with
    | nil => rfl
    | cons name names ih =>
      rw [List.forall_mem_cons] at h
      rw [spelled_cons, segments, if_pos rfl, segments_append h.1 (ih h.2), List.append_nil,
        List.map_cons]
  rw [segments_append hword hnames, List.append_nil]

/-- Characters are a word without a slash, and the names that follow it. -/
theorem exists_spelled (cs : List Char) :
    ∃ (word : List Char) (names : List String), '/' ∉ word ∧ (∀ n ∈ names, NoSlash n) ∧
      cs = word ++ spelled names := by
  induction cs with
  | nil => exact ⟨[], [], by simp, by simp, rfl⟩
  | cons c cs ih =>
    obtain ⟨word, names, hword, hnames, rfl⟩ := ih
    by_cases hc : c = '/'
    · refine ⟨[], String.ofList word :: names, by simp, ?_, ?_⟩
      · exact List.forall_mem_cons.2 ⟨by simpa [NoSlash] using hword, hnames⟩
      · rw [spelled_cons, String.toList_ofList, hc, List.nil_append]
    · exact ⟨c :: word, names, List.not_mem_cons_of_ne_of_not_mem (Ne.symm hc) hword, hnames, rfl⟩

/-- What is below a path is told name by name. -/
theorem namesBelow?_words {word word' : List Char} (hword : '/' ∉ word) (hword' : '/' ∉ word') :
    namesBelow? (word ++ spelled base) (word' ++ spelled names) =
      if word = word' then namesBelow? (spelled base) (spelled names) else none := by
  induction word generalizing word' with
  | nil =>
    cases word' with
    | nil => rfl
    | cons c word' =>
      rw [List.mem_cons, not_or] at hword'
      rw [if_neg (by simp)]
      cases base with
      | nil => exact if_neg (Ne.symm hword'.1)
      | cons next base => exact if_neg hword'.1
  | cons b word ih =>
    rw [List.mem_cons, not_or] at hword
    cases word' with
    | nil =>
      rw [if_neg (by simp)]
      cases names with
      | nil => rfl
      | cons next names => exact if_neg (Ne.symm hword.1)
    | cons c word' =>
      rw [List.mem_cons, not_or] at hword'
      rw [List.cons_append, List.cons_append, namesBelow?, ih hword.2 hword'.2]
      by_cases hbc : b = c <;> simp [hbc]

/-- A path is below another if it spells further names. -/
theorem namesBelow?_spelled (hbase : ∀ n ∈ base, NoSlash n) (hnames : ∀ n ∈ names, NoSlash n) :
    namesBelow? (spelled base) (spelled names) =
      if base <+: names then some (names.drop base.length) else none := by
  induction base generalizing names with
  | nil =>
    rw [if_pos (List.nil_prefix)]
    cases names with
    | nil => rfl
    | cons name names =>
      rw [List.forall_mem_cons] at hnames
      rw [spelled_cons, spelled, List.flatMap_nil, namesBelow?, if_pos rfl,
        segments_spelled hnames.1 hnames.2]
      simp
  | cons name base ih =>
    rw [List.forall_mem_cons] at hbase
    cases names with
    | nil => rw [if_neg (by simp)]; rfl
    | cons other names =>
      rw [List.forall_mem_cons] at hnames
      rw [spelled_cons, spelled_cons, namesBelow?, if_pos rfl,
        namesBelow?_words hbase.1 hnames.1, ih hbase.2 hnames.2]
      by_cases hname : name = other
      · simp [hname, List.cons_prefix_cons]
      · have htoList : name.toList ≠ other.toList := fun h => hname (String.toList_injective h)
        simp [hname, htoList, List.cons_prefix_cons]

/-- A path that goes on after another without a slash is not below it, nor below what that leads to.
-/
theorem namesBelow?_beside {c : Char} (hc : c ≠ '/') (base rest : List Char)
    (names : List String) : namesBelow? (base ++ spelled names) (base ++ c :: rest) = none := by
  induction base with
  | nil =>
    cases names with
    | nil => exact if_neg hc
    | cons name names => exact if_neg (Ne.symm hc)
  | cons b base ih => exact (if_pos rfl).trans ih

end Spelling

/-! ### Walking -/

namespace Ancestry

/-- Where a walk has come to: an element, and the open elements below it, outermost first. -/
structure Site where
  element : Element
  below : List Frame

/-- Steps down to the latest child named `name`.  An open element is the latest of its name in the
element around it.  A closed one is what its parent keeps last under the name, if that is an element
and not just text. -/
def Site.child? : Site → String → Option Site
  | ⟨e, []⟩, name => ((e.child? name).bind Content.element?).map (⟨·, []⟩)
  | ⟨e, frame :: deeper⟩, name =>
    if frame.element.name = name then some ⟨frame.element, deeper⟩
    else ((e.child? name).bind Content.element?).map (⟨·, []⟩)

/-- The element that a walk leads to from a site, name by name. -/
def Site.walk? (site : Site) (names : List String) : Option Element :=
  (names.foldlM Site.child? site).map (·.element)

/-- Where walks begin. -/
def root (a : Ancestry) : Site := ⟨a.document, a.frames.reverse⟩

/-- What a path leads to: the empty path to the document, a path that does not begin with a slash
nowhere, and any other where the walk along the names between its slashes leads to. -/
inductive Leads (a : Ancestry) : String → Option Element → Prop where
  | document : Leads a "" (some a.document)
  | astray {path : String} (nonempty : path ≠ "") (begins : path.toList.head? ≠ some '/') :
      Leads a path none
  | names {names : List String} (nonempty : names ≠ []) (noSlash : ∀ name ∈ names, NoSlash name) :
      Leads a (pathTo names) (a.root.walk? names)

/-- The open elements lie within one another as the document has it: their names have no slashes,
their paths spell their names, and each has the last place under its name in the element around it,
where nothing has been stored yet. -/
structure Linked (a : Ancestry) : Prop where
  names : ∀ frame ∈ a.frames, NoSlash frame.element.name
  paths : a.frames.map (·.path) = openPaths (a.frames.map (·.element.name))
  reserved : (a.elements ++ [a.document]).IsChain fun child parent =>
    parent.child? child.name = some Element.placeholder

section Walks

variable {e document : Element} {frame : Frame} {below frames : List Frame} {names : List String}

theorem walk?_cons (site : Site) (name : String) (names : List String) :
    site.walk? (name :: names) = (site.child? name).bind (·.walk? names) := by
  rw [Site.walk?, List.foldlM_cons]
  cases site.child? name <;> rfl

/-- Below an element in which none is open, the walk goes through what is kept. -/
theorem walk?_closed (e : Element) (names : List String) :
    Site.walk? ⟨e, []⟩ names = e.descend? names := by
  induction names generalizing e with
  | nil => rfl
  | cons name names ih =>
    rw [walk?_cons, Site.child?, Element.descend?]
    cases (e.child? name).bind Content.element? with
    | none => rfl
    | some child => exact ih child

/-- A walk along the names of all open elements goes on from the innermost; any other does not get
to see it. -/
theorem walk?_concat (e : Element) (below : List Frame) (frame : Frame) (names : List String) :
    Site.walk? ⟨e, below ++ [frame]⟩ names =
      if (below ++ [frame]).map (·.element.name) <+: names then
        frame.element.descend? (names.drop (below.length + 1))
      else Site.walk? ⟨e, below⟩ names := by
  induction below generalizing e names with
  | nil =>
    cases names with
    | nil => rw [if_neg (by simp)]; rfl
    | cons name names =>
      rw [List.nil_append, walk?_cons, Site.child?]
      by_cases hname : frame.element.name = name
      · simp [hname, walk?_closed]
      · simp [hname, walk?_cons, Site.child?]
  | cons next below ih =>
    cases names with
    | nil => rw [if_neg (by simp)]; rfl
    | cons name names =>
      rw [List.cons_append, walk?_cons, walk?_cons, Site.child?, Site.child?]
      by_cases hname : next.element.name = name
      · simp [hname, ih, List.cons_prefix_cons]
      · simp [hname, List.cons_prefix_cons]

/-- A walk along the names of open elements ends at the innermost of them, whatever is open in it. -/
theorem walk?_through (e : Element) (below deeper : List Frame) :
    Site.walk? ⟨e, below ++ deeper⟩ (below.map (·.element.name)) =
      some ((below.getLast?.map (·.element)).getD e) := by
  induction below generalizing e with
  | nil => rfl
  | cons frame below ih =>
    rw [List.map_cons, List.cons_append, walk?_cons, Site.child?, if_pos rfl, Option.bind_some, ih,
      List.getLast?_cons]
    cases below.getLast? <;> rfl

end Walks

/-! ### Looking up -/

section Lookup

variable {document : Element} {frame : Frame} {outer : List Frame} {a : Ancestry} {path : String}
  {names : List String} {result : Option Element}

theorem trace?_nil (document : Element) (path : String) :
    trace? ⟨document, []⟩ path = (namesBelow? [] path.toList).bind document.descend? := by
  simp only [trace?, anchors, List.map_nil, List.nil_append, List.findSome?_cons,
    List.findSome?_nil, String.toList_empty]
  cases namesBelow? [] path.toList <;> rfl

/-- The innermost open element decides about the paths that lead to it or through it. -/
theorem trace?_cons (document : Element) (frame : Frame) (outer : List Frame) (path : String) :
    trace? ⟨document, frame :: outer⟩ path =
      match namesBelow? frame.path.toList path.toList with
      | some names => frame.element.descend? names
      | none => trace? ⟨document, outer⟩ path := by
  simp only [trace?, anchors, List.map_cons, List.cons_append, List.findSome?_cons]
  cases namesBelow? frame.path.toList path.toList <;> rfl

theorem Linked.tail (h : Linked ⟨document, frame :: outer⟩) : Linked ⟨document, outer⟩ :=
  ⟨(List.forall_mem_cons.1 h.names).2, List.tail_eq_of_cons_eq h.paths,
    List.IsChain.of_cons h.reserved⟩

theorem Linked.path_eq (h : Linked ⟨document, frame :: outer⟩) :
    frame.path = pathTo ((outer.reverse ++ [frame]).map (·.element.name)) := by
  have hpath : frame.path = pathTo ((frame :: outer).map (·.element.name)).reverse :=
    List.head_eq_of_cons_eq h.paths
  rw [hpath, ← List.map_reverse, List.reverse_cons]

theorem Linked.spelled_path (h : Linked ⟨document, frame :: outer⟩) :
    frame.path.toList = spelled ((outer.reverse ++ [frame]).map (·.element.name)) := by
  rw [h.path_eq, toList_pathTo (by simp)]

theorem Linked.noSlash_open (h : Linked ⟨document, frame :: outer⟩) :
    ∀ name ∈ (outer.reverse ++ [frame]).map (·.element.name), NoSlash name := by
  intro name hname
  obtain ⟨f, hf, rfl⟩ := List.mem_map.1 hname
  exact h.names f (by simpa [or_comm] using hf)

/-- The elements around open elements are linked. -/
theorem Linked.suffix {inner frames : List Frame} (h : Linked ⟨document, inner ++ frames⟩) :
    Linked ⟨document, frames⟩ := by
  induction inner with
  | nil => exact h
  | cons frame inner ih => exact ih h.tail

/-- A path that spells names leads to where a walk along them does. -/
theorem Linked.trace?_spelled {frames : List Frame} (h : Linked ⟨document, frames⟩)
    (hpath : path.toList = spelled names) (hnames : ∀ name ∈ names, NoSlash name) :
    trace? ⟨document, frames⟩ path = Site.walk? ⟨document, frames.reverse⟩ names := by
  induction frames with
  | nil =>
    have hbelow := namesBelow?_spelled (List.forall_mem_nil NoSlash) hnames
    rw [if_pos List.nil_prefix] at hbelow
    rw [trace?_nil, hpath, show ([] : List Char) = spelled [] from rfl, hbelow, List.reverse_nil,
      walk?_closed]
    rfl
  | cons frame outer ih =>
    rw [trace?_cons, h.spelled_path, hpath, namesBelow?_spelled h.noSlash_open hnames,
      List.reverse_cons, walk?_concat, ← ih h.tail]
    split
    · next below hbelow =>
      split at hbelow
      · next hprefix =>
        cases hbelow
        rw [if_pos hprefix]
        simp
      · cases hbelow
    · next hbelow =>
      split at hbelow
      · cases hbelow
      · next hprefix => rw [if_neg hprefix]

/-- A path that does not begin with a slash is below no open element. -/
theorem namesBelow?_astray {cs : List Char} (hne : cs ≠ []) (h : cs.head? ≠ some '/')
    (base : List String) : namesBelow? (spelled base) cs = none := by
  cases cs with
  | nil => exact absurd rfl hne
  | cons c cs =>
    have hc : c ≠ '/' := fun heq => h (by rw [heq]; rfl)
    cases base with
    | nil => exact if_neg hc
    | cons name base => exact if_neg (Ne.symm hc)

theorem Linked.trace?_astray {frames : List Frame} (h : Linked ⟨document, frames⟩) (hne : path ≠ "")
    (hhead : path.toList.head? ≠ some '/') : trace? ⟨document, frames⟩ path = none := by
  have hchars : path.toList ≠ [] := by simpa using hne
  induction frames with
  | nil =>
    rw [trace?_nil, show ([] : List Char) = spelled [] from rfl, namesBelow?_astray hchars hhead]
    rfl
  | cons frame outer ih =>
    rw [trace?_cons, h.spelled_path, namesBelow?_astray hchars hhead]
    exact ih h.tail

/-- Looking a path up finds what the path leads to. -/
theorem Linked.leads_iff (h : a.Linked) (path : String) (result : Option Element) :
    a.Leads path result ↔ a.trace? path = result := by
  constructor
  · intro hleads
    cases hleads with
    | document => exact h.trace?_spelled rfl (List.forall_mem_nil NoSlash)
    | astray nonempty begins => exact h.trace?_astray nonempty begins
    | names nonempty noSlash => exact h.trace?_spelled (toList_pathTo nonempty) noSlash
  · rintro rfl
    obtain ⟨word, names, hword, hnames, hpath⟩ := exists_spelled path.toList
    cases word with
    | cons c word =>
      rw [List.mem_cons, not_or] at hword
      have hne : path ≠ "" := by
        rintro rfl
        cases hpath
      have hhead : path.toList.head? ≠ some '/' := by
        rw [hpath]
        exact fun heq => hword.1 (Option.some.inj heq).symm
      rw [h.trace?_astray hne hhead]
      exact .astray hne hhead
    | nil =>
      rw [h.trace?_spelled hpath hnames]
      by_cases hempty : names = []
      · subst hempty
        obtain rfl : path = "" := String.toList_injective hpath
        exact .document
      · obtain rfl : path = pathTo names :=
          String.toList_injective (hpath.trans (toList_pathTo hempty).symm)
        exact .names hempty hnames

/-- Each open element is found under its own path. -/
theorem Linked.trace?_path (h : a.Linked) : ∀ frame ∈ a.frames,
    a.trace? frame.path = some frame.element := by
  obtain ⟨document, frames⟩ := a
  intro frame hframe
  obtain ⟨inner, outer, rfl⟩ := List.append_of_mem hframe
  have hopen : Linked ⟨document, frame :: outer⟩ := h.suffix
  rw [h.trace?_spelled hopen.spelled_path hopen.noSlash_open, List.reverse_append, List.reverse_cons,
    walk?_through, List.getLast?_concat]
  rfl

/-- A path that begins like that of an open element but goes on without a slash leads where it would
if neither this element nor one in it were open. -/
theorem Linked.trace?_beside {inner : List Frame} (h : Linked ⟨document, inner ++ frame :: outer⟩)
    {c : Char} {rest : List Char} (hc : c ≠ '/')
    (hpath : path.toList = frame.path.toList ++ c :: rest) :
    trace? ⟨document, inner ++ frame :: outer⟩ path = trace? ⟨document, outer⟩ path := by
  induction inner with
  | nil =>
    have hbeside := namesBelow?_beside hc frame.path.toList rest []
    rw [spelled, List.flatMap_nil, List.append_nil] at hbeside
    rw [List.nil_append, trace?_cons, hpath, hbeside]
  | cons f inner ih =>
    have hframe : f.path.toList =
        frame.path.toList ++ spelled ((inner.reverse ++ [f]).map (·.element.name)) := by
      have hopen : Linked ⟨document, frame :: outer⟩ := h.tail.suffix
      rw [h.spelled_path, hopen.spelled_path, ← spelled_append, ← List.map_append]
      simp
    rw [List.cons_append, trace?_cons, hframe, hpath, namesBelow?_beside hc, ← ih h.tail]

end Lookup

end Ancestry

end XmlSieve
