import XmlSieve.Proofs.Element.Keys
import XmlSieve.Proofs.Host.Comparison

/-!
# Elements recovered from their terms

The entries of the map for an element come in five `Parts`, told apart by their keys: those of the
children stand under names that are not reserved, and each of the others has a key of its own and at
most one entry.  So no key is there twice, and there is a term for every element that is well-keyed
(`exists_ofElement?`).  Two maps are the same if they are so part by part (`Parts.sameMap_iff`), and
by induction over the first of two elements their terms are the same exactly if the elements are
alike (`ofElement?_same_iff`).
-/

namespace XmlSieve

namespace Term

open Element

/-! ### Keys -/

abbrev nameKey : Bytes := Bytes.ascii ['$', 'n', 'a', 'm', 'e']
abbrev attributesKey : Bytes := Bytes.ascii ['$']
abbrev textKey : Bytes := Bytes.ascii ['$', 't', 'e', 'x', 't']
abbrev nodesKey : Bytes := Bytes.ascii ['$', 'c', 'h', 'i', 'l', 'd', 'r', 'e', 'n']

/-- Whether a key begins with a dollar sign. -/
def isReserved (key : Bytes) : Bool := key.head? == some 0x24

theorem isReserved_encode {key : String} (h : ¬ Reserved key) :
    isReserved (Bytes.encode key) = false := by
  rw [Reserved] at h
  rw [isReserved, Bytes.encode, beq_eq_false_iff_ne]
  cases hcs : key.toList with
  | nil => simp
  | cons c cs =>
    rw [hcs, List.head?_cons, Option.some.injEq] at h
    have hbyte := toUInt8_not_mem_utf8EncodeChar (d := '$') (by decide) h
    cases hc : String.utf8EncodeChar c with
    | nil =>
      have hpos := c.utf8Size_pos
      rw [← String.length_utf8EncodeChar, hc] at hpos
      cases hpos
    | cons b bs =>
      rw [hc] at hbyte
      rw [List.flatMap_cons, hc, List.cons_append, List.head?_cons]
      intro hb
      apply hbyte
      rw [Option.some.inj hb]
      exact List.mem_cons_self

theorem keysDistinct_iff (pairs : List (Bytes × Term)) :
    keysDistinct pairs = true ↔ (pairs.map (·.1)).Nodup := by
  induction pairs with
  | nil => simp [keysDistinct]
  | cons pair pairs ih =>
    have hany : (pairs.any fun other => other.1 == pair.1) = true ↔ pair.1 ∈ pairs.map (·.1) := by
      simp [List.any_eq_true]
    rw [List.map_cons, List.nodup_cons, ← ih, ← hany, keysDistinct, Bool.and_eq_true,
      Bool.not_eq_true', Bool.not_eq_true]

theorem map?_eq_some {pairs : List (Bytes × Term)} (h : (pairs.map (·.1)).Nodup) :
    map? pairs = some (.map pairs) := if_pos ((keysDistinct_iff pairs).2 h)

theorem eq_map_of_map? {pairs : List (Bytes × Term)} {t : Term} (h : map? pairs = some t) :
    t = .map pairs := by
  rw [map?, Option.ite_none_right_eq_some] at h
  exact (Option.some.inj h.2).symm

/-! ### The parts of a map -/

/-- The entries of the map for an element, by where they come from. -/
structure Parts where
  name : List (Bytes × Term)
  attributes : List (Bytes × Term)
  text : List (Bytes × Term)
  nodes : List (Bytes × Term)
  children : List (Bytes × Term)
  name_keys : (name.map (·.1)).Sublist [nameKey]
  attributes_keys : (attributes.map (·.1)).Sublist [attributesKey]
  text_keys : (text.map (·.1)).Sublist [textKey]
  nodes_keys : (nodes.map (·.1)).Sublist [nodesKey]
  children_keys : ∀ key ∈ children.map (·.1), isReserved key = false

namespace Parts

variable (p q : Parts)

/-- The entries under reserved keys. -/
def reserved : List (Bytes × Term) := p.name ++ p.attributes ++ p.text ++ p.nodes

def entries : List (Bytes × Term) := p.reserved ++ p.children

theorem sublist_reserved :
    (p.reserved.map (·.1)).Sublist
      [nameKey, attributesKey, textKey, nodesKey] := by
  simp only [reserved, List.map_append]
  exact ((p.name_keys.append p.attributes_keys).append p.text_keys).append p.nodes_keys

theorem isReserved_of_mem {key : Bytes} (h : key ∈ p.reserved.map (·.1)) :
    isReserved key = true := by
  have hall : ∀ key ∈ [nameKey, attributesKey, textKey, nodesKey], isReserved key = true := by decide
  exact hall key (p.sublist_reserved.subset h)

/-- No key is there twice, if none is among the children. -/
theorem nodup_keys (h : (p.children.map (·.1)).Nodup) : (p.entries.map (·.1)).Nodup := by
  rw [entries, List.map_append, List.nodup_append]
  refine ⟨p.sublist_reserved.nodup (by decide), h, ?_⟩
  rintro key hkey _ hchild rfl
  have hreserved := p.isReserved_of_mem hkey
  rw [p.children_keys key hchild] at hreserved
  cases hreserved

/-- What is under a key of its own is compared apart from what is under other keys. -/
theorem sameMap_append_iff {front : List Bytes} {key : Bytes} {a b c d : List (Bytes × Term)}
    (hkey : key ∉ front) (ha : (a.map (·.1)).Sublist front) (hb : (b.map (·.1)).Sublist front)
    (hc : (c.map (·.1)).Sublist [key]) (hd : (d.map (·.1)).Sublist [key]) :
    SameMap (a ++ c) (b ++ d) ↔ SameMap a b ∧ SameMap c d := by
  have hfront {e : List (Bytes × Term)} (he : (e.map (·.1)).Sublist front) :
      ∀ s ∈ e, decide (s.1 ≠ key) = true := by
    intro s hs
    apply decide_eq_true
    rintro rfl
    exact hkey (he.subset (List.mem_map_of_mem hs))
  have hback {e : List (Bytes × Term)} (he : (e.map (·.1)).Sublist [key]) :
      ∀ s ∈ e, decide (s.1 ≠ key) = false := by
    intro s hs
    rw [decide_eq_false_iff_not, not_not]
    exact List.mem_singleton.1 (he.subset (List.mem_map_of_mem hs))
  exact SameMap.append_iff (fun other => decide (other ≠ key)) (hfront ha) (hfront hb) (hback hc)
    (hback hd)

/-- Maps are compared part by part. -/
theorem sameMap_iff :
    SameMap p.entries q.entries ↔
      SameMap p.name q.name ∧ SameMap p.attributes q.attributes ∧ SameMap p.text q.text ∧
        SameMap p.nodes q.nodes ∧ SameMap p.children q.children := by
  have hreserved (r : Parts) : ∀ s ∈ r.reserved, isReserved s.1 = true := fun s hs =>
    r.isReserved_of_mem (List.mem_map_of_mem hs)
  have hchildren (r : Parts) : ∀ s ∈ r.children, isReserved s.1 = false := fun s hs =>
    r.children_keys s.1 (List.mem_map_of_mem hs)
  have htwo (r : Parts) : ((r.name ++ r.attributes).map (·.1)).Sublist
      ([nameKey] ++ [attributesKey]) := by
    rw [List.map_append]
    exact r.name_keys.append r.attributes_keys
  have hthree (r : Parts) : ((r.name ++ r.attributes ++ r.text).map (·.1)).Sublist
      ([nameKey] ++ [attributesKey] ++ [textKey]) := by
    rw [List.map_append]
    exact (htwo r).append r.text_keys
  -- Each part is split off by its key, from the last to the first.
  rw [entries, entries, SameMap.append_iff isReserved (hreserved p) (hreserved q) (hchildren p)
      (hchildren q), reserved, reserved,
    sameMap_append_iff (by decide) (hthree p) (hthree q) p.nodes_keys q.nodes_keys,
    sameMap_append_iff (by decide) (htwo p) (htwo q) p.text_keys q.text_keys,
    sameMap_append_iff (by decide) p.name_keys q.name_keys p.attributes_keys q.attributes_keys]
  simp only [and_assoc]

end Parts

/-! ### The term of an element -/

variable {attributes attributes' : Attributes} {name name' text text' : String} {s t : Term}
  {a b c d : List (Bytes × Term)}

/-- No other term is the same as a text. -/
theorem ofString_same_term_iff {text : String} : Same (ofString text) t ↔ ofString text = t := by
  cases t <;> simp [Same, ofString]

theorem ofString_inj : ofString text = ofString text' ↔ text = text' :=
  ⟨fun h => Bytes.encode_injective (Term.binary.inj h), fun h => congrArg ofString h⟩

theorem ofString_same_iff : Same (ofString text) (ofString text') ↔ text = text' :=
  ofString_same_term_iff.trans ofString_inj

/-- A child and its entry. -/
def EntryOf (child : String × Slot Element) (entry : Bytes × Term) : Prop :=
  entry.1 = Bytes.encode child.1 ∧ ofSlot? child.2 = some entry.2

theorem ofChildren?_eq_some_iff {children : List (String × Slot Element)} :
    ofChildren? children = some c ↔ List.Forall₂ EntryOf children c := by
  induction children generalizing c with
  | nil => simp [ofChildren?, eq_comm]
  | cons child children ih =>
    have hcons : ofChildren? (child :: children) = (ofSlot? child.2).bind fun term =>
        (ofChildren? children).bind fun entries =>
          some ((Bytes.encode child.1, term) :: entries) := by
      rw [ofChildren?]
      rfl
    simp only [hcons, Option.bind_eq_some_iff, ih, List.forall₂_cons_left_iff, EntryOf]
    constructor
    · rintro ⟨term, hterm, entries, hentries, he⟩
      exact ⟨_, entries, ⟨rfl, hterm⟩, hentries, (Option.some.inj he).symm⟩
    · rintro ⟨⟨key, term⟩, entries, ⟨rfl, hterm⟩, hentries, rfl⟩
      exact ⟨term, hterm, entries, hentries, rfl⟩

theorem keys_of_ofChildren? {children : List (String × Slot Element)}
    (h : ofChildren? children = some c) :
    c.map (·.1) = (Entries.names children).map Bytes.encode := by
  rw [ofChildren?_eq_some_iff] at h
  induction h with
  | nil => rfl
  | cons hentry _ ih => rw [List.map_cons, ih, hentry.1, Entries.names_cons, List.map_cons]

theorem ofContents?_cons_eq_some_iff {value : Content Element} {values : List (Content Element)}
    {terms : List Term} : ofContents? (value :: values) = some terms ↔
      ∃ term rest, ofContent? value = some term ∧ ofContents? values = some rest ∧
        terms = term :: rest := by
  have hcons : ofContents? (value :: values) = (ofContent? value).bind fun term =>
      (ofContents? values).bind fun rest => some (term :: rest) := by
    rw [ofContents?]
    rfl
  simp only [hcons, Option.bind_eq_some_iff, Option.some.injEq, eq_comm (b := terms),
    exists_and_left]

/-- The term of a slot that collects is a list. -/
theorem ofSlot?_many_eq_some_iff {values : List (Content Element)} :
    ofSlot? (.many values) = some t ↔
      ∃ terms, ofContents? values = some terms ∧ t = .list terms := by
  have hmany : ofSlot? (.many values) =
      (ofContents? values).bind fun terms => some (.list terms) := by
    rw [ofSlot?]
    rfl
  simp only [hmany, Option.bind_eq_some_iff, Option.some.injEq, eq_comm (b := t)]

theorem ofNodes?_some_eq_some_iff {nodes : List (Content Element)} :
    ofNodes? (some nodes) = some b ↔
      ∃ terms, ofContents? nodes = some terms ∧ b = [(nodesKey, .list terms)] := by
  have hsome : ofNodes? (some nodes) =
      (ofContents? nodes).bind fun terms => some [(nodesKey, .list terms)] := by
    rw [ofNodes?]
    rfl
  simp only [hsome, Option.bind_eq_some_iff, Option.some.injEq, eq_comm (b := b)]

/-- An attribute in the map of attributes. -/
def attributePair (pair : String × String) : Bytes × Term :=
  (Bytes.encode pair.1, ofString pair.2)

theorem attributePair_injective : Function.Injective attributePair := by
  intro pair pair' h
  exact Prod.ext (Bytes.encode_injective (congrArg (·.1) h)) (ofString_inj.1 (congrArg (·.2) h))

/-- There is a map of attributes if none is there twice. -/
theorem exists_attributeEntry? (h : (Entries.names attributes).Nodup) :
    ∃ a, attributeEntry? attributes = some a := by
  have hkeys : ((attributes.map attributePair).map (·.1)).Nodup := by
    have hmap := h.map fun _ _ => Bytes.encode_injective
    rw [Entries.names, List.map_map] at hmap
    rw [List.map_map]
    exact hmap
  have hmap : ofAttributes? attributes = some (.map (attributes.map attributePair)) :=
    map?_eq_some hkeys
  rw [ attributeEntry?, hmap]
  split <;> exact ⟨_, rfl⟩

theorem attributeEntry?_keys (h : attributeEntry? attributes = some a) :
    (a.map (·.1)).Sublist [attributesKey] := by
  rw [ attributeEntry?] at h
  split at h
  · cases h
    exact List.nil_sublist _
  · obtain ⟨term, -, rfl⟩ := Option.map_eq_some_iff.1 h
    exact .refl _

theorem textEntry_keys (text : String) : ((textEntry text).map (·.1)).Sublist [textKey] := by
  rw [textEntry]
  split
  · exact List.nil_sublist _
  · exact .refl _

theorem ofNodes?_keys {nodes : Option (List (Content Element))} (h : ofNodes? nodes = some a) :
    (a.map (·.1)).Sublist [nodesKey] := by
  cases nodes with
  | none =>
    cases h
    exact List.nil_sublist _
  | some nodes =>
    obtain ⟨terms, -, rfl⟩ := ofNodes?_some_eq_some_iff.1 h
    exact .refl _

theorem nameEntry_same_iff : SameMap (nameEntry name) (nameEntry name') ↔ name = name' :=
  SameMap.singleton_iff.trans ofString_same_iff

theorem textEntry_same_iff : SameMap (textEntry text) (textEntry text') ↔ text = text' := by
  by_cases h : text = ""
  · by_cases h' : text' = ""
    · rw [h, h']
      exact iff_of_true .nil rfl
    · have hne : text ≠ text' := fun heq => h' (heq ▸ h)
      simp [textEntry, h, h', Ne.symm h', SameMap.not_nil_cons]
  · by_cases h' : text' = ""
    · simp [textEntry, h, h', SameMap.not_cons_nil]
    · simp [textEntry, h, h', SameMap.singleton_iff, ofString_same_iff]

/-- Attributes that are texts are the same exactly if they are equal. -/
theorem attributePair_sameEntries_iff :
    SameEntries (attributes.map attributePair) b ↔ attributes.map attributePair = b := by
  induction attributes generalizing b with
  | nil => cases b <;> simp [SameEntries]
  | cons pair attributes ih =>
    cases b with
    | nil => simp [SameEntries]
    | cons entry b =>
      rw [List.map_cons, List.cons.injEq, ← ih, attributePair, SameEntries, ofString_same_term_iff,
        Prod.ext_iff, and_assoc]

theorem attributeEntry?_same_iff (h : attributeEntry? attributes = some a)
    (h' : attributeEntry? attributes' = some b) : SameMap a b ↔ attributes.Perm attributes' := by
  have hcases {as : Attributes} {e : List (Bytes × Term)} (he : attributeEntry? as = some e) :
      as = [] ∧ e = [] ∨ as ≠ [] ∧ e = [(attributesKey, .map (as.map attributePair))] := by
    rw [ attributeEntry?] at he
    split at he
    · next hempty => exact .inl ⟨List.isEmpty_iff.1 hempty, (Option.some.inj he).symm⟩
    · next hne =>
      obtain ⟨term, hterm, rfl⟩ := Option.map_eq_some_iff.1 he
      refine .inr ⟨fun hnil => hne (List.isEmpty_iff.2 hnil), ?_⟩
      rw [eq_map_of_map? hterm]
      rfl
  rcases hcases h with ⟨rfl, rfl⟩ | ⟨hne, rfl⟩ <;> rcases hcases h' with ⟨rfl, rfl⟩ | ⟨hne', rfl⟩
  · exact iff_of_true .nil (.refl _)
  · exact iff_of_false SameMap.not_nil_cons fun hp => hne' (List.nil_perm.1 hp)
  · exact iff_of_false SameMap.not_cons_nil fun hp => hne (List.perm_nil.1 hp)
  · rw [SameMap.singleton_iff, ← List.map_perm_map_iff attributePair_injective]
    constructor
    · rintro ⟨r, hr, hs⟩
      rwa [attributePair_sameEntries_iff.1 hs]
    · intro hp
      exact ⟨_, hp, attributePair_sameEntries_iff.2 rfl⟩

/-- The map for an element, in parts. -/
theorem ofElement?_parts (name text : String) {children : List (String × Slot Element)}
    {nodes : Option (List (Content Element))} (hkeys : ∀ key ∈ Entries.names children, ¬ Reserved key)
    (ha : attributeEntry? attributes = some a) (hb : ofNodes? nodes = some b)
    (hc : ofChildren? children = some c) :
    ∃ p : Parts, p.name = nameEntry name ∧ p.attributes = a ∧ p.text = textEntry text ∧
      p.nodes = b ∧ p.children = c ∧
      ofElement? ⟨name, attributes, children, text, nodes⟩ = map? p.entries := by
  have hchildren : ∀ key ∈ c.map (·.1), isReserved key = false := by
    rw [keys_of_ofChildren? hc]
    intro key hkey
    obtain ⟨child, hchild, rfl⟩ := List.mem_map.1 hkey
    exact isReserved_encode (hkeys child hchild)
  refine ⟨⟨nameEntry name, a, textEntry text, b, c, .refl _, attributeEntry?_keys ha,
    textEntry_keys text, ofNodes?_keys hb, hchildren⟩, rfl, rfl, rfl, rfl, rfl, ?_⟩
  rw [ofElement?, ha, hb, hc]
  rfl

/-! ### There is a term for every element -/

mutual

theorem exists_ofElement? : ∀ (e : Element), e.WellKeyed → ∃ t, ofElement? e = some t
  | ⟨name, attributes, children, text, nodes⟩, h => by
    obtain ⟨hattributes, hnodup, hkeys, hnodes, hchildren⟩ := h
    obtain ⟨a, ha⟩ := exists_attributeEntry? hattributes
    obtain ⟨b, hb⟩ := exists_ofNodes? nodes hnodes
    obtain ⟨c, hc⟩ := exists_ofChildren? children hchildren
    obtain ⟨p, -, -, -, -, hp, he⟩ := ofElement?_parts name text hkeys ha hb hc
    refine ⟨_, he.trans (map?_eq_some (p.nodup_keys ?_))⟩
    rw [hp, keys_of_ofChildren? hc]
    exact hnodup.map fun _ _ => Bytes.encode_injective

theorem exists_ofNodes? : ∀ nodes, NodesKeyed nodes → ∃ b, ofNodes? nodes = some b
  | none, _ => ⟨_, rfl⟩
  | some nodes, h => by
    obtain ⟨terms, hterms⟩ := exists_ofContents? nodes h
    exact ⟨_, ofNodes?_some_eq_some_iff.2 ⟨terms, hterms, rfl⟩⟩

theorem exists_ofChildren? : ∀ children, ChildrenKeyed children → ∃ c, ofChildren? children = some c
  | [], _ => ⟨_, rfl⟩
  | (name, slot) :: children, h => by
    obtain ⟨term, hterm⟩ := exists_ofSlot? slot h.1
    obtain ⟨c, hc⟩ := exists_ofChildren? children h.2
    exact ⟨_, by rw [ofChildren?, hterm, hc]; rfl⟩

theorem exists_ofSlot? : ∀ slot, SlotKeyed slot → ∃ t, ofSlot? slot = some t
  | .one value, h => exists_ofContent? value h
  | .many values, h => by
    obtain ⟨terms, hterms⟩ := exists_ofContents? values h
    exact ⟨_, ofSlot?_many_eq_some_iff.2 ⟨terms, hterms, rfl⟩⟩

theorem exists_ofContents? : ∀ values, ContentsKeyed values → ∃ ts, ofContents? values = some ts
  | [], _ => ⟨_, rfl⟩
  | value :: values, h => by
    obtain ⟨term, hterm⟩ := exists_ofContent? value h.1
    obtain ⟨terms, hterms⟩ := exists_ofContents? values h.2
    exact ⟨_, ofContents?_cons_eq_some_iff.2 ⟨term, terms, hterm, hterms, rfl⟩⟩

theorem exists_ofContent? : ∀ value, ContentKeyed value → ∃ t, ofContent? value = some t
  | .text _, _ => ⟨_, rfl⟩
  | .element e, h => exists_ofElement? e h

end

/-! ### The terms are the same where the elements are alike -/

/-- The term of an element is a map. -/
theorem exists_map_of_ofElement? {e : Element} (h : ofElement? e = some t) :
    ∃ entries, t = .map entries := by
  obtain ⟨name, attributes, children, text, nodes⟩ := e
  simp only [ofElement?, Option.bind_eq_bind, Option.bind_eq_some_iff] at h
  obtain ⟨a, -, b, -, c, -, h⟩ := h
  exact ⟨_, eq_map_of_map? h⟩

/-- The term of a value is not a list. -/
theorem not_same_list_of_ofContent? {value : Content Element} (h : ofContent? value = some s)
    (terms : List Term) : ¬ Same s (.list terms) ∧ ¬ Same (.list terms) s := by
  cases value with
  | text text =>
    cases h
    exact ⟨id, id⟩
  | element e =>
    obtain ⟨entries, rfl⟩ := exists_map_of_ofElement? h
    exact ⟨id, id⟩

/-- Children are compared up to their order if they can be compared in every order. -/
theorem ofChildren?_sameMap_iff {children children' : List (String × Slot Element)}
    (hkeyed : ChildrenKeyed children') (hd : ofChildren? children' = some d)
    (h : ∀ reordered r, ChildrenKeyed reordered → ofChildren? reordered = some r →
      (SameEntries c r ↔ ChildrenAlike children reordered)) :
    SameMap c d ↔ ∃ reordered, reordered.Perm children' ∧ ChildrenAlike children reordered := by
  rw [ofChildren?_eq_some_iff] at hd
  have hperm {reordered : List (String × Slot Element)} (hp : reordered.Perm children') :
      ChildrenKeyed reordered :=
    childrenKeyed_iff.2 fun child hchild => childrenKeyed_iff.1 hkeyed child (hp.subset hchild)
  constructor
  · rintro ⟨r, hr, hs⟩
    obtain ⟨reordered, hp, he⟩ := List.perm_comp_forall₂ hr hd.flip
    have hentries := ofChildren?_eq_some_iff.2 hp.flip
    exact ⟨reordered, he, (h reordered r (hperm he) hentries).1 hs⟩
  · rintro ⟨reordered, hp, halike⟩
    obtain ⟨r, hr, hd'⟩ := List.perm_comp_forall₂ hp hd
    exact ⟨r, hd', (h reordered r (hperm hp) (ofChildren?_eq_some_iff.2 hr)).2 halike⟩

mutual

theorem ofElement?_same_iff : ∀ (e f : Element) {s t : Term}, e.WellKeyed → f.WellKeyed →
    ofElement? e = some s → ofElement? f = some t → (Same s t ↔ e.Alike f)
  | ⟨name, attributes, children, text, nodes⟩, ⟨name', attributes', children', text', nodes'⟩,
      s, t, h, h', hs, ht => by
    obtain ⟨hattributes, -, hkeys, hnodes, hchildren⟩ := h
    obtain ⟨hattributes', -, hkeys', hnodes', hchildren'⟩ := h'
    obtain ⟨a, ha⟩ := exists_attributeEntry? hattributes
    obtain ⟨a', ha'⟩ := exists_attributeEntry? hattributes'
    obtain ⟨b, hb⟩ := exists_ofNodes? nodes hnodes
    obtain ⟨b', hb'⟩ := exists_ofNodes? nodes' hnodes'
    obtain ⟨c, hc⟩ := exists_ofChildren? children hchildren
    obtain ⟨c', hc'⟩ := exists_ofChildren? children' hchildren'
    obtain ⟨p, hpn, hpa, hpt, hpb, hpc, he⟩ :=
      ofElement?_parts name text hkeys ha hb hc
    obtain ⟨q, hqn, hqa, hqt, hqb, hqc, hf⟩ :=
      ofElement?_parts name' text' hkeys' ha' hb' hc'
    have hmaps : Same s t ↔ SameMap p.entries q.entries := by
      rw [eq_map_of_map? (he.symm.trans hs), eq_map_of_map? (hf.symm.trans ht), Same]
      rfl
    have hslots := ofChildren?_sameMap_iff hchildren' hc' fun reordered r hkeyed hr =>
      ofChildren?_same_iff children reordered hchildren hkeyed hc hr
    rw [hmaps, Parts.sameMap_iff, hpn, hqn, hpa, hqa, hpt, hqt, hpb, hqb, hpc, hqc,
      nameEntry_same_iff, attributeEntry?_same_iff ha ha', textEntry_same_iff,
      ofNodes?_same_iff nodes nodes' hnodes hnodes' hb hb', hslots, Alike]

theorem ofNodes?_same_iff : ∀ nodes nodes' {b b' : List (Bytes × Term)}, NodesKeyed nodes →
    NodesKeyed nodes' → ofNodes? nodes = some b → ofNodes? nodes' = some b' →
    (SameMap b b' ↔ NodesAlike nodes nodes')
  | none, none, b, b', _, _, hb, hb' => by
    cases hb
    cases hb'
    exact iff_of_true .nil trivial
  | none, some nodes', b, b', _, _, hb, hb' => by
    obtain ⟨terms', -, rfl⟩ := ofNodes?_some_eq_some_iff.1 hb'
    cases hb
    exact iff_of_false SameMap.not_nil_cons id
  | some nodes, none, b, b', _, _, hb, hb' => by
    obtain ⟨terms, -, rfl⟩ := ofNodes?_some_eq_some_iff.1 hb
    cases hb'
    exact iff_of_false SameMap.not_cons_nil id
  | some nodes, some nodes', b, b', h, h', hb, hb' => by
    obtain ⟨terms, hterms, rfl⟩ := ofNodes?_some_eq_some_iff.1 hb
    obtain ⟨terms', hterms', rfl⟩ := ofNodes?_some_eq_some_iff.1 hb'
    exact SameMap.singleton_iff.trans (ofContents?_same_iff nodes nodes' h h' hterms hterms')

theorem ofChildren?_same_iff : ∀ children children' {c c' : List (Bytes × Term)},
    ChildrenKeyed children → ChildrenKeyed children' → ofChildren? children = some c →
    ofChildren? children' = some c' → (SameEntries c c' ↔ ChildrenAlike children children')
  | [], [], c, c', _, _, hc, hc' => by
    cases hc
    cases hc'
    exact iff_of_true trivial trivial
  | [], child' :: children', c, c', _, h', hc, hc' => by
    cases hc
    obtain ⟨entry, rest, -, -, rfl⟩ := List.forall₂_cons_left_iff.1 (ofChildren?_eq_some_iff.1 hc')
    exact iff_of_false id id
  | child :: children, [], c, c', h, _, hc, hc' => by
    cases hc'
    obtain ⟨entry, rest, -, -, rfl⟩ := List.forall₂_cons_left_iff.1 (ofChildren?_eq_some_iff.1 hc)
    exact iff_of_false id id
  | (name, slot) :: children, (name', slot') :: children', c, c', h, h', hc, hc' => by
    obtain ⟨⟨key, s⟩, rest, ⟨rfl, hs⟩, hrest, rfl⟩ :=
      List.forall₂_cons_left_iff.1 (ofChildren?_eq_some_iff.1 hc)
    obtain ⟨⟨key', t⟩, rest', ⟨rfl, ht⟩, hrest', rfl⟩ :=
      List.forall₂_cons_left_iff.1 (ofChildren?_eq_some_iff.1 hc')
    rw [SameEntries, ChildrenAlike, ofSlot?_same_iff slot slot' h.1 h'.1 hs ht,
      ofChildren?_same_iff children children' h.2 h'.2 (ofChildren?_eq_some_iff.2 hrest)
        (ofChildren?_eq_some_iff.2 hrest')]
    exact and_congr_left' ⟨fun h => Bytes.encode_injective h, congrArg _⟩

theorem ofSlot?_same_iff : ∀ slot slot' {s t : Term}, SlotKeyed slot → SlotKeyed slot' →
    ofSlot? slot = some s → ofSlot? slot' = some t → (Same s t ↔ SlotAlike slot slot')
  | .one value, .one value', s, t, h, h', hs, ht => ofContent?_same_iff value value' h h' hs ht
  | .one value, .many values', s, t, _, _, hs, ht => by
    obtain ⟨terms', -, rfl⟩ := ofSlot?_many_eq_some_iff.1 ht
    exact iff_of_false (not_same_list_of_ofContent? hs terms').1 id
  | .many values, .one value', s, t, _, _, hs, ht => by
    obtain ⟨terms, -, rfl⟩ := ofSlot?_many_eq_some_iff.1 hs
    exact iff_of_false (not_same_list_of_ofContent? ht terms).2 id
  | .many values, .many values', s, t, h, h', hs, ht => by
    obtain ⟨terms, hterms, rfl⟩ := ofSlot?_many_eq_some_iff.1 hs
    obtain ⟨terms', hterms', rfl⟩ := ofSlot?_many_eq_some_iff.1 ht
    exact ofContents?_same_iff values values' h h' hterms hterms'

theorem ofContents?_same_iff : ∀ values values' {ss ts : List Term}, ContentsKeyed values →
    ContentsKeyed values' → ofContents? values = some ss → ofContents? values' = some ts →
    (SameAll ss ts ↔ ContentsAlike values values')
  | [], [], ss, ts, _, _, hs, ht => by
    cases hs
    cases ht
    exact iff_of_true trivial trivial
  | [], value' :: values', ss, ts, _, _, hs, ht => by
    obtain ⟨term', rest', -, -, rfl⟩ := ofContents?_cons_eq_some_iff.1 ht
    cases hs
    exact iff_of_false id id
  | value :: values, [], ss, ts, _, _, hs, ht => by
    obtain ⟨term, rest, -, -, rfl⟩ := ofContents?_cons_eq_some_iff.1 hs
    cases ht
    exact iff_of_false id id
  | value :: values, value' :: values', ss, ts, h, h', hs, ht => by
    obtain ⟨term, rest, hvalue, hterms, rfl⟩ := ofContents?_cons_eq_some_iff.1 hs
    obtain ⟨term', rest', hvalue', hterms', rfl⟩ := ofContents?_cons_eq_some_iff.1 ht
    rw [SameAll, ContentsAlike, ofContent?_same_iff value value' h.1 h'.1 hvalue hvalue',
      ofContents?_same_iff values values' h.2 h'.2 hterms hterms']

theorem ofContent?_same_iff : ∀ value value' {s t : Term}, ContentKeyed value →
    ContentKeyed value' → ofContent? value = some s → ofContent? value' = some t →
    (Same s t ↔ ContentAlike value value')
  | .text text, .text text', s, t, _, _, hs, ht => by
    cases hs
    cases ht
    exact ofString_same_iff
  | .text text, .element f, s, t, _, _, hs, ht => by
    obtain ⟨entries, rfl⟩ := exists_map_of_ofElement? ht
    cases hs
    exact iff_of_false id id
  | .element e, .text text', s, t, _, _, hs, ht => by
    obtain ⟨entries, rfl⟩ := exists_map_of_ofElement? hs
    cases ht
    exact iff_of_false id id
  | .element e, .element f, s, t, h, h', hs, ht => ofElement?_same_iff e f h h' hs ht

end

end Term

/-! ### The main theorem -/

namespace Term

open Element

/-- Nothing of an element is lost in its term.  The names in a document are not reserved.  There is a
term for every element whose attributes and keys of children are each there once and of which no
key, at any depth, is reserved; and the terms of two such elements are the same exactly if the
elements are equal up to the order of attributes and of keys. -/
theorem exists_same_iff_alike :
    (∀ (document : Bytes) (name : String) (attributes : Attributes),
      .startTag name attributes ∈ (Document.transcript document).tokens → ¬ Reserved name) ∧
    ∀ e f : Element, e.WellKeyed → f.WellKeyed →
      ∃ s t, ofElement? e = some s ∧ ofElement? f = some t ∧ (Same s t ↔ e.Alike f) := by
  refine ⟨fun document name attributes h => ?_, fun e f he hf => ?_⟩
  · exact not_reserved_of_isName (Document.transcript_proper document _ h).1
  · obtain ⟨s, hs⟩ := exists_ofElement? e he
    obtain ⟨t, ht⟩ := exists_ofElement? f hf
    exact ⟨s, t, hs, ht, ofElement?_same_iff e f he hf hs ht⟩

/-- An element with attributes, a text, nodes, a collected child and a child with an attribute, and the
same element with its attributes and its keys in the other order. -/
theorem exists_same_iff_alike_reordered :
    let child : Element := { name := "c", attributes := [("z", "3")], text := "v" }
    let e : Element :=
      { name := "a", attributes := [("x", "1"), ("y", "2")],
        children := [("b", .many [.text "t"]), ("c", .one (.element child))],
        text := "w", nodes := some [.text "w", .element child] }
    let f : Element :=
      { e with attributes := [("y", "2"), ("x", "1")],
               children := [("c", .one (.element child)), ("b", .many [.text "t"])] }
    (e.WellKeyed ∧ f.WellKeyed) ∧
      ∃ s t, ofElement? e = some s ∧ ofElement? f = some t ∧ (Same s t ↔ e.Alike f) := by
  intro child e f
  have he : e.WellKeyed := by
    simp [e, child, WellKeyed, NodesKeyed, ContentsKeyed, ContentKeyed, ChildrenKeyed, SlotKeyed,
      Entries.names, Reserved]
  have hf : f.WellKeyed := by
    simp [f, e, child, WellKeyed, NodesKeyed, ContentsKeyed, ContentKeyed, ChildrenKeyed, SlotKeyed,
      Entries.names, Reserved]
  exact ⟨⟨he, hf⟩, exists_same_iff_alike.2 e f he hf⟩

end Term

end XmlSieve
