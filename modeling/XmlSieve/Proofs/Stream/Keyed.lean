import XmlSieve.Proofs.Element.Keys
import XmlSieve.Proofs.Stream.Tasks

/-!
# Elements under assembly are well-keyed

Whatever is registered and when, the elements that are open and the container of the root are
well-keyed (`Assembly.Keyed`), as long as listeners leave them so: a task finds them so
(`task_keyed`), and what is done when its effects have run keeps them so (`completed_keyed`).
-/

namespace XmlSieve

variable {σ : Type}

/-- An element that is well-keyed and has a name that can be written. -/
structure Element.Proper (e : Element) : Prop where
  name : isName e.name = true
  keyed : e.WellKeyed

namespace Element.Proper

variable {e : Element}

theorem not_reserved (h : e.Proper) : ¬ Reserved e.name := not_reserved_of_isName h.name

theorem opened {name : String} {attributes : Attributes} (hname : isName name = true)
    (hattributes : attributes.Proper) (parentPath : String) :
    (Frame.opened parentPath name attributes).element.Proper :=
  ⟨hname, wellKeyed_iff.2 ⟨hattributes.nodup, List.nodup_nil, by simp [Frame.opened, Entries.names],
    trivial, trivial⟩⟩

theorem startNodes {frame : Frame} (h : frame.element.Proper) : frame.startNodes.element.Proper := by
  obtain ⟨hattributes, hnodup, hkeys, -, hchildren⟩ := wellKeyed_iff.1 h.keyed
  exact ⟨h.name, wellKeyed_iff.2 ⟨hattributes, hnodup, hkeys, trivial, hchildren⟩⟩

theorem addText {frame : Frame} (h : frame.element.Proper) (a : Assembly σ) (chunk : String) :
    (a.addText frame chunk).element.Proper := by
  have hadded : (if a.verbatim > 0 then frame.addVerbatim chunk
      else frame.addCollapsed chunk).element.Proper := by
    split <;> exact ⟨h.name, h.keyed.congr rfl rfl rfl⟩
  unfold Assembly.addText
  dsimp only
  generalize (if a.verbatim > 0 then frame.addVerbatim chunk else frame.addCollapsed chunk) = added
    at hadded ⊢
  generalize (if a.verbatim > 0 then chunk else trim chunk) = node
  split
  · exact ⟨hadded.name, hadded.keyed.addNode trivial⟩
  · exact hadded

end Element.Proper

namespace Assembly

variable {a b : Assembly σ} {frame : Frame} {token : Token} {task : Task σ}

/-- The container of the root and the open elements are well-keyed. -/
structure Keyed (a : Assembly σ) : Prop where
  document : a.document.WellKeyed
  frames : ∀ frame ∈ a.frames, frame.element.Proper

theorem Keyed.same (h : a.Keyed) (hs : SameSetting a b) : b.Keyed := by
  refine ⟨?_, ?_⟩
  · rw [hs.document]
    exact h.document
  · rw [hs.frames]
    exact h.frames

theorem Keyed.create (env : σ) : (Stream.create env).assembly.Keyed :=
  ⟨Element.wellKeyed_iff.2 ⟨List.nodup_nil, List.nodup_nil, by simp [Stream.create, Entries.names],
    trivial, trivial⟩, by simp [Stream.create]⟩

/-- Registering leaves elements alone. -/
theorem Keyed.register {s : Stream σ} (h : s.assembly.Keyed) (r : Registration σ) :
    (s.register r).assembly.Keyed := by
  have hframes := (s.register_input r).2.2.1
  have hdocument : (s.register r).assembly.document = s.assembly.document :=
    (s.register_output r).2.2.2.2
  refine ⟨?_, ?_⟩
  · rw [hdocument]
    exact h.document
  · rw [hframes]
    exact h.frames

theorem Keyed.modifyParent (h : a.Keyed) {f : Element → Element} (hname : ∀ e, (f e).name = e.name)
    (hkeyed : ∀ e : Element, e.WellKeyed → (f e).WellKeyed) : (a.modifyParent f).Keyed := by
  unfold Assembly.modifyParent
  cases hframes : a.frames with
  | nil => exact ⟨hkeyed _ h.document, by simp⟩
  | cons frame outer =>
    have hall := h.frames
    rw [hframes] at hall
    obtain ⟨hframe, houter⟩ := List.forall_mem_cons.1 hall
    have hnamed : isName (f frame.element).name = true := by
      rw [hname]
      exact hframe.name
    exact ⟨h.document, List.forall_mem_cons.2 ⟨⟨hnamed, hkeyed _ hframe.keyed⟩, houter⟩⟩

/-- A token that can be written finds well-keyed elements around its own, which is so too. -/
theorem task_keyed (h : a.Keyed) (hproper : token.Proper) (htask : a.task? token = some task) :
    task.assembly.Keyed ∧ task.frame.element.Proper := by
  rcases task_cases htask with ⟨name, attributes, rfl, rfl⟩ |
    ⟨chunk, frame, outer, rfl, hframes, rfl⟩ |
    ⟨name, frame, outer, set, sets, rfl, hframes, -, rfl⟩
  · exact ⟨⟨h.document, h.frames⟩, .opened hproper.1 hproper.2 a.path⟩
  · have hall := h.frames
    rw [hframes] at hall
    obtain ⟨hframe, houter⟩ := List.forall_mem_cons.1 hall
    exact ⟨⟨h.document, houter⟩, hframe.addText a chunk⟩
  · have hall := h.frames
    rw [hframes] at hall
    obtain ⟨hframe, houter⟩ := List.forall_mem_cons.1 hall
    exact ⟨⟨h.document, houter⟩, hframe⟩

/-- What is done when effects have run keeps elements well-keyed. -/
theorem completed_keyed (h : a.Keyed) (hframe : frame.element.Proper) (token : Token) :
    (completed (a, frame) token).Keyed := by
  cases token with
  | startTag name attributes =>
    have hstarted : (if a.preserving > 0 then frame.startNodes else frame).element.Proper := by
      split
      · exact hframe.startNodes
      · exact hframe
    simp only [completed, pushFrame]
    generalize (if a.preserving > 0 then frame.startNodes else frame) = frame at hstarted
    have hopened : (a.modifyParent (·.openChild frame.element.name frame.collected)).Keyed :=
      h.modifyParent (fun _ => rfl) fun e he => he.openChild hstarted.not_reserved frame.collected
    have hemitted := hopened.same
      (emit_same _ (Markup.startTag frame.element.name frame.element.attributes))
    exact ⟨hemitted.document, List.forall_mem_cons.2 ⟨hstarted, hemitted.frames⟩⟩
  | text chunk =>
    have hpushed : Keyed { a with frames := frame :: a.frames } :=
      ⟨h.document, List.forall_mem_cons.2 ⟨hframe, h.frames⟩⟩
    exact hpushed.same (emit_same _ _)
  | endTag name =>
    refine (h.modifyParent (fun e => ?_) fun e he => ?_).same (emit_same _ _)
    · split <;> rfl
    · refine Element.WellKeyed.closeChild ?_ hframe.not_reserved _
        (Element.contentKeyed_toContent hframe.keyed)
      split
      · exact he.addNode hframe.keyed
      · exact he

end Assembly

end XmlSieve
