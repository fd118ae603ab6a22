import XmlSieve.Proofs.Token.Asides

/-!
# Document type declarations

A document type declaration (`IsDoctype`) may have an internal subset in brackets, with markup
declarations, comments and processing instructions in it.  Looking for the end of the declaration
keeps count of literals and brackets (`Bytes.declarationStateFrom?`), but knows nothing of the
comments and instructions in the subset.  Where these leave no literal and no bracket open that was
not open before (`Bytes.IsSettled`), the end is the `>` that closes the declaration
(`Construct.cut?_doctype`), and the declaration is transparent before the root
(`Document.accepted_doctype`).  An apostrophe in a comment may hide the end
(`Document.not_accepted_doctype`).
-/

namespace XmlSieve

namespace Bytes

variable {under : Option UInt8} {depth : Nat} {front back : Bytes}

/-! ### Looking for the end of a declaration -/

/-- Where looking for the end of a declaration stands after these bytes: under which quote a literal
is open, and how many brackets are.  There is no answer if the end was among the bytes. -/
def declarationStateFrom? (under : Option UInt8) (depth : Nat) :
    Bytes → Option (Option UInt8 × Nat)
  | [] => some (under, depth)
  | b :: bs =>
    if under.isNone && depth == 0 && b == Byte.closeAngle then none
    else
      declarationStateFrom? (quoteAfter under b)
        (if under.isNone then bracketsAfter depth b else depth) bs

theorem declarationStateFrom?_append (front back : Bytes) :
    declarationStateFrom? under depth (front ++ back) =
      (declarationStateFrom? under depth front).bind fun state =>
        declarationStateFrom? state.1 state.2 back := by
  induction front generalizing under depth with
  | nil => rfl
  | cons b front ih =>
    rw [List.cons_append, declarationStateFrom?, declarationStateFrom?]
    split
    · rfl
    · exact ih

/-- Looking for the end goes on from where it stands. -/
theorem declarationEndFrom?_of_state {under' : Option UInt8} {depth' : Nat}
    (h : declarationStateFrom? under depth front = some (under', depth')) (back : Bytes) :
    declarationEndFrom? under depth (front ++ back) =
      (declarationEndFrom? under' depth' back).map (front.length + ·) := by
  induction front generalizing under depth with
  | nil =>
    cases h
    simp
  | cons b front ih =>
    rw [declarationStateFrom?] at h
    rw [List.cons_append, declarationEndFrom?]
    split at h
    · cases h
    · next hb =>
      simp only [if_neg hb, ih h, Option.map_map]
      congr 1
      funext n
      simp only [Function.comp_apply, List.length_cons]
      omega

/-- A comment or an instruction in the subset of a declaration that leaves no literal and no bracket
open that was not open before. -/
def IsSettled (body : Bytes) : Prop := declarationStateFrom? none 1 body = some (none, 1)

instance (body : Bytes) : Decidable (IsSettled body) :=
  inferInstanceAs (Decidable (_ = _))

/-- Outside literals, a byte that is neither a quote nor a bracket leaves all as it stands, unless
it is the end. -/
theorem declarationStateFrom?_cons {b : UInt8} (hquote : b ≠ Byte.quote ∧ b ≠ Byte.apostrophe)
    (hbracket : b ≠ Byte.openBracket ∧ b ≠ Byte.closeBracket)
    (hclose : depth = 0 → b ≠ Byte.closeAngle) (bs : Bytes) :
    declarationStateFrom? none depth (b :: bs) = declarationStateFrom? none depth bs := by
  have hend : ¬ ((none : Option UInt8).isNone && depth == 0 && b == Byte.closeAngle) = true := by
    simpa using hclose
  rw [declarationStateFrom?, if_neg hend]
  simp [quoteAfter, bracketsAfter, hquote, hbracket]

/-- What has no quotes and no brackets in it is settled. -/
theorem isSettled_of_forall {body : Bytes}
    (h : ∀ b ∈ body, (b ≠ Byte.quote ∧ b ≠ Byte.apostrophe) ∧
      b ≠ Byte.openBracket ∧ b ≠ Byte.closeBracket) : IsSettled body := by
  induction body with
  | nil => rfl
  | cons b body ih =>
    obtain ⟨hquote, hbracket⟩ := h b (by simp)
    rw [IsSettled, declarationStateFrom?_cons hquote hbracket (by simp)]
    exact ih fun x hx => h x (by simp [hx])

/-- Within a literal, all but its quote is passed over. -/
theorem declarationStateFrom?_literal {q : UInt8} {value : Bytes} (h : q ∉ value) (bs : Bytes) :
    declarationStateFrom? (some q) depth (value ++ q :: bs) =
      declarationStateFrom? none depth bs := by
  induction value with
  | nil => simp [declarationStateFrom?, quoteAfter]
  | cons b value ih =>
    simp only [List.mem_cons, not_or] at h
    have hb : (b == q) = false := beq_false_of_ne (Ne.symm h.1)
    rw [List.cons_append, declarationStateFrom?]
    simpa [quoteAfter, hb] using ih h.2

end Bytes

namespace Markup

/-! ### Document type declarations -/

/-- What may stand in a declaration outside literals: all but quotes and brackets of any kind. -/
def isPlainByte (b : UInt8) : Bool :=
  !([Byte.quote, Byte.apostrophe, Byte.openBracket, Byte.closeBracket, Byte.openAngle,
    Byte.closeAngle].contains b)

/-- What a declaration says: names, keywords and other plain bytes, and quoted literals. -/
inductive IsDeclarationText : Bytes → Prop where
  | nil : IsDeclarationText []
  | plain {b : UInt8} {text : Bytes} (hb : isPlainByte b = true) (rest : IsDeclarationText text) :
      IsDeclarationText (b :: text)
  | literal {q : UInt8} {value text : Bytes} (hq : q = Byte.quote ∨ q = Byte.apostrophe)
      (hvalue : q ∉ value) (rest : IsDeclarationText text) :
      IsDeclarationText (q :: value ++ q :: text)

/-- An internal subset: white space and references to parameter entities, markup declarations,
comments and processing instructions, where `asides` are the bodies of the last two. -/
inductive IsSubset : List Bytes → Bytes → Prop where
  | nil : IsSubset [] []
  | separator {b : UInt8} {asides : List Bytes} {rest : Bytes} (hb : isPlainByte b = true)
      (hrest : IsSubset asides rest) : IsSubset asides (b :: rest)
  | declaration {text : Bytes} {asides : List Bytes} {rest : Bytes} (htext : IsDeclarationText text)
      (hrest : IsSubset asides rest) :
      IsSubset asides (Construct.declarationOpen ++ text ++ Byte.closeAngle :: rest)
  | comment {body : Bytes} {asides : List Bytes} {rest : Bytes}
      (hbody : ¬ Bytes.ascii ['-', '-'] <:+: body) (hrest : IsSubset asides rest) :
      IsSubset (body :: asides) (comment body ++ rest)
  | instruction {body : Bytes} {asides : List Bytes} {rest : Bytes}
      (hbody : IsInstructionBody body) (hrest : IsSubset asides rest) :
      IsSubset (body :: asides) (instruction body ++ rest)

def doctypeOpen : Bytes := Bytes.ascii ['<', '!', 'D', 'O', 'C', 'T', 'Y', 'P', 'E']

/-- A document type declaration: the name of the root, with an external identifier or not, is its
text, and it may have an internal subset, with `asides` in it. -/
inductive IsDoctype : List Bytes → Bytes → Prop where
  | external {text : Bytes} (htext : IsDeclarationText text) :
      IsDoctype [] (doctypeOpen ++ text ++ [Byte.closeAngle])
  | internal {text blanks : Bytes} {asides : List Bytes} {subset : Bytes}
      (htext : IsDeclarationText text) (hsubset : IsSubset asides subset)
      (hblanks : ∀ b ∈ blanks, isBlankByte b = true) :
      IsDoctype asides (doctypeOpen ++ text ++ Byte.openBracket :: subset ++
        Byte.closeBracket :: blanks ++ [Byte.closeAngle])

variable {text subset piece : Bytes} {asides : List Bytes} {depth : Nat}

theorem plain_iff {b : UInt8} : isPlainByte b = true ↔
    (b ≠ Byte.quote ∧ b ≠ Byte.apostrophe) ∧ (b ≠ Byte.openBracket ∧ b ≠ Byte.closeBracket) ∧
      b ≠ Byte.openAngle ∧ b ≠ Byte.closeAngle := by
  simp [isPlainByte, and_assoc]

theorem state_plain {b : UInt8} (hb : isPlainByte b = true) (bs : Bytes) :
    Bytes.declarationStateFrom? none depth (b :: bs) =
      Bytes.declarationStateFrom? none depth bs := by
  obtain ⟨hquote, hbracket, -, hclose⟩ := plain_iff.1 hb
  exact Bytes.declarationStateFrom?_cons hquote hbracket (fun _ => hclose) bs

theorem IsDeclarationText.state (h : IsDeclarationText text) :
    Bytes.declarationStateFrom? none depth text = some (none, depth) := by
  induction h with
  | nil => rfl
  | plain hb _ ih => rw [state_plain hb, ih]
  | @literal q value text hq hvalue _ ih =>
    have hopen (bs : Bytes) : Bytes.declarationStateFrom? none depth (q :: bs) =
        Bytes.declarationStateFrom? (some q) depth bs := by
      have hother : q ≠ Byte.closeAngle ∧ q ≠ Byte.openBracket ∧ q ≠ Byte.closeBracket := by
        rcases hq with rfl | rfl <;> decide
      simp [Bytes.declarationStateFrom?, Bytes.quoteAfter, Bytes.bracketsAfter, hq, hother]
    rw [List.cons_append, hopen, Bytes.declarationStateFrom?_literal hvalue, ih]

/-- Plain bytes may stand before what a declaration says. -/
theorem IsDeclarationText.append {front : Bytes} (h : ∀ b ∈ front, isPlainByte b = true)
    (htext : IsDeclarationText text) : IsDeclarationText (front ++ text) := by
  induction front with
  | nil => exact htext
  | cons b front ih => exact .plain (h b (by simp)) (ih fun x hx => h x (by simp [hx]))

/-- Inside brackets, angle brackets, exclamation marks and the like are passed over. -/
theorem state_mark {marks : Bytes} (h : Bytes.IsSettled marks) (bs : Bytes) :
    Bytes.declarationStateFrom? none 1 (marks ++ bs) = Bytes.declarationStateFrom? none 1 bs := by
  rw [Bytes.declarationStateFrom?_append, h]
  rfl

theorem IsSubset.state (h : IsSubset asides subset)
    (hasides : ∀ body ∈ asides, Bytes.IsSettled body) :
    Bytes.declarationStateFrom? none 1 subset = some (none, 1) := by
  induction h with
  | nil => rfl
  | separator hb _ ih => rw [state_plain hb, ih hasides]
  | @declaration text _ rest htext _ ih =>
    rw [List.append_assoc, state_mark (by decide), state_mark htext.state, ← List.singleton_append,
      state_mark (by decide), ih hasides]
  | comment _ _ ih =>
    obtain ⟨hbody, hrest⟩ := List.forall_mem_cons.1 hasides
    rw [Markup.comment, List.append_assoc, List.append_assoc, state_mark (by decide), state_mark hbody,
      state_mark (by decide), ih hrest]
  | instruction _ _ ih =>
    obtain ⟨hbody, hrest⟩ := List.forall_mem_cons.1 hasides
    rw [Markup.instruction, List.append_assoc, List.append_assoc, state_mark (by decide), state_mark hbody,
      state_mark (by decide), ih hrest]

theorem plain_of_blank {b : UInt8} (h : isBlankByte b = true) : isPlainByte b = true := by
  simp only [isBlankByte, Bool.or_eq_true, beq_iff_eq] at h
  rcases h with ((rfl | rfl) | rfl) | rfl <;> decide

theorem state_blanks {blanks : Bytes} (h : ∀ b ∈ blanks, isBlankByte b = true) :
    Bytes.declarationStateFrom? none depth blanks = some (none, depth) := by
  have htext := IsDeclarationText.append (fun b hb => plain_of_blank (h b hb)) .nil
  rw [List.append_nil] at htext
  exact htext.state

/-- Before the `>` that closes a document type declaration, no literal and no bracket is open, and
the end was not found. -/
theorem IsDoctype.exists_state (h : IsDoctype asides piece)
    (hasides : ∀ body ∈ asides, Bytes.IsSettled body) :
    ∃ body, piece = doctypeOpen ++ body ++ [Byte.closeAngle] ∧
      Bytes.declarationStateFrom? none 0 (doctypeOpen ++ body) = some (none, 0) := by
  have hopen (bs : Bytes) : Bytes.declarationStateFrom? none 0 (doctypeOpen ++ bs) =
      Bytes.declarationStateFrom? none 0 bs := by
    rw [Bytes.declarationStateFrom?_append]
    rfl
  cases h with
  | external htext => exact ⟨_, rfl, by rw [hopen, htext.state]⟩
  | @internal text blanks asides subset htext hsubset hblanks =>
    refine ⟨text ++ Byte.openBracket :: subset ++ Byte.closeBracket :: blanks, by simp, ?_⟩
    have hbracket (bs : Bytes) : Bytes.declarationStateFrom? none 0 (Byte.openBracket :: bs) =
        Bytes.declarationStateFrom? none 1 bs := rfl
    have hclose (bs : Bytes) : Bytes.declarationStateFrom? none 1 (Byte.closeBracket :: bs) =
        Bytes.declarationStateFrom? none 0 bs := rfl
    rw [hopen, List.append_assoc, Bytes.declarationStateFrom?_append, htext.state,
      Option.bind_some, List.cons_append, hbracket, state_mark (hsubset.state hasides), hclose,
      state_blanks hblanks]

end Markup

namespace Construct

open Markup

variable {asides : List Bytes} {piece : Bytes}

/-! ### Cutting -/

theorem cut?_of_doctypeOpen (bs : Bytes) :
    cut? true (doctypeOpen ++ bs) =
      (Bytes.declarationEnd? (doctypeOpen ++ bs)).map fun n => (declaration, n + 1) := by
  have hopen : doctypeOpen ++ bs =
      '<'.toUInt8 :: '!'.toUInt8 :: 'D'.toUInt8 :: (Bytes.ascii ['O', 'C', 'T', 'Y', 'P', 'E'] ++ bs) :=
    rfl
  have hcomment : '-'.toUInt8 ≠ 'D'.toUInt8 := by decide
  have hliteral : '['.toUInt8 ≠ 'D'.toUInt8 := by decide
  have hinstruction : '?'.toUInt8 ≠ '!'.toUInt8 := by decide
  rw [hopen, cut?, if_pos (by rfl), cutMarkup?]
  simp [Bytes.isProperPrefix, commentOpen, literalOpen, instructionOpen, declarationOpen,
    Bytes.ascii, hcomment, hliteral, hliteral.symm, hinstruction]

/-- A document type declaration is one construct, to the `>` that closes it. -/
theorem cut?_doctype (h : IsDoctype asides piece) (hasides : ∀ body ∈ asides, Bytes.IsSettled body)
    (bs : Bytes) : cut? true (piece ++ bs) = some (declaration, piece.length) := by
  obtain ⟨body, rfl, hstate⟩ := h.exists_state hasides
  have hend := Bytes.declarationEndFrom?_of_state hstate ([Byte.closeAngle] ++ bs)
  have hclose : Bytes.declarationEndFrom? none 0 ([Byte.closeAngle] ++ bs) = some 0 := rfl
  rw [hclose, Option.map_some, Nat.add_zero] at hend
  have hcut := cut?_of_doctypeOpen (body ++ ([Byte.closeAngle] ++ bs))
  rw [← List.append_assoc, Bytes.declarationEnd?, hend, Option.map_some, ← List.append_assoc] at hcut
  simp only [hcut, List.length_append, List.length_singleton]

end Construct

namespace Document

open Markup

variable {asides : List Bytes} {piece : Bytes}

/-! ### Transparency -/

theorem skips_doctype (h : IsDoctype asides piece)
    (hasides : ∀ body ∈ asides, Bytes.IsSettled body) : Place.prolog.Skips piece where
  opens := by cases h <;> rfl
  skipped := ⟨.declaration, Construct.cut?_doctype h hasides, rfl⟩

/-- A document type declaration, put at a boundary of a document before its root and after its byte
order mark: it is taken to the `>` that closes it, and the document is accepted with the same
tokens.  The comments and instructions in the declaration must have their quotes in pairs, and their
brackets, outside these. -/
theorem accepted_doctype {mark front back : Bytes} {told tokens : List Token}
    (hmark : withoutMark (mark ++ (front ++ back)) = front ++ back)
    (hboundary : Reads .prolog front told .prolog)
    (haccepted : Accepted (mark ++ (front ++ back)) tokens)
    (hpiece : IsDoctype asides piece) (hasides : ∀ body ∈ asides, Bytes.IsSettled body) :
    Construct.cut? true (piece ++ back) = some (.declaration, piece.length) ∧
      Reads .prolog (front ++ piece) told .prolog ∧
      Accepted (mark ++ (front ++ (piece ++ back))) tokens := by
  obtain ⟨halone, tokens', hall, -, heq⟩ :=
    haccepted.insert hmark hboundary (skips_doctype hpiece hasides)
  rw [heq rfl] at hall
  exact ⟨Construct.cut?_doctype hpiece hasides back, halone, hall⟩

theorem accepted_doctype_subset :
    Construct.cut? true (Bytes.encode "<!DOCTYPE r [<!ENTITY e ']>'><!-- > -->]>" ++
        Bytes.encode "<r/>") = some (.declaration, 41) ∧
      Accepted (Bytes.encode "\n" ++ (Bytes.encode "<!DOCTYPE r [<!ENTITY e ']>'><!-- > -->]>" ++
        Bytes.encode "<r/>")) [.startTag "r" [], .endTag "r"] := by
  have htext : IsDeclarationText (Bytes.encode " r ") := by
    rw [← List.append_nil (Bytes.encode " r ")]
    exact .append (by decide +kernel) .nil
  have hentity : IsDeclarationText (Bytes.encode "ENTITY e ']>'") := by
    have hparts : Bytes.encode "ENTITY e ']>'" = Bytes.encode "ENTITY e " ++
        (Byte.apostrophe :: Bytes.encode "]>" ++ Byte.apostrophe :: []) := by decide +kernel
    rw [hparts]
    exact .append (by decide +kernel) (.literal (.inr rfl) (by decide +kernel) .nil)
  have hpiece : IsDoctype [Bytes.encode " > "]
      (Bytes.encode "<!DOCTYPE r [<!ENTITY e ']>'><!-- > -->]>") := by
    have hparts : Bytes.encode "<!DOCTYPE r [<!ENTITY e ']>'><!-- > -->]>" =
        doctypeOpen ++ Bytes.encode " r " ++ Byte.openBracket ::
          (Construct.declarationOpen ++ Bytes.encode "ENTITY e ']>'" ++ Byte.closeAngle ::
            (comment (Bytes.encode " > ") ++ [])) ++
          Byte.closeBracket :: [] ++ [Byte.closeAngle] := by decide +kernel
    rw [hparts]
    exact .internal htext (.declaration hentity (.comment (by decide +kernel) .nil)) (by simp)
  have hboundary : Reads .prolog (Bytes.encode "\n") [] .prolog :=
    .cons (r := .nothing .prolog)
      (by decide +kernel : Construct.cut? true (Bytes.encode "\n") =
        some (.characters (Bytes.encode "\n"), 1)) (by decide +kernel) (.nil _)
  have haccepted : Accepted ([] ++ (Bytes.encode "\n" ++ Bytes.encode "<r/>"))
      [.startTag "r" [], .endTag "r"] := by
    rw [Accepted, Tokenizer.hear_document]
    exact congrArg _ (by decide +kernel)
  have hsettled : Bytes.IsSettled (Bytes.encode " > ") :=
    Bytes.isSettled_of_forall (by decide +kernel)
  obtain ⟨hcut, -, hall⟩ := accepted_doctype (by decide +kernel) hboundary haccepted hpiece
    (by simpa using hsettled)
  exact ⟨hcut.trans (by decide +kernel), hall⟩

/-- An apostrophe in a comment of the subset opens a literal that nothing closes. -/
theorem not_accepted_doctype :
    IsDoctype [Bytes.encode " don't "] (Bytes.encode "<!DOCTYPE r [<!-- don't -->]>") ∧
      Reads .prolog [] [] .prolog ∧
      Accepted ([] ++ Bytes.encode "<r/>") [.startTag "r" [], .endTag "r"] ∧
      ¬ ∃ tokens, Accepted ([] ++ (Bytes.encode "<!DOCTYPE r [<!-- don't -->]>" ++
        Bytes.encode "<r/>")) tokens := by
  refine ⟨?_, .nil _, ?_, ?_⟩
  · have htext : IsDeclarationText (Bytes.encode " r ") := by
      rw [← List.append_nil (Bytes.encode " r ")]
      exact .append (by decide +kernel) .nil
    have hparts : Bytes.encode "<!DOCTYPE r [<!-- don't -->]>" =
        doctypeOpen ++ Bytes.encode " r " ++
          Byte.openBracket :: (comment (Bytes.encode " don't ") ++ []) ++
          Byte.closeBracket :: [] ++ [Byte.closeAngle] := by decide +kernel
    rw [hparts]
    exact .internal htext (.comment (by decide +kernel) .nil) (by simp)
  · rw [Accepted, Tokenizer.hear_document]
    exact congrArg _ (by decide +kernel)
  · rintro ⟨tokens, hall⟩
    rw [Accepted, Tokenizer.hear_document] at hall
    have herror : (Document.transcript ([] ++ (Bytes.encode "<!DOCTYPE r [<!-- don't -->]>" ++
        Bytes.encode "<r/>"))).error.isSome = true := by decide +kernel
    rw [Except.ok.inj hall] at herror
    cases herror

end Document

end XmlSieve
