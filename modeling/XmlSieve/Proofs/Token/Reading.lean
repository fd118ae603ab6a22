import XmlSieve.Proofs.Token.Transcript

/-!
# Reading a whole document

`Document.transcript` says what a document amounts to without a tokenizer: it cuts the bytes into
constructs, one after the other, and lets the place decide what each of them tells.  Characters
between two pieces of markup are one text, and a tag that closes itself tells of its start and its
end at once.  A tokenizer that holds the rest of a document tells exactly that
(`outlook_eq_readFrom`).
-/

namespace XmlSieve

namespace Document

/-- What the bytes `bs` tell that begin at `place` in the line `line` and end the document. -/
def readFrom (place : Place) (line : Nat) (bs : Bytes) : Transcript :=
  match h : Construct.cut? true bs with
  | none =>
    if !bs.isEmpty then { error := some (.malformed .unclosedToken line) }
    else if place = .epilog then {}
    else { error := some (.malformed .noElement line) }
  | some (construct, n) =>
    have : (bs.drop n).length < bs.length := Construct.length_drop_cut? h
    match place.read construct with
    | .error fault => { error := some (fault.inLine line) }
    | .ok (.nothing after) => readFrom after (line + Bytes.lineFeeds (bs.take n)) (bs.drop n)
    | .ok (.token token after) =>
      (readFrom after (line + Bytes.lineFeeds (bs.take n)) (bs.drop n)).cons token
    | .ok (.emptyElement name attributes after) =>
      ((readFrom after (line + Bytes.lineFeeds (bs.take n)) (bs.drop n)).cons (.endTag name)).cons
        (.startTag name attributes)
  termination_by bs.length
  decreasing_by all_goals assumption

/-- A document without the byte order mark it may begin with. -/
def withoutMark (document : Bytes) : Bytes :=
  if Tokenizer.byteOrderMark.isPrefixOf document then
    document.drop Tokenizer.byteOrderMark.length
  else document

/-- What a document tells. -/
def transcript (document : Bytes) : Transcript := readFrom .prolog 1 (withoutMark document)

end Document

namespace Tokenizer

variable {t u : Tokenizer}

/-- A tokenizer at work on the rest of a document: the mark is passed, nothing is owed, no fault was
met and no input is to come. -/
structure AtWork (t : Tokenizer) : Prop where
  started : t.started = true
  owed : t.owed = none
  failed : t.failed = false
  finished : t.finished = true

namespace AtWork

theorem next_eq (h : t.AtWork) : t.next = t.scan := by
  rw [next_scan h.failed h.owed (awaitsMark_of_started h.started), start_of_started h.started]

theorem next_of_none (h : t.AtWork) (hcut : Construct.cut? true t.unread = none) :
    t.next = t.wait := by
  rw [h.next_eq, scan_of_none (by rwa [h.finished])]

theorem next_of_cut (h : t.AtWork) {c : Construct} {n : Nat}
    (hcut : Construct.cut? true t.unread = some (c, n)) :
    t.next =
      match t.place.read c with
      | .error fault => t.fail (fault.inLine t.line)
      | .ok (.nothing after) => (t.take n after).next
      | .ok (.token token after) => (.ok (some token), t.take n after)
      | .ok (.emptyElement name attributes after) =>
        (.ok (some (.startTag name attributes)), { t.take n after with owed := some name }) := by
  have htake (after : Place) : (t.take n after).next = (t.take n after).scan :=
    next_eq ⟨h.started, h.owed, h.failed, h.finished⟩
  rw [h.next_eq, scan_of_cut (by rwa [h.finished])]
  split <;> simp_all

end AtWork

theorem outlook_owed {name : String} (hf : t.failed = false) (ho : t.owed = some name) :
    t.outlook = ({ t with owed := none } : Tokenizer).outlook.cons (.endTag name) := by
  apply outlook_token
  simp [next, hf, ho]

/-- A tokenizer tells what the bytes tell that it has not taken. -/
theorem outlook_eq_readFrom {place : Place} {line : Nat} {bs : Bytes} (h : t.AtWork)
    (hp : t.place = place) (hl : t.line = line) (hb : t.unread = bs) :
    t.outlook = Document.readFrom place line bs := by
  fun_induction Document.readFrom place line bs generalizing t with
  | case1 place line bs hcut hne =>
    have hn := h.next_of_none (hb ▸ hcut)
    rw [wait, h.finished, hb, hl] at hn
    simp only [hne] at hn
    exact outlook_error hn
  | case2 line bs hcut hne =>
    have hn := h.next_of_none (hb ▸ hcut)
    rw [wait, h.finished, hb, hp] at hn
    simp only [hne] at hn
    exact outlook_none hn
  | case3 place line bs hcut hne hplace =>
    have hn := h.next_of_none (hb ▸ hcut)
    rw [wait, h.finished, hb, hl, hp] at hn
    simp only [hne, hplace] at hn
    exact outlook_error hn
  | case4 place line bs c n hcut hlt fault hread =>
    have hn := h.next_of_cut (hb ▸ hcut)
    rw [hp, hread, hl] at hn
    exact outlook_error hn
  | case5 place line bs c n hcut hlt after hread ih =>
    have hn := h.next_of_cut (hb ▸ hcut)
    rw [hp, hread] at hn
    rw [outlook_congr hn]
    exact ih ⟨h.started, h.owed, h.failed, h.finished⟩ rfl (by rw [← hl, ← hb]; rfl)
      (by rw [← hb]; rfl)
  | case6 place line bs c n hcut hlt token after hread ih =>
    have hn := h.next_of_cut (hb ▸ hcut)
    rw [hp, hread] at hn
    rw [outlook_token hn]
    congr 1
    exact ih ⟨h.started, h.owed, h.failed, h.finished⟩ rfl (by rw [← hl, ← hb]; rfl)
      (by rw [← hb]; rfl)
  | case7 place line bs c n hcut hlt name attributes after hread ih =>
    have hn := h.next_of_cut (hb ▸ hcut)
    rw [hp, hread] at hn
    rw [outlook_token hn]
    congr 1
    refine (outlook_owed (t := { t.take n after with owed := some name }) h.failed rfl).trans
      (congrArg _ ?_)
    exact ih ⟨h.started, rfl, h.failed, h.finished⟩ rfl (by rw [← hl, ← hb]; rfl)
      (by rw [← hb]; rfl)

theorem start_document (document : Bytes) :
    start { unread := document, finished := true } =
      { unread := Document.withoutMark document, started := true, finished := true } := by
  unfold start Document.withoutMark
  rw [if_neg Bool.false_ne_true]
  split <;> rfl

/-- A new tokenizer that was fed a document tells what the document tells. -/
theorem outlook_document (document : Bytes) :
    outlook { unread := document, finished := true } = Document.transcript document := by
  have h : AtWork { unread := Document.withoutMark document, started := true, finished := true } :=
    ⟨rfl, rfl, rfl, rfl⟩
  rw [Document.transcript, ← outlook_eq_readFrom h rfl rfl rfl]
  apply outlook_congr
  rw [h.next_eq, ← start_document]
  exact next_scan rfl rfl (by simp [awaitsMark])

end Tokenizer

end XmlSieve
