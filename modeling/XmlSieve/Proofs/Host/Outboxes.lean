import XmlSieve.Host.Session
import XmlSieve.Proofs.Stream.Commuting
import XmlSieve.Proofs.Stream.Finality

/-!
# What is kept in an outbox

A session registers with its stream what puts everything that is told into an outbox
(`Registration.recorded`).  If nothing were ever taken, the outbox would hold all that the journal of
the same stream holds (`Outbox.ofJournal`).  What is taken is taken from the front, and what is told
goes to the back, so that it can be put back at any time (`Outbox.onto`): `Tallies` says that what was
taken and what is still there make up what was told, which every operation (`Tallies.operate`) and
every taking (`Tallies.take`) keep up.
-/

namespace XmlSieve

/-! ### Journals -/

/-- The match that was sighted, as it is queued. -/
def Sighting.queued (g : Sighting) : QueuedMatch := ⟨g.event, g.scene.element⟩

/-- The fragment that is noted, if it is one. -/
def Notice.written? : Notice → Option String
  | data _ fragment => some fragment
  | matched _ _ | ended _ | failed _ _ => none

namespace Journal

variable {σ : Type}

/-- The matches that listeners were told of, in their order. -/
def queue (j : Journal σ) : List QueuedMatch := j.sightings.map Sighting.queued

/-- The fragments that were written to sinks, in their order. -/
def fragments (j : Journal σ) : List String := j.notices.filterMap Notice.written?

end Journal

namespace Outbox

/-- The outbox that holds everything that was told. -/
def ofJournal {σ : Type} (j : Journal σ) : Outbox where
  queue := j.queue
  output := String.join j.fragments
  ended := !j.ends.isEmpty
  error := j.failures.getLast?.map (·.2.message)

/-- The outbox, with what was taken put back in front. -/
def onto (taken : List QueuedMatch) (output : String) (o : Outbox) : Outbox :=
  { o with queue := taken ++ o.queue, output := output ++ o.output }

/-- What comes of a notice. -/
def note (o : Outbox) : Notice → Outbox
  | .matched _ m => o.addMatch ⟨m.event, m.element⟩
  | .data _ fragment => o.addOutput fragment
  | .ended _ => { o with ended := true }
  | .failed _ e => { o with error := some e.message }

theorem ofJournal_add {σ : Type} (j : Journal σ) (env : σ) (notice : Notice) :
    ofJournal (j.add env notice) = (ofJournal j).note notice := by
  have hqueue : (j.add env notice).queue =
      j.queue ++ (notice.sighting?.map Sighting.queued).toList := by
    rw [Journal.queue, Journal.sightings, Journal.add, List.filterMap_append, List.map_append]
    cases notice <;> rfl
  have hfragments : (j.add env notice).fragments = j.fragments ++ notice.written?.toList := by
    rw [Journal.fragments, Journal.add, List.filterMap_append]
    cases notice <;> rfl
  obtain ⟨hends, hfailures⟩ := Prod.mk.inj (j.finals_add env notice)
  rw [ofJournal, hqueue, hfragments, hends, hfailures, String.join_append]
  cases notice <;>
    simp [ofJournal, note, addMatch, addOutput, Notice.sighting?, Notice.written?, Notice.ended?,
      Notice.failed?, Sighting.queued, Match.sighting, Match.scene, String.join]

theorem onto_note (taken : List QueuedMatch) (output : String) (o : Outbox) (notice : Notice) :
    (o.onto taken output).note notice = (o.note notice).onto taken output := by
  cases notice with
  | matched id m => simp [note, onto, addMatch]
  | data id fragment => simp [note, onto, addOutput, String.append_assoc]
  | ended | failed => rfl

end Outbox

/-! ### Registrations -/

namespace Registration

variable {σ : Type}

/-- What a session registers in its place: a listener that puts what it is told into the outbox. -/
def recorded : Registration σ → Registration Outbox
  | on event _ => on event Outbox.record
  | collect selector => collect selector
  | preserve selector whitespace => preserve selector whitespace
  | data _ => data fun fragment o => o.addOutput fragment
  | atEnd _ => atEnd fun o => { o with ended := true }
  | atError _ => atError fun e o => { o with error := some e.message }

/-- A registration whose listener does nothing. -/
def Idle : Registration σ → Prop
  | on _ listener => listener = .idle
  | collect _ | preserve _ _ | data _ | atEnd _ | atError _ => True

theorem Idle.still {r : Registration σ} (h : r.Idle) : r.Still := by
  cases r with
  | on event listener =>
    rw [Idle] at h
    subst h
    exact fun _ _ => rfl
  | collect | preserve | data | atEnd | atError => trivial

/-- What a journal holds of what is told is what is put into the outbox. -/
theorem shows_recorded {r : Registration σ} (h : r.Idle) (id : Nat) :
    (r.logged id).Shows (.through Outbox.ofJournal) r.recorded := by
  cases r with
  | on event listener =>
    rw [Idle] at h
    subst h
    refine .on event fun m j => ?_
    have hnoted := Outbox.ofJournal_add j j.env (.matched id m)
    simp only [View.reaction, View.through, Journal.listen, Listener.idle, hnoted, id_eq]
    rfl
  | collect selector => exact .collect selector
  | preserve selector whitespace => exact .preserve selector whitespace
  | data sink =>
    exact .data fun fragment j =>
      (Outbox.ofJournal_add j (sink fragment j.env) (.data id fragment)).symm
  | atEnd listener =>
    exact .atEnd fun j => (Outbox.ofJournal_add j (listener j.env) (.ended id)).symm
  | atError listener =>
    exact .atError fun e j => (Outbox.ofJournal_add j (listener e j.env) (.failed id e)).symm

/-- It does not matter to what is put into the outbox whether what was taken is put back before. -/
theorem recorded_shows (r : Registration σ) (taken : List QueuedMatch) (output : String) :
    r.recorded.Shows (.through (Outbox.onto taken output)) r.recorded := by
  cases r with
  | on event listener =>
    refine .on event fun m o => ?_
    have hnoted := Outbox.onto_note taken output o (.matched 0 m)
    exact congrArg (fun env => ({ element := m.element, env } : Reaction Outbox)) hnoted
  | collect selector => exact .collect selector
  | preserve selector whitespace => exact .preserve selector whitespace
  | data sink => exact .data fun fragment o => Outbox.onto_note taken output o (.data 0 fragment)
  | atEnd listener => exact .atEnd fun o => rfl
  | atError listener => exact .atError fun e o => rfl

end Registration

namespace Operation

variable {σ : Type}

/-- What a session does in its place. -/
def recorded : Operation σ → Operation Outbox
  | register r => register r.recorded
  | call c => call c
  | abort e => abort e

/-- A call, or a registration whose listener does nothing. -/
def Plain : Operation σ → Prop
  | register r => r.Idle
  | call _ => True
  | abort _ => False

end Operation

/-! ### Tallies -/

namespace Stream

variable {σ : Type} {s : Stream Outbox} {t : Stream (Journal σ)} {taken : List QueuedMatch}
  {output : String}

/-- What was taken, put back in front of what is still in the outbox of `s`, is all that `t` told. -/
structure Tallies (s : Stream Outbox) (t : Stream (Journal σ)) (taken : List QueuedMatch)
    (output : String) : Prop where
  sound : s.Sound
  commutes : ∀ taken output, s.Commutes (Outbox.onto taken output)
  shown : ShownAs Outbox.ofJournal t (s.modifyEnv (Outbox.onto taken output))

namespace Tallies

theorem create (env : σ) :
    Tallies (Stream.create {}) (Stream.create ({ env } : Journal σ)) [] "" := by
  refine ⟨.create _, fun _ _ => .create _ _, ?_⟩
  have hempty : Outbox.onto [] "" {} = Outbox.ofJournal ({ env } : Journal σ) := by
    simp [Outbox.onto, Outbox.ofJournal, Journal.queue, Journal.sightings, Journal.fragments,
      Journal.ends, Journal.failures]
  have hshown := ShownAs.create Outbox.ofJournal ({ env } : Journal σ)
  rw [← hempty] at hshown
  exact hshown

/-- Everything that was told was taken or is still in the outbox. -/
theorem onto_env (h : Tallies s t taken output) :
    s.env.onto taken output = Outbox.ofJournal t.env := by
  obtain ⟨other, heq, -⟩ := h.shown
  exact congrArg Stream.env heq

/-- Both streams are as far as each other. -/
theorem reached (h : Tallies s t taken output) :
    s.phase = t.phase ∧ s.isPaused = t.isPaused ∧ s.line = t.line := by
  obtain ⟨other, heq, -⟩ := h.shown
  exact ⟨congrArg Stream.phase heq, congrArg Stream.isPaused heq, congrArg Stream.line heq⟩

/-- Whatever is done with both streams is answered alike, and nothing is taken by it. -/
theorem operate (h : Tallies s t taken output) (ht : t.Sound) {operation : Operation σ}
    (hplain : operation.Plain) (id : Nat) :
    ∃ verdict u v, s.operate operation.recorded = .ok (verdict, u) ∧
      t.operate (operation.logged id) = .ok (verdict, v) ∧ Tallies u v taken output := by
  obtain ⟨verdict, u, hu, hsound⟩ := operate_ok h.sound operation.recorded
  obtain ⟨verdict', v, hv, -⟩ := operate_ok ht (operation.logged id)
  have hcommutes (taken : List QueuedMatch) (output : String) :
      (s.modifyEnv (Outbox.onto taken output)).operate operation.recorded =
          .ok (verdict, u.modifyEnv (Outbox.onto taken output)) ∧
        u.Commutes (Outbox.onto taken output) := by
    refine (h.commutes taken output).operate (fun r hr => ?_) hu
    cases operation with
    | register r' =>
      cases hr
      exact r'.recorded_shows taken output
    | call | abort => cases hr
  have hmatches : (operation.logged id).Matches (Registration.Shows (.through Outbox.ofJournal))
      operation.recorded := by
    cases operation with
    | register r => exact .register (Registration.shows_recorded hplain id)
    | call c => exact .call c
    | abort e => exact hplain.elim
  obtain ⟨w, hw, hshown⟩ := (shownAs_simulation Outbox.ofJournal).operate
    (fun hs hr => hs.register hr) h.shown hmatches hv
  rw [(hcommutes taken output).1] at hw
  cases hw
  exact ⟨verdict, u, v, hu, hv, hsound, fun taken output => (hcommutes taken output).2, hshown⟩

/-- What is taken can be put back. -/
theorem take {taken' : List QueuedMatch} {output' : String} (h : Tallies s t taken output)
    {f : Outbox → Outbox} (hf : (f s.env).onto taken' output' = s.env.onto taken output) :
    Tallies (s.modifyEnv f) t taken' output' := by
  refine ⟨⟨h.sound.accepting, h.sound.finishing, h.sound.rootStarted, h.sound.inStep.frames,
    h.sound.inStep.active⟩, fun taken output => (h.commutes taken output).modifyEnv f, ?_⟩
  have hback : (s.modifyEnv f).modifyEnv (Outbox.onto taken' output') =
      s.modifyEnv (Outbox.onto taken output) :=
    congrArg (fun env => { s with assembly := { s.assembly with env } }) hf
  rw [hback]
  exact h.shown

end Tallies

end Stream

end XmlSieve
