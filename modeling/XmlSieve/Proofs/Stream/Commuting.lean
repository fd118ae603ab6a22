import XmlSieve.Proofs.Stream.Disclosure

/-!
# What listeners share, changed from outside

Whoever owns a stream may change what its listeners share between calls.  Where each of them does the
same after such a change as before it (`Stream.Commutes`), it does not matter whether the change is
made before calls or after them (`commuting_simulation`), nor before or after a registration of what
does the same (`Commutes.operate`).
-/

namespace XmlSieve

namespace Stream

variable {σ : Type} {s t : Stream σ} {g : σ → σ}

/-- The listeners and the sinks do the same before and after what they share is changed by `g`. -/
def Commutes (s : Stream σ) (g : σ → σ) : Prop := s.Shows (.through g) s

theorem Commutes.congr (h : s.Commutes g)
    (hlisteners : t.assembly.listeners = s.assembly.listeners)
    (hsinks : t.assembly.sinks = s.assembly.sinks) (hend : t.onEnd = s.onEnd)
    (herror : t.onError = s.onError) : t.Commutes g := by
  refine ⟨⟨?_, ?_⟩, ?_, ?_⟩
  · rw [hlisteners]
    exact h.assembly.listeners
  · rw [hsinks]
    exact h.assembly.sinks
  · rw [hend]
    exact h.onEnd
  · rw [herror]
    exact h.onError

theorem Commutes.create (env : σ) (g : σ → σ) : (create env).Commutes g :=
  ⟨⟨.nil, .nil⟩, .nil, .nil⟩

theorem Commutes.modifyEnv (h : s.Commutes g) (f : σ → σ) : (s.modifyEnv f).Commutes g :=
  h.congr rfl rfl rfl rfl

/-- What is registered does the same before and after the change. -/
theorem Commutes.register (h : s.Commutes g) {r : Registration σ} (hr : r.Shows (.through g) r) :
    (s.modifyEnv g).register r = (s.register r).modifyEnv g ∧ (s.register r).Commutes g :=
  register_view h hr

/-- A change of what is shared that listeners do not notice can be made before calls or after
them. -/
theorem commuting_simulation (g : σ → σ) :
    Simulation fun s t => s.Commutes g ∧ t = s.modifyEnv g where
  tokenizer := by
    rintro s _ ⟨-, rfl⟩
    rfl
  phase := by
    rintro s _ ⟨-, rfl⟩
    rfl
  isPaused := by
    rintro s _ ⟨-, rfl⟩
    rfl
  read := by
    rintro s _ ⟨h, rfl⟩ tokenizer
    exact ⟨h.congr rfl rfl rfl rfl, rfl⟩
  enter := by
    rintro s _ ⟨h, rfl⟩ phase
    exact ⟨h.congr rfl rfl rfl rfl, rfl⟩
  pause := by
    rintro s _ ⟨h, rfl⟩ paused
    exact ⟨h.congr rfl rfl rfl rfl, rfl⟩
  accept := by
    rintro s _ ⟨h, rfl⟩ token assembly haccept
    obtain ⟨hlisteners, hsinks⟩ := Assembly.accept_keeps haccept
    have hview : (s.modifyEnv g).assembly.accept token =
        .ok (assembly.view (.through g) s.assembly) :=
      (Assembly.accept_view h.assembly token).trans (by rw [haccept]; rfl)
    refine ⟨_, hview, h.congr hlisteners hsinks rfl rfl, ?_⟩
    unfold Assembly.view modifyEnv
    rw [← hlisteners, ← hsinks]
    rfl
  complete := by
    rintro s _ ⟨h, rfl⟩
    exact ⟨h.congr rfl rfl rfl rfl, complete_view h⟩
  fail := by
    rintro s _ ⟨h, rfl⟩ e
    exact ⟨h.congr rfl rfl rfl rfl, fail_view h e⟩

/-- The same for anything that is done with a stream, if what it registers does not notice the change
either. -/
theorem Commutes.operate (h : s.Commutes g) {operation : Operation σ}
    (hshows : ∀ r, operation = .register r → r.Shows (.through g) r) {verdict : Verdict}
    (hs : s.operate operation = .ok (verdict, t)) :
    (s.modifyEnv g).operate operation = .ok (verdict, t.modifyEnv g) ∧ t.Commutes g := by
  have hmatches : operation.Matches (fun r r' => r' = r ∧ r.Shows (.through g) r) operation := by
    cases operation with
    | register r => exact .register ⟨rfl, hshows r rfl⟩
    | call c => exact .call c
    | abort e => exact .abort e
  obtain ⟨_, hoperate, hcommutes, rfl⟩ := (commuting_simulation g).operate
    (fun {s t r r'} hst hr => by
      obtain ⟨hst, rfl⟩ := hst
      obtain ⟨rfl, hr⟩ := hr
      exact ⟨(hst.register hr).2, (hst.register hr).1⟩)
    ⟨h, rfl⟩ hmatches hs
  exact ⟨hoperate, hcommutes⟩

end Stream

end XmlSieve
