import XmlSieve.Proofs.Stream.Disclosure

/-!
# Listeners that do not pause

A listener can ask for a pause, and `tireless` is what it does apart from that.  Nothing but the
pause itself comes of asking: an assembly with tireless listeners takes every token as before
(`accept_tireless`).
-/

namespace XmlSieve

variable {σ : Type}

/-- What a listener does, without the pauses that it asks for. -/
def Listener.tireless (listener : Listener σ) : Listener σ := fun m env =>
  { listener m env with pause := false }

/-- A registration with a listener that asks for no pause. -/
def Registration.tireless : Registration σ → Registration σ
  | on event listener => on event listener.tireless
  | collect selector => collect selector
  | preserve selector whitespace => preserve selector whitespace
  | data sink => data sink
  | atEnd listener => atEnd listener
  | atError listener => atError listener

/-- The view of no pauses. -/
def View.tireless : View σ σ := ⟨id, fun _ => false, rfl, fun _ _ => rfl⟩

namespace Assembly

variable {a b : Assembly σ} {frame : Frame} {chunk : Option String}

/-- The assembly with its listeners tireless and its delivery not paused. -/
def tireless (a : Assembly σ) : Assembly σ :=
  { a with
    listeners := a.listeners.map fun (name, listeners) => (name, listeners.map Listener.tireless)
    paused := false }

/-- The tireless assembly is what is to be seen of it where no pauses are. -/
theorem tireless_shows (a : Assembly σ) : a.Shows .tireless a.tireless := by
  refine ⟨List.forall₂_map_right_iff.2 (List.forall₂_same.2 fun entry _ => ⟨rfl, ?_⟩),
    List.forall₂_same.2 fun sink _ fragment env => rfl⟩
  exact List.forall₂_map_right_iff.2 (List.forall₂_same.2 fun listener _ m env => rfl)

/-- Asking for a pause changes nothing in what becomes of a token. -/
theorem accept_tireless (a : Assembly σ) (token : Token) :
    a.tireless.accept token = (a.accept token).map tireless := by
  have hview : a.tireless.accept token = (a.accept token).map (·.view .tireless a.tireless) :=
    accept_view a.tireless_shows token
  cases hb : a.accept token with
  | error misuse => rw [hview, hb]; rfl
  | ok b =>
    obtain ⟨hlisteners, hsinks⟩ := accept_keeps hb
    have hsame : b.view .tireless a.tireless = b.tireless := by
      unfold view tireless
      rw [hlisteners, hsinks]
      rfl
    rw [hview, hb]
    exact congrArg Except.ok hsame

theorem tireless_accept {token : Token} (h : a.accept token = .ok b) :
    a.tireless.accept token = .ok b.tireless := by
  rw [accept_tireless, h]
  rfl

theorem tireless_tireless (a : Assembly σ) : a.tireless.tireless = a.tireless := by
  simp only [tireless, List.map_map, Assembly.mk.injEq, true_and, and_true]
  refine List.map_congr_left fun entry _ => ?_
  simp only [Function.comp, List.map_map, Prod.mk.injEq, true_and]
  exact List.map_congr_left fun listener _ => rfl

end Assembly

/-! ### Registration -/

namespace Stream

variable {s other : Stream σ}

/-- The stream with its listeners tireless and its delivery not paused. -/
def tireless (s : Stream σ) : Stream σ := { s with assembly := s.assembly.tireless }

theorem eq_map_of_forall₂ {α β : Type} {f : α → β} {xs : List α} {ys : List β}
    (h : List.Forall₂ (fun x y => y = f x) xs ys) : ys = xs.map f := by
  induction h with
  | nil => rfl
  | cons hfirst hrest ih => rw [hfirst, ih, List.map_cons]

/-- What is to be seen of a stream where no pauses are is the tireless stream. -/
theorem view_tireless (h : s.Shows .tireless other) : s.view .tireless other = s.tireless := by
  have hlisteners : other.assembly.listeners =
      s.assembly.listeners.map fun (name, listeners) => (name, listeners.map Listener.tireless) :=
    eq_map_of_forall₂ (h.assembly.listeners.imp fun entry seen hentry =>
      Prod.ext hentry.1 (eq_map_of_forall₂ (hentry.2.imp fun listener told htold =>
        funext fun m => funext fun env => htold m env)))
  have hsinks : other.assembly.sinks = s.assembly.sinks.map id :=
    eq_map_of_forall₂ (h.assembly.sinks.imp fun sink seen hseen =>
      funext fun fragment => funext fun env => hseen fragment env)
  have hend : other.onEnd = s.onEnd.map id :=
    eq_map_of_forall₂ (h.onEnd.imp fun listener seen hseen => funext hseen)
  have herror : other.onError = s.onError.map id :=
    eq_map_of_forall₂ (h.onError.imp fun listener seen hseen =>
      funext fun e => funext fun env => hseen e env)
  rw [List.map_id] at hsinks hend herror
  unfold view tireless Assembly.view Assembly.tireless
  rw [hlisteners, hsinks, hend, herror]
  rfl

theorem logged_tireless (r : Registration σ) (id : Nat) :
    (r.logged id).Shows .tireless (r.tireless.logged id) := by
  cases r with
  | on event listener => exact .on event fun _ _ => rfl
  | collect selector => exact .collect selector
  | preserve selector whitespace => exact .preserve selector whitespace
  | data sink => exact .data fun _ _ => rfl
  | atEnd listener => exact .atEnd fun _ => rfl
  | atError listener => exact .atError fun _ _ => rfl

/-- The stream whose registrations are tireless is the tireless stream. -/
theorem journaled_tireless (env : σ) (registrations : List (Registration σ)) :
    journaled env (registrations.map Registration.tireless) =
      (journaled env registrations).tireless := by
  have hshows : List.Forall₂ (Registration.Shows .tireless)
      (Registration.loggedAll registrations.zipIdx)
      (Registration.loggedAll (registrations.map Registration.tireless).zipIdx) := by
    rw [Registration.loggedAll, Registration.loggedAll, List.zipIdx_map, List.map_map,
      List.forall₂_map_left_iff, List.forall₂_map_right_iff]
    exact List.forall₂_same.2 fun entry _ => logged_tireless entry.1 entry.2
  obtain ⟨hview, hall⟩ := registered_view ({ env } : Journal σ) hshows
  exact hview.trans (view_tireless hall)

end Stream

end XmlSieve
