import XmlSieve.Proofs.Stream.Simulation
import XmlSieve.Proofs.Stream.Views

/-!
# Streams and what is to be seen of them

A stream that is set up with listeners that do what is to be seen of others (`Registration.Shows`)
shows the stream that is set up with those (`registered_view`).  Where all pauses are to be seen, it
goes on to show it whatever is done (`shownAs_simulation`): calls are answered alike, and what is to
be seen of what the listeners share is what the others share (`run_registered`).
-/

namespace XmlSieve

variable {σ τ : Type} {v : View τ σ} {f : τ → σ}

/-- A registration of a listener that does what is to be seen of another. -/
inductive Registration.Shows (v : View τ σ) : Registration τ → Registration σ → Prop where
  | on (event : String) {listener : Listener τ} {seen : Listener σ}
      (h : v.Shows listener seen) : Shows v (.on event listener) (.on event seen)
  | collect (selector : String) : Shows v (.collect selector) (.collect selector)
  | preserve (selector : String) (whitespace : Bool) :
      Shows v (.preserve selector whitespace) (.preserve selector whitespace)
  | data {sink : String → τ → τ} {seen : String → σ → σ}
      (h : ∀ fragment env, seen fragment (v.env env) = v.env (sink fragment env)) :
      Shows v (.data sink) (.data seen)
  | atEnd {listener : τ → τ} {seen : σ → σ} (h : ∀ env, seen (v.env env) = v.env (listener env)) :
      Shows v (.atEnd listener) (.atEnd seen)
  | atError {listener : StreamError → τ → τ} {seen : StreamError → σ → σ}
      (h : ∀ e env, seen e (v.env env) = v.env (listener e env)) :
      Shows v (.atError listener) (.atError seen)

/-! ### Setting up -/

namespace Entries

variable {α β : Type} {R : α → β → Prop} {xs : Entries α} {ys : Entries β}

theorem get?_rel (h : List.Forall₂ (fun x y => y.1 = x.1 ∧ R x.2 y.2) xs ys) (name : String) :
    Option.Rel R (get? name xs) (get? name ys) := by
  induction h with
  | nil => exact .none
  | @cons x y xs ys hfirst hrest ih =>
    obtain ⟨key, value⟩ := x
    obtain ⟨_, other⟩ := y
    obtain ⟨rfl, hvalue⟩ := hfirst
    unfold get?
    split
    · exact .some hvalue
    · exact ih

theorem insert_rel (h : List.Forall₂ (fun x y => y.1 = x.1 ∧ R x.2 y.2) xs ys) (name : String)
    {x : α} {y : β} (hnew : R x y) :
    List.Forall₂ (fun x y => y.1 = x.1 ∧ R x.2 y.2) (insert name x xs) (insert name y ys) := by
  induction h with
  | nil => exact .cons ⟨rfl, hnew⟩ .nil
  | @cons x y xs ys hfirst hrest ih =>
    obtain ⟨key, value⟩ := x
    obtain ⟨_, other⟩ := y
    obtain ⟨rfl, hvalue⟩ := hfirst
    unfold insert
    split
    · exact .cons ⟨rfl, hnew⟩ hrest
    · exact .cons ⟨rfl, hvalue⟩ ih

end Entries

namespace Assembly

variable {a : Assembly τ} {other : Assembly σ}

theorem subscribe_view (h : a.Shows v other) (s : Subscription) {listener : Listener τ}
    {seen : Listener σ} (hlistener : v.Shows listener seen) :
    (a.view v other).subscribe s seen = (a.subscribe s listener).view v (other.subscribe s seen) ∧
      (a.subscribe s listener).Shows v (other.subscribe s seen) := by
  have hget := Entries.get?_rel h.listeners s.name
  have hknown : (a.view v other).listeners = other.listeners := rfl
  unfold subscribe
  rw [hknown]
  generalize hxs : Entries.get? s.name a.listeners = xs,
    hys : Entries.get? s.name other.listeners = ys at hget
  cases hget with
  | none =>
    rw [← h.listeners.length_eq]
    exact ⟨rfl, Entries.insert_rel h.listeners s.name (.cons hlistener .nil), h.sinks⟩
  | some hsome =>
    refine ⟨rfl, Entries.insert_rel h.listeners s.name ?_, h.sinks⟩
    exact List.rel_append hsome (.cons hlistener .nil)

end Assembly

namespace Stream

variable {s t : Stream τ} {other : Stream σ} {verdict : Verdict}

/-- The listeners and the sinks of another stream do what is to be seen of these. -/
structure Shows (s : Stream τ) (v : View τ σ) (other : Stream σ) : Prop where
  assembly : s.assembly.Shows v other.assembly
  onEnd : List.Forall₂ (fun listener seen => ∀ env, seen (v.env env) = v.env (listener env)) s.onEnd
    other.onEnd
  onError : List.Forall₂
    (fun listener seen => ∀ e env, seen e (v.env env) = v.env (listener e env)) s.onError
    other.onError

/-- What is to be seen of the stream, with the listeners and the sinks of another. -/
def view (s : Stream τ) (v : View τ σ) (other : Stream σ) : Stream σ :=
  { other with
    tokenizer := s.tokenizer
    assembly := s.assembly.view v other.assembly
    phase := s.phase }

theorem register_view (h : s.Shows v other) {r : Registration τ} {seen : Registration σ}
    (hr : r.Shows v seen) :
    (s.view v other).register seen = (s.register r).view v (other.register seen) ∧
      (s.register r).Shows v (other.register seen) := by
  cases hr with
  | @on event listener seen hlistener =>
    unfold register on
    dsimp only
    cases Subscription.parse? event with
    | none => exact ⟨rfl, h⟩
    | some subscription =>
      obtain ⟨hview, hshows⟩ := Assembly.subscribe_view h.assembly subscription hlistener
      exact ⟨congrArg (fun a => { s.view v other with assembly := a }) hview,
        hshows, h.onEnd, h.onError⟩
  | collect selector => exact ⟨rfl, ⟨h.assembly.listeners, h.assembly.sinks⟩, h.onEnd, h.onError⟩
  | preserve selector whitespace =>
    exact ⟨rfl, ⟨h.assembly.listeners, h.assembly.sinks⟩, h.onEnd, h.onError⟩
  | data hsink =>
    exact ⟨rfl, ⟨h.assembly.listeners, List.rel_append h.assembly.sinks (.cons hsink .nil)⟩,
      h.onEnd, h.onError⟩
  | atEnd hlistener =>
    exact ⟨rfl, h.assembly, List.rel_append h.onEnd (.cons hlistener .nil), h.onError⟩
  | atError hlistener =>
    exact ⟨rfl, h.assembly, h.onEnd, List.rel_append h.onError (.cons hlistener .nil)⟩

/-- Streams that are set up so that the one is what is to be seen of the other. -/
theorem registered_view (env : τ) {registrations : List (Registration τ)}
    {seen : List (Registration σ)} (h : List.Forall₂ (Registration.Shows v) registrations seen) :
    registered (v.env env) seen =
        (registered env registrations).view v (registered (v.env env) seen) ∧
      (registered env registrations).Shows v (registered (v.env env) seen) := by
  have hstart : (create env).view v (create (v.env env)) = create (v.env env) := by
    unfold view create Assembly.view
    dsimp only
    rw [v.pause_false]
  suffices hfold : ∀ (s : Stream τ) (other : Stream σ), s.Shows v other →
      seen.foldl register (s.view v other) =
          (registrations.foldl register s).view v (seen.foldl register other) ∧
        (registrations.foldl register s).Shows v (seen.foldl register other) by
    have hall := hfold (create env) (create (v.env env)) ⟨⟨.nil, .nil⟩, .nil, .nil⟩
    rwa [hstart] at hall
  induction h with
  | nil => exact fun s other hs => ⟨rfl, hs⟩
  | cons hfirst hrest ih =>
    intro s other hs
    obtain ⟨hview, hshows⟩ := register_view hs hfirst
    rw [List.foldl_cons, List.foldl_cons, List.foldl_cons, hview]
    exact ih _ _ hshows

/-! ### What is done with streams -/

theorem complete_view (h : s.Shows (.through f) other) :
    (s.view (.through f) other).complete = s.complete.view (.through f) other := by
  have hfold := View.foldl_eq (k := fun env listener => listener env)
    (l := fun env listener => listener env) (fun _ _ h env => h env) h.onEnd s.assembly.env
  unfold complete modifyEnv view
  exact congrArg (fun env => Stream.mk s.tokenizer
    { s.assembly.view (.through f) other.assembly with env } other.onEnd other.onError .ended) hfold

theorem fail_view (h : s.Shows (.through f) other) (e : StreamError) :
    (s.view (.through f) other).fail e = (s.fail e).view (.through f) other := by
  have hfold := View.foldl_eq (k := fun env listener => listener e env)
    (l := fun env listener => listener e env) (fun _ _ h env => h e env) h.onError s.assembly.env
  unfold fail modifyEnv view
  exact congrArg (fun env => Stream.mk s.tokenizer
    { s.assembly.view (.through f) other.assembly with env } other.onEnd other.onError .failed) hfold

/-- The stream `t` is what is to be seen of `s`, and its listeners do what is to be seen of those
of `s`. -/
def ShownAs (f : τ → σ) (s : Stream τ) (t : Stream σ) : Prop :=
  ∃ other, t = s.view (.through f) other ∧ s.Shows (.through f) other

theorem shownAs_simulation (f : τ → σ) : Simulation (ShownAs f) where
  tokenizer := by
    rintro s _ ⟨other, rfl, -⟩
    rfl
  phase := by
    rintro s _ ⟨other, rfl, -⟩
    rfl
  isPaused := by
    rintro s _ ⟨other, rfl, -⟩
    rfl
  read := by
    rintro s _ ⟨other, rfl, h⟩ tokenizer
    exact ⟨other, rfl, h.assembly, h.onEnd, h.onError⟩
  enter := by
    rintro s _ ⟨other, rfl, h⟩ phase
    exact ⟨other, rfl, h.assembly, h.onEnd, h.onError⟩
  pause := by
    rintro s _ ⟨other, rfl, h⟩ paused
    exact ⟨other, rfl, ⟨h.assembly.listeners, h.assembly.sinks⟩, h.onEnd, h.onError⟩
  accept := by
    rintro s _ ⟨other, rfl, h⟩ token assembly haccept
    have hview : (s.view (.through f) other).assembly.accept token =
        .ok (assembly.view (.through f) other.assembly) :=
      (Assembly.accept_view h.assembly token).trans (by rw [haccept]; rfl)
    have hkeeps := Assembly.accept_keeps haccept
    refine ⟨_, hview, other, rfl, ⟨?_, ?_⟩, h.onEnd, h.onError⟩
    · rw [hkeeps.1]
      exact h.assembly.listeners
    · rw [hkeeps.2]
      exact h.assembly.sinks
  complete := by
    rintro s _ ⟨other, rfl, h⟩
    exact ⟨other, complete_view h, ⟨h.assembly.listeners, h.assembly.sinks⟩, h.onEnd, h.onError⟩
  fail := by
    rintro s _ ⟨other, rfl, h⟩ e
    exact ⟨other, fail_view h e, ⟨h.assembly.listeners, h.assembly.sinks⟩, h.onEnd, h.onError⟩

theorem ShownAs.create (f : τ → σ) (env : τ) :
    ShownAs f (Stream.create env) (Stream.create (f env)) :=
  ⟨Stream.create (f env), rfl, ⟨.nil, .nil⟩, .nil, .nil⟩

/-- Registering listeners that do what is to be seen of others shows these. -/
theorem ShownAs.register {t : Stream σ} (h : s.ShownAs f t) {r : Registration τ}
    {seen : Registration σ} (hr : r.Shows (.through f) seen) :
    (s.register r).ShownAs f (t.register seen) := by
  obtain ⟨other, rfl, hshows⟩ := h
  exact ⟨other.register seen, register_view hshows hr⟩

/-- What calls come to with listeners that share more. -/
theorem run_registered (env : τ) {registrations : List (Registration τ)}
    {seen : List (Registration σ)}
    (h : List.Forall₂ (Registration.Shows (.through f)) registrations seen)
    {calls : List Call} {verdicts : List Verdict}
    (hrun : (registered env registrations).run calls = .ok (verdicts, t)) :
    ∃ u, (registered (f env) seen).run calls = .ok (verdicts, u) ∧ u.phase = t.phase ∧
      u.env = f t.env := by
  obtain ⟨u, hu, other, rfl, -⟩ :=
    (shownAs_simulation f).run ⟨_, registered_view env h⟩ hrun
  exact ⟨_, hu, rfl, rfl⟩

end Stream

end XmlSieve
