import XmlSieve.Proofs.Stream.Journal

/-!
# Operations

Everything that can be done with a stream, in any order: registrations at any time, calls, and
`abort` (`Operation`).  The tokens that are delivered meanwhile, each with the assembly that takes
it and with what was registered before, are the `history` of the operations.  What holds of a fresh
assembly and is kept by registrations and by tokens that follow one another
(`Assembly.Invariant`) holds whenever a token is delivered and after every operation, and no
operation is a misuse (`operateAll_keeps`).  What is to be kept of a whole stream, with what its
listeners share, has to be kept by each thing that can happen to it (`Stream.Steady`).
-/

namespace XmlSieve

/-- Something that is done with a stream. -/
inductive Operation (σ : Type) where
  | register (registration : Registration σ)
  | call (call : Stream.Call)
  | abort (e : StreamError)

/-- What is registered, if it is a registration. -/
def Operation.registration? {σ : Type} : Operation σ → Option (Registration σ)
  | register registration => some registration
  | call _ | abort _ => none

/-- A token that is delivered, with what was registered before and the assembly that takes it. -/
structure Delivery (σ : Type) where
  registered : List (Registration σ)
  assembly : Assembly σ
  token : Token

variable {σ : Type}

namespace Stream

variable {s t : Stream σ} {registered : List (Registration σ)}

/-! ### Doing things with a stream -/

/-- Does one thing, and answers as it does. -/
def operate (s : Stream σ) : Operation σ → Except Misuse (Verdict × Stream σ)
  | .register registration => .ok (.ok (), s.register registration)
  | .call call => s.perform call
  | .abort e => .ok (.error e, s.abort e)

/-- Does one thing after the other. -/
def operateAll (s : Stream σ) : List (Operation σ) → Except Misuse (List Verdict × Stream σ)
  | [] => .ok ([], s)
  | operation :: operations =>
    match s.operate operation with
    | .error misuse => .error misuse
    | .ok (verdict, s) =>
      (s.operateAll operations).map fun (verdicts, s) => (verdict :: verdicts, s)

/-- Calls are operations. -/
theorem operateAll_calls (s : Stream σ) (calls : List Call) :
    s.operateAll (calls.map .call) = s.run calls := by
  induction calls generalizing s with
  | nil => rfl
  | cons call calls ih =>
    rw [List.map_cons, operateAll, operate, run]
    cases s.perform call with
    | error misuse => rfl
    | ok result => simp only [ih]

/-! ### What is delivered -/

/-- What `drain` delivers, where these registrations were made before. -/
def deliveries (s : Stream σ) (registered : List (Registration σ)) : List (Delivery σ) :=
  if s.isPaused then []
  else
    match h : s.tokenizer.next with
    | (.error _, _) => []
    | (.ok none, _) => []
    | (.ok (some token), tokenizer) =>
      have : tokenizer.remaining < s.tokenizer.remaining := Tokenizer.next_token_lt h
      ⟨registered, s.assembly, token⟩ ::
        match s.assembly.accept token with
        | .error _ => []
        | .ok assembly => { s with tokenizer, assembly }.deliveries registered
  termination_by s.tokenizer.remaining

theorem deliveries_paused (hp : s.isPaused = true) : s.deliveries registered = [] := by
  rw [deliveries, if_pos hp]

theorem deliveries_wait {tokenizer : Tokenizer} {answer : Tokenizer.Answer}
    (h : s.tokenizer.next = (answer, tokenizer)) (hne : ∀ token, answer ≠ .ok (some token)) :
    s.deliveries registered = [] := by
  rw [deliveries]
  split
  · rfl
  · split
    · rfl
    · rfl
    · next hnext =>
      rw [h] at hnext
      cases hnext
      exact absurd rfl (hne _)

theorem deliveries_token {tokenizer : Tokenizer} {token : Token} {assembly : Assembly σ}
    (hp : ¬ s.isPaused = true) (h : s.tokenizer.next = (.ok (some token), tokenizer))
    (haccept : s.assembly.accept token = .ok assembly) :
    s.deliveries registered =
      ⟨registered, s.assembly, token⟩ :: { s with tokenizer, assembly }.deliveries registered := by
  rw [deliveries, if_neg hp]
  split <;> rename_i hnext <;> rw [h] at hnext <;> cases hnext
  rw [haccept]

/-- Nothing is registered while tokens are delivered. -/
theorem registered_of_mem_deliveries :
    ∀ delivery ∈ s.deliveries registered, delivery.registered = registered := by
  fun_induction deliveries s registered with
  | case1 | case2 | case3 => simp
  | case4 s hp token tokenizer h _ ih =>
    refine List.forall_mem_cons.2 ⟨rfl, ?_⟩
    split
    · simp
    · exact ih _

/-- What one operation delivers, where these registrations were made before. -/
def deliveriesIn (s : Stream σ) (registered : List (Registration σ)) :
    Operation σ → List (Delivery σ)
  | .call call => if s.delivers call then (s.noted call).deliveries registered else []
  | .register _ | .abort _ => []

/-- What operations deliver, where these registrations were made before. -/
def history (s : Stream σ) (registered : List (Registration σ)) :
    List (Operation σ) → List (Delivery σ)
  | [] => []
  | operation :: operations =>
    s.deliveriesIn registered operation ++
      match s.operate operation with
      | .error _ => []
      | .ok (_, t) => t.history (registered ++ operation.registration?.toList) operations

theorem operateAll_cons {u : Stream σ} {operation : Operation σ} {operations : List (Operation σ)}
    {verdict : Verdict} {verdicts : List Verdict} (h : s.operate operation = .ok (verdict, t))
    (hrest : t.operateAll operations = .ok (verdicts, u)) :
    s.operateAll (operation :: operations) = .ok (verdict :: verdicts, u) := by
  rw [operateAll, h]
  simp only [hrest, Except.map]

/-- Operations that give a result are one operation and then the others. -/
theorem exists_of_operateAll_cons {u : Stream σ} {operation : Operation σ}
    {operations : List (Operation σ)} {verdicts : List Verdict}
    (h : s.operateAll (operation :: operations) = .ok (verdicts, u)) :
    ∃ verdict t rest, s.operate operation = .ok (verdict, t) ∧
      t.operateAll operations = .ok (rest, u) ∧ verdicts = verdict :: rest := by
  rw [operateAll] at h
  split at h
  · cases h
  · next verdict t ht =>
    cases hrest : t.operateAll operations with
    | error misuse =>
      rw [hrest] at h
      cases h
    | ok r =>
      rw [hrest] at h
      cases h
      exact ⟨verdict, t, r.1, ht, hrest, rfl⟩

theorem length_of_operateAll {operations : List (Operation σ)} {verdicts : List Verdict}
    (h : s.operateAll operations = .ok (verdicts, t)) : verdicts.length = operations.length := by
  induction operations generalizing s verdicts with
  | nil =>
    cases h
    rfl
  | cons operation operations ih =>
    obtain ⟨verdict, u, rest, -, hrest, rfl⟩ := exists_of_operateAll_cons h
    exact congrArg (· + 1) (ih hrest)

theorem operateAll_append {u : Stream σ} {operations more : List (Operation σ)}
    {verdicts rest : List Verdict} (h : s.operateAll operations = .ok (verdicts, t))
    (hmore : t.operateAll more = .ok (rest, u)) :
    s.operateAll (operations ++ more) = .ok (verdicts ++ rest, u) := by
  induction operations generalizing s verdicts with
  | nil =>
    cases h
    exact hmore
  | cons operation operations ih =>
    obtain ⟨verdict, v, verdicts, hv, hrest, rfl⟩ := exists_of_operateAll_cons h
    exact operateAll_cons hv (ih hrest)

theorem exists_of_operateAll_append {u : Stream σ} {operations more : List (Operation σ)}
    {verdicts : List Verdict} (h : s.operateAll (operations ++ more) = .ok (verdicts, u)) :
    ∃ first t rest, s.operateAll operations = .ok (first, t) ∧
      t.operateAll more = .ok (rest, u) ∧ verdicts = first ++ rest := by
  induction operations generalizing s verdicts with
  | nil => exact ⟨[], s, verdicts, rfl, h, rfl⟩
  | cons operation operations ih =>
    obtain ⟨verdict, v, verdicts, hv, hrest, rfl⟩ := exists_of_operateAll_cons h
    obtain ⟨first, t, rest, hfirst, hmore, rfl⟩ := ih hrest
    exact ⟨verdict :: first, t, rest, operateAll_cons hv hfirst, hmore, rfl⟩

theorem history_cons {operation : Operation σ} {verdict : Verdict}
    (h : s.operate operation = .ok (verdict, t)) (operations : List (Operation σ)) :
    s.history registered (operation :: operations) =
      s.deliveriesIn registered operation ++
        t.history (registered ++ operation.registration?.toList) operations := by
  rw [history, h]

end Stream

/-! ### Invariants -/

namespace Assembly

/-- What an assembly keeps to, given what was registered and the place in the document that it has
reached. -/
structure Invariant (I : List (Registration σ) → Place → Assembly σ → Prop) : Prop where
  /-- It does not depend on what listeners share or on whether delivery is paused. -/
  unseen : ∀ {registered : List (Registration σ)} {p : Place} {a : Assembly σ},
    I registered p a → ∀ paused env, I registered p { a with paused, env }
  register : ∀ {registered : List (Registration σ)} {p : Place} {s : Stream σ},
    I registered p s.assembly → ∀ r, I (registered ++ [r]) p (s.register r).assembly
  accept : ∀ {registered : List (Registration σ)} {p q : Place} {a b : Assembly σ} {token : Token},
    I registered p a → p.follow token = some q → a.accept token = .ok b → I registered q b

theorem Invariant.top : Invariant fun _ _ (_ : Assembly σ) => True :=
  ⟨fun _ _ _ => trivial, fun _ _ => trivial, fun _ _ _ => trivial⟩

/-- Tokens are delivered that follow one another from `p` to `q`, and each is accepted by an
assembly that `I` holds of before and after. -/
inductive Passes (I : List (Registration σ) → Place → Assembly σ → Prop) :
    Place → List (Delivery σ) → Place → Prop where
  | nil (p : Place) : Passes I p [] p
  | cons {p q r : Place} {delivery : Delivery σ} {deliveries : List (Delivery σ)} {b : Assembly σ}
      (before : I delivery.registered p delivery.assembly)
      (follow : p.follow delivery.token = some q)
      (accept : delivery.assembly.accept delivery.token = .ok b)
      (after : I delivery.registered q b) (rest : Passes I q deliveries r) :
      Passes I p (delivery :: deliveries) r

namespace Passes

variable {I : List (Registration σ) → Place → Assembly σ → Prop} {p q r : Place}
  {deliveries more : List (Delivery σ)}

theorem append (h : Passes I p deliveries q) (hmore : Passes I q more r) :
    Passes I p (deliveries ++ more) r := by
  induction h with
  | nil => exact hmore
  | cons before follow accept after _ ih => exact .cons before follow accept after (ih hmore)

theorem mono {J : List (Registration σ) → Place → Assembly σ → Prop} (h : Passes I p deliveries q)
    (himp : ∀ registered p a, I registered p a → J registered p a) : Passes J p deliveries q := by
  induction h with
  | nil => exact .nil _
  | cons before follow accept after _ ih =>
    exact .cons (himp _ _ _ before) follow accept (himp _ _ _ after) ih

/-- Each delivery in its turn, at the place that the tokens before it lead to. -/
theorem of_getElem? (h : Passes I p deliveries q) {k : Nat} {delivery : Delivery σ}
    (hk : deliveries[k]? = some delivery) :
    ∃ at₁ at₂ b, p.followAll ((deliveries.take k).map (·.token)) = some at₁ ∧
      I delivery.registered at₁ delivery.assembly ∧ at₁.follow delivery.token = some at₂ ∧
      delivery.assembly.accept delivery.token = .ok b ∧ I delivery.registered at₂ b := by
  induction h generalizing k with
  | nil => cases hk
  | @cons p q r first deliveries b before follow accept after _ ih =>
    cases k with
    | zero =>
      cases hk
      exact ⟨p, q, b, rfl, before, follow, accept, after⟩
    | succ k =>
      obtain ⟨at₁, at₂, b', hbefore, hrest⟩ := ih (List.getElem?_cons_succ ▸ hk)
      refine ⟨at₁, at₂, b', ?_, hrest⟩
      rw [List.take_succ_cons, List.map_cons, Place.followAll_cons, follow]
      exact hbefore

theorem of_mem (h : Passes I p deliveries q) : ∀ delivery ∈ deliveries, ∃ p q b,
    I delivery.registered p delivery.assembly ∧ p.follow delivery.token = some q ∧
      delivery.assembly.accept delivery.token = .ok b ∧ I delivery.registered q b := by
  intro delivery hmem
  obtain ⟨k, hk⟩ := List.getElem?_of_mem hmem
  obtain ⟨p, q, b, -, hrest⟩ := h.of_getElem? hk
  exact ⟨p, q, b, hrest⟩

end Passes

end Assembly

namespace Stream

variable {s t : Stream σ} {I : List (Registration σ) → Place → Assembly σ → Prop}
  {registered : List (Registration σ)}

/-- A sound stream with an assembly that `I` holds of. -/
structure Keeps (I : List (Registration σ) → Place → Assembly σ → Prop)
    (registered : List (Registration σ)) (s : Stream σ) : Prop where
  sound : s.Sound
  holds : I registered s.tokenizer.standing s.assembly

theorem Keeps.fail (hI : Assembly.Invariant I) (hs : s.Keeps I registered) (e : StreamError) :
    (s.fail e).Keeps I registered :=
  ⟨.fail hs.sound.inStep hs.sound.rootStarted, hI.unseen hs.holds _ _⟩

theorem Keeps.settle (hI : Assembly.Invariant I) (hs : s.Keeps I registered) :
    s.settle.Keeps I registered := by
  refine ⟨hs.sound.settle, ?_⟩
  unfold Stream.settle
  split
  · exact hI.unseen hs.holds _ _
  · exact hs.holds

theorem Keeps.wait (hs : s.Keeps I registered) {tokenizer : Tokenizer}
    {answer : Tokenizer.Answer} (h : s.tokenizer.next = (answer, tokenizer))
    (hne : ∀ token, answer ≠ .ok (some token)) : { s with tokenizer }.Keeps I registered :=
  ⟨hs.sound.wait h hne, (Tokenizer.next_standing hs.sound.rootStarted h hne).1.symm ▸ hs.holds⟩

theorem settle_tokenizer (s : Stream σ) : s.settle.tokenizer = s.tokenizer := by
  unfold settle
  split <;> rfl

/-- When the token that the tokenizer gave is accepted, `I` holds at the place after it. -/
theorem Keeps.accepted (hI : Assembly.Invariant I) (hs : s.Keeps I registered)
    {tokenizer : Tokenizer} {token : Token} {assembly : Assembly σ}
    (h : s.tokenizer.next = (.ok (some token), tokenizer))
    (haccept : s.assembly.accept token = .ok assembly) :
    { s with tokenizer, assembly }.Keeps I registered :=
  ⟨hs.sound.accepted h haccept,
    hI.accept hs.holds (Tokenizer.next_follow hs.sound.rootStarted h).1 haccept⟩

/-- Delivery takes every token that it delivers, and keeps `I`. -/
theorem drain_keeps (hI : Assembly.Invariant I) (hs : s.Keeps I registered) :
    ∃ verdict t, s.drain = .ok (verdict, t) ∧ t.Keeps I registered ∧
      Assembly.Passes I s.tokenizer.standing (s.deliveries registered) t.tokenizer.standing := by
  obtain ⟨verdict, t, hdrain, -⟩ := drain_ok hs.sound
  refine ⟨verdict, t, hdrain, ?_⟩
  rw [drain_eq_ok_iff] at hdrain
  induction hdrain with
  | paused hp =>
    rw [deliveries_paused hp]
    exact ⟨hs, .nil _⟩
  | failed hp hnext =>
    have hw := hs.wait hnext (by simp)
    rw [deliveries_wait hnext (by simp),
      ← (Tokenizer.next_standing hs.sound.rootStarted hnext (by simp)).1]
    exact ⟨hw.fail hI _, .nil _⟩
  | waiting hp hnext =>
    have hw := hs.wait hnext (by simp)
    rw [deliveries_wait hnext (by simp),
      ← (Tokenizer.next_standing hs.sound.rootStarted hnext (by simp)).1, settle_tokenizer]
    exact ⟨hw.settle hI, .nil _⟩
  | token hp hnext haccept _ ih =>
    have hfollow := (Tokenizer.next_follow hs.sound.rootStarted hnext).1
    have ht := hs.accepted hI hnext haccept
    obtain ⟨hkeeps, hpasses⟩ := ih ht
    rw [deliveries_token hp hnext haccept]
    exact ⟨hkeeps, .cons hs.holds hfollow haccept ht.holds hpasses⟩

theorem Keeps.noted (hI : Assembly.Invariant I) (hs : s.Keeps I registered) (call : Call) :
    (s.noted call).Keeps I registered := by
  refine ⟨hs.sound.noted call, ?_⟩
  cases call with
  | feed | finish =>
    rw [Stream.noted]
    split <;> exact hs.holds
  | pause | resume => exact hI.unseen hs.holds _ _

theorem noted_standing (s : Stream σ) (call : Call) :
    (s.noted call).tokenizer.standing = s.tokenizer.standing := by
  cases call with
  | feed | finish =>
    rw [noted]
    split <;> rfl
  | pause | resume => rfl

/-- One operation gives a result, takes every token that it delivers, and keeps `I`. -/
theorem operate_keeps (hI : Assembly.Invariant I) (hs : s.Keeps I registered)
    (operation : Operation σ) :
    ∃ verdict t, s.operate operation = .ok (verdict, t) ∧
      t.Keeps I (registered ++ operation.registration?.toList) ∧
      Assembly.Passes I s.tokenizer.standing (s.deliveriesIn registered operation)
        t.tokenizer.standing := by
  cases operation with
  | register r =>
    have hinput := (s.register_input r).1
    refine ⟨_, _, rfl, ⟨register_sound hs.sound r, ?_⟩, ?_⟩
    · rw [hinput]
      exact hI.register hs.holds r
    · rw [hinput]
      exact .nil _
  | call call =>
    rw [operate, deliveriesIn, ← s.noted_standing call, Operation.registration?, Option.toList_none,
      List.append_nil]
    rcases perform_eq hs.sound call with ⟨hd, h⟩ | ⟨hd, verdict, h⟩
    · rw [h, if_pos hd]
      exact drain_keeps hI (hs.noted hI call)
    · rw [h, if_neg (by simp [hd])]
      exact ⟨_, _, rfl, hs.noted hI call, .nil _⟩
  | abort e =>
    rw [Operation.registration?, Option.toList_none, List.append_nil]
    refine ⟨_, _, rfl, ?_⟩
    unfold Stream.abort
    split
    · exact ⟨hs, .nil _⟩
    · exact ⟨hs.fail hI e, .nil _⟩

/-- Operations give a result, take every token that they deliver, and keep `I`. -/
theorem operateAll_keeps (hI : Assembly.Invariant I) (hs : s.Keeps I registered)
    (operations : List (Operation σ)) :
    ∃ verdicts t, s.operateAll operations = .ok (verdicts, t) ∧
      t.Keeps I (registered ++ operations.filterMap (·.registration?)) ∧
      Assembly.Passes I s.tokenizer.standing (s.history registered operations)
        t.tokenizer.standing := by
  induction operations generalizing s registered with
  | nil =>
    rw [List.filterMap_nil, List.append_nil]
    exact ⟨_, _, rfl, hs, .nil _⟩
  | cons operation operations ih =>
    obtain ⟨verdict, t, h, ht, hnow⟩ := operate_keeps hI hs operation
    obtain ⟨verdicts, u, hrest, hu, hlater⟩ := ih ht
    refine ⟨_, u, operateAll_cons h hrest, ?_, ?_⟩
    · rw [List.append_assoc] at hu
      rw [List.filterMap_cons]
      cases hr : operation.registration? <;> rw [hr] at hu <;> exact hu
    · rw [history_cons h]
      exact hnow.append hlater

/-- One operation gives a result and leaves the stream sound. -/
theorem operate_ok (hs : s.Sound) (operation : Operation σ) :
    ∃ verdict t, s.operate operation = .ok (verdict, t) ∧ t.Sound := by
  have hkeeps : s.Keeps (fun _ _ _ => True) [] := ⟨hs, trivial⟩
  obtain ⟨verdict, t, h, ht, -⟩ := operate_keeps .top hkeeps operation
  exact ⟨verdict, t, h, ht.sound⟩

theorem operate_sound (hs : s.Sound) {operation : Operation σ} {verdict : Verdict}
    (h : s.operate operation = .ok (verdict, t)) : t.Sound := by
  obtain ⟨verdict', t', h', ht⟩ := operate_ok hs operation
  rw [h] at h'
  cases h'
  exact ht

/-- What each of the operations keeps is kept by all of them. -/
theorem operateAll_preserves {P : Stream σ → Prop} {operations : List (Operation σ)}
    (step : ∀ {s t operation verdict}, operation ∈ operations → s.Sound → P s →
      s.operate operation = .ok (verdict, t) → P t)
    (hs : s.Sound) (hP : P s) {verdicts : List Verdict}
    (h : s.operateAll operations = .ok (verdicts, t)) : t.Sound ∧ P t := by
  induction operations generalizing s verdicts with
  | nil =>
    cases h
    exact ⟨hs, hP⟩
  | cons operation operations ih =>
    obtain ⟨verdict, u, rest, hu, hrest, rfl⟩ := exists_of_operateAll_cons h
    exact ih (fun hmem => step (List.mem_cons_of_mem _ hmem)) (operate_sound hs hu)
      (step List.mem_cons_self hs hP hu) hrest

/-- What a stream keeps up whatever happens to it, but for registrations: it reads on, takes a token
that its tokenizer gave, is paused or not, or tells that it is over. -/
structure Steady (P : Stream σ → Prop) : Prop where
  reads : ∀ {s : Stream σ}, P s → ∀ tokenizer phase, P { s with tokenizer, phase }
  pauses : ∀ {s : Stream σ}, P s → ∀ paused, P { s with assembly := { s.assembly with paused } }
  takes : ∀ {s : Stream σ} {tokenizer : Tokenizer} {token : Token} {assembly : Assembly σ}, P s →
    s.tokenizer.next = (.ok (some token), tokenizer) → s.assembly.accept token = .ok assembly →
    P { s with tokenizer, assembly }
  ends : ∀ {s : Stream σ}, P s → P s.complete
  fails : ∀ {s : Stream σ}, P s → ∀ e, P (s.fail e)

namespace Steady

variable {P : Stream σ → Prop} {verdict : Verdict}

theorem drain (hP : Steady P) (h : P s) (hd : s.drain = .ok (verdict, t)) : P t := by
  rw [drain_eq_ok_iff] at hd
  induction hd with
  | paused => exact h
  | @failed s tokenizer e => exact hP.fails (hP.reads h tokenizer s.phase) e
  | @waiting s tokenizer =>
    have hread := hP.reads h tokenizer s.phase
    unfold settle
    split
    · exact hP.ends hread
    · exact hread
  | token _ hnext haccept _ ih => exact ih (hP.takes h hnext haccept)

theorem noted (hP : Steady P) (h : P s) (call : Call) : P (s.noted call) := by
  cases call with
  | feed chunk =>
    rw [Stream.noted]
    split
    · exact hP.reads h _ s.phase
    · exact h
  | finish =>
    rw [Stream.noted]
    split
    · exact hP.reads h _ _
    · exact h
  | pause => exact hP.pauses h true
  | resume => exact hP.pauses h false

theorem operate (hP : Steady P) (hs : s.Sound) (h : P s) {operation : Operation σ}
    (hregister : ∀ r, operation = .register r → P (s.register r))
    (ho : s.operate operation = .ok (verdict, t)) : P t := by
  cases operation with
  | register r =>
    cases ho
    exact hregister r rfl
  | call call =>
    cases performs hs ho with
    | drained _ hdrain => exact hP.drain (hP.noted h call) hdrain
    | noted => exact hP.noted h call
  | abort e =>
    cases ho
    unfold abort
    split
    · exact h
    · exact hP.fails h e

/-- What a stream keeps up, and upholds when more is registered, it keeps up throughout. -/
theorem operateAll (hP : Steady P) {operations : List (Operation σ)}
    (hregister : ∀ {s : Stream σ} {r : Registration σ}, .register r ∈ operations → P s →
      P (s.register r))
    (hs : s.Sound) (h : P s) {verdicts : List Verdict}
    (ho : s.operateAll operations = .ok (verdicts, t)) : P t := by
  refine (operateAll_preserves (fun hmem hs h => hP.operate hs h ?_) hs h ho).2
  rintro r rfl
  exact hregister hmem h

end Steady

/-- Operations give a result. -/
theorem operateAll_ok (hs : s.Sound) (operations : List (Operation σ)) :
    ∃ verdicts t, s.operateAll operations = .ok (verdicts, t) := by
  have hkeeps : s.Keeps (fun _ _ _ => True) [] := ⟨hs, trivial⟩
  obtain ⟨verdicts, t, h, -⟩ := operateAll_keeps .top hkeeps operations
  exact ⟨verdicts, t, h⟩

end Stream

end XmlSieve
