import XmlSieve.Proofs.Stream.Calls
import XmlSieve.Proofs.Stream.Hearing

/-!
# Latecomers

Whoever subscribes while elements are open is told of the elements that start later if an equal
selector was registered before the root opened, by anyone, and of none if not
(`calls_of_latecomer`): the elements that are open already are not looked at again for a new
selector.  For a listener of any kind but for updates, `calls_eq` says how often each token that is
delivered calls it, whatever is done with the stream.
-/

namespace XmlSieve

variable {σ : Type}

/-! ### Operations with listeners that are logged -/

namespace Operation

/-- What is registered by operations, in their order. -/
def registrations (operations : List (Operation σ)) : List (Registration σ) :=
  operations.filterMap registration?

/-- The calls among operations. -/
def calls (operations : List (Operation σ)) : List Stream.Call := operations.filterMap call?

/-- The operations with registrations numbered from `n`, whose listeners write down what they are
told. -/
def loggedFrom (n : Nat) : List (Operation σ) → List (Operation (Journal σ))
  | [] => []
  | register r :: operations => register (r.logged n) :: loggedFrom (n + 1) operations
  | call c :: operations => call c :: loggedFrom n operations
  | abort e :: operations => abort e :: loggedFrom n operations

theorem registrations_append (operations more : List (Operation σ)) :
    registrations (operations ++ more) = registrations operations ++ registrations more :=
  List.filterMap_append

theorem registrations_register (r : Registration σ) (operations : List (Operation σ)) :
    registrations (register r :: operations) = r :: registrations operations := rfl

theorem calls_append (operations more : List (Operation σ)) :
    calls (operations ++ more) = calls operations ++ calls more := List.filterMap_append

theorem calls_register (r : Registration σ) (operations : List (Operation σ)) :
    calls (register r :: operations) = calls operations := rfl

theorem registrations_loggedFrom (n : Nat) (operations : List (Operation σ)) :
    registrations (loggedFrom n operations) =
      Registration.loggedAll ((registrations operations).zipIdx n) := by
  induction operations generalizing n with
  | nil => rfl
  | cons operation operations ih =>
    cases operation with
    | register r => exact congrArg (_ :: ·) (ih (n + 1))
    | call | abort => exact ih n

theorem calls_loggedFrom (n : Nat) (operations : List (Operation σ)) :
    calls (loggedFrom n operations) = calls operations := by
  induction operations generalizing n with
  | nil => rfl
  | cons operation operations ih =>
    cases operation with
    | register | abort => exact ih _
    | call c => exact congrArg (_ :: ·) (ih n)

theorem loggedFrom_append (n : Nat) (operations more : List (Operation σ)) :
    loggedFrom n (operations ++ more) =
      loggedFrom n operations ++ loggedFrom (n + (registrations operations).length) more := by
  induction operations generalizing n with
  | nil => rfl
  | cons operation operations ih =>
    cases operation with
    | register r =>
      refine congrArg (_ :: ·) ((ih (n + 1)).trans ?_)
      rw [Nat.add_assoc, Nat.add_comm 1]
      rfl
    | call | abort => exact congrArg (_ :: ·) (ih n)

theorem loggedFrom_calls (n : Nat) (calls : List Stream.Call) :
    loggedFrom n (calls.map (.call : Stream.Call → Operation σ)) = calls.map .call := by
  induction calls with
  | nil => rfl
  | cons call calls ih => exact congrArg (_ :: ·) ih

theorem length_loggedFrom (n : Nat) (operations : List (Operation σ)) :
    (loggedFrom n operations).length = operations.length := by
  induction operations generalizing n with
  | nil => rfl
  | cons operation operations ih =>
    cases operation <;> exact congrArg (· + 1) (ih _)

end Operation

open Operation

/-! ### Where tokens stand -/

/-- Each token is located in its turn where the tokens before it lead to. -/
theorem Token.located_getElem? {p q r : Place} {tokens : List Token} {k : Nat} {token : Token}
    (hk : tokens[k]? = some token) (hbefore : p.followAll (tokens.take k) = some q)
    (hafter : q.follow token = some r) :
    (located p.openNames.reverse tokens)[k]? = some (token, q.pathOf token) := by
  induction tokens generalizing p k with
  | nil => cases hk
  | cons first tokens ih =>
    cases k with
    | zero =>
      cases hk
      cases hbefore
      cases token <;> rfl
    | succ k =>
      rw [List.take_succ_cons] at hbefore
      obtain ⟨p', hp', hrest⟩ := Place.exists_of_followAll_cons hbefore
      rw [← ih (List.getElem?_cons_succ ▸ hk) hrest]
      cases Place.follow_eq_some_iff.1 hp' with
      | startTag => simp [located, Place.openNames]
      | text => rfl
      | endTag =>
        rw [Place.openNames_inside]
        simp [located, Place.openNames]

/-! ### What a run of operations delivers -/

namespace Stream

variable {s : Stream σ} {registered : List (Registration σ)}

theorem history_append (hs : s.Sound) (registered : List (Registration σ))
    (operations more : List (Operation σ)) :
    ∃ t : Stream σ, t.Sound ∧ s.history registered (operations ++ more) =
      s.history registered operations ++
        t.history (registered ++ registrations operations) more := by
  induction operations generalizing s registered with
  | nil => exact ⟨s, hs, by simp [history, registrations]⟩
  | cons operation operations ih =>
    obtain ⟨verdict, t, h, ht⟩ := operate_ok hs operation
    obtain ⟨u, hu, hrest⟩ := ih ht (registered ++ operation.registration?.toList)
    refine ⟨u, hu, ?_⟩
    rw [List.cons_append, history_cons h, history_cons h, hrest, List.append_assoc,
      List.append_assoc, registrations, registrations, List.filterMap_cons]
    cases operation.registration? <;> rfl

theorem registered_of_mem_deliveriesIn {operation : Operation σ} :
    ∀ delivery ∈ s.deliveriesIn registered operation, delivery.registered = registered := by
  cases operation with
  | register | abort => simp [deliveriesIn]
  | call call =>
    rw [deliveriesIn]
    split
    · exact registered_of_mem_deliveries
    · simp

/-- Every token is delivered when the first of the registrations have been made, and no others. -/
theorem registered_of_mem_history (hs : s.Sound) (operations : List (Operation σ)) :
    ∀ delivery ∈ s.history registered operations, ∃ done, done <+: registrations operations ∧
      delivery.registered = registered ++ done := by
  induction operations generalizing s registered with
  | nil => simp [history]
  | cons operation operations ih =>
    obtain ⟨verdict, t, h, ht⟩ := operate_ok hs operation
    intro delivery hmem
    rw [history_cons h] at hmem
    rcases List.mem_append.1 hmem with hmem | hmem
    · exact ⟨[], List.nil_prefix, by rw [registered_of_mem_deliveriesIn delivery hmem,
        List.append_nil]⟩
    · obtain ⟨done, hdone, heq⟩ := ih ht delivery hmem
      refine ⟨operation.registration?.toList ++ done, ?_, by rw [heq, List.append_assoc]⟩
      rw [registrations, List.filterMap_cons]
      cases operation.registration? with
      | none => exact hdone
      | some r => exact List.cons_prefix_cons.2 ⟨rfl, hdone⟩

/-- What operations deliver to listeners that write down what they are told. -/
def recounted (env : σ) (operations : List (Operation σ)) : List (Delivery (Journal σ)) :=
  (create { env }).history [] (loggedFrom 0 operations)

/-- The selectors that had been registered when the root opened. -/
def known (env : σ) (operations : List (Operation σ)) : List Selector :=
  match recounted env operations with
  | [] => []
  | root :: _ => Registration.selectors root.registered

end Stream

/-- How often the listener with the number `id` is told of a match by the token. -/
def Delivery.calls (delivery : Delivery (Journal σ)) (id : Nat) : Nat :=
  match delivery.assembly.accept delivery.token with
  | .error _ => 0
  | .ok b => b.env.told.count id - delivery.assembly.env.told.count id

namespace Stream

open Assembly Registration

variable {env : σ} {operations : List (Operation σ)} {k id : Nat}
  {delivery : Delivery (Journal σ)}

/-- What is registered when a token is delivered is numbered from zero. -/
theorem registered_of_mem_recounted (h : delivery ∈ recounted env operations) :
    delivery.registered =
      loggedAll ((registrations operations).take delivery.registered.length).zipIdx := by
  obtain ⟨done, hdone, heq⟩ := registered_of_mem_history (.create _) _ delivery h
  rw [List.nil_append] at heq
  rw [registrations_loggedFrom, ← heq, loggedAll] at hdone
  have hzip (n : Nat) : (registrations operations).zipIdx.take n =
      ((registrations operations).take n).zipIdx := by
    refine List.ext_getElem? fun i => ?_
    simp only [List.getElem?_take, List.getElem?_zipIdx]
    split <;> rfl
  rw [loggedAll, ← hzip, List.map_take]
  exact List.prefix_iff_eq_take.1 hdone

theorem known_eq {root : List (Registration (Journal σ))}
    (h : ∀ first, (recounted env operations).head? = some first → first.registered = root)
    (hmem : delivery ∈ recounted env operations) : known env operations = selectors root := by
  rw [known]
  cases hall : recounted env operations with
  | nil => simp [hall] at hmem
  | cons first rest => exact congrArg selectors (h first (by rw [hall]; rfl))

/-- A token calls a listener that was registered before, for other than updates, if it is one that
the listener subscribed to and stands in an element that its selector matches, and an equal selector
had been registered when the root opened. -/
theorem calls_eq (hk : (recounted env operations)[k]? = some delivery) {s : Subscription}
    (hid : (registrations operations)[id]?.bind subscription? = some s)
    (hearlier : id < delivery.registered.length) (hkind : s.kind ≠ .updateElement) :
    ∃ path, (Token.located [] (Call.heard (calls operations)).tokens)[k]? =
        some (delivery.token, path) ∧
      delivery.calls id =
        if s.selector ∈ known env operations ∧ s.kind.occasion = delivery.token.occasion ∧
          s.selector.Matches path then 1 else 0 := by
  have hmem := List.mem_of_getElem? hk
  obtain ⟨root, r, hroot, hpasses⟩ := history_rooted (s := create ({ env } : Journal σ))
    ⟨.create _, .create _, fun _ => rfl⟩ rfl (loggedFrom 0 operations)
  obtain ⟨p, q, b, hbefore, hunderway, hq, hb, -⟩ := hpasses.of_getElem? hk
  rw [registered_of_mem_recounted hmem] at hunderway
  have hthen : ((registrations operations).take delivery.registered.length)[id]?.bind
      subscription? = some s := by rwa [List.getElem?_take_of_lt hearlier]
  have hcalls := hunderway.accept_calls hq hb hthen hkind
  refine ⟨p.pathOf delivery.token, ?_, ?_⟩
  · obtain ⟨rest, hheard⟩ := history_heard ({ env } : Journal σ) (loggedFrom 0 operations)
    have hlt : k < (recounted env operations).length := (List.getElem?_eq_some_iff.1 hk).1
    have htokens : (Call.heard (calls operations)).tokens =
        (recounted env operations).map (·.token) ++ rest :=
      (congrArg (fun calls => (Call.heard calls).tokens) (calls_loggedFrom 0 operations)).symm.trans
        hheard.symm
    rw [htokens]
    refine Token.located_getElem? (p := .prolog) ?_ ?_ hq
    · rw [List.getElem?_append_left (by rwa [List.length_map]), List.getElem?_map, hk]
      rfl
    · rw [List.take_append_of_le_length (by rw [List.length_map]; exact hlt.le), ← List.map_take]
      exact hbefore
  · rw [Delivery.calls, hb, known_eq hroot hmem]
    simp only [hcalls, Nat.add_sub_cancel_left]

/-- A selector that was registered before the first token was delivered is known. -/
theorem mem_known {early late : List (Operation σ)} {r : Registration σ} {selector : Selector}
    (hearly : recounted env early = []) (hr : r.selector? = some selector)
    (hmem : delivery ∈ recounted env (early ++ .register r :: late)) :
    selector ∈ known env (early ++ .register r :: late) := by
  obtain ⟨t, ht, happend⟩ := history_append (.create ({ env } : Journal σ)) []
    (loggedFrom 0 early) (loggedFrom (0 + (registrations early).length) (.register r :: late))
  rw [← loggedFrom_append] at happend
  have hall : recounted env (early ++ .register r :: late) =
      (t.register (r.logged (0 + (registrations early).length))).history
        (registrations (loggedFrom 0 early) ++ [r.logged (0 + (registrations early).length)])
        (loggedFrom (0 + (registrations early).length + 1) late) := by
    refine happend.trans ?_
    rw [show history _ _ (loggedFrom 0 early) = [] from hearly, List.nil_append, List.nil_append,
      loggedFrom, history_cons rfl]
    rfl
  rw [known]
  cases hrecounted : recounted env (early ++ .register r :: late) with
  | nil => simp [hrecounted] at hmem
  | cons first rest =>
    rw [hrecounted] at hall
    obtain ⟨done, -, hfirst⟩ := registered_of_mem_history (register_sound ht _) _ first
      (hall ▸ List.mem_cons_self)
    refine List.mem_eraseDups.2 (List.mem_filterMap.2
      ⟨r.logged (0 + (registrations early).length), ?_, ?_⟩)
    · rw [hfirst]
      simp
    · rw [← hr]
      cases r <;> rfl

end Stream

/-- A run in which a listener subscribes to an event after other operations. -/
structure Latecomer (σ : Type) where
  early : List (Operation σ)
  mid : List (Operation σ)
  late : List (Operation σ)
  event : String
  listener : Listener σ
  /-- Another event, for which nobody listens. -/
  primer : String

namespace Latecomer

/-- The run. -/
def plain (x : Latecomer σ) : List (Operation σ) :=
  x.early ++ x.mid ++ .register (.on x.event x.listener) :: x.late

/-- The same run with a listener for the other event that does nothing. -/
def primed (x : Latecomer σ) : List (Operation σ) :=
  x.early ++ .register (.on x.primer .idle) ::
    (x.mid ++ .register (.on x.event x.listener) :: x.late)

/-- The number of the listener in the first of these runs. -/
def id (x : Latecomer σ) : Nat := (registrations (x.early ++ x.mid)).length

theorem registrations_plain (x : Latecomer σ) :
    (registrations x.plain)[x.id]? = some (.on x.event x.listener) := by
  rw [plain, id, registrations_append, registrations_register,
    List.getElem?_append_right (Nat.le_refl _), Nat.sub_self]
  rfl

theorem registrations_primed (x : Latecomer σ) :
    (registrations x.primed)[x.id + 1]? = some (.on x.event x.listener) := by
  have hlength : x.id + 1 =
      (registrations (x.early ++ .register (.on x.primer .idle) :: x.mid)).length := by
    rw [id, registrations_append, registrations_append, registrations_register, List.length_append,
      List.length_append, List.length_cons, Nat.add_assoc]
  rw [primed, ← List.cons_append, ← List.append_assoc, registrations_append,
    registrations_register, hlength, List.getElem?_append_right (Nat.le_refl _), Nat.sub_self]
  rfl

theorem calls_primed (x : Latecomer σ) : calls x.primed = calls x.plain := by
  rw [primed, plain, calls_append, calls_append, calls_append, calls_register, calls_append,
    List.append_assoc]

end Latecomer

namespace Stream

open Registration

/-- A listener for the ends of elements is called by the same tokens in both runs, once by each end
tag of an element that its selector matches, if an equal selector was registered before the root
opened; and by none in the run where nobody had registered one. -/
theorem calls_of_latecomer (env : σ) (x : Latecomer σ) {selector : Selector}
    (hevent : Subscription.parse? x.event = some ⟨.endElement, selector⟩)
    (hprimer : Subscription.parse? x.primer = some ⟨.startElement, selector⟩)
    (hearly : recounted env x.early = []) :
    (∃ verdicts s, (create ({ env } : Journal σ)).operateAll (loggedFrom 0 x.plain) =
      .ok (verdicts, s)) ∧
    (∃ verdicts s, (create ({ env } : Journal σ)).operateAll (loggedFrom 0 x.primed) =
      .ok (verdicts, s)) ∧
    ∀ (k : Nat) (d d' : Delivery (Journal σ)), (recounted env x.plain)[k]? = some d →
      (recounted env x.primed)[k]? = some d' →
      x.id < d.registered.length → x.id + 1 < d'.registered.length →
      ∃ path,
        (Token.located [] (Call.heard (calls x.plain)).tokens)[k]? = some (d.token, path) ∧
        d'.token = d.token ∧
        d'.calls (x.id + 1) =
          (if d.token.occasion = .leave ∧ selector.Matches path then 1 else 0) ∧
        d.calls x.id = if selector ∈ known env x.plain then d'.calls (x.id + 1) else 0 := by
  refine ⟨operateAll_ok (.create _) _, operateAll_ok (.create _) _,
    fun k d d' hk hk' hearlier hearlier' => ?_⟩
  have hid : (registrations x.plain)[x.id]?.bind subscription? = some ⟨.endElement, selector⟩ := by
    rw [x.registrations_plain]
    exact hevent
  have hid' : (registrations x.primed)[x.id + 1]?.bind subscription? =
      some ⟨.endElement, selector⟩ := by
    rw [x.registrations_primed]
    exact hevent
  have hknown : selector ∈ known env x.primed :=
    mem_known hearly (congrArg (Option.map Subscription.selector) hprimer)
      (List.mem_of_getElem? hk')
  obtain ⟨path, hpath, hcalls⟩ := calls_eq hk hid hearlier (by simp)
  obtain ⟨path', hpath', hcalls'⟩ := calls_eq hk' hid' hearlier' (by simp)
  rw [x.calls_primed, hpath] at hpath'
  obtain ⟨htoken, rfl⟩ := Prod.mk.inj (Option.some.inj hpath')
  simp only [hknown, true_and, ← htoken, EventKind.occasion, eq_comm (a := Occasion.leave)]
    at hcalls hcalls'
  refine ⟨path, hpath, htoken.symm, hcalls', ?_⟩
  rw [hcalls, hcalls']
  split_ifs <;> simp_all

/-- Somebody collected `b`, and a listener for its ends that comes when `a` is open is called in
both runs. -/
theorem calls_of_latecomer_collected :
    let x : Latecomer Unit :=
      { early := [.register (.collect "b")]
        mid := [.call (.feed (Bytes.ascii ['<', 'a', '>']))]
        late := [.call (.feed (Bytes.ascii ['<', 'b', '/', '>']))]
        event := "endElement: b"
        listener := .idle
        primer := "startElement: b" }
    ∃ d d', (recounted () x.plain)[2]? = some d ∧ (recounted () x.primed)[2]? = some d' ∧
      d.token = .endTag "b" ∧ d.calls x.id = 1 ∧ d'.calls (x.id + 1) = 1 := by
  intro x
  have hevent : Subscription.parse? x.event = some ⟨.endElement, Selector.parse "b"⟩ := by
    decide +kernel
  obtain ⟨-, -, hcalls⟩ := calls_of_latecomer () x hevent (by decide +kernel) (by decide +kernel)
  obtain ⟨d, hd⟩ : ∃ d, (recounted () x.plain)[2]? = some d :=
    Option.isSome_iff_exists.1 (by decide +kernel)
  obtain ⟨d', hd'⟩ : ∃ d', (recounted () x.primed)[2]? = some d' :=
    Option.isSome_iff_exists.1 (by decide +kernel)
  have hlength : d.registered.length = 2 := by
    have h : (recounted () x.plain)[2]?.map (·.registered.length) = some 2 := by decide +kernel
    rw [hd] at h
    exact Option.some.inj h
  have hlength' : d'.registered.length = 3 := by
    have h : (recounted () x.primed)[2]?.map (·.registered.length) = some 3 := by decide +kernel
    rw [hd'] at h
    exact Option.some.inj h
  obtain ⟨path, hpath, -, hprimed, hplain⟩ := hcalls 2 d d' hd hd'
    (by rw [hlength]; decide +kernel) (by rw [hlength']; decide +kernel)
  have hlocated : (Token.located [] (Call.heard (calls x.plain)).tokens)[2]? =
      some (.endTag "b", ["a", "b"]) := by decide +kernel
  obtain ⟨htoken, rfl⟩ := Prod.mk.inj (Option.some.inj (hlocated.symm.trans hpath))
  have hone : d'.calls (x.id + 1) = 1 := by
    rw [hprimed, ← htoken]
    decide +kernel
  refine ⟨d, d', hd, hd', htoken.symm, ?_, hone⟩
  rw [hplain, hone]
  decide +kernel

/-- Where nobody registered `b` before `a` opened, a listener for its ends that comes when `a` is
open is not called for an element that starts later; had anybody, it would be. -/
theorem calls_of_latecomer_unheard :
    let x : Latecomer Unit :=
      { early := []
        mid := [.call (.feed (Bytes.ascii ['<', 'a', '>']))]
        late :=
          [.call (.feed (Bytes.ascii ['<', 'b', '>', '<', '/', 'b', '>', '<', '/', 'a', '>'])),
            .call .finish]
        event := "endElement: b"
        listener := .idle
        primer := "startElement: b" }
    Subscription.parse? x.event = some ⟨.endElement, Selector.parse "b"⟩ ∧
    Subscription.parse? x.primer = some ⟨.startElement, Selector.parse "b"⟩ ∧
    recounted () x.early = [] ∧
    ((create ({ env := () } : Journal Unit)).operateAll (loggedFrom 0 (x.early ++ x.mid))).map
      (·.2.assembly.depth) = .ok 1 ∧
    (recounted () x.plain).map (fun d => (d.token, d.registered.length, d.calls x.id)) =
      [(.startTag "a" [], 0, 0), (.startTag "b" [], 1, 0), (.endTag "b", 1, 0),
        (.endTag "a", 1, 0)] ∧
    (recounted () x.primed).map (fun d => (d.token, d.registered.length, d.calls (x.id + 1))) =
      [(.startTag "a" [], 1, 0), (.startTag "b" [], 2, 0), (.endTag "b", 2, 1),
        (.endTag "a", 2, 0)] := by
  decide +kernel

end Stream

end XmlSieve
