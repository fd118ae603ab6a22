import XmlSieve.Proofs.Stream.Forecast

/-!
# What is delivered was heard

Which tokens a stream delivers is settled by the calls among the operations: they are the first of
those that the tokenizer makes of the input (`history_heard`), whatever is registered and when,
whoever pauses, and whether the stream is aborted before it comes to the rest.
-/

namespace XmlSieve

variable {σ : Type}

/-- The call, if it is one. -/
def Operation.call? : Operation σ → Option Stream.Call
  | call c => some c
  | register _ | abort _ => none

namespace Stream

variable {s t : Stream σ} {rest : Bytes} {final : Bool} {verdict : Verdict}
  {registered : List (Registration σ)}

/-- The tokens that are still to be delivered if `rest` follows and, for `final`, the input ends
there. -/
def ahead (s : Stream σ) (rest : Bytes) (final : Bool) : List Token :=
  match s.phase with
  | .accepting => (s.tokenizer.given rest final).outlook.tokens
  | .finishing => s.tokenizer.outlook.tokens
  | .ended | .failed => []

theorem ahead_eq (s : Stream σ) (rest : Bytes) (final : Bool) :
    s.ahead rest final = (s.forecast rest final).tokens := by
  unfold ahead forecast
  cases s.phase <;> rfl

/-- Delivery takes what it delivers off what is still to be delivered. -/
theorem drain_ahead (hs : s.Sound) (hl : s.Live) (h : s.drain = .ok (verdict, t)) :
    s.ahead rest final = (s.deliveries registered).map (·.token) ++ t.ahead rest final := by
  rw [ahead_eq, ahead_eq, drain_forecast registered hs hl h]
  rfl

theorem noted_ahead (s : Stream σ) (call : Call) (after : Bytes × Bool) :
    (s.noted call).ahead after.1 after.2 =
      s.ahead (call.toCome after).1 (call.toCome after).2 := by
  rw [ahead_eq, ahead_eq, forecast_prospective.noted]

/-- An operation delivers the first of what is still to be delivered. -/
theorem operate_ahead (registered : List (Registration σ)) (hs : s.Sound)
    {operation : Operation σ} (h : s.operate operation = .ok (verdict, t)) (after : Bytes × Bool) :
    (s.deliveriesIn registered operation).map (·.token) ++ t.ahead after.1 after.2 <+:
      s.ahead (operation.call?.toList.foldr Call.toCome after).1
        (operation.call?.toList.foldr Call.toCome after).2 := by
  cases operation with
  | register r =>
    cases h
    obtain ⟨htokenizer, hphase, -, -⟩ := s.register_input r
    rw [ahead, ahead, htokenizer, hphase]
    exact List.prefix_rfl
  | call call =>
    rw [Operation.call?, Option.toList_some, List.foldr_cons, List.foldr_nil, ← noted_ahead]
    rw [deliveriesIn]
    cases performs hs h with
    | drained hd hdrain =>
      rw [if_pos hd, ← drain_ahead (hs.noted call) (live_of_delivers hd) hdrain]
    | noted hd =>
      rw [if_neg (by simp [hd])]
      exact List.prefix_rfl
  | abort e =>
    cases h
    unfold Stream.abort
    split
    · exact List.prefix_rfl
    · exact List.nil_prefix

theorem history_ahead (registered : List (Registration σ)) (hs : s.Sound)
    (operations : List (Operation σ)) (after : Bytes × Bool) :
    (s.history registered operations).map (·.token) <+:
      s.ahead ((operations.filterMap (·.call?)).foldr Call.toCome after).1
        ((operations.filterMap (·.call?)).foldr Call.toCome after).2 := by
  induction operations generalizing s registered with
  | nil => exact List.nil_prefix
  | cons operation operations ih =>
    obtain ⟨verdict, t, h, ht⟩ := operate_ok hs operation
    have hnow := operate_ahead registered hs h
      ((operations.filterMap (·.call?)).foldr Call.toCome after)
    rw [history_cons h, List.map_append]
    refine ((List.prefix_append_right_inj _).2 (ih _ ht)).trans ?_
    rw [List.filterMap_cons]
    cases hc : operation.call? <;> rw [hc] at hnow <;> exact hnow

/-- What is delivered is the first of what the tokenizer makes of the input. -/
theorem history_heard (env : σ) (operations : List (Operation σ)) :
    ((create env).history [] operations).map (·.token) <+:
      (Call.heard (operations.filterMap (·.call?))).tokens := by
  have h := history_ahead [] (.create env) operations ([], false)
  rwa [foldr_toCome_nil] at h

end Stream

end XmlSieve
