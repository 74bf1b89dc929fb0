import Nigiri.OpenChannelStream

/-! What opening a channel returns for every stream of updates, and which of its errors name
the channel that is already pending. -/
namespace Nigiri.Lnd
open Nigiri.WireFormat
variable {Hash : Type}

section Dispatched
variable {Instant : Type} {checkedAdd : Nat → Option Instant} {timeout : Nat}
  {request : OpenChannelRequest} {message : ProtoOpenChannelRequest} {deadline : Instant}
  {openChannel : ProtoOpenChannelRequest → Reply (List OpenEvent)} {events : List OpenEvent}

/-- Once the request is dispatched its result is that of the stream it opened. -/
theorem openChannelWith_dispatched
    (hrequest : (protoOpenChannelRequest request : Except (LndError Hash) _) = .ok message)
    (hdeadline : checkedAdd timeout = some deadline)
    (hstream : openChannel message = .response events) :
    openChannelWith checkedAdd timeout openChannel request =
      @openFrom Hash timeout none events := by
  simp only [openChannelWith, hrequest, operationDeadline, hdeadline, bind, Except.bind, hstream,
    boundedMutatingRequestUntil]

/-- A malformed point behind pending updates of one point. -/
def MalformedAfterPending (events : List OpenEvent) : Prop :=
  ∃ point before event rest, events = before ++ event :: rest ∧
    AllPending (some point) before ∧ MalformedPoint event

/-- After a pending update every error names its point, but for the one of a malformed
point behind it. -/
theorem open_channel_errors_name_pending_iff
    (hrequest : (protoOpenChannelRequest request : Except (LndError Hash) _) = .ok message)
    (hdeadline : checkedAdd timeout = some deadline)
    (hstream : openChannel message = .response events) :
    (∀ point event rest (error : LndError Hash), events = event :: rest → PendingAt point event →
      openChannelWith checkedAdd timeout openChannel request = some (.error error) →
      error.identifier = some point.toText) ↔ ¬ MalformedAfterPending events := by
  rw [openChannelWith_dispatched hrequest hdeadline hstream]
  constructor
  · rintro h ⟨point, before, event, rest, rfl, hbefore, hmalformed⟩
    obtain ⟨detail, hrun⟩ := @openFrom_malformed Hash timeout (some point) event rest hmalformed
    have hevents : openFrom timeout none (before ++ event :: rest)
        = some (.error (.invalidResponse "open channel" detail none : LndError Hash)) := by
      rw [openFrom_allPending hbefore, hrun]
    cases before with
    | nil => exact hbefore.1 rfl
    | cons first before =>
      have hfirst := hbefore.2 first List.mem_cons_self
      have hnone := h point first (before ++ event :: rest) _ rfl hfirst hevents
      cases hnone
  · rintro hmalformed point first after error rfl hfirst herror
    obtain ⟨before, event, rest, hevents, hbefore, hdecision⟩ :=
      openFrom_after_pending hfirst herror
    cases hdecision with
    | malformed hbad => exact absurd ⟨point, before, event, rest, hevents, hbefore, hbad⟩ hmalformed
    | fault h => rfl
    | interrupted status => rfl

def fundedPoint : OutPoint := ⟨⟨List.replicate 32 7, rfl⟩, 1⟩

def fundedRequest : OpenChannelRequest := ⟨[2, 3], 100000, 1, by decide, by decide⟩

/-- A second pending update with a malformed transaction id loses the point of the first. -/
theorem open_channel_forgets_pending : ¬ ∀ (checkedAdd : Nat → Option Nat) (timeout : Nat)
    (openChannel : ProtoOpenChannelRequest → Reply (List OpenEvent)) (request : OpenChannelRequest)
    (message : ProtoOpenChannelRequest) (deadline : Nat) (events : List OpenEvent),
    (protoOpenChannelRequest request : Except (LndError Unit) _) = .ok message →
    checkedAdd timeout = some deadline → openChannel message = .response events →
    ∀ point event rest (error : LndError Unit), events = event :: rest → PendingAt point event →
      openChannelWith checkedAdd timeout openChannel request = some (.error error) →
      error.identifier = some point.toText := by
  intro h
  have hnone := h some 30 (fun _ => .response
      [.response (some ⟨some (.chanPending ⟨fundedPoint.txid.bytes, 1⟩)⟩),
        .response (some ⟨some (.chanPending ⟨[], 1⟩)⟩)])
    fundedRequest _ 30 _ rfl rfl rfl fundedPoint _ _
    (.invalidResponse "open channel" "funding transaction id is malformed" none) rfl
    ⟨_, rfl, rfl⟩ rfl
  cases hnone

theorem open_channel_errors_name_pending_iff_elapsed :
    (∀ point event rest (error : LndError Unit),
      [.response (some ⟨some (.chanPending ⟨fundedPoint.txid.bytes, 1⟩)⟩), .elapsed]
        = event :: rest → PendingAt point event →
      openChannelWith some 30 (fun _ => .response
        [.response (some ⟨some (.chanPending ⟨fundedPoint.txid.bytes, 1⟩)⟩), .elapsed])
        fundedRequest = some (.error error) → error.identifier = some point.toText) ↔
    ¬ MalformedAfterPending
      [.response (some ⟨some (.chanPending ⟨fundedPoint.txid.bytes, 1⟩)⟩), .elapsed] :=
  open_channel_errors_name_pending_iff rfl rfl rfl

/-- A channel is open exactly when the first event that is no pending update opens the point
of all pending updates before it. -/
theorem openFrom_ok_iff {point : OutPoint} :
    @openFrom Hash timeout none events = some (.ok point) ↔
      ∃ before event rest, events = before ++ event :: rest ∧
        (∀ e ∈ before, PendingAt point e) ∧ OpenAt point event := by
  constructor
  · intro hrun
    cases events with
    | nil => cases hrun
    | cons first after =>
      by_cases hfirst : ∃ pending, PendingAt pending first
      · obtain ⟨pending, hfirst⟩ := hfirst
        obtain ⟨before, event, rest, hevents, ⟨-, hbefore⟩, hdecision⟩ :=
          openFrom_after_pending hfirst hrun
        cases hdecision with
        | opened hopen hknown =>
          obtain rfl := hknown pending rfl
          exact ⟨before, event, rest, hevents, hbefore, hopen⟩
      · obtain ⟨decided, hlast, hdecision⟩ := @openFrom_decision Hash timeout none first after
          fun pending h => absurd ⟨pending, h⟩ hfirst
        obtain rfl := Option.some.inj (hrun.symm.trans hlast)
        cases hdecision with
        | opened hopen hknown => exact ⟨[], first, after, rfl, by simp, hopen⟩
  · rintro ⟨before, event, rest, rfl, hbefore, hopen⟩
    cases before with
    | nil => exact openFrom_open hopen (by simp)
    | cons first before =>
      have hall : AllPending (some point) (first :: before) := ⟨List.cons_ne_nil _ _, hbefore⟩
      rw [openFrom_allPending hall, openFrom_open hopen fun _ h => (Option.some.inj h).symm]

/-- After a pending update no error can be taken for a definitive refusal. -/
theorem openFrom_pending_outcome {point : OutPoint} {first : OpenEvent} {after : List OpenEvent}
    {result : Except (LndError Hash) OutPoint} (hfirst : PendingAt point first)
    (hrun : openFrom timeout none (first :: after) = some result) :
    (∃ opened, result = .ok opened) ∨
      (∃ identifier, result = .error (.outcomeUnknown "open channel" identifier)) ∨
      ∃ detail identifier, result = .error (.invalidResponse "open channel" detail identifier) := by
  obtain ⟨before, event, rest, -, -, hdecision⟩ := openFrom_after_pending hfirst hrun
  cases hdecision with
  | opened hopen hknown => exact .inl ⟨_, rfl⟩
  | malformed hbad => exact .inr (.inr ⟨_, _, rfl⟩)
  | fault hfault => exact .inr (.inr ⟨_, _, rfl⟩)
  | interrupted status => exact .inr (.inl ⟨_, rfl⟩)

/-- What opening a channel returns for every stream of events. -/
theorem open_channel_stream_outcome
    (hrequest : (protoOpenChannelRequest request : Except (LndError Hash) _) = .ok message)
    (hdeadline : checkedAdd timeout = some deadline)
    (hstream : openChannel message = .response events)
    {result : Option (Except (LndError Hash) OutPoint)}
    (hresult : result = openChannelWith checkedAdd timeout openChannel request) :
    (∀ point, result = some (.ok point) ↔ ∃ before event rest, events = before ++ event :: rest ∧
      (∀ e ∈ before, PendingAt point e) ∧ OpenAt point event) ∧
    (∀ status rest, events = .status status :: rest →
      (mutatingStatusIsAmbiguous status = true →
        result = some (.error (.outcomeUnknown "open channel" none))) ∧
      (mutatingStatusIsAmbiguous status = false →
        result = some (.error (mapStatus "open channel" status)))) ∧
    (∀ rest, events = .elapsed :: rest →
      result = some (.error (.outcomeUnknown "open channel" none))) ∧
    (∀ point before event rest, AllPending (some point) before →
      events = before ++ event :: rest → ((∃ status, event = .status status) ∨ event = .elapsed) →
      result = some (.error (.outcomeUnknown "open channel" (some point.toText)))) ∧
    (∀ known before event rest, AllPending known before → events = before ++ event :: rest →
      OpenFault known event ∨ MalformedPoint event → ∃ detail identifier,
        result = some (.error (.invalidResponse "open channel" detail identifier))) ∧
    ∀ point first after outcome, events = first :: after → PendingAt point first →
      result = some outcome → (∃ opened, outcome = .ok opened) ∨
        (∃ identifier, outcome = .error (.outcomeUnknown "open channel" identifier)) ∨
        ∃ detail identifier,
          outcome = .error (.invalidResponse "open channel" detail identifier) := by
  rw [openChannelWith_dispatched hrequest hdeadline hstream] at hresult
  subst hresult
  refine ⟨fun point => openFrom_ok_iff, ?_, ?_, ?_, ?_, ?_⟩
  · rintro status rest rfl
    rw [openFrom_status]
    constructor
    · intro h
      simp only [openInterruption, h, if_true]
    · intro h
      simp only [openInterruption, h, Bool.false_eq_true, if_false]
  · rintro rest rfl
    exact openFrom_elapsed
  · rintro point before event rest hbefore rfl (⟨status, rfl⟩ | rfl)
    · rw [openFrom_allPending hbefore, openFrom_status]
      rfl
    · rw [openFrom_allPending hbefore, openFrom_elapsed]
      rfl
  · rintro known before event rest hbefore rfl (hfault | hbad)
    · obtain ⟨detail, h⟩ := @openFrom_fault Hash timeout _ _ rest hfault
      exact ⟨detail, _, by rw [openFrom_allPending hbefore, h]⟩
    · obtain ⟨detail, h⟩ := @openFrom_malformed Hash timeout known _ rest hbad
      exact ⟨detail, _, by rw [openFrom_allPending hbefore, h]⟩
  · rintro point first after outcome rfl hfirst hrun
    exact openFrom_pending_outcome hfirst hrun

theorem open_channel_stream_outcome_funded :
    openChannelWith some 30 (fun _ => .response
      [.response (some ⟨some (.chanPending ⟨fundedPoint.txid.bytes, 1⟩)⟩),
        .response (some ⟨some (.chanOpen ⟨some ⟨some (.bytes fundedPoint.txid.bytes), 1⟩⟩)⟩)])
      fundedRequest = some (.ok fundedPoint : Except (LndError Unit) OutPoint) := by
  refine ((open_channel_stream_outcome rfl rfl rfl rfl).1 fundedPoint).mpr
    ⟨[_], _, [], rfl, ?_, _, rfl, rfl, .inl rfl⟩
  rintro e he
  obtain rfl := List.mem_singleton.mp he
  exact ⟨_, rfl, rfl⟩

end Dispatched

end Nigiri.Lnd
