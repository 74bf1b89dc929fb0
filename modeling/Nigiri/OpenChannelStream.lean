import Nigiri.OpenChannel
import Nigiri.PaymentStream

/-! What waiting for a channel to open returns, read off the events alone: the pending
updates of one point, and the event that ends them. -/
namespace Nigiri.Lnd
open Nigiri.WireFormat
variable {Hash : Type}

abbrev OpenEvent := Reply (Option OpenStatusUpdate)

def ChannelPoint.Names (response : ChannelPoint) (point : OutPoint) : Prop :=
  response.outputIndex = point.vout ∧
    (response.fundingTxid = some (.bytes point.txid.bytes) ∨
      ∃ text, response.fundingTxid = some (.str text) ∧ Txid.fromStr text = some point.txid)

/-- A pending update of a point. -/
def PendingAt (point : OutPoint) (event : OpenEvent) : Prop :=
  ∃ txid, event = .response (some ⟨some (.chanPending ⟨txid, point.vout⟩)⟩) ∧
    txid = point.txid.bytes

/-- An open update of a point. -/
def OpenAt (point : OutPoint) (event : OpenEvent) : Prop :=
  ∃ response : ChannelPoint, event = .response (some ⟨some (.chanOpen ⟨some response⟩)⟩) ∧
    response.Names point

/-- An update whose channel point has a malformed or missing funding transaction id. -/
inductive MalformedPoint : OpenEvent → Prop where
  | pending (txid : Bytes) (vout : UInt32) (h : txid.length ≠ 32) :
    MalformedPoint (.response (some ⟨some (.chanPending ⟨txid, vout⟩)⟩))
  | opened (response : ChannelPoint) (h : ∀ point, ¬ response.Names point) :
    MalformedPoint (.response (some ⟨some (.chanOpen ⟨some response⟩)⟩))

/-- The events so far are pending updates of the point, if one is known. -/
def AllPending : Option OutPoint → List OpenEvent → Prop
  | none, before => before = []
  | some point, before => before ≠ [] ∧ ∀ e ∈ before, PendingAt point e

/-- What a stream must not show: its end, a state that does not belong to a wallet-funded
channel, and an open point that is missing or any point that is not the pending one. -/
inductive OpenFault (pendingPoint : Option OutPoint) : OpenEvent → Prop where
  | ended : OpenFault pendingPoint (.response none)
  | psbt : OpenFault pendingPoint (.response (some ⟨some .psbtFund⟩))
  | empty : OpenFault pendingPoint (.response (some ⟨none⟩))
  | missing : OpenFault pendingPoint (.response (some ⟨some (.chanOpen ⟨none⟩)⟩))
  | pendingChanged {event : OpenEvent} {known point : OutPoint}
    (hknown : pendingPoint = some known) (h : PendingAt point event) (hne : known ≠ point) :
    OpenFault pendingPoint event
  | openedChanged {event : OpenEvent} {known point : OutPoint}
    (hknown : pendingPoint = some known) (h : OpenAt point event) (hne : known ≠ point) :
    OpenFault pendingPoint event

def LndError.identifier : LndError Hash → Option String
  | .invalidResponse _ _ identifier | .outcomeUnknown _ identifier => identifier
  | _ => none

theorem fromSlice_eq_some {bytes : Bytes} {txid : Txid} :
    Txid.fromSlice bytes = some txid ↔ bytes = txid.bytes := by
  unfold Txid.fromSlice
  constructor
  · intro h
    split at h
    · exact congrArg Txid.bytes (Option.some.inj h)
    · cases h
  · rintro rfl
    exact dif_pos txid.size

/-- The conversion accepts exactly the points that are named. -/
theorem channelPoint_ok_iff {response : ChannelPoint} {point : OutPoint} :
    (channelPoint response : Except (LndError Hash) OutPoint) = .ok point ↔
      response.Names point := by
  obtain ⟨fundingTxid, vout⟩ := response
  obtain ⟨txid, index⟩ := point
  unfold channelPoint ChannelPoint.Names
  cases fundingTxid with
  | none => simp [bind, Except.bind]
  | some funding =>
    cases funding with
    | bytes bytes =>
      cases h : Txid.fromSlice bytes with
      | none =>
        have hne : bytes ≠ txid.bytes := fun hb => by simp [fromSlice_eq_some.mpr hb] at h
        simp [bind, Except.bind, h, hne]
      | some found =>
        have hb : bytes = txid.bytes ↔ found = txid := by
          rw [← fromSlice_eq_some, h, Option.some_inj]
        simp [bind, Except.bind, pure, Except.pure, h, hb, and_comm]
    | str text =>
      cases h : Txid.fromStr text with
      | none => simp [bind, Except.bind, h]
      | some found => simp [bind, Except.bind, pure, Except.pure, h, and_comm]

/-- Whatever it rejects is an invalid response that names no point. -/
theorem channelPoint_error {response : ChannelPoint} {error : LndError Hash}
    (h : channelPoint response = .error error) :
    ∃ detail, error = .invalidResponse "open channel" detail none := by
  obtain ⟨fundingTxid, vout⟩ := response
  cases fundingTxid with
  | none => exact ⟨_, (Except.error.inj h).symm⟩
  | some funding =>
    cases funding with
    | bytes bytes =>
      cases hfound : Txid.fromSlice bytes <;> simp only [channelPoint, hfound] at h
      · exact ⟨_, (Except.error.inj h).symm⟩
      · cases h
    | str text =>
      cases hfound : Txid.fromStr text <;> simp only [channelPoint, hfound] at h
      · exact ⟨_, (Except.error.inj h).symm⟩
      · cases h

/-- A point known before is compared with the next one. -/
theorem any_ne_eq_true {known : Option OutPoint} {point : OutPoint} :
    known.any (· ≠ point) = true ↔ ∃ other, known = some other ∧ other ≠ point := by
  cases known <;> simp

section Step
variable {d : Nat} {known : Option OutPoint} {point : OutPoint} {event : OpenEvent}
  {rest : List OpenEvent}

/-- A pending update of the known point, or of any point before one is known, is taken in. -/
theorem openFrom_pending (hpending : PendingAt point event)
    (hknown : ∀ other, known = some other → other = point) :
    @openFrom Hash d known (event :: rest) = openFrom d (some point) rest := by
  obtain ⟨txid, rfl, rfl⟩ := hpending
  have hpoint : (channelPoint ⟨some (.bytes point.txid.bytes), point.vout⟩ :
      Except (LndError Hash) OutPoint) = .ok point := channelPoint_ok_iff.mpr ⟨rfl, .inl rfl⟩
  have hany : known.any (· ≠ point) = false := by
    rw [← Bool.not_eq_true, any_ne_eq_true]
    rintro ⟨other, hother, hne⟩
    exact hne (hknown other hother)
  cases known <;>
    simp only [openFrom, awaitOpenUpdate, boundedRequestUntil, boundedMutatingRequestUntil,
      receiveOpenUpdate, hpoint, hany, bind, Except.bind, pure, Except.pure, Bool.false_eq_true,
      if_false]

theorem openFrom_open (hopen : OpenAt point event)
    (hknown : ∀ other, known = some other → other = point) :
    @openFrom Hash d known (event :: rest) = some (.ok point) := by
  obtain ⟨response, rfl, hnames⟩ := hopen
  have hpoint : (channelPoint response : Except (LndError Hash) OutPoint) = .ok point :=
    channelPoint_ok_iff.mpr hnames
  have hany : known.any (· ≠ point) = false := by
    rw [← Bool.not_eq_true, any_ne_eq_true]
    rintro ⟨other, hother, hne⟩
    exact hne (hknown other hother)
  cases known <;>
    simp only [openFrom, awaitOpenUpdate, boundedRequestUntil, boundedMutatingRequestUntil,
      receiveOpenUpdate, hpoint, hany, bind, Except.bind, pure, Except.pure, Bool.false_eq_true,
      if_false]

/-- The shared conversion does not know the pending point, so its errors name none. -/
theorem openFrom_malformed (hmalformed : MalformedPoint event) : ∃ detail,
    @openFrom Hash d known (event :: rest)
      = some (.error (.invalidResponse "open channel" detail none)) := by
  obtain ⟨response, hnames, hreceive⟩ : ∃ response : ChannelPoint,
      (∀ point, ¬ response.Names point) ∧
      ∃ f : OutPoint → Except (LndError Hash) OpenProgress, ∃ update,
        event = .response (some update) ∧
        receiveOpenUpdate known update = (channelPoint response).bind f := by
    cases hmalformed with
    | pending txid vout h =>
      refine ⟨⟨some (.bytes txid), vout⟩, ?_, _, _, rfl, rfl⟩
      rintro point ⟨-, hbytes | ⟨text, htext, -⟩⟩
      · obtain rfl := FundingTxid.bytes.inj (Option.some.inj hbytes)
        exact h point.txid.size
      · cases htext
    | opened response h => exact ⟨response, h, _, _, rfl, rfl⟩
  obtain ⟨f, update, rfl, hreceive⟩ := hreceive
  cases hpoint : (channelPoint response : Except (LndError Hash) OutPoint) with
  | ok point => exact absurd (channelPoint_ok_iff.mp hpoint) (hnames point)
  | error error =>
    obtain ⟨detail, rfl⟩ := channelPoint_error hpoint
    refine ⟨detail, ?_⟩
    rw [hpoint] at hreceive
    cases known <;>
      simp only [openFrom, awaitOpenUpdate, boundedRequestUntil, boundedMutatingRequestUntil,
        hreceive, Except.bind]

/-- Every other invalid response names the pending point, if there is one. -/
theorem openFrom_fault (hfault : OpenFault known event) : ∃ detail,
    @openFrom Hash d known (event :: rest)
      = some (.error (.invalidResponse "open channel" detail (known.map OutPoint.toText))) := by
  cases hfault with
  | ended => cases known <;> exact ⟨_, rfl⟩
  | psbt => cases known <;> exact ⟨_, rfl⟩
  | empty => cases known <;> exact ⟨_, rfl⟩
  | missing => cases known <;> exact ⟨_, rfl⟩
  | @pendingChanged event other point hknown h hne =>
    subst hknown
    obtain ⟨txid, rfl, rfl⟩ := h
    have hpoint : (channelPoint ⟨some (.bytes point.txid.bytes), point.vout⟩ :
        Except (LndError Hash) OutPoint) = .ok point := channelPoint_ok_iff.mpr ⟨rfl, .inl rfl⟩
    have hany : (some other).any (· ≠ point) = true := any_ne_eq_true.mpr ⟨other, rfl, hne⟩
    refine ⟨"pending channel point changed during channel opening", ?_⟩
    simp only [openFrom, awaitOpenUpdate, boundedRequestUntil, receiveOpenUpdate, hpoint, hany,
      bind, Except.bind, if_true]
    rfl
  | @openedChanged event other point hknown h hne =>
    subst hknown
    obtain ⟨response, rfl, hnames⟩ := h
    have hpoint : (channelPoint response : Except (LndError Hash) OutPoint) = .ok point :=
      channelPoint_ok_iff.mpr hnames
    have hany : (some other).any (· ≠ point) = true := any_ne_eq_true.mpr ⟨other, rfl, hne⟩
    refine ⟨"pending and opened channel points do not match", ?_⟩
    simp only [openFrom, awaitOpenUpdate, boundedRequestUntil, receiveOpenUpdate, hpoint, hany,
      bind, Except.bind, if_true]
    rfl

/-- An error or the deadline, before and after a pending point is known. -/
def openInterruption : Option OutPoint → Option Status → LndError Hash
  | some point, _ => .outcomeUnknown "open channel" (some point.toText)
  | none, none => .outcomeUnknown "open channel" none
  | none, some status =>
    if mutatingStatusIsAmbiguous status then .outcomeUnknown "open channel" none
    else mapStatus "open channel" status

theorem openFrom_status (status : Status) :
    @openFrom Hash d known (.status status :: rest)
      = some (.error (openInterruption known (some status))) := by
  cases known with
  | some point => rfl
  | none =>
    cases h : mutatingStatusIsAmbiguous status <;>
      simp only [openFrom, awaitOpenUpdate, boundedMutatingRequestUntil, openInterruption,
        unknownMutationOutcome, h, Bool.false_eq_true, if_true, if_false]

theorem openFrom_elapsed :
    @openFrom Hash d known (.elapsed :: rest)
      = some (.error (openInterruption known none)) := by
  cases known <;> rfl

/-- Every event is a pending or open update of one point, malformed, a fault, or cuts the
stream off. -/
theorem openEvent_cases (known : Option OutPoint) (event : OpenEvent) :
    (∃ point, PendingAt point event ∧ ∀ other, known = some other → other = point) ∨
    (∃ point, OpenAt point event ∧ ∀ other, known = some other → other = point) ∨
    MalformedPoint event ∨ OpenFault known event ∨
    (∃ status, event = .status status) ∨ event = .elapsed := by
  have known_cases (point : OutPoint) : (∀ other, known = some other → other = point) ∨
      ∃ other, known = some other ∧ other ≠ point := by
    by_cases h : ∃ other, known = some other ∧ other ≠ point
    · exact .inr h
    · exact .inl fun other hother => by_contra fun hne => h ⟨other, hother, hne⟩
  match event with
  | .status status => exact .inr (.inr (.inr (.inr (.inl ⟨status, rfl⟩))))
  | .elapsed => exact .inr (.inr (.inr (.inr (.inr rfl))))
  | .response none => exact .inr (.inr (.inr (.inl .ended)))
  | .response (some ⟨none⟩) => exact .inr (.inr (.inr (.inl .empty)))
  | .response (some ⟨some .psbtFund⟩) => exact .inr (.inr (.inr (.inl .psbt)))
  | .response (some ⟨some (.chanOpen ⟨none⟩)⟩) => exact .inr (.inr (.inr (.inl .missing)))
  | .response (some ⟨some (.chanPending ⟨txid, vout⟩)⟩) =>
    by_cases hsize : txid.length = 32
    · have hpending : PendingAt ⟨⟨txid, hsize⟩, vout⟩
          (.response (some ⟨some (.chanPending ⟨txid, vout⟩)⟩)) := ⟨txid, rfl, rfl⟩
      rcases known_cases ⟨⟨txid, hsize⟩, vout⟩ with h | ⟨other, hother, hne⟩
      · exact .inl ⟨_, hpending, h⟩
      · exact .inr (.inr (.inr (.inl (.pendingChanged hother hpending hne))))
    · exact .inr (.inr (.inl (.pending txid vout hsize)))
  | .response (some ⟨some (.chanOpen ⟨some response⟩)⟩) =>
    by_cases hnames : ∃ point, response.Names point
    · obtain ⟨point, hnames⟩ := hnames
      have hopen : OpenAt point (.response (some ⟨some (.chanOpen ⟨some response⟩)⟩)) :=
        ⟨response, rfl, hnames⟩
      rcases known_cases point with h | ⟨other, hother, hne⟩
      · exact .inr (.inl ⟨point, hopen, h⟩)
      · exact .inr (.inr (.inr (.inl (.openedChanged hother hopen hne))))
    · exact .inr (.inr (.inl (.opened response (not_exists.mp hnames))))

/-- How an event that is no pending update of the known point decides the stream. -/
inductive OpenDecision (known : Option OutPoint) (event : OpenEvent) :
    Except (LndError Hash) OutPoint → Prop where
  | opened {p : OutPoint} (h : OpenAt p event)
    (hknown : ∀ other, known = some other → other = p) : OpenDecision known event (.ok p)
  | malformed {detail : String} (h : MalformedPoint event) :
    OpenDecision known event (.error (.invalidResponse "open channel" detail none))
  | fault {detail : String} (h : OpenFault known event) : OpenDecision known event
    (.error (.invalidResponse "open channel" detail (known.map OutPoint.toText)))
  | interrupted (status : Option Status) :
    OpenDecision known event (.error (openInterruption known status))

theorem openFrom_decision (hevent : ∀ point, PendingAt point event →
      ¬ ∀ other, known = some other → other = point) : ∃ result : Except (LndError Hash) OutPoint,
    openFrom d known (event :: rest) = some result ∧ OpenDecision known event result := by
  rcases openEvent_cases known event with
    ⟨point, hpending, hknown⟩ | ⟨point, hopen, hknown⟩ | hbad | hfault | ⟨status, rfl⟩ | rfl
  · exact absurd hknown (hevent point hpending)
  · exact ⟨_, openFrom_open hopen hknown, .opened hopen hknown⟩
  · obtain ⟨detail, h⟩ := openFrom_malformed hbad
    exact ⟨_, h, .malformed hbad⟩
  · obtain ⟨detail, h⟩ := openFrom_fault hfault
    exact ⟨_, h, .fault hfault⟩
  · exact ⟨_, openFrom_status status, .interrupted (some status)⟩
  · exact ⟨_, openFrom_elapsed, .interrupted none⟩

/-- Pending updates of one point leave the loop waiting with that point. -/
theorem openFrom_allPending {before : List OpenEvent} (hbefore : AllPending known before) :
    @openFrom Hash d none (before ++ rest) = openFrom d known rest := by
  cases known with
  | none =>
    obtain rfl : before = [] := hbefore
    rfl
  | some point =>
    obtain ⟨hne, hbefore⟩ := hbefore
    -- the loop already waits with this point after the first of them
    have run : ∀ after : List OpenEvent, (∀ e ∈ after, PendingAt point e) →
        @openFrom Hash d (some point) (after ++ rest) = openFrom d (some point) rest := by
      intro after hafter
      induction after with
      | nil => rfl
      | cons e after ih =>
        obtain ⟨he, hafter⟩ := List.forall_mem_cons.mp hafter
        rw [List.cons_append, openFrom_pending he fun _ h => (Option.some.inj h).symm, ih hafter]
    cases before with
    | nil => exact absurd rfl hne
    | cons e after =>
      obtain ⟨he, hafter⟩ := List.forall_mem_cons.mp hbefore
      rw [List.cons_append, openFrom_pending he (by simp), run after hafter]

/-- A stream that starts with a pending update waits on, or is decided by the first event
that is no pending update of its point. -/
theorem openFrom_after_pending {first : OpenEvent} {after : List OpenEvent}
    (hfirst : PendingAt point first) {result : Except (LndError Hash) OutPoint}
    (hrun : openFrom d none (first :: after) = some result) :
    ∃ before event rest, first :: after = before ++ event :: rest ∧
      AllPending (some point) before ∧ OpenDecision (some point) event result := by
  rcases exists_first_not (PendingAt point) after with
    hall | ⟨before, event, rest, rfl, hbefore, hevent⟩
  · have hwaiting : AllPending (some point) (first :: after) :=
      ⟨List.cons_ne_nil _ _, List.forall_mem_cons.mpr ⟨hfirst, hall⟩⟩
    have hnone := @openFrom_allPending Hash d (some point) [] _ hwaiting
    rw [List.append_nil, hrun] at hnone
    cases hnone
  · have hpending : AllPending (some point) (first :: before) :=
      ⟨List.cons_ne_nil _ _, List.forall_mem_cons.mpr ⟨hfirst, hbefore⟩⟩
    have hother (other : OutPoint) (h : PendingAt other event) :
        ¬ ∀ known, some point = some known → known = other :=
      fun hknown => hevent (hknown point rfl ▸ h)
    obtain ⟨decided, hlast, hdecision⟩ := @openFrom_decision Hash d (some point) event rest hother
    rw [← openFrom_allPending hpending] at hlast
    obtain rfl := Option.some.inj (hrun.symm.trans hlast)
    exact ⟨first :: before, event, rest, rfl, hpending, hdecision⟩

end Step

end Nigiri.Lnd
