import Nigiri.LndError
import Nigiri.PaymentMessage

/-! Reading payment updates and consuming the update stream of one payment. A stream is
the list of what each awaited message gave; a run that has used up its events is still
waiting and has no result yet. -/
namespace Nigiri.Lnd
open Nigiri.WireFormat
variable {Hash : Type}

/-- The hash library: textual form, digest of a preimage, and display form. -/
structure HashLib (Hash : Type) where
  fromStr : Bytes → Option Hash
  digest : Bytes → Hash
  display : Hash → String

inductive PaymentState where
  | inFlight
  | succeeded
  | failed
  | unknown (value : Int32)
  deriving DecidableEq, Repr

structure PaymentRecord (Hash : Type) where
  paymentHash : Hash
  preimage : Option Bytes
  value : UInt64
  fee : UInt64
  state : PaymentState
  deriving DecidableEq, Repr

def paymentState (value : Int32) : PaymentState :=
  if value = 1 ∨ value = 4 then .inFlight
  else if value = 2 then .succeeded
  else if value = 3 then .failed
  else .unknown value

theorem paymentState_succeeded {status : Int32} :
    paymentState status = .succeeded ↔ status = 2 := by
  unfold paymentState
  split
  · rename_i h
    rcases h with rfl | rfl <;> simp
  · split
    · simp [*]
    · split <;> simp [*]

theorem paymentState_failed {status : Int32} :
    paymentState status = .failed ↔ status = 3 := by
  unfold paymentState
  split
  · rename_i h
    rcases h with rfl | rfl <;> simp
  · split
    · simp [*]
    · split <;> simp [*]

def hexNibble (value : UInt8) : Option UInt8 :=
  if 48 ≤ value ∧ value ≤ 57 then some (value - 48)
  else if 97 ≤ value ∧ value ≤ 102 then some (value - 97 + 10)
  else if 65 ≤ value ∧ value ≤ 70 then some (value - 65 + 10)
  else none

def hexPairs : Bytes → Option Bytes
  | [] => some []
  | [_] => none
  | c :: d :: rest => do
    let high ← hexNibble c
    let low ← hexNibble d
    let tail ← hexPairs rest
    return (high <<< 4 ||| low) :: tail

def parsePreimage (value : Bytes) : Option Bytes :=
  if value.length ≠ 64 ∨ ¬ value.all (· < 128) then none else hexPairs value

def responseMillisats (operation : String) (value : Int64) (identifier : Option String) :
    Except (LndError Hash) UInt64 :=
  if value < 0 then
    .error (invalidResponseWithIdentifier operation "amount is negative" identifier)
  else .ok value.toUInt64

def readPreimage (identifier : Option String) (value : Bytes) :
    Except (LndError Hash) (Option Bytes) :=
  if value = [] then .ok none
  else match parsePreimage value with
    | some preimage => .ok (some preimage)
    | none => .error (invalidResponseWithIdentifier "payment" "payment preimage is malformed"
        identifier)

/-- A succeeded payment must show a preimage of its hash; no other state is asked for one. -/
def checkProof [DecidableEq Hash] (lib : HashLib Hash) (paymentHash : Hash)
    (identifier : Option String) (state : PaymentState) (preimage : Option Bytes) :
    Except (LndError Hash) Unit :=
  if state = .succeeded then
    match preimage with
    | none => .error (invalidResponseWithIdentifier "payment"
        "succeeded payment has no preimage" identifier)
    | some preimage =>
      if lib.digest preimage = paymentHash then .ok ()
      else .error (invalidResponseWithIdentifier "payment"
        "payment preimage does not prove the payment hash" identifier)
  else .ok ()

def payment [DecidableEq Hash] (lib : HashLib Hash) (response : Payment) :
    Except (LndError Hash) (PaymentRecord Hash) :=
  match lib.fromStr response.paymentHash with
  | none => .error (invalidResponse "payment" "payment hash is malformed")
  | some paymentHash => do
    let identifier := some (lib.display paymentHash)
    let value ← responseMillisats "payment" response.valueMsat identifier
    let fee ← responseMillisats "payment" response.feeMsat identifier
    let state := paymentState response.status
    let preimage ← readPreimage identifier response.paymentPreimage
    checkProof lib paymentHash identifier state preimage
    return ⟨paymentHash, preimage, value, fee, state⟩

theorem responseMillisats_of_nonneg {operation : String} {value : Int64}
    {identifier : Option String} (h : 0 ≤ value) :
    (responseMillisats operation value identifier : Except (LndError Hash) UInt64)
      = .ok value.toUInt64 := by
  rw [responseMillisats, if_neg (Int64.not_lt.mpr h)]

theorem responseMillisats_ok {operation : String} {value : Int64}
    {identifier : Option String} {v : UInt64}
    (h : (responseMillisats operation value identifier : Except (LndError Hash) UInt64)
      = .ok v) : 0 ≤ value ∧ v = value.toUInt64 := by
  unfold responseMillisats at h
  split at h
  · cases h
  · rename_i hneg
    exact ⟨Int64.not_lt.mp hneg, (Except.ok.inj h).symm⟩

theorem parsePreimage_nil : parsePreimage [] = none := rfl

/-- What the preimage field holds: nothing, or 32 bytes in hexadecimal. -/
def PreimageIs (value : Bytes) : Option Bytes → Prop
  | none => value = []
  | some preimage => parsePreimage value = some preimage

theorem readPreimage_ok_iff {identifier : Option String} {value : Bytes}
    {preimage : Option Bytes} :
    (readPreimage identifier value : Except (LndError Hash) (Option Bytes)) = .ok preimage
      ↔ PreimageIs value preimage := by
  unfold readPreimage
  by_cases hv : value = []
  · subst hv
    cases preimage <;> simp [PreimageIs, parsePreimage_nil]
  · rw [if_neg hv]
    cases hp : parsePreimage value <;> cases preimage <;> simp [PreimageIs, hv, hp]

theorem checkProof_ok_iff [DecidableEq Hash] {lib : HashLib Hash} {paymentHash : Hash}
    {identifier : Option String} {state : PaymentState} {preimage : Option Bytes} :
    checkProof lib paymentHash identifier state preimage = .ok ()
      ↔ (state = .succeeded → ∃ p, preimage = some p ∧ lib.digest p = paymentHash) := by
  unfold checkProof
  by_cases hs : state = .succeeded
  · cases preimage with
    | none => simp [hs]
    | some p => by_cases hd : lib.digest p = paymentHash <;> simp [hs, hd]
  · simp [hs]

/-- The conversion accepts an update exactly when each field passes its own check. -/
theorem payment_ok_iff [DecidableEq Hash] {lib : HashLib Hash} {u : Payment}
    {r : PaymentRecord Hash} :
    payment lib u = .ok r ↔
      lib.fromStr u.paymentHash = some r.paymentHash ∧
      (0 ≤ u.valueMsat ∧ r.value = u.valueMsat.toUInt64) ∧
      (0 ≤ u.feeMsat ∧ r.fee = u.feeMsat.toUInt64) ∧
      r.state = paymentState u.status ∧ PreimageIs u.paymentPreimage r.preimage ∧
      (r.state = .succeeded → ∃ p, r.preimage = some p ∧ lib.digest p = r.paymentHash) := by
  unfold payment
  cases hh : lib.fromStr u.paymentHash with
  | none => simp
  | some hash =>
    constructor
    · intro h
      simp only [bind, Except.bind, pure, Except.pure] at h
      split at h
      · cases h
      rename_i value hvalue
      split at h
      · cases h
      rename_i fee hfee
      split at h
      · cases h
      rename_i preimage hpreimage
      split at h
      · cases h
      rename_i hproof
      obtain rfl := Except.ok.inj h
      exact ⟨rfl, responseMillisats_ok hvalue, responseMillisats_ok hfee, rfl,
        readPreimage_ok_iff.mp hpreimage, checkProof_ok_iff.mp hproof⟩
    · obtain ⟨rhash, preimage, value, fee, state⟩ := r
      rintro ⟨hhash, ⟨hv, rfl⟩, ⟨hf, rfl⟩, rfl, hpreimage, hproof⟩
      obtain rfl := Option.some.inj hhash
      simp only [responseMillisats_of_nonneg hv, responseMillisats_of_nonneg hf,
        readPreimage_ok_iff.mpr hpreimage, checkProof_ok_iff.mpr hproof, bind, Except.bind,
        pure, Except.pure]

theorem responseMillisats_error {operation : String} {value : Int64}
    {identifier : Option String} {e : LndError Hash}
    (h : responseMillisats operation value identifier = .error e) :
    e = .invalidResponse operation "amount is negative" identifier := by
  unfold responseMillisats at h
  split at h
  · exact (Except.error.inj h).symm
  · cases h

theorem readPreimage_error {identifier : Option String} {value : Bytes} {e : LndError Hash}
    (h : readPreimage identifier value = .error e) :
    e = .invalidResponse "payment" "payment preimage is malformed" identifier := by
  unfold readPreimage at h
  split at h
  · cases h
  · split at h
    · cases h
    · exact (Except.error.inj h).symm

theorem checkProof_error [DecidableEq Hash] {lib : HashLib Hash} {paymentHash : Hash}
    {identifier : Option String} {state : PaymentState} {preimage : Option Bytes}
    {e : LndError Hash} (h : checkProof lib paymentHash identifier state preimage = .error e) :
    ∃ detail, e = .invalidResponse "payment" detail identifier := by
  unfold checkProof at h
  split at h
  · split at h
    · exact ⟨_, (Except.error.inj h).symm⟩
    · split at h
      · cases h
      · exact ⟨_, (Except.error.inj h).symm⟩
  · cases h

/-- Whatever the conversion rejects is an invalid response, under the hash the update
claims or, where that is malformed, under none. -/
theorem payment_error [DecidableEq Hash] {lib : HashLib Hash} {u : Payment}
    {e : LndError Hash} (h : payment lib u = .error e) :
    ∃ detail, e = .invalidResponse "payment" detail
      ((lib.fromStr u.paymentHash).map lib.display) := by
  unfold payment at h
  cases hh : lib.fromStr u.paymentHash with
  | none =>
    rw [hh] at h
    exact ⟨_, (Except.error.inj h).symm⟩
  | some hash =>
    rw [hh] at h
    simp only [bind, Except.bind, pure, Except.pure] at h
    split at h
    · obtain rfl := Except.error.inj h
      exact ⟨_, responseMillisats_error ‹_›⟩
    split at h
    · obtain rfl := Except.error.inj h
      exact ⟨_, responseMillisats_error ‹_›⟩
    split at h
    · obtain rfl := Except.error.inj h
      exact ⟨_, readPreimage_error ‹_›⟩
    split at h
    · obtain rfl := Except.error.inj h
      exact checkProof_error ‹_›
    cases h

def paymentFailureReason (value : Int32) : String :=
  bounded <|
    if value = 0 then "failure reason not reported"
    else if value = 1 then "payment timeout"
    else if value = 2 then "no route"
    else if value = 3 then "payment error"
    else if value = 4 then "incorrect payment details"
    else if value = 5 then "insufficient balance"
    else if value = 6 then "payment canceled"
    else "unknown failure reason " ++ toString value

inductive TerminalPayment (Hash : Type) where
  | succeeded (record : PaymentRecord Hash)
  | failed (paymentHash : Hash) (reason : String)

def TerminalPayment.intoResult : TerminalPayment Hash →
    Except (LndError Hash) (PaymentRecord Hash)
  | .succeeded record => .ok record
  | .failed paymentHash reason => .error (.paymentFailed paymentHash reason)

def unknownPaymentOutcome (lib : HashLib Hash) (operation : String) (paymentHash : Hash) :
    LndError Hash := .outcomeUnknown operation (some (lib.display paymentHash))

/-- A conversion error that names no payment names the requested one. -/
def identified (lib : HashLib Hash) (expectedHash : Hash) : LndError Hash → LndError Hash
  | .invalidResponse operation detail none =>
    .invalidResponse operation detail (some (lib.display expectedHash))
  | error => error

/-- What the loop carries from one message to the next: the hash it has seen, and the
first terminal update with the bytes it was encoded to. -/
structure StreamState (Hash : Type) where
  observedHash : Option Hash
  terminal : Option (Bytes × TerminalPayment Hash)

def StreamState.start : StreamState Hash := ⟨none, none⟩

def nextTerminal (record : PaymentRecord Hash) (failureReason : Int32) :
    Option (TerminalPayment Hash) :=
  match record.state with
  | .succeeded => some (.succeeded record)
  | .failed => some (.failed record.paymentHash (paymentFailureReason failureReason))
  | .inFlight | .unknown _ => none

/-- The requested payment: what its updates are compared with. -/
structure Requested (Hash : Type) where
  operation : String
  hash : Hash
  amount : Option UInt64

def Requested.fault (lib : HashLib Hash) (q : Requested Hash) (detail : String) :
    LndError Hash :=
  invalidResponseWithIdentifier q.operation detail (some (lib.display q.hash))

/-- The first terminal update is kept; after it only the same bytes are accepted. -/
def recordTerminal (lib : HashLib Hash) (q : Requested Hash)
    (terminal : Option (Bytes × TerminalPayment Hash)) (wire : Bytes)
    (next : Option (TerminalPayment Hash)) :
    Except (LndError Hash) (Option (Bytes × TerminalPayment Hash)) :=
  match terminal, next with
  | none, some next => .ok (some (wire, next))
  | some (firstWire, first), some _ =>
    if firstWire = wire then .ok (some (firstWire, first))
    else .error (q.fault lib "payment stream contained contradictory terminal updates")
  | some _, none => .error (q.fault lib "payment stream returned to a nonterminal state")
  | none, none => .ok none

def receiveUpdate [DecidableEq Hash] (lib : HashLib Hash) (q : Requested Hash)
    (s : StreamState Hash) (update : Payment) :
    Except (LndError Hash) (StreamState Hash) :=
  let wire := update.encodeToVec
  match payment lib update with
  | .error error => .error (identified lib q.hash error)
  | .ok record =>
    if record.paymentHash ≠ q.hash then
      .error (q.fault lib "payment update hash does not match the requested hash")
    else if q.amount.any (record.value ≠ ·) then
      .error (q.fault lib "payment value does not match the BOLT11 invoice amount")
    else do
      let terminal ← recordTerminal lib q s.terminal wire
        (nextTerminal record update.failureReason)
      return ⟨some record.paymentHash, terminal⟩

/-- An error or the deadline, once it ends the stream. -/
def interrupted (lib : HashLib Hash) (q : Requested Hash) (uncertainFromStart : Bool)
    (s : StreamState Hash) (error : LndError Hash) :
    Except (LndError Hash) (PaymentRecord Hash) :=
  match s.terminal with
  | some (_, terminal) => terminal.intoResult
  | none =>
    match s.observedHash.or (if uncertainFromStart then some q.hash else none) with
    | some hash => .error (unknownPaymentOutcome lib q.operation hash)
    | none => .error error

def ended (lib : HashLib Hash) (q : Requested Hash) (s : StreamState Hash) :
    Except (LndError Hash) (PaymentRecord Hash) :=
  match s.terminal with
  | some (_, terminal) => terminal.intoResult
  | none => .error (q.fault lib "payment stream ended before a terminal state")

def consumeFrom [DecidableEq Hash] (lib : HashLib Hash) (configuredDuration : Nat)
    (q : Requested Hash) (uncertainFromStart : Bool) :
    StreamState Hash → List (Reply (Option Payment)) →
      Option (Except (LndError Hash) (PaymentRecord Hash))
  | _, [] => none
  | s, event :: rest =>
    match boundedRequestUntil configuredDuration q.operation event with
    | .error error => some (interrupted lib q uncertainFromStart s error)
    | .ok none => some (ended lib q s)
    | .ok (some update) =>
      match receiveUpdate lib q s update with
      | .error error => some (.error error)
      | .ok s' => consumeFrom lib configuredDuration q uncertainFromStart s' rest

def consumePaymentStream [DecidableEq Hash] (lib : HashLib Hash) (configuredDuration : Nat)
    (q : Requested Hash) (uncertainFromStart : Bool) (stream : List (Reply (Option Payment))) :
    Option (Except (LndError Hash) (PaymentRecord Hash)) :=
  consumeFrom lib configuredDuration q uncertainFromStart .start stream

/-- What the adapter reads of a BOLT11 invoice. -/
structure Bolt11Invoice (Hash : Type) where
  paymentHash : Hash
  amountMilliSatoshis : Option UInt64
  text : Bytes

/-- Durations are counted in nanoseconds. -/
structure PaymentOptions where
  feeLimit : UInt64
  timeout : Nat

def PaymentOptions.new (feeLimit : UInt64) (timeout : Nat) :
    Except (LndError Hash) PaymentOptions :=
  if timeout = 0 then .error (invalidRequest "payment timeout must be greater than zero")
  else .ok ⟨feeLimit, timeout⟩

structure SendPaymentRequest where
  paymentRequest : Bytes
  feeLimitMsat : Int64
  timeoutSeconds : Int32
  noInflightUpdates : Bool
  deriving DecidableEq, Repr

def signedI64 (value : UInt64) (field : String) : Except (LndError Hash) Int64 :=
  if value.toNat < 2 ^ 63 then .ok value.toInt64
  else .error (invalidRequest (
    if field = "invoice amount" then "invoice amount exceeds LND's signed integer range"
    else if field = "invoice expiry" then "invoice expiry exceeds LND's signed integer range"
    else if field = "payment fee limit" then
      "payment fee limit exceeds LND's signed integer range"
    else "request value exceeds LND's signed integer range"))

def nonzeroWholeSeconds (duration : Nat) (field : String) : Except (LndError Hash) Nat :=
  let seconds := duration / 1000000000
  if duration % 1000000000 ≠ 0 then
    .error (invalidRequest (
      if field = "invoice expiry" then "invoice expiry must use whole seconds"
      else if field = "payment timeout" then "payment timeout must use whole seconds"
      else "duration must use whole seconds"))
  else if seconds = 0 then
    .error (invalidRequest (
      if field = "invoice expiry" then
        "invoice expiry must include at least one whole second"
      else if field = "payment timeout" then
        "payment timeout must include at least one whole second"
      else "duration must include at least one whole second"))
  else .ok seconds

def protoSendPaymentRequest (invoice : Bolt11Invoice Hash) (options : PaymentOptions) :
    Except (LndError Hash) SendPaymentRequest := do
  if invoice.amountMilliSatoshis.isNone then
    .error (invalidRequest
      "BOLT11 invoice must include an amount because no amount override is available")
  let feeLimitMsat ← signedI64 options.feeLimit "payment fee limit"
  let seconds ← nonzeroWholeSeconds options.timeout "payment timeout"
  if seconds < 2 ^ 31 then
    return ⟨invoice.text, feeLimitMsat, Int32.ofNat seconds, false⟩
  else .error (invalidRequest "payment timeout exceeds LND's integer range")

/-- `sendPaymentV2` is the router: it gets the request and answers with a stream. -/
def payInvoiceWith [DecidableEq Hash] {Instant : Type} (lib : HashLib Hash)
    (checkedAdd : Nat → Option Instant) (timeout : Nat)
    (sendPaymentV2 : SendPaymentRequest → Reply (List (Reply (Option Payment))))
    (invoice : Bolt11Invoice Hash) (options : PaymentOptions) :
    Option (Except (LndError Hash) (PaymentRecord Hash)) :=
  let opened : Except (LndError Hash) (List (Reply (Option Payment))) := do
    let request ← protoSendPaymentRequest invoice options
    let _ ← operationDeadline checkedAdd timeout
    boundedMutatingRequestUntil "pay invoice" (some (lib.display invoice.paymentHash))
      (sendPaymentV2 request)
  match opened with
  | .error error => some (.error error)
  | .ok stream =>
    consumePaymentStream lib timeout
      ⟨"pay invoice", invoice.paymentHash, invoice.amountMilliSatoshis⟩ true stream

structure TrackPaymentRequest where
  paymentHash : Bytes
  noInflightUpdates : Bool
  deriving DecidableEq, Repr

/-- `trackPaymentV2` is the router; a lookup that timed out leaves the payment unknown. -/
def lookupPaymentWith [DecidableEq Hash] {Instant : Type} (lib : HashLib Hash)
    (toByteArray : Hash → Bytes) (checkedAdd : Nat → Option Instant) (timeout : Nat)
    (trackPaymentV2 : TrackPaymentRequest → Reply (List (Reply (Option Payment))))
    (paymentHash : Hash) : Option (Except (LndError Hash) (PaymentRecord Hash)) :=
  match operationDeadline checkedAdd timeout with
  | .error error => some (.error error)
  | .ok _ =>
    match boundedRequestUntil timeout "lookup payment"
      (trackPaymentV2 ⟨toByteArray paymentHash, true⟩) with
    | .error (.timeout _ _) =>
      some (.error (unknownPaymentOutcome lib "lookup payment" paymentHash))
    | .error error => some (.error error)
    | .ok stream =>
      consumePaymentStream lib timeout ⟨"lookup payment", paymentHash, none⟩ true stream

end Nigiri.Lnd
