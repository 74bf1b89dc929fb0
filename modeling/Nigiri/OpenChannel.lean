import Nigiri.LndConfig
import Nigiri.Payment

/-! Opening a channel: the request, the update stream of the daemon, and the loop that waits
for the confirmed funding outpoint. A stream is the list of what each awaited message gave. -/
namespace Nigiri.Lnd
open Nigiri.WireFormat
variable {Hash : Type}

structure Txid where
  bytes : Bytes
  size : bytes.length = 32
  deriving DecidableEq, Repr

def Txid.fromSlice (bytes : Bytes) : Option Txid :=
  if h : bytes.length = 32 then some ⟨bytes, h⟩ else none

/-- The text of a transaction id has its bytes reversed. -/
def Txid.fromStr (value : Bytes) : Option Txid := do
  let bytes ← hexPairs value
  Txid.fromSlice bytes.reverse

def Txid.toText (txid : Txid) : String :=
  String.ofList ((lowercaseHex txid.bytes.reverse).map fun b => Char.ofNat b.toNat)

structure OutPoint where
  txid : Txid
  vout : UInt32
  deriving DecidableEq, Repr

def OutPoint.toText (point : OutPoint) : String :=
  point.txid.toText ++ ":" ++ toString point.vout.toNat

inductive FundingTxid where
  | bytes (value : Bytes)
  | str (value : Bytes)
  deriving DecidableEq, Repr

structure ChannelPoint where
  fundingTxid : Option FundingTxid
  outputIndex : UInt32
  deriving DecidableEq, Repr

structure PendingUpdate where
  txid : Bytes
  outputIndex : UInt32
  deriving DecidableEq, Repr

structure ChannelOpenUpdate where
  channelPoint : Option ChannelPoint
  deriving DecidableEq, Repr

inductive OpenUpdate where
  | chanPending (pending : PendingUpdate)
  | chanOpen (opened : ChannelOpenUpdate)
  | psbtFund
  deriving DecidableEq, Repr

structure OpenStatusUpdate where
  update : Option OpenUpdate
  deriving DecidableEq, Repr

def channelPoint (response : ChannelPoint) : Except (LndError Hash) OutPoint := do
  let txid ← match response.fundingTxid with
    | some (.bytes bytes) =>
      match Txid.fromSlice bytes with
      | some txid => pure txid
      | none => .error (invalidResponse "open channel" "funding transaction id is malformed")
    | some (.str value) =>
      match Txid.fromStr value with
      | some txid => pure txid
      | none => .error (invalidResponse "open channel" "funding transaction id is malformed")
    | none => .error (invalidResponse "open channel" "funding transaction id is missing")
  return ⟨txid, response.outputIndex⟩

def invalidOpenResponse (detail : String) (point : Option OutPoint) : LndError Hash :=
  .invalidResponse "open channel" detail (point.map OutPoint.toText)

def unknownOpenOutcome (point : OutPoint) : LndError Hash :=
  .outcomeUnknown "open channel" (some point.toText)

/-- Amounts are satoshis, and a public key is its serialization. -/
structure OpenChannelRequest where
  peerPublicKey : Bytes
  capacity : UInt64
  pushAmount : UInt64
  capacity_pos : 0 < capacity
  push_lt_capacity : pushAmount < capacity

def OpenChannelRequest.new (peerPublicKey : Bytes) (capacity pushAmount : UInt64) :
    Except (LndError Hash) OpenChannelRequest :=
  if hcapacity : capacity = 0 then
    .error (invalidRequest "channel capacity must be greater than zero")
  else if hpush : capacity ≤ pushAmount then
    .error (invalidRequest "channel push amount must be lower than capacity")
  else .ok ⟨peerPublicKey, capacity, pushAmount, UInt64.pos_iff_ne_zero.mpr hcapacity,
    UInt64.not_le.mp hpush⟩

/-- Every other field of the request keeps its default. -/
structure ProtoOpenChannelRequest where
  nodePubkey : Bytes
  localFundingAmount : Int64
  pushSat : Int64
  isPrivate : Bool
  deriving DecidableEq, Repr

def satsI64 (value : UInt64) (detail : String) : Except (LndError Hash) Int64 :=
  if value.toNat < 2 ^ 63 then .ok value.toInt64 else .error (invalidRequest detail)

def protoOpenChannelRequest (request : OpenChannelRequest) :
    Except (LndError Hash) ProtoOpenChannelRequest := do
  let localFundingAmount ← satsI64 request.capacity
    "channel capacity exceeds LND's signed amount range"
  let pushSat ← satsI64 request.pushAmount
    "channel push amount exceeds LND's signed amount range"
  return ⟨request.peerPublicKey, localFundingAmount, pushSat, false⟩

/-- What an accepted update says of the channel. -/
inductive OpenProgress where
  | pending (point : OutPoint)
  | opened (point : OutPoint)
  deriving DecidableEq, Repr

def receiveOpenUpdate (pendingPoint : Option OutPoint) (update : OpenStatusUpdate) :
    Except (LndError Hash) OpenProgress :=
  match update.update with
  | some (.chanPending pending) => do
    let point ← channelPoint ⟨some (.bytes pending.txid), pending.outputIndex⟩
    if pendingPoint.any (· ≠ point) then
      .error (invalidOpenResponse "pending channel point changed during channel opening"
        pendingPoint)
    else return .pending point
  | some (.chanOpen opened) => do
    let point ← match opened.channelPoint with
      | none => .error (invalidOpenResponse "opened channel point is missing" pendingPoint)
      | some response => channelPoint response
    if pendingPoint.any (· ≠ point) then
      .error (invalidOpenResponse "pending and opened channel points do not match" pendingPoint)
    else return .opened point
  | some .psbtFund =>
    .error (invalidOpenResponse "unexpected PSBT funding state for a wallet-funded channel"
      pendingPoint)
  | none => .error (invalidOpenResponse "channel update has no state" pendingPoint)

/-- Before a pending point is known a lost reply leaves the mutation itself uncertain. -/
def awaitOpenUpdate (configuredDuration : Nat) (pendingPoint : Option OutPoint)
    (event : Reply (Option OpenStatusUpdate)) :
    Except (LndError Hash) (Option OpenStatusUpdate) :=
  match pendingPoint with
  | some point =>
    match boundedRequestUntil configuredDuration "open channel" event with
    | .ok update => .ok update
    | .error (_ : LndError Hash) => .error (unknownOpenOutcome point)
  | none => boundedMutatingRequestUntil "open channel" none event

def openFrom (configuredDuration : Nat) (pendingPoint : Option OutPoint) :
    List (Reply (Option OpenStatusUpdate)) → Option (Except (LndError Hash) OutPoint)
  | [] => none
  | event :: rest =>
    match awaitOpenUpdate configuredDuration pendingPoint event with
    | .error error => some (.error error)
    | .ok none =>
      some (.error (invalidOpenResponse "channel stream ended before the channel opened"
        pendingPoint))
    | .ok (some update) =>
      match receiveOpenUpdate pendingPoint update with
      | .error error => some (.error error)
      | .ok (.opened point) => some (.ok point)
      | .ok (.pending point) => openFrom configuredDuration (some point) rest

/-- `openChannel` is the daemon: it gets the request and answers with a stream. -/
def openChannelWith {Instant : Type} (checkedAdd : Nat → Option Instant) (timeout : Nat)
    (openChannel : ProtoOpenChannelRequest → Reply (List (Reply (Option OpenStatusUpdate))))
    (request : OpenChannelRequest) : Option (Except (LndError Hash) OutPoint) :=
  let opened : Except (LndError Hash) (List (Reply (Option OpenStatusUpdate))) := do
    let request ← protoOpenChannelRequest request
    let _ ← operationDeadline checkedAdd timeout
    boundedMutatingRequestUntil "open channel" none (openChannel request)
  match opened with
  | .error error => some (.error error)
  | .ok stream => openFrom timeout none stream

end Nigiri.Lnd
