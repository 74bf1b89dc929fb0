import Nigiri.WireFormat

/-! The payment update of LND with everything it holds, and its encoding: fields by
increasing tag, defaults left out, maps in the order they are visited. -/
namespace Nigiri.Lnd
open Nigiri.WireFormat

structure ChannelUpdate where
  signature : Bytes
  chainHash : Bytes
  chanId : UInt64
  timestamp : UInt32
  channelFlags : UInt32
  timeLockDelta : UInt32
  htlcMinimumMsat : UInt64
  baseFee : UInt32
  feeRate : UInt32
  messageFlags : UInt32
  htlcMaximumMsat : UInt64
  extraOpaqueData : Bytes
  deriving DecidableEq, Repr

structure Failure where
  code : Int32
  channelUpdate : Option ChannelUpdate
  htlcMsat : UInt64
  onionSha256 : Bytes
  cltvExpiry : UInt32
  flags : UInt32
  failureSourceIndex : UInt32
  height : UInt32
  deriving DecidableEq, Repr

structure MppRecord where
  totalAmtMsat : Int64
  paymentAddr : Bytes
  deriving DecidableEq, Repr

structure AmpRecord where
  rootShare : Bytes
  setId : Bytes
  childIndex : UInt32
  deriving DecidableEq, Repr

structure Hop where
  chanId : UInt64
  chanCapacity : Int64
  amtToForward : Int64
  fee : Int64
  expiry : UInt32
  amtToForwardMsat : Int64
  feeMsat : Int64
  pubKey : Bytes
  tlvPayload : Bool
  mppRecord : Option MppRecord
  customRecords : List (UInt64 × Bytes)
  ampRecord : Option AmpRecord
  metadata : Bytes
  blindingPoint : Bytes
  encryptedData : Bytes
  totalAmtMsat : UInt64
  deriving DecidableEq, Repr

structure Route where
  totalTimeLock : UInt32
  totalFees : Int64
  totalAmt : Int64
  hops : List Hop
  totalFeesMsat : Int64
  totalAmtMsat : Int64
  firstHopAmountMsat : Int64
  customChannelData : Bytes
  deriving DecidableEq, Repr

structure HtlcAttempt where
  status : Int32
  route : Option Route
  attemptTimeNs : Int64
  resolveTimeNs : Int64
  failure : Option Failure
  preimage : Bytes
  attemptId : UInt64
  deriving DecidableEq, Repr

/-- Strings are their UTF-8 bytes. -/
structure Payment where
  paymentHash : Bytes
  value : Int64
  creationDate : Int64
  fee : Int64
  paymentPreimage : Bytes
  valueSat : Int64
  valueMsat : Int64
  paymentRequest : Bytes
  status : Int32
  feeSat : Int64
  feeMsat : Int64
  creationTimeNs : Int64
  htlcs : List HtlcAttempt
  paymentIndex : UInt64
  failureReason : Int32
  firstHopCustomRecords : List (UInt64 × Bytes)
  deriving DecidableEq, Repr

def ChannelUpdate.fields (m : ChannelUpdate) : List Field :=
  bytesField 1 m.signature ++ bytesField 2 m.chainHash ++ numberField 3 m.chanId.toNat
    ++ numberField 4 m.timestamp.toNat ++ numberField 5 m.channelFlags.toNat
    ++ numberField 6 m.timeLockDelta.toNat ++ numberField 7 m.htlcMinimumMsat.toNat
    ++ numberField 8 m.baseFee.toNat ++ numberField 9 m.feeRate.toNat
    ++ numberField 10 m.messageFlags.toNat ++ numberField 11 m.htlcMaximumMsat.toNat
    ++ bytesField 12 m.extraOpaqueData

def Failure.fields (m : Failure) : List Field :=
  int32Field 1 m.code ++ m.channelUpdate.toList.map (fun u => messageField 3 u.fields)
    ++ numberField 4 m.htlcMsat.toNat ++ bytesField 5 m.onionSha256
    ++ numberField 6 m.cltvExpiry.toNat ++ numberField 7 m.flags.toNat
    ++ numberField 8 m.failureSourceIndex.toNat ++ numberField 9 m.height.toNat

def MppRecord.fields (m : MppRecord) : List Field :=
  int64Field 10 m.totalAmtMsat ++ bytesField 11 m.paymentAddr

def AmpRecord.fields (m : AmpRecord) : List Field :=
  bytesField 1 m.rootShare ++ bytesField 2 m.setId ++ numberField 3 m.childIndex.toNat

def Hop.fields (m : Hop) : List Field :=
  numberField 1 m.chanId.toNat ++ int64Field 2 m.chanCapacity ++ int64Field 3 m.amtToForward
    ++ int64Field 4 m.fee ++ numberField 5 m.expiry.toNat ++ int64Field 6 m.amtToForwardMsat
    ++ int64Field 7 m.feeMsat ++ bytesField 8 m.pubKey ++ numberField 9 m.tlvPayload.toNat
    ++ m.mppRecord.toList.map (fun r => messageField 10 r.fields)
    ++ mapField 11 m.customRecords
    ++ m.ampRecord.toList.map (fun r => messageField 12 r.fields)
    ++ bytesField 13 m.metadata ++ bytesField 14 m.blindingPoint
    ++ bytesField 15 m.encryptedData ++ numberField 16 m.totalAmtMsat.toNat

def Route.fields (m : Route) : List Field :=
  numberField 1 m.totalTimeLock.toNat ++ int64Field 2 m.totalFees ++ int64Field 3 m.totalAmt
    ++ m.hops.map (fun h => messageField 4 h.fields) ++ int64Field 5 m.totalFeesMsat
    ++ int64Field 6 m.totalAmtMsat ++ int64Field 7 m.firstHopAmountMsat
    ++ bytesField 8 m.customChannelData

def HtlcAttempt.fields (m : HtlcAttempt) : List Field :=
  int32Field 1 m.status ++ m.route.toList.map (fun r => messageField 2 r.fields)
    ++ int64Field 3 m.attemptTimeNs ++ int64Field 4 m.resolveTimeNs
    ++ m.failure.toList.map (fun f => messageField 5 f.fields)
    ++ bytesField 6 m.preimage ++ numberField 7 m.attemptId.toNat

def Payment.fields (m : Payment) : List Field :=
  bytesField 1 m.paymentHash ++ int64Field 2 m.value ++ int64Field 3 m.creationDate
    ++ int64Field 5 m.fee ++ bytesField 6 m.paymentPreimage ++ int64Field 7 m.valueSat
    ++ int64Field 8 m.valueMsat ++ bytesField 9 m.paymentRequest ++ int32Field 10 m.status
    ++ int64Field 11 m.feeSat ++ int64Field 12 m.feeMsat ++ int64Field 13 m.creationTimeNs
    ++ m.htlcs.map (fun h => messageField 14 h.fields) ++ numberField 15 m.paymentIndex.toNat
    ++ int32Field 16 m.failureReason ++ mapField 17 m.firstHopCustomRecords

def Payment.encodeToVec (m : Payment) : Bytes := encode m.fields

/-- What the adapter reads of an update is determined by its encoding. -/
structure Payment.SameRead (p q : Payment) : Prop where
  paymentHash : p.paymentHash = q.paymentHash
  paymentPreimage : p.paymentPreimage = q.paymentPreimage
  valueMsat : p.valueMsat = q.valueMsat
  feeMsat : p.feeMsat = q.feeMsat
  status : p.status = q.status
  failureReason : p.failureReason = q.failureReason

/-- The part of a message written under one tag below its repeated fields. -/
private theorem select_fields (tag : Nat) (m : Payment) (h14 : 14 ≠ tag) (h17 : 17 ≠ tag) :
    select tag m.fields
      = (if 1 = tag then bytesField 1 m.paymentHash else [])
        ++ (if 2 = tag then int64Field 2 m.value else [])
        ++ (if 3 = tag then int64Field 3 m.creationDate else [])
        ++ (if 5 = tag then int64Field 5 m.fee else [])
        ++ (if 6 = tag then bytesField 6 m.paymentPreimage else [])
        ++ (if 7 = tag then int64Field 7 m.valueSat else [])
        ++ (if 8 = tag then int64Field 8 m.valueMsat else [])
        ++ (if 9 = tag then bytesField 9 m.paymentRequest else [])
        ++ (if 10 = tag then int32Field 10 m.status else [])
        ++ (if 11 = tag then int64Field 11 m.feeSat else [])
        ++ (if 12 = tag then int64Field 12 m.feeMsat else [])
        ++ (if 13 = tag then int64Field 13 m.creationTimeNs else [])
        ++ (if 15 = tag then numberField 15 m.paymentIndex.toNat else [])
        ++ (if 16 = tag then int32Field 16 m.failureReason else []) := by
  simp only [Payment.fields, select_append, select_bytesField, select_int64Field,
    select_int32Field, select_numberField, select_messages, select_mapField, if_neg h14,
    if_neg h17, List.append_nil]

theorem Payment.sameRead_of_encodeToVec {p q : Payment}
    (h : p.encodeToVec = q.encodeToVec) : p.SameRead q := by
  have hf : p.fields = q.fields := encode_inj _ _ h
  have at_tag (tag : Nat) : select tag p.fields = select tag q.fields := by rw [hf]
  refine ⟨bytesField_inj 1 ?_, bytesField_inj 6 ?_,
    int64Field_inj 8 ?_, int64Field_inj 12 ?_,
    int32Field_inj 10 ?_, int32Field_inj 16 ?_⟩
  · simpa [select_fields] using at_tag 1
  · simpa [select_fields] using at_tag 6
  · simpa [select_fields] using at_tag 8
  · simpa [select_fields] using at_tag 12
  · simpa [select_fields] using at_tag 10
  · simpa [select_fields] using at_tag 16

end Nigiri.Lnd
