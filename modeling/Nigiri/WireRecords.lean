import Nigiri.CheckedInt
import Nigiri.Checks
import Nigiri.OpenChannel

/-! Balances, channels and invoices as the daemon's messages give them, and the public
constructors of the same records. -/
namespace Nigiri.Lnd
open Nigiri.CheckedInt Nigiri.Checks Nigiri.WireFormat
variable {Hash : Type}

structure WalletBalanceResponse where
  totalBalance : Int64
  confirmedBalance : Int64
  unconfirmedBalance : Int64
  deriving DecidableEq, Repr

/-- Amounts are satoshis. -/
structure WalletBalance where
  total : UInt64
  confirmed : UInt64
  unconfirmed : UInt64
  deriving DecidableEq, Repr

def WalletBalance.tryNew (total confirmed unconfirmed : UInt64) :
    Except (LndError Hash) WalletBalance :=
  if checkedAdd confirmed unconfirmed ≠ some total then
    .error (invalidRequest "wallet total must equal confirmed plus unconfirmed balance")
  else .ok ⟨total, confirmed, unconfirmed⟩

def responseAmount (operation : String) (value : Int64) : Except (LndError Hash) UInt64 :=
  orError (toUnsigned value) (invalidResponse operation "amount is negative")

def walletBalance (response : WalletBalanceResponse) : Except (LndError Hash) WalletBalance := do
  let total ← responseAmount "wallet balance" response.totalBalance
  let confirmed ← responseAmount "wallet balance" response.confirmedBalance
  let unconfirmed ← responseAmount "wallet balance" response.unconfirmedBalance
  let parts ← orError (checkedAdd confirmed unconfirmed)
    (invalidResponse "wallet balance" "wallet amount sum overflows")
  if parts ≠ total then
    .error (invalidResponse "wallet balance"
      "total does not equal confirmed plus unconfirmed balance")
  else .ok ⟨total, confirmed, unconfirmed⟩

/-- The bitcoin library; a public key is its serialization. -/
structure ChannelLib where
  publicKeyFromStr : String → Option Bytes
  outPointFromStr : String → Option OutPoint

structure ProtoChannel where
  active : Bool
  remotePubkey : String
  channelPoint : String
  capacity : Int64
  localBalance : Int64
  remoteBalance : Int64
  deriving DecidableEq, Repr

/-- The capacity is in satoshis, the balances are in millisatoshis. -/
structure Channel where
  channelPoint : OutPoint
  remotePublicKey : Bytes
  active : Bool
  capacity : UInt64
  localBalance : UInt64
  remoteBalance : UInt64
  deriving DecidableEq, Repr

/-- The sum and the product are taken in 128 bits. -/
def Channel.tryNew (channelPoint : OutPoint) (remotePublicKey : Bytes) (active : Bool)
    (capacity localBalance remoteBalance : UInt64) : Except (LndError Hash) Channel :=
  if capacity.toNat * 1000 < localBalance.toNat + remoteBalance.toNat then
    .error (invalidRequest "channel balances must not exceed capacity")
  else .ok ⟨channelPoint, remotePublicKey, active, capacity, localBalance, remoteBalance⟩

def millisatsOfSats (value : UInt64) : Except (LndError Hash) UInt64 :=
  orError (checkedMul value 1000) (invalidRequest "satoshi amount overflows millisatoshis")

def channel (lib : ChannelLib) (response : ProtoChannel) : Except (LndError Hash) Channel := do
  let remotePublicKey ← orError (lib.publicKeyFromStr response.remotePubkey)
    (invalidResponse "list channels" "remote public key is malformed")
  let channelPoint ← orError (lib.outPointFromStr response.channelPoint)
    (invalidResponse "list channels" "channel point is malformed")
  let capacity ← responseAmount "list channels" response.capacity
  let localSats ← responseAmount "list channels" response.localBalance
  let remoteSats ← responseAmount "list channels" response.remoteBalance
  let accounted ← orError (checkedAdd localSats remoteSats)
    (invalidResponse "list channels" "channel balance sum overflows")
  if capacity < accounted then
    .error (invalidResponse "list channels" "channel balances exceed capacity")
  else do
    let localBalance ← (millisatsOfSats localSats).mapError fun _ : LndError Hash =>
      invalidResponse "list channels" "local balance overflows millisatoshis"
    let remoteBalance ← (millisatsOfSats remoteSats).mapError fun _ : LndError Hash =>
      invalidResponse "list channels" "remote balance overflows millisatoshis"
    .ok ⟨channelPoint, remotePublicKey, response.active, capacity, localBalance, remoteBalance⟩

/-- An invoice with its creation time and its expiry, of which the whole seconds are read. -/
structure DatedInvoice (Hash : Type) extends Bolt11Invoice Hash where
  durationSinceEpoch : UInt64
  expiryTime : UInt64

/-- The hash library and the reader of BOLT11 texts. -/
structure InvoiceLib (Hash : Type) where
  hashFromSlice : Bytes → Option Hash
  display : Hash → String
  invoiceFromStr : String → Option (DatedInvoice Hash)

inductive InvoiceState where
  | opened
  | settled
  | canceled
  | accepted
  | unknown (value : Int32)
  deriving DecidableEq, Repr

def invoiceState (value : Int32) : InvoiceState :=
  if value = 0 then .opened
  else if value = 1 then .settled
  else if value = 2 then .canceled
  else if value = 3 then .accepted
  else .unknown value

/-- Both the request for an invoice and the daemon's record of one; a request sets the memo,
the amount and the expiry. -/
structure ProtoInvoice where
  memo : String := ""
  rHash : Bytes := []
  valueMsat : Int64 := 0
  creationDate : Int64 := 0
  paymentRequest : String := ""
  expiry : Int64 := 0
  state : Int32 := 0
  deriving DecidableEq, Repr

structure InvoiceRecord (Hash : Type) where
  invoice : DatedInvoice Hash
  paymentHash : Hash
  amount : UInt64
  state : InvoiceState

def InvoiceRecord.fromInvoice (invoice : DatedInvoice Hash) (state : InvoiceState) :
    Except (LndError Hash) (InvoiceRecord Hash) := do
  let amount ← orError invoice.amountMilliSatoshis (invalidRequest "invoice must have an amount")
  .ok ⟨invoice, invoice.paymentHash, amount, state⟩

section Invoices
variable [DecidableEq Hash] (lib : InvoiceLib Hash)

def responseHash (operation : String) (value : Bytes) : Except (LndError Hash) Hash :=
  orError (lib.hashFromSlice value) (invalidResponse operation "payment hash is malformed")

def responseTime (operation : String) (value : Int64) (negativeDetail : String)
    (paymentHash : Hash) : Except (LndError Hash) UInt64 :=
  orError (toUnsigned value)
    (invalidResponseWithIdentifier operation negativeDetail (some (lib.display paymentHash)))

def invoiceRecord (operation paymentRequest : String) (paymentHash : Hash)
    (responseAmount : Option UInt64) (state : InvoiceState) :
    Except (LndError Hash) (InvoiceRecord Hash) := do
  let identifier := some (lib.display paymentHash)
  let invoice ← orError (lib.invoiceFromStr paymentRequest)
    (invalidResponseWithIdentifier operation "BOLT11 invoice is malformed" identifier)
  if invoice.paymentHash ≠ paymentHash then
    .error (invalidResponseWithIdentifier operation
      "BOLT11 payment hash does not match the response hash" identifier)
  else do
    let encodedAmount ← orError invoice.amountMilliSatoshis
      (invalidResponseWithIdentifier operation "BOLT11 invoice has no amount" identifier)
    let amount := responseAmount.getD encodedAmount
    if amount ≠ encodedAmount then
      .error (invalidResponseWithIdentifier operation
        "BOLT11 amount does not match the response amount" identifier)
    else .ok ⟨invoice, paymentHash, amount, state⟩

def invoice (response : ProtoInvoice) : Except (LndError Hash) (InvoiceRecord Hash) := do
  let paymentHash ← responseHash lib "lookup invoice" response.rHash
  let identifier := some (lib.display paymentHash)
  let amount ← responseMillisats "lookup invoice" response.valueMsat identifier
  let creationDate ← responseTime lib "lookup invoice" response.creationDate
    "invoice creation date is negative" paymentHash
  let expiry ← responseTime lib "lookup invoice" response.expiry
    "invoice expiry is negative" paymentHash
  let record ← invoiceRecord lib "lookup invoice" response.paymentRequest paymentHash
    (some amount) (invoiceState response.state)
  if record.invoice.durationSinceEpoch ≠ creationDate then
    .error (invalidResponseWithIdentifier "lookup invoice"
      "invoice creation date does not match the BOLT11 timestamp" identifier)
  else if record.invoice.expiryTime ≠ expiry then
    .error (invalidResponseWithIdentifier "lookup invoice"
      "invoice expiry does not match the BOLT11 expiry" identifier)
  else .ok record

end Invoices

/-- The only errors are those of an invalid response to an operation. -/
def IsInvalidResponse (operation : String) (error : LndError Hash) : Prop :=
  ∃ detail identifier, error = .invalidResponse operation detail identifier

theorem isInvalidResponse (operation detail : String) :
    IsInvalidResponse operation (invalidResponse operation detail : LndError Hash) :=
  ⟨detail, none, rfl⟩

theorem isInvalidResponse_identified (operation detail : String) (identifier : Option String) :
    IsInvalidResponse operation
      (invalidResponseWithIdentifier operation detail identifier : LndError Hash) :=
  ⟨detail, identifier, rfl⟩

/-- The balance that the constructor builds from the amounts of a message. -/
def BuiltBalance (Hash : Type) (response : WalletBalanceResponse) (balance : WalletBalance) :
    Prop :=
  ∃ total confirmed unconfirmed : UInt64, response.totalBalance.toInt = total.toNat ∧
    response.confirmedBalance.toInt = confirmed.toNat ∧
    response.unconfirmedBalance.toInt = unconfirmed.toNat ∧
    (WalletBalance.tryNew total confirmed unconfirmed : Except (LndError Hash) _) = .ok balance

/-- The channel that the constructor builds from what a message says, balances in thousandths of
the satoshis in it. -/
def BuiltChannel (Hash : Type) (lib : ChannelLib) (response : ProtoChannel) (result : Channel) :
    Prop :=
  ∃ channelPoint remotePublicKey, ∃ capacity localBalance remoteBalance : UInt64,
    lib.publicKeyFromStr response.remotePubkey = some remotePublicKey ∧
    lib.outPointFromStr response.channelPoint = some channelPoint ∧
    response.capacity.toInt = capacity.toNat ∧
    response.localBalance.toInt * 1000 = localBalance.toNat ∧
    response.remoteBalance.toInt * 1000 = remoteBalance.toNat ∧
    (Channel.tryNew channelPoint remotePublicKey response.active capacity localBalance
      remoteBalance : Except (LndError Hash) _) = .ok result

/-- The record that the constructor builds from the BOLT11 text of a message, which must say what
the message says. -/
def BuiltInvoice (lib : InvoiceLib Hash) (response : ProtoInvoice) (record : InvoiceRecord Hash) :
    Prop :=
  ∃ (parsed : DatedInvoice Hash) (amount : UInt64),
    lib.invoiceFromStr response.paymentRequest = some parsed ∧
    lib.hashFromSlice response.rHash = some parsed.paymentHash ∧
    parsed.amountMilliSatoshis = some amount ∧
    response.valueMsat.toInt = amount.toNat ∧
    response.creationDate.toInt = parsed.durationSinceEpoch.toNat ∧
    response.expiry.toInt = parsed.expiryTime.toNat ∧
    InvoiceRecord.fromInvoice parsed (invoiceState response.state) = .ok record

/-- A conversion gives the built records and no others, and refuses every other message as an
invalid response. -/
def Agrees {α β : Type} (operation : String) (convert : α → Except (LndError Hash) β)
    (Built : α → β → Prop) : Prop :=
  ∀ response, (∀ record, convert response = .ok record ↔ Built response record) ∧
    ((∃ record, convert response = .ok record) ∨
      ∃ error, convert response = .error error ∧ IsInvalidResponse operation error)

theorem Agrees.of_failsWith {α β : Type} {operation : String}
    {convert : α → Except (LndError Hash) β} {Built : α → β → Prop}
    (hok : ∀ response record, convert response = .ok record ↔ Built response record)
    (hfails : ∀ response, FailsWith (IsInvalidResponse operation) (convert response)) :
    Agrees operation convert Built := by
  refine fun response => ⟨hok response, ?_⟩
  cases hconvert : convert response with
  | ok record => exact .inl ⟨record, rfl⟩
  | error error => exact .inr ⟨error, rfl, hfails response error hconvert⟩

section Balances
variable {operation : String} {value : Int64} {amount : UInt64}

theorem responseAmount_ok_iff :
    (responseAmount operation value : Except (LndError Hash) UInt64) = .ok amount ↔
      value.toInt = amount.toNat := by
  rw [responseAmount, orError_ok_iff, toUnsigned_eq_some_iff]

theorem failsWith_responseAmount :
    FailsWith (IsInvalidResponse operation)
      (responseAmount operation value : Except (LndError Hash) UInt64) :=
  failsWith_orError (isInvalidResponse operation _)

theorem WalletBalance.tryNew_ok_iff {total confirmed unconfirmed : UInt64}
    {balance : WalletBalance} :
    (WalletBalance.tryNew total confirmed unconfirmed : Except (LndError Hash) _) = .ok balance ↔
      total.toNat = confirmed.toNat + unconfirmed.toNat ∧
        balance = ⟨total, confirmed, unconfirmed⟩ := by
  rw [WalletBalance.tryNew, guard_ok_iff, not_not, checkedAdd_eq_some_iff, Except.ok.injEq,
    eq_comm (a := balance)]

theorem walletBalance_ok_iff {response : WalletBalanceResponse} {balance : WalletBalance} :
    (walletBalance response : Except (LndError Hash) _) = .ok balance ↔
      BuiltBalance Hash response balance := by
  simp only [walletBalance, bind_ok_iff, responseAmount_ok_iff, orError_ok_iff, guard_ok_iff,
    checkedAdd_eq_some_iff, not_not, Except.ok.injEq, BuiltBalance, WalletBalance.tryNew_ok_iff]
  constructor
  · rintro ⟨total, htotal, confirmed, hconfirmed, unconfirmed, hunconfirmed, parts, hparts, rfl,
      hbalance⟩
    exact ⟨parts, confirmed, unconfirmed, htotal, hconfirmed, hunconfirmed, hparts,
      hbalance.symm⟩
  · rintro ⟨total, confirmed, unconfirmed, htotal, hconfirmed, hunconfirmed, hsum, rfl⟩
    exact ⟨total, htotal, confirmed, hconfirmed, unconfirmed, hunconfirmed, total, hsum, rfl, rfl⟩

theorem failsWith_walletBalance (response : WalletBalanceResponse) :
    FailsWith (IsInvalidResponse "wallet balance")
      (walletBalance response : Except (LndError Hash) _) :=
  failsWith_bind failsWith_responseAmount fun _ => failsWith_bind failsWith_responseAmount fun _ =>
    failsWith_bind failsWith_responseAmount fun _ =>
    failsWith_bind (failsWith_orError (isInvalidResponse _ _)) fun _ =>
    failsWith_guard (isInvalidResponse _ _) (failsWith_ok _)

end Balances

section Channels
variable {lib : ChannelLib}

theorem millisatsOfSats_ok_iff {value amount : UInt64} :
    (millisatsOfSats value : Except (LndError Hash) UInt64) = .ok amount ↔
      amount.toNat = value.toNat * 1000 := by
  rw [millisatsOfSats, orError_ok_iff, checkedMul_eq_some_iff]
  exact Iff.rfl

theorem Channel.tryNew_ok_iff {channelPoint : OutPoint} {remotePublicKey : Bytes} {active : Bool}
    {capacity localBalance remoteBalance : UInt64} {result : Channel} :
    (Channel.tryNew channelPoint remotePublicKey active capacity localBalance remoteBalance :
      Except (LndError Hash) _) = .ok result ↔
      localBalance.toNat + remoteBalance.toNat ≤ capacity.toNat * 1000 ∧
        result = ⟨channelPoint, remotePublicKey, active, capacity, localBalance,
          remoteBalance⟩ := by
  rw [Channel.tryNew, guard_ok_iff, Nat.not_lt, Except.ok.injEq, eq_comm (a := result)]

/-- The sum in satoshis is within the capacity exactly when the sum in millisatoshis is, and no
satoshi amount of a channel is large enough for the sum to overflow. -/
theorem channel_ok_iff {response : ProtoChannel} {result : Channel} :
    (channel lib response : Except (LndError Hash) _) = .ok result ↔
      BuiltChannel Hash lib response result := by
  simp only [channel, bind_ok_iff, responseAmount_ok_iff, orError_ok_iff, guard_ok_iff,
    checkedAdd_eq_some_iff, mapError_ok_iff, millisatsOfSats_ok_iff, Except.ok.injEq,
    UInt64.lt_iff_toNat_lt, Nat.not_lt, BuiltChannel, Channel.tryNew_ok_iff]
  constructor
  · rintro ⟨key, hkey, point, hpoint, capacity, hcapacity, localSats, hlocalSats, remoteSats,
      hremoteSats, accounted, haccounted, hfits, localBalance, hlocal, remoteBalance, hremote,
      hresult⟩
    exact ⟨point, key, capacity, localBalance, remoteBalance, hkey, hpoint, hcapacity,
      by omega, by omega, by omega, hresult.symm⟩
  · rintro ⟨point, key, capacity, localBalance, remoteBalance, hkey, hpoint, hcapacity, hlocal,
      hremote, hfits, rfl⟩
    obtain ⟨localSats, hlocalSats⟩ := exists_unsigned (v := response.localBalance) (by omega)
    obtain ⟨remoteSats, hremoteSats⟩ := exists_unsigned (v := response.remoteBalance) (by omega)
    have hlocalMax := response.localBalance.toInt_lt
    have hremoteMax := response.remoteBalance.toInt_lt
    obtain ⟨accounted, haccounted⟩ := exists_sum (a := localSats) (b := remoteSats) (by omega)
    exact ⟨key, hkey, point, hpoint, capacity, hcapacity, localSats, hlocalSats, remoteSats,
      hremoteSats, accounted, haccounted, by omega, localBalance, by omega, remoteBalance,
      by omega, rfl⟩

theorem failsWith_channel (response : ProtoChannel) :
    FailsWith (IsInvalidResponse "list channels")
      (channel lib response : Except (LndError Hash) _) := by
  refine failsWith_bind (failsWith_orError (isInvalidResponse _ _)) fun _ =>
    failsWith_bind (failsWith_orError (isInvalidResponse _ _)) fun _ =>
    failsWith_bind failsWith_responseAmount fun _ =>
    failsWith_bind failsWith_responseAmount fun _ =>
    failsWith_bind failsWith_responseAmount fun _ =>
    failsWith_bind (failsWith_orError (isInvalidResponse _ _)) fun _ =>
    failsWith_guard (isInvalidResponse _ _) ?_
  exact failsWith_bind (failsWith_mapError fun _ => isInvalidResponse _ _) fun _ =>
    failsWith_bind (failsWith_mapError fun _ => isInvalidResponse _ _) fun _ => failsWith_ok _

end Channels

section Invoices
variable {lib : InvoiceLib Hash}

theorem responseMillisats_ok_iff {operation : String} {value : Int64}
    {identifier : Option String} {amount : UInt64} :
    (responseMillisats operation value identifier : Except (LndError Hash) UInt64) = .ok amount ↔
      value.toInt = amount.toNat := by
  rw [responseMillisats, guard_ok_iff, ← toUnsigned_eq_some_iff, toUnsigned, Except.ok.injEq]
  by_cases hneg : value < 0 <;> simp [hneg]

theorem responseTime_ok_iff {operation negativeDetail : String} {value : Int64}
    {paymentHash : Hash} {seconds : UInt64} :
    responseTime lib operation value negativeDetail paymentHash = .ok seconds ↔
      value.toInt = seconds.toNat := by
  rw [responseTime, orError_ok_iff, toUnsigned_eq_some_iff]

theorem InvoiceRecord.fromInvoice_ok_iff {invoice : DatedInvoice Hash} {state : InvoiceState}
    {record : InvoiceRecord Hash} :
    InvoiceRecord.fromInvoice invoice state = .ok record ↔
      ∃ amount, invoice.amountMilliSatoshis = some amount ∧
        record = ⟨invoice, invoice.paymentHash, amount, state⟩ := by
  simp only [InvoiceRecord.fromInvoice, bind_ok_iff, orError_ok_iff, Except.ok.injEq,
    eq_comm (b := record)]

variable [DecidableEq Hash]

/-- A record is the invoice its text encodes, and a given amount is the encoded one. -/
theorem invoiceRecord_ok_iff {operation paymentRequest : String} {paymentHash : Hash}
    {amount : Option UInt64} {state : InvoiceState} {record : InvoiceRecord Hash} :
    invoiceRecord lib operation paymentRequest paymentHash amount state = .ok record ↔
      ∃ invoice, lib.invoiceFromStr paymentRequest = some invoice ∧
        invoice.paymentHash = paymentHash ∧
        (∀ given ∈ amount, invoice.amountMilliSatoshis = some given) ∧
        InvoiceRecord.fromInvoice invoice state = .ok record := by
  simp only [invoiceRecord, bind_ok_iff, orError_ok_iff, guard_ok_iff, not_not, Except.ok.injEq,
    InvoiceRecord.fromInvoice_ok_iff]
  constructor
  · rintro ⟨invoice, htext, rfl, encoded, hencoded, hsame, rfl⟩
    refine ⟨invoice, htext, rfl, fun given hgiven => ?_, encoded, hencoded, ?_⟩
    · obtain rfl := Option.mem_def.mp hgiven
      rw [hencoded, ← hsame, Option.getD_some]
    · rw [hsame]
  · rintro ⟨invoice, htext, rfl, hgiven, encoded, hencoded, rfl⟩
    have hsame : amount.getD encoded = encoded := by
      cases amount with
      | none => rfl
      | some given => exact Option.some.inj ((hgiven given rfl).symm.trans hencoded)
    exact ⟨invoice, htext, rfl, encoded, hencoded, hsame, by rw [hsame]⟩

theorem invoice_ok_iff {response : ProtoInvoice} {record : InvoiceRecord Hash} :
    invoice lib response = .ok record ↔ BuiltInvoice lib response record := by
  simp only [invoice, responseHash, bind_ok_iff, orError_ok_iff, guard_ok_iff, not_not,
    Except.ok.injEq, responseMillisats_ok_iff, responseTime_ok_iff, invoiceRecord_ok_iff,
    BuiltInvoice]
  constructor
  · rintro ⟨hash, hhash, amount, hamount, created, hcreated, expiry, hexpiry, record, ⟨parsed,
      htext, rfl, hgiven, hrecord⟩, hdate, htime, rfl⟩
    obtain ⟨encoded, _, rfl⟩ := InvoiceRecord.fromInvoice_ok_iff.mp hrecord
    obtain rfl := hdate
    obtain rfl := htime
    exact ⟨parsed, amount, htext, hhash, hgiven amount rfl, hamount, hcreated, hexpiry, hrecord⟩
  · rintro ⟨parsed, amount, htext, hhash, hencoded, hamount, hcreated, hexpiry, hrecord⟩
    obtain ⟨encoded, _, rfl⟩ := InvoiceRecord.fromInvoice_ok_iff.mp hrecord
    refine ⟨parsed.paymentHash, hhash, amount, hamount, _, hcreated, _, hexpiry, _, ⟨parsed, htext,
      rfl, ?_, hrecord⟩, rfl, rfl, rfl⟩
    rintro given ⟨⟩
    exact hencoded

theorem failsWith_invoiceRecord (operation paymentRequest : String) (paymentHash : Hash)
    (amount : Option UInt64) (state : InvoiceState) :
    FailsWith (IsInvalidResponse operation)
      (invoiceRecord lib operation paymentRequest paymentHash amount state) := by
  refine failsWith_bind (failsWith_orError (isInvalidResponse_identified _ _ _)) fun _ =>
    failsWith_guard (isInvalidResponse_identified _ _ _) ?_
  exact failsWith_bind (failsWith_orError (isInvalidResponse_identified _ _ _)) fun _ =>
    failsWith_guard (isInvalidResponse_identified _ _ _) (failsWith_ok _)

theorem failsWith_invoice (response : ProtoInvoice) :
    FailsWith (IsInvalidResponse "lookup invoice") (invoice lib response) :=
  failsWith_bind (failsWith_orError (isInvalidResponse _ _)) fun _ =>
    failsWith_bind (failsWith_guard (isInvalidResponse_identified _ _ _) (failsWith_ok _)) fun _ =>
    failsWith_bind (failsWith_orError (isInvalidResponse_identified _ _ _)) fun _ =>
    failsWith_bind (failsWith_orError (isInvalidResponse_identified _ _ _)) fun _ =>
    failsWith_bind (failsWith_invoiceRecord _ _ _ _ _) fun _ =>
    failsWith_guard (isInvalidResponse_identified _ _ _)
      (failsWith_guard (isInvalidResponse_identified _ _ _) (failsWith_ok _))

end Invoices

theorem BuiltBalance.sum {response : WalletBalanceResponse} {balance : WalletBalance}
    (h : BuiltBalance Hash response balance) :
    balance.total.toNat = balance.confirmed.toNat + balance.unconfirmed.toNat := by
  obtain ⟨total, confirmed, unconfirmed, _, _, _, hbuilt⟩ := h
  obtain ⟨hsum, rfl⟩ := WalletBalance.tryNew_ok_iff.mp hbuilt
  exact hsum

theorem BuiltChannel.amounts {lib : ChannelLib} {response : ProtoChannel} {result : Channel}
    (h : BuiltChannel Hash lib response result) :
    (result.capacity.toNat : Int) = response.capacity.toInt ∧
      (result.localBalance.toNat : Int) = response.localBalance.toInt * 1000 ∧
      (result.remoteBalance.toNat : Int) = response.remoteBalance.toInt * 1000 ∧
      result.localBalance.toNat + result.remoteBalance.toNat ≤ result.capacity.toNat * 1000 := by
  obtain ⟨_, _, _, _, _, _, _, hcapacity, hlocal, hremote, hbuilt⟩ := h
  obtain ⟨hfits, rfl⟩ := Channel.tryNew_ok_iff.mp hbuilt
  exact ⟨hcapacity.symm, hlocal.symm, hremote.symm, hfits⟩

theorem BuiltInvoice.encoded {lib : InvoiceLib Hash} {response : ProtoInvoice}
    {record : InvoiceRecord Hash} (h : BuiltInvoice lib response record) :
    lib.invoiceFromStr response.paymentRequest = some record.invoice ∧
      record.paymentHash = record.invoice.paymentHash ∧
      record.invoice.amountMilliSatoshis = some record.amount := by
  obtain ⟨parsed, _, htext, _, _, _, _, _, hbuilt⟩ := h
  obtain ⟨amount, hamount, rfl⟩ := InvoiceRecord.fromInvoice_ok_iff.mp hbuilt
  exact ⟨htext, rfl, hamount⟩

/-- Reading a balance, a channel or an invoice off the wire gives what the public constructor
builds from the same data, and an invalid response where that builds nothing. -/
theorem conversions_agree [DecidableEq Hash] (channelLib : ChannelLib)
    (invoiceLib : InvoiceLib Hash) :
    @Agrees Hash _ _ "wallet balance" walletBalance (BuiltBalance Hash) ∧
    @Agrees Hash _ _ "list channels" (channel channelLib) (BuiltChannel Hash channelLib) ∧
    Agrees "lookup invoice" (invoice invoiceLib) (BuiltInvoice invoiceLib) ∧
    (∀ response balance, (walletBalance response : Except (LndError Hash) _) = .ok balance →
      balance.total.toNat = balance.confirmed.toNat + balance.unconfirmed.toNat) ∧
    (∀ response result, (channel channelLib response : Except (LndError Hash) _) = .ok result →
      (result.capacity.toNat : Int) = response.capacity.toInt ∧
      (result.localBalance.toNat : Int) = response.localBalance.toInt * 1000 ∧
      (result.remoteBalance.toNat : Int) = response.remoteBalance.toInt * 1000 ∧
      result.localBalance.toNat + result.remoteBalance.toNat ≤ result.capacity.toNat * 1000) ∧
    ∀ response record, invoice invoiceLib response = .ok record →
      invoiceLib.invoiceFromStr response.paymentRequest = some record.invoice ∧
      record.paymentHash = record.invoice.paymentHash ∧
      record.invoice.amountMilliSatoshis = some record.amount := by
  refine ⟨.of_failsWith (fun _ _ => walletBalance_ok_iff) failsWith_walletBalance,
    .of_failsWith (fun _ _ => channel_ok_iff) failsWith_channel,
    .of_failsWith (fun _ _ => invoice_ok_iff) failsWith_invoice, ?_, ?_, ?_⟩
  · exact fun _ _ hread => (walletBalance_ok_iff.mp hread).sum
  · exact fun _ _ hread => (channel_ok_iff.mp hread).amounts
  · exact fun _ _ hread => (invoice_ok_iff.mp hread).encoded

end Nigiri.Lnd
