import Nigiri.Process
import Nigiri.RequestEncoding
import Nigiri.WireRecords

/-! Creating and paying invoices: the requests as they are sent, and the record that a created
invoice becomes. -/
namespace Nigiri.Lnd
open Nigiri.CheckedInt Nigiri.Checks Nigiri.Process Nigiri.WireFormat
variable {Hash Instant : Type} {α : Type}

/-- Whole nanoseconds whose seconds are counted in 64 bits. -/
structure Duration where
  nanoseconds : Nat
  seconds_lt : nanoseconds / 1000000000 < 2 ^ 64

/-- Amounts are millisatoshis. -/
structure CreateInvoiceRequest where
  amount : UInt64
  memo : String
  expiry : Duration
  amount_ne_zero : amount ≠ 0
  expiry_ne_zero : expiry.nanoseconds ≠ 0

def CreateInvoiceRequest.new (amount : UInt64) (memo : String) (expiry : Duration) :
    Except (LndError Hash) CreateInvoiceRequest :=
  if hamount : amount = 0 then
    .error (invalidRequest "invoice amount must be greater than zero")
  else if hexpiry : expiry.nanoseconds = 0 then
    .error (invalidRequest "invoice expiry must be greater than zero")
  else .ok ⟨amount, memo, expiry, hamount, hexpiry⟩

def protoInvoiceRequest (request : CreateInvoiceRequest) :
    Except (LndError Hash) ProtoInvoice := do
  let valueMsat ← signedI64 request.amount "invoice amount"
  let seconds ← nonzeroWholeSeconds request.expiry.nanoseconds "invoice expiry"
  let expiry ← signedI64 (UInt64.ofNat seconds) "invoice expiry"
  .ok { memo := request.memo, valueMsat := valueMsat, expiry := expiry }

structure AddInvoiceResponse where
  rHash : Bytes
  paymentRequest : String
  deriving DecidableEq, Repr

inductive PaymentCall where
  | addInvoice (request : ProtoInvoice)
  | sendPaymentV2 (request : SendPaymentRequest)
  deriving DecidableEq, Repr

abbrev PaymentCall.Answer : PaymentCall → Type
  | .addInvoice _ => Reply AddInvoiceResponse
  | .sendPaymentV2 _ => Reply (List (Reply (Option Payment)))

abbrev PaymentProc := Proc PaymentCall PaymentCall.Answer

section Create
variable [DecidableEq Hash] (lib : InvoiceLib Hash)

def createdInvoice (response : AddInvoiceResponse) :
    Except (LndError Hash) (InvoiceRecord Hash) := do
  let paymentHash ← responseHash lib "create invoice" response.rHash
  invoiceRecord lib "create invoice" response.paymentRequest paymentHash none .opened

/-- What an answer of the daemon is worth to the request. -/
def checkCreated (expectedAmount expectedExpiry : UInt64) (reply : Reply AddInvoiceResponse) :
    Except (LndError Hash) (InvoiceRecord Hash) := do
  let response ← boundedMutatingRequestUntil "create invoice" none reply
  let record ← createdInvoice lib response
  let identifier := some (lib.display record.paymentHash)
  if record.amount ≠ expectedAmount then
    .error (invalidResponseWithIdentifier "create invoice"
      "created invoice amount does not match the requested amount" identifier)
  else if record.invoice.expiryTime ≠ expectedExpiry then
    .error (invalidResponseWithIdentifier "create invoice"
      "created BOLT11 expiry does not match the requested expiry" identifier)
  else .ok record

/-- The request and the expiry that its answer is held to. -/
def prepareInvoice (checkedAdd : Nat → Option Instant) (timeout : Nat)
    (request : CreateInvoiceRequest) : Except (LndError Hash) (ProtoInvoice × UInt64) := do
  let proto ← protoInvoiceRequest request
  let expectedExpiry ← orError (toUnsigned proto.expiry)
    (invalidRequest "validated invoice expiry unexpectedly became negative")
  let _ ← operationDeadline checkedAdd timeout
  .ok (proto, expectedExpiry)

def createInvoiceWith (checkedAdd : Nat → Option Instant) (timeout : Nat)
    (request : CreateInvoiceRequest) :
    PaymentProc (Except (LndError Hash) (InvoiceRecord Hash)) :=
  match prepareInvoice checkedAdd timeout request with
  | .error error => .done (.error error)
  | .ok (proto, expectedExpiry) =>
    .ask (.addInvoice proto) fun reply =>
      .done (checkCreated lib request.amount expectedExpiry reply)

end Create

/-- The request of a payment, once its deadline is known to exist. -/
def preparePayment (checkedAdd : Nat → Option Instant) (timeout : Nat)
    (invoice : Bolt11Invoice Hash) (options : PaymentOptions) :
    Except (LndError Hash) SendPaymentRequest := do
  let request ← protoSendPaymentRequest invoice options
  let _ ← operationDeadline checkedAdd timeout
  .ok request

/-- What the answer to the request of a payment comes to. -/
def receivePayment [DecidableEq Hash] (lib : HashLib Hash) (timeout : Nat)
    (invoice : Bolt11Invoice Hash) (reply : Reply (List (Reply (Option Payment)))) :
    Option (Except (LndError Hash) (PaymentRecord Hash)) :=
  match boundedMutatingRequestUntil "pay invoice" (some (lib.display invoice.paymentHash))
    reply with
  | .error error => some (.error error)
  | .ok stream =>
    consumePaymentStream lib timeout
      ⟨"pay invoice", invoice.paymentHash, invoice.amountMilliSatoshis⟩ true stream

/-- Paying an invoice, with the request it sends to the router. -/
def payInvoice [DecidableEq Hash] (lib : HashLib Hash) (checkedAdd : Nat → Option Instant)
    (timeout : Nat) (invoice : Bolt11Invoice Hash) (options : PaymentOptions) :
    PaymentProc (Option (Except (LndError Hash) (PaymentRecord Hash))) :=
  match preparePayment checkedAdd timeout invoice options with
  | .error error => .done (some (.error error))
  | .ok request =>
    .ask (.sendPaymentV2 request) fun reply => .done (receivePayment lib timeout invoice reply)

/-- The paying function is this process in the run in which the router answers as it does. -/
theorem payInvoice_runs [DecidableEq Hash] (lib : HashLib Hash)
    (checkedAdd : Nat → Option Instant) (timeout : Nat)
    (sendPaymentV2 : SendPaymentRequest → Reply (List (Reply (Option Payment))))
    (invoice : Bolt11Invoice Hash) (options : PaymentOptions) :
    ∃ t, Runs (payInvoice lib checkedAdd timeout invoice options) t
        (some (payInvoiceWith lib checkedAdd timeout sendPaymentV2 invoice options)) ∧
      ∀ e ∈ t, ∃ request, e = ⟨.sendPaymentV2 request, some (sendPaymentV2 request)⟩ := by
  rw [payInvoice, payInvoiceWith, preparePayment]
  cases protoSendPaymentRequest invoice options with
  | error error => exact ⟨[], runs_done _, List.forall_mem_nil _⟩
  | ok request =>
    cases hdeadline : (operationDeadline checkedAdd timeout : Except (LndError Hash) Instant) with
    | error error => exact ⟨[], runs_done _, List.forall_mem_nil _⟩
    | ok deadline =>
      exact ⟨[⟨.sendPaymentV2 request, some (sendPaymentV2 request)⟩], runs_ask (runs_done _),
        List.forall_mem_singleton.mpr ⟨request, rfl⟩⟩

/-- A call that is refused before it sends anything, or sends exactly one request that says what
the call was asked for. -/
def SendsExact (refusal : LndError Hash → α) (Exact : PaymentCall → Prop) (p : PaymentProc α) :
    Prop :=
  (∃ error, IsInvalidRequest error ∧
    ∀ t o, Runs p t o → t = [] ∧ (o = none ∨ o = some (refusal error))) ∨
  ∃ q, Exact q ∧ ∀ t o, Runs p t o → (t = [] ∧ o = none) ∨ ∃ reply, t = [⟨q, reply⟩]

theorem sendsExact_done {refusal : LndError Hash → α} {Exact : PaymentCall → Prop}
    {error : LndError Hash} (herror : IsInvalidRequest error) :
    SendsExact refusal Exact (.done (refusal error)) :=
  .inl ⟨error, herror, fun _ _ hrun => hrun⟩

theorem sendsExact_ask {refusal : LndError Hash → α} {Exact : PaymentCall → Prop}
    {q : PaymentCall} (hexact : Exact q) (finish : q.Answer → α) :
    SendsExact refusal Exact (.ask q fun reply => .done (finish reply)) := by
  refine .inr ⟨q, hexact, fun t o hrun => ?_⟩
  obtain ⟨rfl, rfl⟩ | ⟨rfl, _⟩ | ⟨reply, t', rfl, ht', _⟩ := hrun
  · exact .inl ⟨rfl, rfl⟩
  · exact .inr ⟨none, rfl⟩
  · exact .inr ⟨some reply, by rw [ht']⟩

/-- The signed fields denote the amount and the seconds of the request. -/
def InvoiceExact (request : CreateInvoiceRequest) (call : PaymentCall) : Prop :=
  ∃ wire : ProtoInvoice, call = .addInvoice wire ∧ wire.memo = request.memo ∧
    wire.valueMsat.toInt = request.amount.toNat ∧
    wire.expiry.toInt * 1000000000 = request.expiry.nanoseconds

/-- The signed fields denote the fee limit and the seconds of the options. -/
def PaymentExact (invoice : Bolt11Invoice Hash) (options : PaymentOptions)
    (call : PaymentCall) : Prop :=
  ∃ wire : SendPaymentRequest, call = .sendPaymentV2 wire ∧ wire.paymentRequest = invoice.text ∧
    wire.feeLimitMsat.toInt = options.feeLimit.toNat ∧
    wire.timeoutSeconds.toInt * 1000000000 = options.timeout

section Requests
variable {checkedAdd : Nat → Option Instant} {timeout : Nat}

theorem protoInvoiceRequest_ok {request : CreateInvoiceRequest} {wire : ProtoInvoice}
    (h : (protoInvoiceRequest request : Except (LndError Hash) _) = .ok wire) :
    InvoiceExact request (.addInvoice wire) := by
  simp only [protoInvoiceRequest, bind_ok_iff, signedI64_ok_iff, Except.ok.injEq] at h
  obtain ⟨amount, hamount, seconds, hseconds, expiry, hexpiry, rfl⟩ := h
  refine ⟨_, rfl, rfl, hamount, ?_⟩
  have hexact := nonzeroWholeSeconds_ok hseconds
  have hfits := request.expiry.seconds_lt
  have hlt : seconds < 2 ^ 64 := by omega
  rw [UInt64.toNat_ofNat_of_lt' hlt] at hexpiry
  show expiry.toInt * 1000000000 = _
  omega

theorem prepareInvoice_ok {request : CreateInvoiceRequest} {wire : ProtoInvoice}
    {expectedExpiry : UInt64}
    (h : (prepareInvoice checkedAdd timeout request : Except (LndError Hash) _) =
      .ok (wire, expectedExpiry)) :
    InvoiceExact request (.addInvoice wire) ∧
      expectedExpiry.toNat * 1000000000 = request.expiry.nanoseconds := by
  simp only [prepareInvoice, bind_ok_iff, orError_ok_iff, toUnsigned_eq_some_iff,
    Except.ok.injEq, Prod.mk.injEq] at h
  obtain ⟨wire, hwire, expected, hexpected, _, _, rfl, rfl⟩ := h
  have hexact := protoInvoiceRequest_ok hwire
  refine ⟨hexact, ?_⟩
  obtain ⟨_, ⟨⟩, _, _, hexpiry⟩ := hexact
  omega

theorem failsWith_prepareInvoice (request : CreateInvoiceRequest) :
    FailsWith IsInvalidRequest
      (prepareInvoice checkedAdd timeout request : Except (LndError Hash) _) := by
  have hproto : FailsWith IsInvalidRequest
      (protoInvoiceRequest request : Except (LndError Hash) _) :=
    failsWith_bind (failsWith_signedI64 _) fun _ =>
      failsWith_bind (failsWith_nonzeroWholeSeconds _) fun _ =>
      failsWith_bind (failsWith_signedI64 _) fun _ => failsWith_ok _
  exact failsWith_bind hproto fun _ => failsWith_bind (failsWith_orError (isInvalidRequest _))
    fun _ => failsWith_bind (failsWith_operationDeadline _ _) fun _ => failsWith_ok _

theorem preparePayment_ok {invoice : Bolt11Invoice Hash} {options : PaymentOptions}
    {wire : SendPaymentRequest}
    (h : preparePayment checkedAdd timeout invoice options = .ok wire) :
    PaymentExact invoice options (.sendPaymentV2 wire) := by
  simp only [preparePayment, bind_ok_iff, Except.ok.injEq] at h
  obtain ⟨_, hwire, _, _, rfl⟩ := h
  exact ⟨_, rfl, protoSendPaymentRequest_ok hwire⟩

theorem failsWith_preparePayment (invoice : Bolt11Invoice Hash) (options : PaymentOptions) :
    FailsWith IsInvalidRequest (preparePayment checkedAdd timeout invoice options) :=
  failsWith_bind (failsWith_protoSendPaymentRequest _ _) fun _ =>
    failsWith_bind (failsWith_operationDeadline _ _) fun _ => failsWith_ok _

end Requests

section Created
variable [DecidableEq Hash] {lib : InvoiceLib Hash} {checkedAdd : Nat → Option Instant}
  {timeout : Nat}

theorem createInvoiceWith_sendsExact (request : CreateInvoiceRequest) :
    SendsExact Except.error (InvoiceExact request)
      (createInvoiceWith lib checkedAdd timeout request) := by
  rw [createInvoiceWith]
  cases hprepare : (prepareInvoice checkedAdd timeout request : Except (LndError Hash) _) with
  | error error => exact sendsExact_done (failsWith_prepareInvoice request error hprepare)
  | ok prepared => exact sendsExact_ask (prepareInvoice_ok hprepare).1 _

theorem payInvoice_sendsExact (lib : HashLib Hash) (invoice : Bolt11Invoice Hash)
    (options : PaymentOptions) :
    SendsExact (fun error => some (.error error)) (PaymentExact invoice options)
      (payInvoice lib checkedAdd timeout invoice options) := by
  rw [payInvoice]
  cases hprepare : preparePayment checkedAdd timeout invoice options with
  | error error =>
    exact sendsExact_done (failsWith_preparePayment invoice options error hprepare)
  | ok wire => exact sendsExact_ask (preparePayment_ok hprepare) _

theorem checkCreated_ok {amount expiry : UInt64} {reply : Reply AddInvoiceResponse}
    {record : InvoiceRecord Hash} (h : checkCreated lib amount expiry reply = .ok record) :
    record.amount = amount ∧ record.invoice.expiryTime = expiry ∧
      (∃ text, lib.invoiceFromStr text = some record.invoice) ∧
      record.paymentHash = record.invoice.paymentHash := by
  simp only [checkCreated, createdInvoice, bind_ok_iff, guard_ok_iff, not_not,
    invoiceRecord_ok_iff, InvoiceRecord.fromInvoice_ok_iff, Except.ok.injEq] at h
  obtain ⟨response, _, record, ⟨hash, _, invoice, htext, _, _, encoded, _, rfl⟩, rfl, rfl, rfl⟩ := h
  exact ⟨rfl, rfl, ⟨_, htext⟩, rfl⟩

/-- A completed call that created an invoice returns what was asked for, as its text says. -/
theorem createInvoiceWith_ok {request : CreateInvoiceRequest}
    {t : Trace PaymentCall PaymentCall.Answer} {record : InvoiceRecord Hash}
    (hrun : Runs (createInvoiceWith lib checkedAdd timeout request) t (some (.ok record))) :
    record.amount = request.amount ∧
      record.invoice.expiryTime.toNat * 1000000000 = request.expiry.nanoseconds ∧
      (∃ text, lib.invoiceFromStr text = some record.invoice) ∧
      record.paymentHash = record.invoice.paymentHash := by
  rw [createInvoiceWith] at hrun
  cases hprepare : (prepareInvoice checkedAdd timeout request : Except (LndError Hash) _) with
  | error error =>
    rw [hprepare] at hrun
    cases (Runs.of_done hrun).2
  | ok prepared =>
    rw [hprepare] at hrun
    obtain ⟨reply, t', rfl, hdone⟩ := Runs.of_ask hrun
    obtain ⟨hamount, hexpiry, htext, hhash⟩ := checkCreated_ok (Runs.of_done hdone).2
    exact ⟨hamount, by rw [hexpiry]; exact (prepareInvoice_ok hprepare).2, htext, hhash⟩

end Created

/-- Amounts, fee limits and seconds reach the daemon exactly or not at all, and a created invoice
has the amount, the expiry and the hash it is reported with. -/
theorem invoice_and_payment_requests_exact [DecidableEq Hash] (invoiceLib : InvoiceLib Hash)
    (hashLib : HashLib Hash) (checkedAdd : Nat → Option Instant) (timeout : Nat) :
    (∀ request, SendsExact Except.error (InvoiceExact request)
      (createInvoiceWith invoiceLib checkedAdd timeout request)) ∧
    (∀ invoice options, SendsExact (fun error => some (.error error))
      (PaymentExact invoice options)
      (payInvoice hashLib checkedAdd timeout invoice options)) ∧
    (∀ (request : CreateInvoiceRequest) t record,
      Runs (createInvoiceWith invoiceLib checkedAdd timeout request) t (some (.ok record)) →
      record.amount = request.amount ∧
      record.invoice.expiryTime.toNat * 1000000000 = request.expiry.nanoseconds ∧
      (∃ text, invoiceLib.invoiceFromStr text = some record.invoice) ∧
      record.paymentHash = record.invoice.paymentHash) ∧
    ∀ (sendPaymentV2 : SendPaymentRequest → Reply (List (Reply (Option Payment))))
      invoice options, ∃ t,
      Runs (payInvoice hashLib checkedAdd timeout invoice options) t
        (some (payInvoiceWith hashLib checkedAdd timeout sendPaymentV2 invoice options)) ∧
      ∀ e ∈ t, ∃ request, e = ⟨.sendPaymentV2 request, some (sendPaymentV2 request)⟩ :=
  ⟨createInvoiceWith_sendsExact, payInvoice_sendsExact hashLib,
    fun _ _ _ hrun => createInvoiceWith_ok hrun, payInvoice_runs hashLib checkedAdd timeout⟩

end Nigiri.Lnd
