import Nigiri.PairRules
import Nigiri.PaymentStream
import Nigiri.RequestEncoding

/-! The reverse readiness probe: a further invoice and payment only behind a payment that failed
for want of a route or of balance, and success only with the last attempt's own invoice. -/
namespace Nigiri.Fixtures
open Nigiri.WireFormat Nigiri.Process Nigiri.Polling Nigiri.Lnd
variable {Hash Invoice : Type} {h t : PairTrace Hash Invoice}

/-- A reply to a call under the deadline, if there has been one. -/
abbrev Answered (Hash α : Type) := Option (Option (Except (LndError Hash) α))

def invoiceOf : PairEvent Hash Invoice → Option (Answered Hash (Invoice × Hash))
  | ⟨.call (.createReadinessInvoice _), reply⟩ => some reply
  | _ => none

def paymentOf : PairEvent Hash Invoice → Option (Answered Hash (PaymentReadiness Hash))
  | ⟨.call (.payReadinessInvoice ..), reply⟩ => some reply
  | _ => none

/-- The replies to the invoices created and to the payments sent, in order. -/
def invoices (h : PairTrace Hash Invoice) := h.filterMap invoiceOf
def payments (h : PairTrace Hash Invoice) := h.filterMap paymentOf

@[simp] theorem invoices_append : invoices (h ++ t) = invoices h ++ invoices t :=
  List.filterMap_append ..

@[simp] theorem payments_append : payments (h ++ t) = payments h ++ payments t :=
  List.filterMap_append ..

/-- The payment failed for want of a route or of balance. -/
def RoutingFailed (reply : Answered Hash (PaymentReadiness Hash)) : Prop :=
  ∃ error, reply = some (some (.error error)) ∧ isTransientRoutingFailure error = true

def Retriable (h : PairTrace Hash Invoice) : Prop := ∀ reply ∈ payments h, RoutingFailed reply

/-- The invoice is the last one created, and has not been paid yet. -/
def Fresh (h : PairTrace Hash Invoice) (invoice : Invoice) (paymentHash : Hash) : Prop :=
  ∃ earlier, invoices h = earlier ++ [some (some (.ok (invoice, paymentHash)))] ∧
    earlier.length = (payments h).length

/-- What must hold of the history when a request is made. -/
def Probed (h : PairTrace Hash Invoice) : Await (PairCall Hash Invoice) → Prop
  | .call (.createReadinessInvoice node) => node = .alice ∧ Retriable h ∧
    (invoices h).length = (payments h).length
  | .call (.payReadinessInvoice node invoice) => node = .bob ∧ Retriable h ∧
    ∃ paymentHash, Fresh h invoice paymentHash
  | _ => True

/-- The last attempt paid its own invoice, under its own hash, and the receiver settled it. -/
def ReverseProved (h : PairTrace Hash Invoice) : Prop :=
  ∃ before invoice payment after, h = before ++
      ⟨.call (.payReadinessInvoice .bob invoice), some (some (.ok payment))⟩ :: (after ++
        [⟨.call (.invoiceState .alice payment.paymentHash), some (some (.ok .settled))⟩]) ∧
    Fresh before invoice payment.paymentHash ∧ payment.state = .succeeded ∧
    invoices after = [] ∧ payments after = []

structure ReversePost (h : PairTrace Hash Invoice) (o : Option (Except (Stop Hash) Unit)) :
    Prop where
  each : Each Probed h
  proved : o = some (.ok ()) → ReverseProved h

/-- Between two attempts every invoice has been paid, and every payment failed. -/
structure ReverseInv (h : PairTrace Hash Invoice) : Prop where
  each : Each Probed h
  retriable : Retriable h
  paid : (invoices h).length = (payments h).length

/-- A request that neither creates an invoice nor pays one. -/
def Harmless : Await (PairCall Hash Invoice) → Prop
  | .call (.createReadinessInvoice _) | .call (.payReadinessInvoice ..) => False
  | _ => True

theorem harmless_probed {q : Await (PairCall Hash Invoice)} (hq : Harmless q)
    (h : PairTrace Hash Invoice) : Probed h q := by
  cases q with
  | call q => cases q <;> first | exact trivial | exact hq.elim
  | poll f => exact trivial
  | park => exact trivial

theorem harmless_none {e : PairEvent Hash Invoice} (he : Harmless e.request) :
    invoiceOf e = none ∧ paymentOf e = none := by
  obtain ⟨q, reply⟩ := e
  cases q with
  | call q => cases q <;> first | exact ⟨rfl, rfl⟩ | exact he.elim
  | poll f => exact ⟨rfl, rfl⟩
  | park => exact ⟨rfl, rfl⟩

/-- Harmless requests leave invoices and payments as they are. -/
def Quiet (t : PairTrace Hash Invoice) : Prop := ∀ e ∈ t, Harmless e.request

theorem Quiet.invoices (ht : Quiet t) : invoices t = [] :=
  List.filterMap_eq_nil_iff.mpr fun e he => (harmless_none (ht e he)).1

theorem Quiet.payments (ht : Quiet t) : payments t = [] :=
  List.filterMap_eq_nil_iff.mpr fun e he => (harmless_none (ht e he)).2

theorem Quiet.each (hall : Each Probed h) (ht : Quiet t) : Each Probed (h ++ t) := by
  refine hall.append fun before e after hsplit => ?_
  have he : e ∈ t := by
    rw [hsplit]
    exact List.mem_append_right _ List.mem_cons_self
  exact harmless_probed (ht e he) _

theorem ReverseInv.quiet (hinv : ReverseInv h) (ht : Quiet t) : ReverseInv (h ++ t) := by
  refine ⟨ht.each hinv.each, fun reply hreply => ?_, ?_⟩
  · rw [payments_append, ht.payments, List.append_nil] at hreply
    exact hinv.retriable reply hreply
  · rw [invoices_append, payments_append, ht.invoices, ht.payments, List.append_nil,
      List.append_nil]
    exact hinv.paid

theorem ReversePost.mayStop (hall : Each Probed h) : MayStop ReversePost h :=
  ⟨⟨hall, fun ho => by cases ho⟩, fun _ => ⟨hall, fun ho => by cases ho⟩⟩

/-- The wait for the channel creates and pays nothing. -/
theorem harmless_waitForActiveChannel (channelPoint : OutPoint) (ends : ChannelEnds)
    (lib : PairLib Hash) : Asks (@Harmless Hash Invoice)
      (waitForActiveChannel channelPoint ends lib) :=
  asks_waitForActiveChannel channelPoint ends lib trivial (fun _ => trivial) trivial trivial
    fun _ _ => trivial

theorem harmless_waitForSettledInvoice [DecidableEq Hash] (lib : PairLib Hash) (receiver : Node)
    (paymentHash : Hash) : Asks (@Harmless Hash Invoice)
      (waitForSettledInvoice lib receiver paymentHash) :=
  asks_waitForSettledInvoice lib receiver paymentHash trivial trivial

section Attempt
variable [DecidableEq Hash] (lib : PairLib Hash)

/-- The attempt's own payment has gone through; its invoice has to settle. -/
theorem ensures_settled {invoice : Invoice} {payment : PaymentReadiness Hash}
    (hall : Each Probed (h ++ [⟨.call (.payReadinessInvoice .bob invoice),
      some (some (.ok payment))⟩]))
    (hfresh : Fresh h invoice payment.paymentHash) (hstate : payment.state = .succeeded) :
    Ensures (h ++ [⟨.call (.payReadinessInvoice .bob invoice), some (some (.ok payment))⟩])
      ((waitForSettledInvoice lib .alice payment.paymentHash).bind leave :
        PairRound Hash Invoice (Observation Hash) Unit)
      (Again (fun h' _ => ReverseInv h') .done ReversePost) := by
  refine ensures_bind ((((harmless_waitForSettledInvoice lib .alice payment.paymentHash).ensures
    _).and (ensures_waitForSettledInvoice lib .alice payment.paymentHash)).mono fun h' o ho => ?_)
  obtain ⟨⟨t, rfl, ht⟩, hsettled⟩ := ho
  have hquiet : Quiet t := ht
  have hdone : Each Probed _ := hquiet.each hall
  match o with
  | none => exact (ReversePost.mayStop hdone).cut
  | some (.error stop) =>
    exact ensures_leave (ReversePost.mayStop hdone).cut ⟨hdone, fun ho => by cases ho⟩
  | some (.ok ()) =>
    refine ensures_leave (ReversePost.mayStop hdone).cut ⟨hdone, fun _ => ?_⟩
    obtain ⟨after, hlast⟩ := hsettled rfl
    rw [List.append_assoc _ after] at hlast
    obtain rfl := List.append_cancel_left hlast
    have hafter : Quiet after := fun e he => ht e (List.mem_append_left _ he)
    exact ⟨h, invoice, payment, after, by simp, hfresh, hstate, hafter.invoices, hafter.payments⟩

theorem verifyReadinessPayment_ok {paymentHash : Hash} {payment : PaymentReadiness Hash} :
    verifyReadinessPayment lib paymentHash payment = .ok () ↔
      payment.paymentHash = paymentHash ∧ payment.state = .succeeded := by
  unfold verifyReadinessPayment
  split
  next hne =>
    constructor
    · intro h
      cases h
    · rintro ⟨hhash, hstate⟩
      exact hne.elim (fun h => absurd hhash h) fun h => absurd hstate h
  next heq =>
    obtain ⟨hhash, hstate⟩ := not_or.mp heq
    exact iff_of_true rfl ⟨not_not.mp hhash, not_not.mp hstate⟩

/-- Between the creation of an invoice and its payment. -/
structure Invoiced (h : PairTrace Hash Invoice) (invoice : Invoice) (paymentHash : Hash) :
    Prop where
  each : Each Probed h
  retriable : Retriable h
  fresh : Fresh h invoice paymentHash

omit [DecidableEq Hash] in
theorem ReverseInv.create (hinv : ReverseInv h)
    (reply : Answered Hash (Invoice × Hash)) :
    Each Probed (h ++ [⟨.call (.createReadinessInvoice .alice), reply⟩]) :=
  each_concat.mpr ⟨hinv.each, rfl, hinv.retriable, hinv.paid⟩

omit [DecidableEq Hash] in
theorem ReverseInv.invoiced (hinv : ReverseInv h) (invoice : Invoice) (paymentHash : Hash) :
    Invoiced (h ++ [⟨.call (.createReadinessInvoice .alice),
      some (some (.ok (invoice, paymentHash)))⟩]) invoice paymentHash := by
  have hpayments : payments (h ++ [⟨.call (.createReadinessInvoice .alice),
      some (some (.ok (invoice, paymentHash)))⟩]) = payments h := by
    rw [payments_append]
    exact List.append_nil _
  refine ⟨hinv.create _, ?_, invoices h, invoices_append, ?_⟩
  · rw [Retriable, hpayments]
    exact hinv.retriable
  · rw [hpayments]
    exact hinv.paid

omit [DecidableEq Hash] in
theorem Invoiced.pay {invoice : Invoice} {paymentHash : Hash}
    (hinvoiced : Invoiced h invoice paymentHash)
    (reply : Answered Hash (PaymentReadiness Hash)) :
    Each Probed (h ++ [⟨.call (.payReadinessInvoice .bob invoice), reply⟩]) :=
  each_concat.mpr ⟨hinvoiced.each, rfl, hinvoiced.retriable, paymentHash, hinvoiced.fresh⟩

omit [DecidableEq Hash] in
/-- A payment that failed in routing leads back between two attempts. -/
theorem Invoiced.failed {invoice : Invoice} {paymentHash : Hash}
    (hinvoiced : Invoiced h invoice paymentHash) {error : LndError Hash}
    (hfailed : isTransientRoutingFailure error = true) :
    ReverseInv (h ++ [⟨.call (.payReadinessInvoice .bob invoice),
      some (some (.error error))⟩]) := by
  obtain ⟨earlier, hlast, hlength⟩ := hinvoiced.fresh
  refine ⟨hinvoiced.pay _, fun reply hreply => ?_, ?_⟩
  · rw [payments_append, List.mem_append] at hreply
    rcases hreply with hbefore | hnow
    · exact hinvoiced.retriable reply hbefore
    · exact ⟨error, List.mem_singleton.mp hnow, hfailed⟩
  · rw [invoices_append, payments_append, hlast, List.length_append, List.length_append, hlength]
    simp [invoices, payments, invoiceOf, paymentOf]

/-- The payment of an attempt: it stops, proves the direction, or may be repeated. -/
theorem ensures_payment {invoice : Invoice} {paymentHash : Hash}
    (hinvoiced : Invoiced h invoice paymentHash) (observation : Observation Hash) :
    Ensures h (runOrLeave "lnd-bob" observation (.payReadinessInvoice .bob invoice) fun
        | .ok payment =>
          orLeave (.done (verifyReadinessPayment lib paymentHash payment)) fun () =>
          (waitForSettledInvoice lib .alice paymentHash).bind leave
        | .error error =>
          if isTransientRoutingFailure error then
            retryAfterDelay "lightning-channel" (.notReady (routeText lib paymentHash) error)
              (.notReady (routeText lib paymentHash) error)
          else leaveWith (.bootstrap "pay Bob-to-Alice readiness invoice" error) :
        PairRound Hash Invoice (Observation Hash) Unit)
      (Again (fun h' _ => ReverseInv h') .done ReversePost) := by
  refine ensures_runOrLeave (ReversePost.mayStop hinvoiced.each).cut
    (fun reply => ReversePost.mayStop (hinvoiced.pay reply)) fun answer => ?_
  have hstop := ReversePost.mayStop (hinvoiced.pay (some (some answer)))
  cases answer with
  | error error =>
    simp only
    split
    next hfailed =>
      have hquiet (reply) : Quiet ([⟨.call .retryDelay, reply⟩] : PairTrace Hash Invoice) :=
        fun e he => List.mem_singleton.mp he ▸ trivial
      have hagain := hinvoiced.failed hfailed
      exact ensures_retryAfterDelay hstop.cut
        (fun reply => ReversePost.mayStop ((hquiet reply).each hagain.each))
        (hagain.quiet (hquiet _))
    next => exact hstop.leave _
  | ok payment =>
    cases hverified : verifyReadinessPayment lib paymentHash payment with
    | error stop =>
      simp only [hverified]
      exact ensures_leave hstop.cut ⟨hinvoiced.pay _, fun ho => by cases ho⟩
    | ok u =>
      obtain ⟨rfl, hstate⟩ := (verifyReadinessPayment_ok lib).mp hverified
      simp only [hverified]
      exact ensures_settled lib (hinvoiced.pay _) hinvoiced.fresh hstate

/-- One attempt from between two: it stops, proves the direction, or may be repeated. -/
theorem ensures_reverseRound (hinv : ReverseInv h) (channelPoint : OutPoint) (ends : ChannelEnds)
    (observation : Observation Hash) :
    Ensures h (reverseRound lib channelPoint ends observation :
      PairRound Hash Invoice (Observation Hash) Unit)
      (Again (fun h' _ => ReverseInv h') .done ReversePost) := by
  refine ensures_orLeave (((harmless_waitForActiveChannel channelPoint ends lib).ensures h).mono
    fun h' o ho => ?_)
  obtain ⟨t, rfl, ht⟩ := ho
  have hactive := hinv.quiet ht
  have hstop := ReversePost.mayStop hactive.each
  match o with
  | none => exact hstop.cut
  | some (.error stop) => exact ⟨hstop.cut, hactive.each, fun ho => by cases ho⟩
  | some (.ok ()) =>
    refine ensures_lndOrLeave hstop.cut (fun reply => ReversePost.mayStop (hactive.create reply))
      fun result created hcreated => ?_
    obtain ⟨invoice, paymentHash⟩ := created
    obtain rfl : result = .ok (invoice, paymentHash) := hcreated
    exact ensures_payment lib (hactive.invoiced invoice paymentHash) observation

theorem ensures_proveReverseReadinessWithRetry (channelPoint : OutPoint) (ends : ChannelEnds) :
    Ensures [] (proveReverseReadinessWithRetry lib channelPoint ends :
      PairTask Hash Invoice Unit) ReversePost :=
  ensures_loop (fun h' _ => ReverseInv h')
    (fun _ observation hinv => ensures_reverseRound lib hinv channelPoint ends observation)
    ⟨each_nil, (fun _ hreply => by cases hreply), rfl⟩

end Attempt

section Reported

/-- The most a probe may cost, in millisatoshis. -/
def READINESS_FEE_LIMIT : UInt64 := 10000

def readinessOptions : PaymentOptions := ⟨READINESS_FEE_LIMIT, 30 * 1000000000⟩

def paymentReadiness (payment : PaymentRecord Hash) : PaymentReadiness Hash :=
  ⟨payment.paymentHash, payment.state⟩

/-- How the connector pays an invoice: `sendPaymentV2` is the node's router. -/
def connectorPay [DecidableEq Hash] {Instant : Type} (lib : HashLib Hash)
    (checkedAdd : Nat → Option Instant) (timeout : Nat)
    (sendPaymentV2 : SendPaymentRequest → Lnd.Reply (List (Lnd.Reply (Option Payment))))
    (invoice : Bolt11Invoice Hash) : Option (Except (LndError Hash) (PaymentReadiness Hash)) :=
  match PaymentOptions.new READINESS_FEE_LIMIT (30 * 1000000000) with
  | .error error => some (.error error)
  | .ok options =>
    (payInvoiceWith lib checkedAdd timeout sendPaymentV2 invoice options).map
      (·.map paymentReadiness)

/-- The stream of a payment that LND reports as failed, with one of these reasons. -/
def FailedFor (lib : HashLib Hash) (invoice : Bolt11Invoice Hash) (reasons : List Int32)
    (stream : List (Lnd.Reply (Option Payment))) : Prop :=
  ∃ u, Matching lib ⟨"pay invoice", invoice.paymentHash, invoice.amountMilliSatoshis⟩ u ∧
    u.status = 3 ∧ u.failureReason ∈ reasons ∧
    DecidedBy lib ⟨"pay invoice", invoice.paymentHash, invoice.amountMilliSatoshis⟩ stream u

theorem isTransientRoutingFailure_eq {error : LndError Hash}
    (h : isTransientRoutingFailure error = true) :
    ∃ hash reason, error = .paymentFailed hash reason := by
  cases error with
  | paymentFailed hash reason => exact ⟨hash, reason, rfl⟩
  | _ => cases h

theorem isTransientRoutingFailure_reason (hash : Hash) (value : Int32) :
    isTransientRoutingFailure (.paymentFailed hash (paymentFailureReason value)) = true ↔
      value = 2 ∨ value = 5 := by
  have hreason : isTransientRoutingFailure (.paymentFailed hash (paymentFailureReason value)) =
      (paymentFailureReason value == "no route" ||
        paymentFailureReason value == "insufficient balance") := rfl
  rw [hreason]
  by_cases hnamed : value ∈ [0, 1, 2, 3, 4, 5, 6]
  · simp only [List.mem_cons, List.not_mem_nil, or_false] at hnamed
    rcases hnamed with rfl | rfl | rfl | rfl | rfl | rfl | rfl <;> decide +kernel
  · have hunknown : paymentFailureReason value =
        bounded ("unknown failure reason " ++ toString value) := by
      simp only [List.mem_cons, List.not_mem_nil, or_false, not_or] at hnamed
      simp only [paymentFailureReason, hnamed, if_false]
    obtain ⟨cs, hcs⟩ : ∃ cs, ("unknown failure reason " ++ toString value).toList = 'u' :: cs := by
      rw [String.toList_append]
      exact ⟨_, rfl⟩
    obtain ⟨rest, hrest⟩ := bounded_head hcs
    have hother {reason : String} (hne : reason.toList.head? ≠ some 'u') :
        (paymentFailureReason value == reason) = false := by
      refine beq_eq_false_iff_ne.mpr fun heq => hne ?_
      rw [← heq, hunknown, hrest]
      rfl
    rw [hother (by decide), hother (by decide)]
    refine iff_of_false (by decide) ?_
    rintro (rfl | rfl)
    · exact hnamed (by decide)
    · exact hnamed (by decide)

theorem mapStatus_ne_paymentFailed (operation : String) (status : Status) (hash : Hash)
    (reason : String) : mapStatus operation status ≠ .paymentFailed hash reason := by
  unfold mapStatus
  split
  next => exact nofun
  next =>
    split <;> exact nofun

variable [DecidableEq Hash] (lib : HashLib Hash)

/-- The payment was sent, and LND answered with this stream. -/
def Dispatched {Instant : Type} (checkedAdd : Nat → Option Instant) (timeout : Nat)
    (sendPaymentV2 : SendPaymentRequest → Lnd.Reply (List (Lnd.Reply (Option Payment))))
    (invoice : Bolt11Invoice Hash) (options : PaymentOptions)
    (stream : List (Lnd.Reply (Option Payment))) : Prop :=
  ∃ request deadline, (protoSendPaymentRequest invoice options : Except (LndError Hash) _) =
      .ok request ∧
    checkedAdd timeout = some deadline ∧ sendPaymentV2 request = .response stream

/-- Only a stream reports a payment as failed. -/
theorem payInvoiceWith_failed {Instant : Type} {checkedAdd : Nat → Option Instant} {timeout : Nat}
    {sendPaymentV2 : SendPaymentRequest → Lnd.Reply (List (Lnd.Reply (Option Payment)))}
    {invoice : Bolt11Invoice Hash} {options : PaymentOptions} {hash : Hash} {reason : String}
    (hpay : payInvoiceWith lib checkedAdd timeout sendPaymentV2 invoice options =
      some (.error (.paymentFailed hash reason))) :
    ∃ stream, Dispatched checkedAdd timeout sendPaymentV2 invoice options stream ∧
      consumePaymentStream lib timeout
        ⟨"pay invoice", invoice.paymentHash, invoice.amountMilliSatoshis⟩ true stream =
          some (.error (.paymentFailed hash reason)) := by
  cases hrequest : (protoSendPaymentRequest invoice options : Except (LndError Hash) _) with
  | error error =>
    simp only [payInvoiceWith, hrequest, bind, Except.bind] at hpay
    obtain ⟨detail, rfl⟩ := failsWith_protoSendPaymentRequest _ _ _ hrequest
    cases hpay
  | ok request =>
    cases hclock : checkedAdd timeout with
    | none =>
      simp only [payInvoiceWith, hrequest, operationDeadline, hclock, bind, Except.bind] at hpay
      cases hpay
    | some deadline =>
      cases hreply : sendPaymentV2 request with
      | response stream =>
        rw [payInvoiceWith_dispatched checkedAdd timeout sendPaymentV2 invoice options hrequest
          hclock hreply] at hpay
        exact ⟨stream, ⟨request, deadline, hrequest, hclock, hreply⟩, hpay⟩
      | elapsed =>
        simp only [payInvoiceWith, hrequest, operationDeadline, hclock, hreply,
          boundedMutatingRequestUntil, bind, Except.bind] at hpay
        cases hpay
      | status status =>
        simp only [payInvoiceWith, hrequest, operationDeadline, hclock, hreply,
          boundedMutatingRequestUntil, bind, Except.bind] at hpay
        split at hpay
        next error herror =>
          split at herror
          next => cases herror; cases hpay
          next =>
            cases herror
            exact (mapStatus_ne_paymentFailed _ _ _ _
              (Except.error.inj (Option.some.inj hpay))).elim
        next herror =>
          split at herror <;> cases herror

/-- The connector's payment failed in routing exactly when LND answered with a stream that
reports it as failed for want of a route or of balance. -/
theorem connectorPay_routing {Instant : Type} (checkedAdd : Nat → Option Instant) (timeout : Nat)
    (sendPaymentV2 : SendPaymentRequest → Lnd.Reply (List (Lnd.Reply (Option Payment))))
    (invoice : Bolt11Invoice Hash) :
    (∃ error, connectorPay lib checkedAdd timeout sendPaymentV2 invoice = some (.error error) ∧
      isTransientRoutingFailure error = true) ↔
    ∃ stream, Dispatched checkedAdd timeout sendPaymentV2 invoice readinessOptions stream ∧
      FailedFor lib invoice [2, 5] stream := by
  have hpays (error : LndError Hash) :
      connectorPay lib checkedAdd timeout sendPaymentV2 invoice = some (.error error) ↔
        payInvoiceWith lib checkedAdd timeout sendPaymentV2 invoice readinessOptions =
          some (.error error) := by
    have hoptions : (PaymentOptions.new READINESS_FEE_LIMIT (30 * 1000000000) :
        Except (LndError Hash) PaymentOptions) = .ok readinessOptions := rfl
    simp only [connectorPay, hoptions]
    cases payInvoiceWith lib checkedAdd timeout sendPaymentV2 invoice readinessOptions with
    | none => exact iff_of_false (fun h => by cases h) fun h => by cases h
    | some result =>
      cases result with
      | ok payment => exact iff_of_false (fun h => by cases h) fun h => by cases h
      | error error' => simp [Except.map]
  constructor
  · rintro ⟨error, hpay, hrouting⟩
    obtain ⟨hash, reason, rfl⟩ := isTransientRoutingFailure_eq hrouting
    obtain ⟨stream, hsent, hconsume⟩ := payInvoiceWith_failed lib ((hpays _).mp hpay)
    obtain ⟨u, hreads, hdecided⟩ := consume_paymentFailed_iff.mp hconsume
    refine ⟨stream, hsent, u, ?_⟩
    cases hreads with
    | failed hmatching hstatus =>
      have hreason := (isTransientRoutingFailure_reason _ _).mp hrouting
      exact ⟨hmatching, hstatus, by simpa using hreason, hdecided⟩
  · rintro ⟨stream, ⟨request, deadline, hrequest, hclock, hreply⟩, u, hmatching, hstatus,
      hreason, hdecided⟩
    refine ⟨_, (hpays _).mpr ?_, (isTransientRoutingFailure_reason invoice.paymentHash _).mpr
      (by simpa using hreason)⟩
    rw [payInvoiceWith_dispatched checkedAdd timeout sendPaymentV2 invoice readinessOptions
      hrequest hclock hreply]
    exact consume_paymentFailed_iff.mpr ⟨u, .failed hmatching hstatus, hdecided⟩

end Reported

/-- A payment that LND has not reported as failed in routing may have gone through. -/
def mayHaveSucceeded : Answered Hash (PaymentReadiness Hash) → Bool
  | some (some (.error error)) => !isTransientRoutingFailure error
  | _ => true

theorem mayHaveSucceeded_iff {reply : Answered Hash (PaymentReadiness Hash)} :
    mayHaveSucceeded reply = true ↔ ¬ RoutingFailed reply := by
  match reply with
  | none | some none | some (some (.ok _)) =>
    refine iff_of_true rfl ?_
    rintro ⟨error, herror, -⟩
    cases herror
  | some (some (.error error)) =>
    rw [mayHaveSucceeded, Bool.not_eq_true', ← Bool.not_eq_true, not_iff_not]
    refine ⟨fun hrouting => ⟨error, rfl, hrouting⟩, ?_⟩
    rintro ⟨error', herror, hrouting⟩
    cases herror
    exact hrouting

/-- Only behind payments that failed in routing is an invoice created or paid. -/
theorem Probed.harmless_or {q : Await (PairCall Hash Invoice)} (hq : Probed h q) :
    Harmless q ∨ Retriable h := by
  cases q with
  | poll f => exact .inl trivial
  | park => exact .inl trivial
  | call q =>
    cases q with
    | createReadinessInvoice node => exact .inr hq.2.1
    | payReadinessInvoice node invoice => exact .inr hq.2.1
    | _ => exact .inl trivial

/-- After a payment that may have succeeded nothing more is created or paid. -/
theorem quiet_after (hall : Each Probed h) {before after : PairTrace Hash Invoice}
    {node : Node} {invoice : Invoice} {reply : Answered Hash (PaymentReadiness Hash)}
    (hsplit : h = before ++ ⟨.call (.payReadinessInvoice node invoice), reply⟩ :: after)
    (hreply : ¬ RoutingFailed reply) : Quiet after := by
  intro e he
  obtain ⟨between, rest, rfl⟩ := List.append_of_mem he
  have hprobed := hall (before ++ ⟨.call (.payReadinessInvoice node invoice), reply⟩ :: between)
    e rest (by rw [hsplit]; simp)
  refine hprobed.harmless_or.resolve_right fun hretriable => hreply (hretriable reply ?_)
  rw [payments_append]
  exact List.mem_append_right _ List.mem_cons_self

theorem one_success (hall : Each Probed h) :
    ((payments h).filter mayHaveSucceeded).length ≤ 1 := by
  rw [payments, List.filter_filterMap]
  refine Each.length_filterMap_le (fun before e hprobed hpaid => ?_) hall
  rw [← List.filter_filterMap]
  have hretriable : Retriable before := by
    refine hprobed.harmless_or.resolve_left fun hharmless => ?_
    rw [(harmless_none hharmless).2] at hpaid
    cases hpaid
  have hnone : (payments before).filter mayHaveSucceeded = [] :=
    List.filter_eq_nil_iff.mpr fun reply hreply hmay =>
      mayHaveSucceeded_iff.mp hmay (hretriable reply hreply)
  exact Nat.lt_one_iff.mpr (List.length_eq_zero_iff.mpr hnone)

/-- Over every run: an invoice is created or paid only while every payment so far was answered
as failed in routing, each with an invoice of its own; after any other answer there is no more
of either; at most one payment may have succeeded; success is that of the last attempt. The
answers that count as failed in routing are those of a stream that LND ends for want of a route
or of balance. -/
theorem prove_reverse_readiness_with_retry [DecidableEq Hash] (lib : PairLib Hash)
    (channelPoint : OutPoint) (ends : ChannelEnds) (h : PairTrace Hash Invoice)
    (o : Option (Except (Stop Hash) Unit))
    (hrun : Runs (proveReverseReadinessWithRetry lib channelPoint ends) h o) :
    Each Probed h ∧
    (∀ before node invoice reply after,
      h = before ++ ⟨.call (.payReadinessInvoice node invoice), reply⟩ :: after →
      ¬ RoutingFailed reply → invoices after = [] ∧ payments after = []) ∧
    ((payments h).filter mayHaveSucceeded).length ≤ 1 ∧
    (o = some (.ok ()) → ReverseProved h) ∧
    (∀ (hash : Hash) (value : Int32),
      isTransientRoutingFailure (.paymentFailed hash (paymentFailureReason value)) = true ↔
        value = 2 ∨ value = 5) ∧
    (∀ {Instant : Type} (hashLib : HashLib Hash) (checkedAdd : Nat → Option Instant)
      (timeout : Nat)
      (sendPaymentV2 : SendPaymentRequest → Lnd.Reply (List (Lnd.Reply (Option Payment))))
      (invoice : Bolt11Invoice Hash),
      (∃ error, connectorPay hashLib checkedAdd timeout sendPaymentV2 invoice =
          some (.error error) ∧ isTransientRoutingFailure error = true) ↔
        ∃ stream, Dispatched checkedAdd timeout sendPaymentV2 invoice readinessOptions stream ∧
          FailedFor hashLib invoice [2, 5] stream) := by
  have hpost := ensures_proveReverseReadinessWithRetry lib channelPoint ends h o hrun
  rw [List.nil_append] at hpost
  refine ⟨hpost.each, fun before node invoice reply after hsplit hreply => ?_,
    one_success hpost.each, hpost.proved, isTransientRoutingFailure_reason,
    fun hashLib => connectorPay_routing hashLib⟩
  have hquiet := quiet_after hpost.each hsplit hreply
  exact ⟨hquiet.invoices, hquiet.payments⟩

section Golden

def goldenLib : PairLib Unit := ⟨some, fun () => ""⟩
def goldenEnds : ChannelEnds := ⟨[2], [3], "bob"⟩
theorem goldenTxid_size : (List.replicate 32 (7 : UInt8)).length = 32 := List.length_replicate

def goldenPoint : OutPoint := ⟨⟨List.replicate 32 7, goldenTxid_size⟩, 0⟩
def goldenInfo : LndSyncStatus := ⟨[], 7, true, true, true⟩
def goldenChannel : ChannelReadiness := ⟨true, 2000⟩

/-- All five probes are answered at once. -/
def probesRun : PairTrace Unit Unit :=
  [⟨.poll ⟨.channelReadiness .alice goldenPoint [3], 0⟩,
      some (some (some (.ok (some goldenChannel))))⟩,
    ⟨.poll ⟨.channelReadiness .bob goldenPoint [2], 0⟩,
      some (some (some (.ok (some goldenChannel))))⟩,
    ⟨.poll ⟨.getInfo .alice, 0⟩, some (some (some (.ok goldenInfo)))⟩,
    ⟨.poll ⟨.getInfo .bob, 0⟩, some (some (some (.ok goldenInfo)))⟩,
    ⟨.poll ⟨.blockHeight, 0⟩, some (some (some (.ok 7)))⟩]

def goldenOuts : (probe : ChannelProbe) → probe.Out
  | .aliceChannel | .bobChannel => some goldenChannel
  | .aliceInfo | .bobInfo => some goldenInfo
  | .bitcoinHeight => (7 : UInt64)

def activeRun : PairTrace Unit Unit :=
  [⟨.call (.peerConnected .alice [3]), some (some (.ok true))⟩] ++ ((probesRun ++ []) ++ [])

theorem runs_probes (observation : Observation Unit) :
    Runs (tryJoin (channelProbes goldenPoint goldenEnds observation 0) :
      Task (@PairCall.Reply Unit Unit) _) (probesRun ++ []) (some (.ok goldenOuts)) := by
  obtain ⟨got, hpass, hgot⟩ : ∃ got, Runs (joinPass
      (channelProbes goldenPoint goldenEnds observation 0)
      [.aliceChannel, .bobChannel, .aliceInfo, .bobInfo, .bitcoinHeight] fun _ => none) probesRun
      (some (.ok got)) ∧ ∀ p, got p = some (goldenOuts p) := by
    refine ⟨_, runs_ask (runs_ask (runs_ask (runs_ask (runs_ask (runs_done _))))), fun p => ?_⟩
    cases p <;> rfl
  obtain rfl : got = fun p => some (goldenOuts p) := funext hgot
  refine runs_leave (hpass.bind ?_)
  exact runs_done _

theorem runs_connected : Runs (ensurePeerConnected goldenLib goldenEnds : PairTask Unit Unit Unit)
    [⟨.call (.peerConnected .alice [3]), some (some (.ok true))⟩] (some (.ok ())) := by
  obtain ⟨peer, hpeer⟩ : ∃ peer, PeerAddress.new goldenLib goldenEnds.bobPublicKey
      goldenEnds.bobHost LND_PEER_PORT = .ok peer := ⟨⟨[3], "bob", 9735⟩, by decide +kernel⟩
  rw [ensurePeerConnected, hpeer]
  refine runs_leave (runs_ask ?_)
  exact runs_done _

theorem runs_active : Runs (waitForActiveChannel goldenPoint goldenEnds goldenLib)
    activeRun (some (.ok ())) := by
  refine runs_leave (runs_connected.bind ((runs_probes _).bind ?_))
  exact runs_done _

/-- An attempt that finds no route, and one whose payment goes through and settles. -/
def retriedRun : PairTrace Unit Unit :=
  (activeRun ++ [⟨.call (.createReadinessInvoice .alice), some (some (.ok ((), ())))⟩,
    ⟨.call (.payReadinessInvoice .bob ()), some (some (.error (.paymentFailed () "no route")))⟩,
    ⟨.call .retryDelay, some (some ())⟩]) ++
  (activeRun ++ [⟨.call (.createReadinessInvoice .alice), some (some (.ok ((), ())))⟩,
    ⟨.call (.payReadinessInvoice .bob ()), some (some (.ok ⟨(), .succeeded⟩))⟩,
    ⟨.call (.invoiceState .alice ()), some (some (.ok .settled))⟩])

theorem runs_retried : Runs (proveReverseReadinessWithRetry goldenLib goldenPoint goldenEnds)
    retriedRun (some (.ok ())) := by
  have hfailed (observation : Observation Unit) : ∃ next,
      Runs (reverseRound goldenLib goldenPoint goldenEnds observation :
        PairRound Unit Unit (Observation Unit) Unit) (activeRun ++
          [⟨.call (.createReadinessInvoice .alice), some (some (.ok ((), ())))⟩,
          ⟨.call (.payReadinessInvoice .bob ()),
            some (some (.error (.paymentFailed () "no route")))⟩,
          ⟨.call .retryDelay, some (some ())⟩]) (some (.inl next)) :=
    ⟨_, runs_active.bind (runs_ask (runs_ask (runs_ask (runs_done _))))⟩
  have hpaid (observation : Observation Unit) :
      Runs (reverseRound goldenLib goldenPoint goldenEnds observation :
        PairRound Unit Unit (Observation Unit) Unit) (activeRun ++
          [⟨.call (.createReadinessInvoice .alice), some (some (.ok ((), ())))⟩,
          ⟨.call (.payReadinessInvoice .bob ()), some (some (.ok ⟨(), .succeeded⟩))⟩,
          ⟨.call (.invoiceState .alice ()), some (some (.ok .settled))⟩])
        (some (.inr (.ok ()))) := by
    have hsettled : Runs (waitForSettledInvoice goldenLib .alice () : PairTask Unit Unit Unit)
        [⟨.call (.invoiceState .alice ()), some (some (.ok .settled))⟩] (some (.ok ())) := by
      refine runs_leave (runs_ask ?_)
      exact runs_done _
    refine runs_active.bind (runs_ask (runs_ask ?_))
    rw [← List.append_nil [_]]
    exact hsettled.bind (runs_done _)
  obtain ⟨next, hagain⟩ := hfailed
    (.operation "waiting for Bob-to-Alice routing policy propagation")
  exact runs_again hagain (runs_leave (hpaid next))

theorem prove_reverse_readiness_with_retry_retried :
    ((payments retriedRun).filter mayHaveSucceeded).length ≤ 1 ∧ ReverseProved retriedRun := by
  obtain ⟨-, -, hpayments, hproved, -⟩ := prove_reverse_readiness_with_retry goldenLib goldenPoint
    goldenEnds retriedRun _ runs_retried
  exact ⟨hpayments, hproved rfl⟩

end Golden

end Nigiri.Fixtures
