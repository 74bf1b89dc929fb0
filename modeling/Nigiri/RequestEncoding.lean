import Nigiri.CheckedInt
import Nigiri.Checks
import Nigiri.Payment

/-! Amounts and durations on their way into a request: each arrives exactly, or the request is
refused as invalid. -/
namespace Nigiri.Lnd
open Nigiri.CheckedInt Nigiri.Checks
variable {Hash : Type}

/-- The only errors are those of a request that was never sent. -/
def IsInvalidRequest (error : LndError Hash) : Prop := ∃ detail, error = .invalidRequest detail

theorem isInvalidRequest (detail : String) :
    IsInvalidRequest (invalidRequest detail : LndError Hash) := ⟨detail, rfl⟩

section Fields
variable {field : String}

theorem signedI64_ok_iff {value : UInt64} {signed : Int64} :
    (signedI64 value field : Except (LndError Hash) Int64) = .ok signed ↔
      signed.toInt = value.toNat := by
  rw [← toSigned_eq_some_iff, signedI64, toSigned]
  by_cases hfits : value.toNat < 2 ^ 63
  · rw [if_pos hfits, if_pos hfits, Except.ok.injEq, Option.some_inj]
  · rw [if_neg hfits, if_neg hfits]
    exact iff_of_false (by simp) (Option.some_ne_none _).symm

theorem failsWith_signedI64 (value : UInt64) :
    FailsWith IsInvalidRequest (signedI64 value field : Except (LndError Hash) Int64) :=
  failsWith_require (isInvalidRequest _) (failsWith_ok _)

theorem nonzeroWholeSeconds_ok {duration seconds : Nat}
    (h : (nonzeroWholeSeconds duration field : Except (LndError Hash) Nat) = .ok seconds) :
    seconds * 1000000000 = duration := by
  simp only [nonzeroWholeSeconds, guard_ok_iff, Except.ok.injEq] at h
  obtain ⟨hwhole, _, rfl⟩ := h
  omega

theorem failsWith_nonzeroWholeSeconds (duration : Nat) :
    FailsWith IsInvalidRequest
      (nonzeroWholeSeconds duration field : Except (LndError Hash) Nat) :=
  failsWith_guard (isInvalidRequest _) (failsWith_guard (isInvalidRequest _) (failsWith_ok _))

theorem failsWith_operationDeadline {Instant : Type} (checkedAdd : Nat → Option Instant)
    (duration : Nat) :
    FailsWith IsInvalidRequest
      (operationDeadline checkedAdd duration : Except (LndError Hash) Instant) := by
  rw [operationDeadline]
  split
  · exact failsWith_ok _
  · exact failsWith_error (isInvalidRequest _)

end Fields

section Payments
variable {invoice : Bolt11Invoice Hash} {options : PaymentOptions}

theorem protoSendPaymentRequest_eq (invoice : Bolt11Invoice Hash) (options : PaymentOptions) :
    (protoSendPaymentRequest invoice options : Except (LndError Hash) SendPaymentRequest) =
      if invoice.amountMilliSatoshis.isNone then
        .error (invalidRequest
          "BOLT11 invoice must include an amount because no amount override is available")
      else signedI64 options.feeLimit "payment fee limit" >>= fun feeLimitMsat =>
        nonzeroWholeSeconds options.timeout "payment timeout" >>= fun seconds =>
        if seconds < 2 ^ 31 then .ok ⟨invoice.text, feeLimitMsat, Int32.ofNat seconds, false⟩
        else .error (invalidRequest "payment timeout exceeds LND's integer range") := by
  rw [protoSendPaymentRequest]
  split <;> rfl

theorem protoSendPaymentRequest_ok {request : SendPaymentRequest}
    (h : protoSendPaymentRequest invoice options = .ok request) :
    request.paymentRequest = invoice.text ∧
      request.feeLimitMsat.toInt = options.feeLimit.toNat ∧
      request.timeoutSeconds.toInt * 1000000000 = options.timeout := by
  simp only [protoSendPaymentRequest_eq, guard_ok_iff, bind_ok_iff, require_ok_iff,
    signedI64_ok_iff, Except.ok.injEq] at h
  obtain ⟨_, fee, hfee, seconds, hseconds, hsmall, rfl⟩ := h
  refine ⟨rfl, hfee, ?_⟩
  have hexact := nonzeroWholeSeconds_ok hseconds
  rw [Int32.toInt_ofNat_of_lt hsmall]
  omega

theorem failsWith_protoSendPaymentRequest (invoice : Bolt11Invoice Hash)
    (options : PaymentOptions) :
    FailsWith IsInvalidRequest (protoSendPaymentRequest invoice options) := by
  rw [protoSendPaymentRequest_eq]
  exact failsWith_guard (isInvalidRequest _) (failsWith_bind (failsWith_signedI64 _) fun _ =>
    failsWith_bind (failsWith_nonzeroWholeSeconds _) fun _ =>
    failsWith_require (isInvalidRequest _) (failsWith_ok _))

end Payments

end Nigiri.Lnd
