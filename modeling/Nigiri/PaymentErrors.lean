import Nigiri.LndConfig
import Nigiri.PaymentStream

/-! Which payment the errors of a payment stream name: the requested one, but for an update
that claims another hash and is rejected before that hash is compared. -/
namespace Nigiri.Lnd
open Nigiri.WireFormat
variable {Hash : Type} {lib : HashLib Hash} {q : Requested Hash}

/-- An error that says something of a payment says it of the requested one. -/
def NamesRequested (lib : HashLib Hash) (q : Requested Hash) : LndError Hash → Prop
  | .invalidResponse _ _ identifier | .outcomeUnknown _ identifier =>
    identifier = some (lib.display q.hash)
  | .paymentFailed paymentHash _ => paymentHash = q.hash
  | _ => True

/-- What the conversion rejects in an update of a well-formed hash. -/
def ConversionFault (lib : HashLib Hash) (claimed : Hash) (u : Payment) : Prop :=
  u.valueMsat < 0 ∨ u.feeMsat < 0 ∨
    (u.paymentPreimage ≠ [] ∧ parsePreimage u.paymentPreimage = none) ∨
    (u.status = 2 ∧ ∀ p, parsePreimage u.paymentPreimage = some p → lib.digest p ≠ claimed)

/-- An update that claims another payment's hash and has a fault besides. -/
def Misnamed (lib : HashLib Hash) (q : Requested Hash) (u : Payment) : Prop :=
  ∃ claimed, lib.fromStr u.paymentHash = some claimed ∧
    lib.display claimed ≠ lib.display q.hash ∧ ConversionFault lib claimed u

/-- The stream comes to such an update before anything else stops it. -/
def ReachesMisnamed (lib : HashLib Hash) (q : Requested Hash)
    (events : List (Reply (Option Payment))) : Prop :=
  ∃ before u rest, events = before ++ .response (some u) :: rest ∧ Waiting lib q before ∧
    Misnamed lib q u

variable [DecidableEq Hash]

theorem payment_error_iff {claimed : Hash} {u : Payment}
    (hclaimed : lib.fromStr u.paymentHash = some claimed) :
    (∃ e, payment lib u = .error e) ↔ ConversionFault lib claimed u := by
  constructor
  · rintro ⟨e, he⟩
    by_contra hfault
    obtain ⟨hvalue, hrest⟩ := not_or.mp hfault
    obtain ⟨hfee, hrest⟩ := not_or.mp hrest
    obtain ⟨hpreimage, hproof⟩ := not_or.mp hrest
    obtain ⟨preimage, hread⟩ : ∃ preimage, PreimageIs u.paymentPreimage preimage := by
      cases hparse : parsePreimage u.paymentPreimage with
      | some p => exact ⟨some p, hparse⟩
      | none => exact ⟨none, by_contra fun hne => hpreimage ⟨hne, hparse⟩⟩
    have hok : payment lib u = .ok ⟨claimed, preimage, u.valueMsat.toUInt64,
        u.feeMsat.toUInt64, paymentState u.status⟩ := by
      refine payment_ok_iff.mpr ⟨hclaimed, ⟨Int64.not_lt.mp hvalue, rfl⟩,
        ⟨Int64.not_lt.mp hfee, rfl⟩, rfl, hread, fun hstate => ?_⟩
      have hstatus : u.status = 2 := paymentState_succeeded.mp hstate
      by_contra hnone
      refine hproof ⟨hstatus, fun p hp hdigest => hnone ⟨p, ?_, hdigest⟩⟩
      cases preimage with
      | none =>
        have hempty : u.paymentPreimage = [] := hread
        rw [hempty, parsePreimage_nil] at hp
        cases hp
      | some p' => exact hread.symm.trans hp
    rw [hok] at he
    cases he
  · intro hfault
    cases hpayment : payment lib u with
    | error e => exact ⟨e, rfl⟩
    | ok r =>
      obtain ⟨hhash, ⟨hvalue, -⟩, ⟨hfee, -⟩, hstate, hread, hproof⟩ := payment_ok_iff.mp hpayment
      obtain rfl := Option.some.inj (hclaimed.symm.trans hhash)
      rcases hfault with h | h | ⟨hne, hparse⟩ | ⟨hstatus, hnone⟩
      · exact absurd h (Int64.not_lt.mpr hvalue)
      · exact absurd h (Int64.not_lt.mpr hfee)
      · cases hp : r.preimage with
        | none => exact absurd (by simpa [hp, PreimageIs] using hread) hne
        | some p =>
          rw [hp, PreimageIs, hparse] at hread
          cases hread
      · obtain ⟨p, hp, hdigest⟩ := hproof (hstate.trans (paymentState_succeeded.mpr hstatus))
        rw [hp] at hread
        exact absurd hdigest (hnone p hread)

/-- A rejected update is reported under the requested hash, or it is a misnamed one. -/
theorem receiveUpdate_error_names {s : StreamState Hash} {u : Payment} {e : LndError Hash}
    (h : receiveUpdate lib q s u = .error e) : NamesRequested lib q e ∨ Misnamed lib q u := by
  cases hpayment : payment lib u with
  | error failure =>
    simp only [receiveUpdate, hpayment] at h
    obtain rfl := Except.error.inj h
    obtain ⟨detail, rfl⟩ := payment_error hpayment
    cases hclaimed : lib.fromStr u.paymentHash with
    | none => exact .inl rfl
    | some claimed =>
      by_cases hsame : lib.display claimed = lib.display q.hash
      · exact .inl (congrArg some hsame)
      · exact .inr ⟨claimed, hclaimed, hsame, (payment_error_iff hclaimed).mp ⟨_, hpayment⟩⟩
  | ok record =>
    refine .inl ?_
    simp only [receiveUpdate, hpayment] at h
    split at h
    · obtain rfl := Except.error.inj h
      rfl
    · split at h
      · obtain rfl := Except.error.inj h
        rfl
      · unfold recordTerminal at h
        split at h
        · cases h
        · split at h
          · cases h
          · obtain rfl := Except.error.inj h
            rfl
        · obtain rfl := Except.error.inj h
          rfl
        · cases h

theorem receiveUpdate_misnamed (s : StreamState Hash) {u : Payment} (h : Misnamed lib q u) :
    ∃ detail identifier, identifier ≠ lib.display q.hash ∧ receiveUpdate lib q s u
      = .error (.invalidResponse "payment" detail (some identifier)) := by
  obtain ⟨claimed, hclaimed, hne, hfault⟩ := h
  obtain ⟨e, he⟩ := (payment_error_iff hclaimed).mpr hfault
  obtain ⟨detail, rfl⟩ := payment_error he
  refine ⟨detail, lib.display claimed, hne, ?_⟩
  simp only [receiveUpdate, he, hclaimed]
  rfl

section Run
variable {d : Nat} {b : Bool} {events : List (Reply (Option Payment))}

/-- A stream that nothing has stopped leaves the loop in some state, whatever follows. -/
theorem consumeFrom_waiting {before : List (Reply (Option Payment))} (h : Waiting lib q before)
    (rest : List (Reply (Option Payment))) : ∃ s : StreamState Hash,
      consumePaymentStream lib d q b (before ++ rest) = consumeFrom lib d q b s rest := by
  cases h with
  | nonterminal hbefore =>
    obtain ⟨s, -, hrun⟩ := consumeFrom_progress hbefore StreamState.open_start rest
    exact ⟨s, hrun⟩
  | @terminal before after u t hbefore hu hafter =>
    obtain ⟨s, hs, hrun⟩ := consumeFrom_progress hbefore StreamState.open_start
      (.response (some u) :: (after ++ rest))
    refine ⟨⟨some q.hash, some (u.encodeToVec, t)⟩, ?_⟩
    rw [List.append_assoc, List.cons_append, consumePaymentStream, hrun,
      consumeFrom_terminal hs hu, consumeFrom_repeats hu hafter]

omit [DecidableEq Hash] in
theorem namesRequested_interrupted {s : StreamState Hash} (hs : s.Open q) {e : LndError Hash}
    (he : NamesRequested lib q e) {failure : LndError Hash}
    (h : interrupted lib q b s e = .error failure) : NamesRequested lib q failure := by
  obtain ⟨hterminal, hobserved⟩ := hs
  simp only [interrupted, hterminal] at h
  rcases hobserved with hnone | hsome
  · cases b with
    | false =>
      simp only [hnone, Option.or, Bool.false_eq_true, if_false] at h
      exact Except.error.inj h ▸ he
    | true =>
      simp only [hnone, Option.or, if_true] at h
      exact Except.error.inj h ▸ rfl
  · simp only [hsome, Option.or] at h
    exact Except.error.inj h ▸ rfl

omit [DecidableEq Hash] in
theorem namesRequested_mapStatus (operation : String) (status : Status) :
    NamesRequested lib q (mapStatus operation status) := by
  unfold mapStatus
  split
  · trivial
  · split <;> trivial

/-- Every error of a stream is about the requested payment, unless the stream comes to a
misnamed update. -/
theorem consume_error_names {e : LndError Hash}
    (h : consumePaymentStream lib d q b events = some (.error e)) :
    NamesRequested lib q e ∨ ReachesMisnamed lib q events := by
  rcases stream_cases lib q events with ⟨u, t, hu, hd⟩ | hi | hf | hw
  · rw [consume_decided hu hd] at h
    cases hu with
    | succeeded => cases h
    | failed => exact .inl (Except.error.inj (Option.some.inj h) ▸ rfl)
  · obtain ⟨before, stop, rest, rfl, hbefore, hstop⟩ := hi
    obtain ⟨s, hs, hrun⟩ := consumeFrom_progress hbefore StreamState.open_start _
    rw [consumePaymentStream, hrun] at h
    cases stop with
    | response u => cases hstop
    | status status =>
      exact .inl (namesRequested_interrupted hs (namesRequested_mapStatus _ status)
        (Option.some.inj h))
    | elapsed =>
      have htimeout : NamesRequested lib q (.timeout q.operation d) := trivial
      exact .inl (namesRequested_interrupted hs htimeout (Option.some.inj h))
  · cases hf with
    | @ended before rest hbefore =>
      obtain ⟨s, hs, hrun⟩ := consumeFrom_progress hbefore StreamState.open_start _
      rw [consumePaymentStream, hrun] at h
      simp only [consumeFrom, boundedRequestUntil, ended, hs.1] at h
      exact .inl (Except.error.inj (Option.some.inj h) ▸ rfl)
    | @malformed before rest u hbefore hu =>
      obtain ⟨s, hs, hrun⟩ := consumeFrom_progress hbefore StreamState.open_start _
      obtain ⟨operation, detail, identifier, hstep⟩ := receiveUpdate_of_not_reads (s := s) hu
      rw [consumePaymentStream, hrun, consumeFrom_rejected hstep] at h
      obtain rfl := Except.error.inj (Option.some.inj h)
      exact (receiveUpdate_error_names hstep).imp_right fun hbad =>
        ⟨before, u, rest, rfl, .nonterminal hbefore, hbad⟩
    | @contradicted before after rest u v t hbefore hu hafter hv =>
      obtain ⟨s, hs, hrun⟩ := consumeFrom_progress hbefore StreamState.open_start _
      obtain ⟨operation, detail, identifier, hstep⟩ := receiveUpdate_differs lib q t hv
      rw [consumePaymentStream, hrun, consumeFrom_terminal hs hu, consumeFrom_repeats hu hafter,
        consumeFrom_rejected hstep] at h
      obtain rfl := Except.error.inj (Option.some.inj h)
      exact (receiveUpdate_error_names hstep).imp_right fun hbad =>
        ⟨before ++ .response (some u) :: after, v, rest,
          by rw [List.append_assoc, List.cons_append], .terminal hbefore hu hafter, hbad⟩
  · rw [consume_waiting hw] at h
    cases h

/-- The errors of a payment stream name the requested payment, whatever the updates claim,
exactly as long as the stream does not come to a misnamed update. -/
theorem payment_errors_name_requested_iff (lib : HashLib Hash) (configuredDuration : Nat)
    (q : Requested Hash) (uncertainFromStart : Bool)
    (events : List (Reply (Option Payment))) :
    (∀ e, consumePaymentStream lib configuredDuration q uncertainFromStart events
      = some (.error e) → NamesRequested lib q e) ↔ ¬ ReachesMisnamed lib q events := by
  constructor
  · rintro hall ⟨before, u, rest, rfl, hwaiting, hbad⟩
    obtain ⟨s, hrun⟩ := consumeFrom_waiting (d := configuredDuration) (b := uncertainFromStart)
      hwaiting (.response (some u) :: rest)
    obtain ⟨detail, identifier, hne, hstep⟩ := receiveUpdate_misnamed s hbad
    rw [consumeFrom_rejected hstep] at hrun
    exact hne (Option.some.inj (hall _ hrun))
  · intro hreaches e he
    exact (consume_error_names he).resolve_right hreaches

end Run

/-- Hashes as their bytes, read and shown in hexadecimal; no preimage is ever digested here. -/
def hexHashes : HashLib Bytes where
  fromStr := parsePreimage
  digest := id
  display hash := String.ofList ((lowercaseHex hash).map fun b => Char.ofNat b.toNat)

/-- An update in flight that claims a hash of its own and a negative amount. -/
def negativeUpdate : Payment :=
  ⟨List.replicate 64 50, 0, 0, 0, [], 0, -1, [], 1, 0, 0, 0, [], 1, 0, []⟩

theorem payment_error_names_claimed : ¬ ∀ (lib : HashLib Bytes) (configuredDuration : Nat)
    (q : Requested Bytes) (uncertainFromStart : Bool) (events : List (Reply (Option Payment)))
    (e : LndError Bytes), consumePaymentStream lib configuredDuration q uncertainFromStart events
      = some (.error e) → NamesRequested lib q e := by
  intro h
  have hnames := h hexHashes 30 ⟨"pay invoice", List.replicate 32 17, some 1000⟩ true
    [.response (some negativeUpdate)]
    (.invalidResponse "payment" "amount is negative"
      (some (hexHashes.display (List.replicate 32 34)))) rfl
  have hne :
      hexHashes.display (List.replicate 32 34) ≠ hexHashes.display (List.replicate 32 17) := by
    decide
  exact hne (Option.some.inj hnames)

end Nigiri.Lnd
