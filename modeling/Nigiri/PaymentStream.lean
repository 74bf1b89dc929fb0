import Nigiri.Payment

/-! What consuming a payment stream returns, read off the events alone: the updates that
move the payment along, the first terminal one, its repetitions, and what ends the
stream. -/
namespace Nigiri.Lnd
open Nigiri.WireFormat
variable {Hash : Type} {lib : HashLib Hash} {q : Requested Hash}

/-- A well-formed update of the requested payment, whatever its state. -/
structure Matching (lib : HashLib Hash) (q : Requested Hash) (u : Payment) : Prop where
  hash : lib.fromStr u.paymentHash = some q.hash
  value : 0 ≤ u.valueMsat
  fee : 0 ≤ u.feeMsat
  amount : ∀ a ∈ q.amount, u.valueMsat.toUInt64 = a
  preimage : u.paymentPreimage = [] ∨ ∃ p, parsePreimage u.paymentPreimage = some p

/-- An acceptable update and the terminal payment it stands for, if any. -/
inductive Reads (lib : HashLib Hash) (q : Requested Hash) (u : Payment) :
    Option (TerminalPayment Hash) → Prop where
  | progress (h : Matching lib q u) (hsucceeded : u.status ≠ 2) (hfailed : u.status ≠ 3) :
    Reads lib q u none
  | succeeded (h : Matching lib q u) (hstatus : u.status = 2) (preimage : Bytes)
    (hpreimage : parsePreimage u.paymentPreimage = some preimage)
    (hproof : lib.digest preimage = q.hash) :
    Reads lib q u (some (.succeeded
      ⟨q.hash, some preimage, u.valueMsat.toUInt64, u.feeMsat.toUInt64, .succeeded⟩))
  | failed (h : Matching lib q u) (hstatus : u.status = 3) :
    Reads lib q u (some (.failed q.hash (paymentFailureReason u.failureReason)))

def ProgressEvent (lib : HashLib Hash) (q : Requested Hash)
    (event : Reply (Option Payment)) : Prop :=
  ∃ u, event = .response (some u) ∧ Reads lib q u none

def RepeatOf (u : Payment) (event : Reply (Option Payment)) : Prop :=
  ∃ v, event = .response (some v) ∧ v.encodeToVec = u.encodeToVec

/-- An error or the deadline. -/
def Interrupts : Reply (Option Payment) → Prop
  | .response _ => False
  | .status _ | .elapsed => True

/-- End of stream, an error or the deadline. -/
def Stops : Reply (Option Payment) → Prop
  | .response (some _) => False
  | .response none | .status _ | .elapsed => True

/-- `u` is the first terminal update, only its repetitions follow, and the stream stops. -/
def DecidedBy (lib : HashLib Hash) (q : Requested Hash)
    (events : List (Reply (Option Payment))) (u : Payment) : Prop :=
  ∃ before after stop rest,
    events = before ++ .response (some u) :: (after ++ stop :: rest) ∧
    (∀ e ∈ before, ProgressEvent lib q e) ∧ (∀ e ∈ after, RepeatOf u e) ∧ Stops stop

/-- An error or the deadline comes before any terminal update. -/
def Interrupted (lib : HashLib Hash) (q : Requested Hash)
    (events : List (Reply (Option Payment))) : Prop :=
  ∃ before stop rest, events = before ++ stop :: rest ∧
    (∀ e ∈ before, ProgressEvent lib q e) ∧ Interrupts stop

/-- The stream ends before a terminal update, or shows an update that is malformed or of
another payment, or anything but a repetition after the terminal one. -/
inductive Faulted (lib : HashLib Hash) (q : Requested Hash) :
    List (Reply (Option Payment)) → Prop where
  | ended {before rest} (hbefore : ∀ e ∈ before, ProgressEvent lib q e) :
    Faulted lib q (before ++ .response none :: rest)
  | malformed {before rest u} (hbefore : ∀ e ∈ before, ProgressEvent lib q e)
    (hu : ∀ t, ¬ Reads lib q u t) : Faulted lib q (before ++ .response (some u) :: rest)
  | contradicted {before after rest u v t} (hbefore : ∀ e ∈ before, ProgressEvent lib q e)
    (hu : Reads lib q u (some t)) (hafter : ∀ e ∈ after, RepeatOf u e)
    (hv : v.encodeToVec ≠ u.encodeToVec) :
    Faulted lib q (before ++ .response (some u) :: (after ++ .response (some v) :: rest))

/-- Nothing has stopped the stream yet. -/
inductive Waiting (lib : HashLib Hash) (q : Requested Hash) :
    List (Reply (Option Payment)) → Prop where
  | nonterminal {before} (hbefore : ∀ e ∈ before, ProgressEvent lib q e) :
    Waiting lib q before
  | terminal {before after u t} (hbefore : ∀ e ∈ before, ProgressEvent lib q e)
    (hu : Reads lib q u (some t)) (hafter : ∀ e ∈ after, RepeatOf u e) :
    Waiting lib q (before ++ .response (some u) :: after)

theorem Matching.exists_preimage {u : Payment} (h : Matching lib q u) :
    ∃ p, PreimageIs u.paymentPreimage p := by
  rcases h.preimage with hp | ⟨p, hp⟩
  · exact ⟨none, hp⟩
  · exact ⟨some p, hp⟩

theorem nextTerminal_eq_none {record : PaymentRecord Hash} {reason : Int32}
    (hsucceeded : record.state ≠ .succeeded) (hfailed : record.state ≠ .failed) :
    nextTerminal record reason = none := by
  unfold nextTerminal
  split <;> simp_all

/-- A list runs through a property or has a first member without it. -/
theorem exists_first_not {α : Type*} (P : α → Prop) (xs : List α) :
    (∀ x ∈ xs, P x) ∨
      ∃ before x rest, xs = before ++ x :: rest ∧ (∀ y ∈ before, P y) ∧ ¬ P x := by
  induction xs with
  | nil => exact .inl fun x hx => by cases hx
  | cons x xs ih =>
    by_cases hx : P x
    · rcases ih with h | ⟨before, y, rest, rfl, hbefore, hy⟩
      · exact .inl (List.forall_mem_cons.mpr ⟨hx, h⟩)
      · exact .inr ⟨x :: before, y, rest, rfl, List.forall_mem_cons.mpr ⟨hx, hbefore⟩, hy⟩
    · exact .inr ⟨[], x, xs, rfl, fun y hy => (List.not_mem_nil hy).elim, hx⟩

/-- Every sequence of events is of one of these five kinds. -/
theorem stream_cases (lib : HashLib Hash) (q : Requested Hash)
    (events : List (Reply (Option Payment))) :
    (∃ u t, Reads lib q u (some t) ∧ DecidedBy lib q events u) ∨
      Interrupted lib q events ∨ Faulted lib q events ∨ Waiting lib q events := by
  rcases exists_first_not (ProgressEvent lib q) events with
    h | ⟨before, x, rest, rfl, hbefore, hx⟩
  · exact .inr (.inr (.inr (.nonterminal h)))
  cases x with
  | status s => exact .inr (.inl ⟨before, .status s, rest, rfl, hbefore, trivial⟩)
  | elapsed => exact .inr (.inl ⟨before, .elapsed, rest, rfl, hbefore, trivial⟩)
  | response u =>
    cases u with
    | none => exact .inr (.inr (.inl (.ended hbefore)))
    | some u =>
      by_cases hu : ∃ t, Reads lib q u t
      · obtain ⟨t, hu⟩ := hu
        cases t with
        | none => exact absurd ⟨u, rfl, hu⟩ hx
        | some t =>
          rcases exists_first_not (RepeatOf u) rest with
            h | ⟨after, y, rest, rfl, hafter, hy⟩
          · exact .inr (.inr (.inr (.terminal hbefore hu h)))
          · by_cases hstop : Stops y
            · exact .inl ⟨u, t, hu, before, after, y, rest, rfl, hbefore, hafter, hstop⟩
            · obtain ⟨v, rfl⟩ : ∃ v, y = .response (some v) := by
                cases y with
                | response v => cases v with
                  | none => exact absurd trivial hstop
                  | some v => exact ⟨v, rfl⟩
                | status s => exact absurd trivial hstop
                | elapsed => exact absurd trivial hstop
              have hwire : v.encodeToVec ≠ u.encodeToVec := fun h => hy ⟨v, rfl, h⟩
              exact .inr (.inr (.inl (.contradicted hbefore hu hafter hwire)))
      · exact .inr (.inr (.inl (.malformed hbefore (not_exists.mp hu))))

variable [DecidableEq Hash]

theorem Matching.payment_ok {u : Payment} (h : Matching lib q u) {preimage : Option Bytes}
    (hpreimage : PreimageIs u.paymentPreimage preimage)
    (hproof : u.status = 2 → ∃ p, preimage = some p ∧ lib.digest p = q.hash) :
    payment lib u = .ok ⟨q.hash, preimage, u.valueMsat.toUInt64, u.feeMsat.toUInt64,
      paymentState u.status⟩ :=
  payment_ok_iff.mpr ⟨h.hash, ⟨h.value, rfl⟩, ⟨h.fee, rfl⟩, rfl, hpreimage,
    fun hs => hproof (paymentState_succeeded.mp hs)⟩

/-- The conversion and the loop's own checks accept exactly the updates described above. -/
theorem reads_iff {u : Payment} {t : Option (TerminalPayment Hash)} :
    Reads lib q u t ↔ ∃ record, payment lib u = .ok record ∧ record.paymentHash = q.hash ∧
      (∀ a ∈ q.amount, record.value = a) ∧ nextTerminal record u.failureReason = t := by
  constructor
  · intro h
    cases h with
    | progress h h2 h3 =>
      obtain ⟨preimage, hpreimage⟩ := h.exists_preimage
      exact ⟨_, h.payment_ok hpreimage fun hs => absurd hs h2, rfl, h.amount,
        nextTerminal_eq_none (mt paymentState_succeeded.mp h2) (mt paymentState_failed.mp h3)⟩
    | succeeded h h2 preimage hpreimage hproof =>
      have hp : PreimageIs u.paymentPreimage (some preimage) := hpreimage
      refine ⟨_, h.payment_ok hp fun _ => ⟨preimage, rfl, hproof⟩, rfl, h.amount, ?_⟩
      simp only [nextTerminal, paymentState_succeeded.mpr h2]
    | failed h h3 =>
      obtain ⟨preimage, hpreimage⟩ := h.exists_preimage
      refine ⟨_, h.payment_ok hpreimage fun hs => ?_, rfl, h.amount, ?_⟩
      · exact absurd (hs.symm.trans h3) (by decide)
      · simp only [nextTerminal, paymentState_failed.mpr h3]
  · rintro ⟨⟨hash, preimage, value, fee, state⟩, hrecord, rfl, hamount, rfl⟩
    obtain ⟨hhash, ⟨hv, rfl⟩, ⟨hf, rfl⟩, rfl, hpreimage, hproof⟩ := payment_ok_iff.mp hrecord
    have hm : Matching lib q u := by
      refine ⟨hhash, hv, hf, hamount, ?_⟩
      cases preimage with
      | none => exact .inl hpreimage
      | some p => exact .inr ⟨p, hpreimage⟩
    by_cases h2 : u.status = 2
    · simp only [paymentState_succeeded.mpr h2, nextTerminal] at hproof ⊢
      obtain ⟨p, rfl, hd⟩ := hproof trivial
      exact .succeeded hm h2 p hpreimage hd
    · by_cases h3 : u.status = 3
      · simp only [paymentState_failed.mpr h3, nextTerminal]
        exact .failed hm h3
      · rw [nextTerminal_eq_none (mt paymentState_succeeded.mp h2)
          (mt paymentState_failed.mp h3)]
        exact .progress hm h2 h3

theorem Reads.unique {u : Payment} {t t' : Option (TerminalPayment Hash)}
    (h : Reads lib q u t) (h' : Reads lib q u t') : t = t' := by
  obtain ⟨record, hr, -, -, rfl⟩ := reads_iff.mp h
  obtain ⟨record', hr', -, -, rfl⟩ := reads_iff.mp h'
  rw [hr] at hr'
  rw [Except.ok.inj hr']

/-- Updates with one encoding are read alike. -/
theorem Reads.of_encodeToVec {u v : Payment} {t : Option (TerminalPayment Hash)}
    (h : Reads lib q u t) (hwire : v.encodeToVec = u.encodeToVec) : Reads lib q v t := by
  have hs := Payment.sameRead_of_encodeToVec hwire
  have hpayment : payment lib v = payment lib u := by
    simp only [payment, hs.paymentHash, hs.paymentPreimage, hs.valueMsat, hs.feeMsat,
      hs.status]
  obtain ⟨record, hr, hhash, hamount, ht⟩ := reads_iff.mp h
  exact reads_iff.mpr ⟨record, hpayment.trans hr, hhash, hamount, hs.failureReason ▸ ht⟩

/-- One accepted update, in any state of the loop. -/
theorem receiveUpdate_of_reads {s : StreamState Hash} {u : Payment}
    {t : Option (TerminalPayment Hash)} (h : Reads lib q u t) :
    receiveUpdate lib q s u =
      (recordTerminal lib q s.terminal u.encodeToVec t).map (⟨some q.hash, ·⟩) := by
  obtain ⟨record, hr, hhash, hamount, rfl⟩ := reads_iff.mp h
  have hany : q.amount.any (record.value ≠ ·) = false := by
    cases ha : q.amount with
    | none => rfl
    | some a => simp [hamount a ha]
  simp only [receiveUpdate, hr, hhash, ne_eq, not_true_eq_false, if_false] at hany ⊢
  rw [hany]
  rfl

/-- An update that is not of the requested payment, or not well formed, is a fault. -/
theorem receiveUpdate_of_not_reads {s : StreamState Hash} {u : Payment}
    (h : ∀ t, ¬ Reads lib q u t) : ∃ operation detail identifier,
      receiveUpdate lib q s u = .error (.invalidResponse operation detail (some identifier)) := by
  cases hr : payment lib u with
  | error e =>
    obtain ⟨detail, rfl⟩ := payment_error hr
    simp only [receiveUpdate, hr]
    cases lib.fromStr u.paymentHash with
    | none => exact ⟨_, _, _, rfl⟩
    | some hash => exact ⟨_, _, _, rfl⟩
  | ok record =>
    simp only [receiveUpdate, hr]
    by_cases hhash : record.paymentHash = q.hash
    · rw [if_neg (not_not.mpr hhash)]
      by_cases hany : q.amount.any (record.value ≠ ·) = true
      · rw [if_pos hany]
        exact ⟨_, _, _, rfl⟩
      · refine absurd (reads_iff.mpr ⟨record, hr, hhash, fun a ha => ?_, rfl⟩)
          (h (nextTerminal record u.failureReason))
        simpa [Option.mem_def.mp ha] using hany
    · rw [if_pos hhash]
      exact ⟨_, _, _, rfl⟩

section Run
variable {d : Nat} {b : Bool}

/-- No terminal update yet; any hash seen is the requested one. -/
def StreamState.Open (q : Requested Hash) (s : StreamState Hash) : Prop :=
  s.terminal = none ∧ (s.observedHash = none ∨ s.observedHash = some q.hash)

omit [DecidableEq Hash] in
theorem StreamState.open_start : (StreamState.start : StreamState Hash).Open q :=
  ⟨rfl, .inl rfl⟩

theorem consumeFrom_received {s s' : StreamState Hash} {u : Payment}
    {rest : List (Reply (Option Payment))} (h : receiveUpdate lib q s u = .ok s') :
    consumeFrom lib d q b s (.response (some u) :: rest) = consumeFrom lib d q b s' rest := by
  simp only [consumeFrom, boundedRequestUntil, h]

theorem consumeFrom_rejected {s : StreamState Hash} {u : Payment} {e : LndError Hash}
    {rest : List (Reply (Option Payment))} (h : receiveUpdate lib q s u = .error e) :
    consumeFrom lib d q b s (.response (some u) :: rest) = some (.error e) := by
  simp only [consumeFrom, boundedRequestUntil, h]

/-- Updates that only move the payment along leave the loop open. -/
theorem consumeFrom_progress {before : List (Reply (Option Payment))}
    (hbefore : ∀ e ∈ before, ProgressEvent lib q e) {s : StreamState Hash} (hs : s.Open q)
    (rest : List (Reply (Option Payment))) :
    ∃ s', s'.Open q ∧
      consumeFrom lib d q b s (before ++ rest) = consumeFrom lib d q b s' rest := by
  induction before generalizing s with
  | nil => exact ⟨s, hs, rfl⟩
  | cons e before ih =>
    obtain ⟨u, rfl, hu⟩ := hbefore e List.mem_cons_self
    have hstep : receiveUpdate lib q s u = .ok ⟨some q.hash, none⟩ := by
      rw [receiveUpdate_of_reads hu, hs.1]
      rfl
    obtain ⟨s', hs', hrun⟩ := ih (fun e he => hbefore e (List.mem_cons_of_mem _ he))
      (s := ⟨some q.hash, none⟩) ⟨rfl, .inr rfl⟩
    exact ⟨s', hs', by rw [List.cons_append, consumeFrom_received hstep, hrun]⟩

/-- The first terminal update is recorded with its bytes. -/
theorem consumeFrom_terminal {s : StreamState Hash} (hs : s.Open q) {u : Payment}
    {t : TerminalPayment Hash} (hu : Reads lib q u (some t))
    (rest : List (Reply (Option Payment))) :
    consumeFrom lib d q b s (.response (some u) :: rest)
      = consumeFrom lib d q b ⟨some q.hash, some (u.encodeToVec, t)⟩ rest := by
  apply consumeFrom_received
  rw [receiveUpdate_of_reads hu, hs.1]
  rfl

/-- Repetitions of the terminal update change nothing. -/
theorem consumeFrom_repeats {after : List (Reply (Option Payment))} {u : Payment}
    {t : TerminalPayment Hash} (hu : Reads lib q u (some t))
    (hafter : ∀ e ∈ after, RepeatOf u e) (rest : List (Reply (Option Payment))) :
    consumeFrom lib d q b ⟨some q.hash, some (u.encodeToVec, t)⟩ (after ++ rest)
      = consumeFrom lib d q b ⟨some q.hash, some (u.encodeToVec, t)⟩ rest := by
  induction after with
  | nil => rfl
  | cons e after ih =>
    obtain ⟨v, rfl, hwire⟩ := hafter e List.mem_cons_self
    have hv := hu.of_encodeToVec hwire
    have hstep : receiveUpdate lib q ⟨some q.hash, some (u.encodeToVec, t)⟩ v
        = .ok ⟨some q.hash, some (u.encodeToVec, t)⟩ := by
      rw [receiveUpdate_of_reads hv]
      simp only [recordTerminal, hwire, if_true, Except.map]
    rw [List.cons_append, consumeFrom_received hstep]
    exact ih fun e he => hafter e (List.mem_cons_of_mem _ he)

/-- Anything else after the terminal update is a fault. -/
theorem receiveUpdate_differs (lib : HashLib Hash) (q : Requested Hash) {u v : Payment}
    (t : TerminalPayment Hash) (hwire : v.encodeToVec ≠ u.encodeToVec) :
    ∃ operation detail identifier,
      receiveUpdate lib q ⟨some q.hash, some (u.encodeToVec, t)⟩ v
        = .error (.invalidResponse operation detail (some identifier)) := by
  by_cases hv : ∃ t', Reads lib q v t'
  · obtain ⟨t', hv⟩ := hv
    rw [receiveUpdate_of_reads hv]
    cases t' with
    | none => exact ⟨_, _, _, rfl⟩
    | some t' =>
      simp only [recordTerminal, if_neg hwire.symm]
      exact ⟨_, _, _, rfl⟩
  · exact receiveUpdate_of_not_reads (not_exists.mp hv)

theorem consumeFrom_stop_terminal {u : Payment} {t : TerminalPayment Hash}
    {stop : Reply (Option Payment)} (hstop : Stops stop)
    (rest : List (Reply (Option Payment))) :
    consumeFrom lib d q b ⟨some q.hash, some (u.encodeToVec, t)⟩ (stop :: rest)
      = some t.intoResult := by
  cases stop with
  | response u => cases u with
    | none => rfl
    | some u => cases hstop
  | status s => rfl
  | elapsed => rfl

theorem consumeFrom_interrupted {s : StreamState Hash} (hs : s.Open q)
    {stop : Reply (Option Payment)} (hstop : Interrupts stop)
    (rest : List (Reply (Option Payment))) :
    consumeFrom lib d q true s (stop :: rest)
      = some (.error (.outcomeUnknown q.operation (some (lib.display q.hash)))) := by
  obtain ⟨hnone, hhash⟩ := hs
  have hinterrupted (e : LndError Hash) : interrupted lib q true s e
      = .error (.outcomeUnknown q.operation (some (lib.display q.hash))) := by
    rcases hhash with hhash | hhash <;>
      simp [interrupted, hnone, hhash, unknownPaymentOutcome]
  cases stop with
  | response u => cases hstop
  | status s => simp only [consumeFrom, boundedRequestUntil, hinterrupted]
  | elapsed => simp only [consumeFrom, boundedRequestUntil, hinterrupted]

theorem consume_decided {events : List (Reply (Option Payment))} {u : Payment}
    {t : TerminalPayment Hash} (hu : Reads lib q u (some t))
    (h : DecidedBy lib q events u) :
    consumePaymentStream lib d q b events = some t.intoResult := by
  obtain ⟨before, after, stop, rest, rfl, hbefore, hafter, hstop⟩ := h
  obtain ⟨s, hs, hrun⟩ := consumeFrom_progress hbefore StreamState.open_start _
  rw [consumePaymentStream, hrun, consumeFrom_terminal hs hu, consumeFrom_repeats hu hafter,
    consumeFrom_stop_terminal hstop]

theorem consume_interrupted {events : List (Reply (Option Payment))}
    (h : Interrupted lib q events) : consumePaymentStream lib d q true events
      = some (.error (.outcomeUnknown q.operation (some (lib.display q.hash)))) := by
  obtain ⟨before, stop, rest, rfl, hbefore, hstop⟩ := h
  obtain ⟨s, hs, hrun⟩ := consumeFrom_progress hbefore StreamState.open_start _
  rw [consumePaymentStream, hrun, consumeFrom_interrupted hs hstop]

theorem consume_faulted {events : List (Reply (Option Payment))}
    (h : Faulted lib q events) : ∃ operation detail identifier,
      consumePaymentStream lib d q b events
        = some (.error (.invalidResponse operation detail (some identifier))) := by
  cases h with
  | @ended before rest hbefore =>
    obtain ⟨s, hs, hrun⟩ := consumeFrom_progress hbefore StreamState.open_start _
    refine ⟨q.operation, "payment stream ended before a terminal state",
      lib.display q.hash, ?_⟩
    rw [consumePaymentStream, hrun]
    simp only [consumeFrom, boundedRequestUntil, ended, hs.1]
    rfl
  | @malformed before rest u hbefore hu =>
    obtain ⟨s, hs, hrun⟩ := consumeFrom_progress hbefore StreamState.open_start _
    obtain ⟨operation, detail, identifier, hstep⟩ := receiveUpdate_of_not_reads hu
    exact ⟨operation, detail, identifier, by
      rw [consumePaymentStream, hrun, consumeFrom_rejected hstep]⟩
  | @contradicted before after rest u v t hbefore hu hafter hv =>
    obtain ⟨s, hs, hrun⟩ := consumeFrom_progress hbefore StreamState.open_start _
    obtain ⟨operation, detail, identifier, hstep⟩ :=
      receiveUpdate_differs lib q t hv
    exact ⟨operation, detail, identifier, by
      rw [consumePaymentStream, hrun, consumeFrom_terminal hs hu,
        consumeFrom_repeats hu hafter, consumeFrom_rejected hstep]⟩

theorem consume_waiting {events : List (Reply (Option Payment))}
    (h : Waiting lib q events) : consumePaymentStream lib d q b events = none := by
  cases h with
  | nonterminal hbefore =>
    obtain ⟨s, hs, hrun⟩ := consumeFrom_progress hbefore StreamState.open_start []
    rw [consumePaymentStream, ← List.append_nil events, hrun, consumeFrom]
  | @terminal before after u t hbefore hu hafter =>
    obtain ⟨s, hs, hrun⟩ := consumeFrom_progress hbefore StreamState.open_start _
    rw [consumePaymentStream, hrun, consumeFrom_terminal hs hu, ← List.append_nil after,
      consumeFrom_repeats hu hafter, consumeFrom]

end Run

section Outcome
variable {d : Nat} {events : List (Reply (Option Payment))}

theorem consume_ok_iff {r : PaymentRecord Hash} :
    consumePaymentStream lib d q true events = some (.ok r) ↔
      ∃ u, Reads lib q u (some (.succeeded r)) ∧ DecidedBy lib q events u := by
  constructor
  · intro h
    rcases stream_cases lib q events with ⟨u, t, hu, hd⟩ | hi | hf | hw
    · rw [consume_decided hu hd] at h
      cases t with
      | succeeded record =>
        obtain rfl := Except.ok.inj (Option.some.inj h)
        exact ⟨u, hu, hd⟩
      | failed hash reason => cases h
    · rw [consume_interrupted hi] at h
      cases h
    · obtain ⟨_, _, _, hrun⟩ := consume_faulted (d := d) (b := true) hf
      rw [hrun] at h
      cases h
    · rw [consume_waiting hw] at h
      cases h
  · rintro ⟨u, hu, hd⟩
    exact consume_decided hu hd

theorem consume_paymentFailed_iff {hash : Hash} {reason : String} :
    consumePaymentStream lib d q true events = some (.error (.paymentFailed hash reason)) ↔
      ∃ u, Reads lib q u (some (.failed hash reason)) ∧ DecidedBy lib q events u := by
  constructor
  · intro h
    rcases stream_cases lib q events with ⟨u, t, hu, hd⟩ | hi | hf | hw
    · rw [consume_decided hu hd] at h
      cases t with
      | succeeded record => cases h
      | failed hash' reason' =>
        obtain ⟨rfl, rfl⟩ := LndError.paymentFailed.inj (Except.error.inj (Option.some.inj h))
        exact ⟨u, hu, hd⟩
    · rw [consume_interrupted hi] at h
      cases h
    · obtain ⟨_, _, _, hrun⟩ := consume_faulted (d := d) (b := true) hf
      rw [hrun] at h
      cases h
    · rw [consume_waiting hw] at h
      cases h
  · rintro ⟨u, hu, hd⟩
    exact consume_decided hu hd

theorem consume_outcomeUnknown_iff {operation : String} {identifier : Option String} :
    consumePaymentStream lib d q true events
        = some (.error (.outcomeUnknown operation identifier)) ↔
      Interrupted lib q events ∧ operation = q.operation ∧
        identifier = some (lib.display q.hash) := by
  constructor
  · intro h
    rcases stream_cases lib q events with ⟨u, t, hu, hd⟩ | hi | hf | hw
    · rw [consume_decided hu hd] at h
      cases t <;> cases h
    · rw [consume_interrupted hi] at h
      obtain ⟨rfl, rfl⟩ := LndError.outcomeUnknown.inj (Except.error.inj (Option.some.inj h))
      exact ⟨hi, rfl, rfl⟩
    · obtain ⟨_, _, _, hrun⟩ := consume_faulted (d := d) (b := true) hf
      rw [hrun] at h
      cases h
    · rw [consume_waiting hw] at h
      cases h
  · rintro ⟨hi, rfl, rfl⟩
    exact consume_interrupted hi

theorem consume_invalidResponse_iff :
    (∃ operation detail identifier, consumePaymentStream lib d q true events
        = some (.error (.invalidResponse operation detail (some identifier)))) ↔
      Faulted lib q events := by
  constructor
  · rintro ⟨operation, detail, identifier, h⟩
    rcases stream_cases lib q events with ⟨u, t, hu, hd⟩ | hi | hf | hw
    · rw [consume_decided hu hd] at h
      cases t <;> cases h
    · rw [consume_interrupted hi] at h
      cases h
    · exact hf
    · rw [consume_waiting hw] at h
      cases h
  · exact consume_faulted

theorem consume_none_iff :
    consumePaymentStream lib d q true events = none ↔ Waiting lib q events := by
  constructor
  · intro h
    rcases stream_cases lib q events with ⟨u, t, hu, hd⟩ | hi | hf | hw
    · rw [consume_decided hu hd] at h
      cases h
    · rw [consume_interrupted hi] at h
      cases h
    · obtain ⟨_, _, _, hrun⟩ := consume_faulted (d := d) (b := true) hf
      rw [hrun] at h
      cases h
    · exact hw
  · exact consume_waiting

end Outcome

/-- The result of a payment stream is a function of its whole history: paid or failed by
the first terminal update alone, unknown under the requested hash when it is cut off
before one, and an invalid response for every other end. -/
theorem consume_payment_stream_outcome (lib : HashLib Hash) (configuredDuration : Nat)
    (q : Requested Hash) (events : List (Reply (Option Payment))) :
    (∀ r, consumePaymentStream lib configuredDuration q true events = some (.ok r) ↔
      ∃ u, Reads lib q u (some (.succeeded r)) ∧ DecidedBy lib q events u) ∧
    (∀ hash reason, consumePaymentStream lib configuredDuration q true events
        = some (.error (.paymentFailed hash reason)) ↔
      ∃ u, Reads lib q u (some (.failed hash reason)) ∧ DecidedBy lib q events u) ∧
    (∀ operation identifier, consumePaymentStream lib configuredDuration q true events
        = some (.error (.outcomeUnknown operation identifier)) ↔
      Interrupted lib q events ∧ operation = q.operation ∧
        identifier = some (lib.display q.hash)) ∧
    ((∃ operation detail identifier, consumePaymentStream lib configuredDuration q true events
        = some (.error (.invalidResponse operation detail (some identifier)))) ↔
      Faulted lib q events) ∧
    (consumePaymentStream lib configuredDuration q true events = none ↔
      Waiting lib q events) :=
  ⟨fun _ => consume_ok_iff, fun _ _ => consume_paymentFailed_iff,
    fun _ _ => consume_outcomeUnknown_iff, consume_invalidResponse_iff, consume_none_iff⟩

/-- Once the invoice is dispatched its result is that of the stream it opened. -/
theorem payInvoiceWith_dispatched {Instant : Type} (checkedAdd : Nat → Option Instant)
    (timeout : Nat) (sendPaymentV2 : SendPaymentRequest → Reply (List (Reply (Option Payment))))
    (invoice : Bolt11Invoice Hash) (options : PaymentOptions) {request : SendPaymentRequest}
    (hrequest : (protoSendPaymentRequest invoice options : Except (LndError Hash) _)
      = .ok request)
    {deadline : Instant} (hdeadline : checkedAdd timeout = some deadline)
    {stream : List (Reply (Option Payment))} (hstream : sendPaymentV2 request = .response stream) :
    payInvoiceWith lib checkedAdd timeout sendPaymentV2 invoice options
      = consumePaymentStream lib timeout
          ⟨"pay invoice", invoice.paymentHash, invoice.amountMilliSatoshis⟩ true stream := by
  simp only [payInvoiceWith, hrequest, operationDeadline, hdeadline, bind, Except.bind,
    hstream, boundedMutatingRequestUntil]

end Nigiri.Lnd
