import Mathlib.Data.List.Forall2
import Nigiri.PaymentErrors

/-! The maps inside a payment update: two decodings of one message may visit their entries in
different orders, and the encoding shows that order. -/
namespace Nigiri.Lnd
open Nigiri.WireFormat
variable {Hash : Type}

abbrev Records := List (UInt64 × Bytes)

/-- One message: everything is the same but the order in which maps are visited. -/
def Hop.SameMessage (m n : Hop) : Prop :=
  n = { m with customRecords := n.customRecords } ∧ m.customRecords.Perm n.customRecords

def Route.SameMessage (m n : Route) : Prop :=
  n = { m with hops := n.hops } ∧ List.Forall₂ Hop.SameMessage m.hops n.hops

def HtlcAttempt.SameMessage (m n : HtlcAttempt) : Prop :=
  n = { m with route := n.route } ∧ Option.Rel Route.SameMessage m.route n.route

def Payment.SameMessage (m n : Payment) : Prop :=
  n = { m with htlcs := n.htlcs, firstHopCustomRecords := n.firstHopCustomRecords } ∧
    List.Forall₂ HtlcAttempt.SameMessage m.htlcs n.htlcs ∧
    m.firstHopCustomRecords.Perm n.firstHopCustomRecords

/-- The maps of a message, in the order they are written. -/
def Route.maps (m : Route) : List Records := m.hops.map Hop.customRecords

def HtlcAttempt.maps (m : HtlcAttempt) : List Records := m.route.toList.flatMap Route.maps

def Payment.maps (m : Payment) : List Records :=
  m.firstHopCustomRecords :: m.htlcs.flatMap HtlcAttempt.maps

/-- The same message with every map visited backwards. -/
def Hop.backwards (m : Hop) : Hop := { m with customRecords := m.customRecords.reverse }

def Route.backwards (m : Route) : Route := { m with hops := m.hops.map Hop.backwards }

def HtlcAttempt.backwards (m : HtlcAttempt) : HtlcAttempt :=
  { m with route := m.route.map Route.backwards }

def Payment.backwards (m : Payment) : Payment :=
  { m with
    htlcs := m.htlcs.map HtlcAttempt.backwards
    firstHopCustomRecords := m.firstHopCustomRecords.reverse }

theorem forall₂_map_self {α : Type*} {R : α → α → Prop} {f : α → α} (h : ∀ x, R x (f x))
    (xs : List α) : List.Forall₂ R xs (xs.map f) := by
  induction xs with
  | nil => exact .nil
  | cons x xs ih => exact .cons (h x) ih

theorem eq_of_forall₂ {α : Type*} {R : α → α → Prop} {xs ys : List α}
    (h : List.Forall₂ R xs ys) (hR : ∀ x ∈ xs, ∀ y, R x y → y = x) : ys = xs := by
  induction h with
  | nil => rfl
  | cons hxy _ ih =>
    obtain ⟨hx, hxs⟩ := List.forall_mem_cons.mp hR
    rw [hx _ hxy, ih hxs]

theorem Hop.backwards_same (m : Hop) : m.SameMessage m.backwards :=
  ⟨rfl, (List.reverse_perm _).symm⟩

theorem Route.backwards_same (m : Route) : m.SameMessage m.backwards :=
  ⟨rfl, forall₂_map_self Hop.backwards_same m.hops⟩

theorem HtlcAttempt.backwards_same (m : HtlcAttempt) : m.SameMessage m.backwards := by
  refine ⟨rfl, ?_⟩
  cases h : m.route with
  | none => simp only [backwards, h]; exact .none
  | some route => simp only [backwards, h]; exact .some route.backwards_same

theorem Payment.backwards_same (m : Payment) : m.SameMessage m.backwards :=
  ⟨rfl, forall₂_map_self HtlcAttempt.backwards_same m.htlcs, (List.reverse_perm _).symm⟩

theorem Payment.sameMessage_refl (m : Payment) : m.SameMessage m := by
  have hop (m : Hop) : m.SameMessage m := ⟨rfl, .refl _⟩
  have route (m : Route) : m.SameMessage m := ⟨rfl, List.forall₂_same.mpr fun h _ => hop h⟩
  have attempt (m : HtlcAttempt) : m.SameMessage m := by
    refine ⟨rfl, ?_⟩
    cases m.route with
    | none => exact .none
    | some r => exact .some (route r)
  exact ⟨rfl, List.forall₂_same.mpr fun a _ => attempt a, .refl _⟩

theorem Route.maps_backwards (m : Route) : m.backwards.maps = m.maps.map List.reverse := by
  simp only [maps, backwards, List.map_map]
  rfl

theorem HtlcAttempt.maps_backwards (m : HtlcAttempt) :
    m.backwards.maps = m.maps.map List.reverse := by
  cases h : m.route with
  | none => simp [maps, backwards, h]
  | some route => simp [maps, backwards, h, route.maps_backwards]

theorem Payment.maps_backwards (m : Payment) : m.backwards.maps = m.maps.map List.reverse := by
  have hattempts : (m.htlcs.map HtlcAttempt.backwards).flatMap HtlcAttempt.maps
      = (m.htlcs.flatMap HtlcAttempt.maps).map List.reverse := by
    rw [List.flatMap_map, List.map_flatMap]
    exact congrArg (m.htlcs.flatMap ·) (funext HtlcAttempt.maps_backwards)
  simp only [maps, backwards, hattempts, List.map_cons]

theorem Hop.records_of_fields {m n : Hop} (h : m.fields = n.fields) :
    m.customRecords = n.customRecords := by
  have hmap : mapField 11 m.customRecords = mapField 11 n.customRecords := by
    simpa [fields, select_messages] using congrArg (select 11) h
  exact mapField_inj 11 hmap

theorem Route.maps_of_fields {m n : Route} (h : m.fields = n.fields) : m.maps = n.maps := by
  have hhops : (m.hops.map fun x => messageField 4 x.fields)
      = n.hops.map fun x => messageField 4 x.fields := by
    simpa [fields, select_messages] using congrArg (select 4) h
  exact map_eq_of_messages 4 (fun _ _ => Hop.records_of_fields) hhops

theorem HtlcAttempt.maps_of_fields {m n : HtlcAttempt} (h : m.fields = n.fields) :
    m.maps = n.maps := by
  have hroute : (m.route.toList.map fun x => messageField 2 x.fields)
      = n.route.toList.map fun x => messageField 2 x.fields := by
    simpa [fields, select_messages] using congrArg (select 2) h
  have hmaps := map_eq_of_messages 2 (fun _ _ => Route.maps_of_fields) hroute
  rw [maps, maps, List.flatMap_def, List.flatMap_def, hmaps]

/-- Equal encodings come from equal maps, visited in the same order. -/
theorem Payment.maps_of_encodeToVec {m n : Payment} (h : m.encodeToVec = n.encodeToVec) :
    m.maps = n.maps := by
  have hfields : m.fields = n.fields := encode_inj _ _ h
  have hhtlcs : (m.htlcs.map fun x => messageField 14 x.fields)
      = n.htlcs.map fun x => messageField 14 x.fields := by
    simpa [fields, select_messages] using congrArg (select 14) hfields
  have hrecords : mapField 17 m.firstHopCustomRecords = mapField 17 n.firstHopCustomRecords := by
    simpa [fields, select_messages] using congrArg (select 17) hfields
  have hmaps := map_eq_of_messages 14 (fun _ _ => HtlcAttempt.maps_of_fields) hhtlcs
  rw [maps, maps, mapField_inj 17 hrecords, List.flatMap_def, List.flatMap_def, hmaps]

theorem eq_of_perm_of_length_le_one {α : Type*} {xs ys : List α} (h : xs.Perm ys)
    (hlen : xs.length ≤ 1) : ys = xs := by
  match xs with
  | [] => exact h.nil_eq.symm
  | [x] => exact List.singleton_perm.mp h |>.symm
  | _ :: _ :: _ => simp at hlen

theorem Hop.eq_of_sameMessage {m n : Hop} (hlen : m.customRecords.length ≤ 1)
    (h : m.SameMessage n) : n = m := by
  rw [h.1, eq_of_perm_of_length_le_one h.2 hlen]

theorem Route.eq_of_sameMessage {m n : Route} (hlen : ∀ records ∈ m.maps, records.length ≤ 1)
    (h : m.SameMessage n) : n = m := by
  have hhops : n.hops = m.hops := eq_of_forall₂ h.2 fun hop hmem _ hsame =>
    hop.eq_of_sameMessage (hlen _ (List.mem_map_of_mem hmem)) hsame
  rw [h.1, hhops]

theorem HtlcAttempt.eq_of_sameMessage {m n : HtlcAttempt}
    (hlen : ∀ records ∈ m.maps, records.length ≤ 1) (h : m.SameMessage n) : n = m := by
  have hroute : n.route = m.route := by
    cases hm : m.route with
    | none =>
      have hrel := h.2
      rw [hm] at hrel
      cases hn : n.route with
      | none => rfl
      | some r => rw [hn] at hrel; cases hrel
    | some route =>
      have hrel := h.2
      rw [hm] at hrel
      cases hn : n.route with
      | none => rw [hn] at hrel; cases hrel
      | some route' =>
        rw [hn] at hrel
        cases hrel with
        | some hsame =>
          have hmaps : ∀ records ∈ route.maps, records.length ≤ 1 := by
            simpa [maps, hm] using hlen
          rw [Route.eq_of_sameMessage hmaps hsame]
  rw [h.1, hroute]

/-- Without a map of two entries there is only one way to visit them all. -/
theorem Payment.eq_of_sameMessage {m n : Payment}
    (hlen : ∀ records ∈ m.maps, records.length ≤ 1) (h : m.SameMessage n) : n = m := by
  obtain ⟨hfirst, hrest⟩ := List.forall_mem_cons.mp hlen
  have hhtlcs : n.htlcs = m.htlcs := eq_of_forall₂ h.2.1 fun attempt hmem _ hsame =>
    attempt.eq_of_sameMessage
      (fun records hr => hrest records (List.mem_flatMap.mpr ⟨attempt, hmem, hr⟩)) hsame
  rw [h.1, hhtlcs, eq_of_perm_of_length_le_one h.2.2 hfirst]

/-- Visited backwards, a map of two entries is written differently. -/
theorem Payment.encodeToVec_backwards_ne {m : Payment}
    (hkeys : ∀ records ∈ m.maps, (records.map Prod.fst).Nodup) {records : Records}
    (hmem : records ∈ m.maps) (hlen : ¬ records.length ≤ 1) :
    m.backwards.encodeToVec ≠ m.encodeToVec := by
  intro h
  have hmaps := maps_of_encodeToVec h
  rw [maps_backwards] at hmaps
  have hback : records.reverse = records := by
    have hall : ∀ r ∈ m.maps, r.reverse = r := by
      have hid : m.maps.map List.reverse = m.maps.map id := by rw [hmaps, List.map_id]
      exact List.map_inj_left.mp hid
    exact hall records hmem
  match records, hlen with
  | first :: second :: rest, _ =>
    -- the first entry is also the last one, so its key occurs twice
    have hlast : first ∈ second :: rest := by
      have hhead := congrArg List.head? hback
      rw [List.head?_reverse, List.getLast?_cons_cons] at hhead
      exact List.mem_of_getLast? hhead
    have hnodup := hkeys _ hmem
    rw [List.map_cons] at hnodup
    exact (List.nodup_cons.mp hnodup).1 (List.mem_map_of_mem hlast)
  | [], hlen => exact hlen (Nat.zero_le 1)
  | [_], hlen => exact hlen (Nat.le_refl 1)

variable [DecidableEq Hash] {lib : HashLib Hash} {q : Requested Hash}

/-- The same message in another order is taken for a contradiction. -/
theorem consume_backwards {m : Payment} {t : TerminalPayment Hash}
    (hterminal : Reads lib q m (some t))
    (hkeys : ∀ records ∈ m.maps, (records.map Prod.fst).Nodup) {records : Records}
    (hmem : records ∈ m.maps) (hlen : ¬ records.length ≤ 1) :
    consumePaymentStream lib 0 q true
      [.response (some m), .response (some m.backwards), .elapsed] ≠ some t.intoResult := by
  intro h
  have hfaulted : Faulted lib q
      ([] ++ .response (some m) :: ([] ++ .response (some m.backwards) :: [.elapsed])) :=
    .contradicted (by simp) hterminal (by simp) (Payment.encodeToVec_backwards_ne hkeys hmem hlen)
  obtain ⟨operation, detail, identifier, hrun⟩ := consume_faulted (d := 0) (b := true) hfaulted
  have hsame := h.symm.trans hrun
  cases t <;> cases hsame

/-- A terminal update is recognised when it comes again exactly if none of its maps has two
entries, whose order the two decodings may disagree on. -/
theorem repeated_terminal_recognised_iff {m : Payment} {t : TerminalPayment Hash}
    (hterminal : Reads lib q m (some t))
    (hkeys : ∀ records ∈ m.maps, (records.map Prod.fst).Nodup) :
    (∀ first second, m.SameMessage first → m.SameMessage second →
      ∀ configuredDuration uncertainFromStart before stop rest,
      (∀ e ∈ before, ProgressEvent lib q e) → Stops stop →
      consumePaymentStream lib configuredDuration q uncertainFromStart
        (before ++ .response (some first) :: .response (some second) :: stop :: rest)
        = some t.intoResult) ↔ ∀ records ∈ m.maps, records.length ≤ 1 := by
  constructor
  · intro h records hmem
    by_contra hlen
    exact consume_backwards hterminal hkeys hmem hlen
      (h m m.backwards m.sameMessage_refl m.backwards_same 0 true [] .elapsed [] (by simp) trivial)
  · intro hlen first second hfirst hsecond d b before stop rest hbefore hstop
    rw [Payment.eq_of_sameMessage hlen hfirst, Payment.eq_of_sameMessage hlen hsecond]
    refine consume_decided hterminal ⟨before, [.response (some m)], stop, rest, rfl, hbefore, ?_,
      hstop⟩
    intro e he
    obtain rfl := List.mem_singleton.mp he
    exact ⟨m, rfl, rfl⟩

/-- A failed payment of 1000 millisatoshis with the given first-hop records. -/
def failedUpdate (records : Records) : Payment :=
  ⟨List.replicate 64 50, 0, 0, 0, [], 0, 1000, [], 3, 0, 0, 0, [], 1, 2, records⟩

def failedRequest : Requested Bytes := ⟨"pay invoice", List.replicate 32 34, some 1000⟩

theorem failedUpdate_reads (records : Records) : Reads hexHashes failedRequest
    (failedUpdate records) (some (.failed failedRequest.hash (paymentFailureReason 2))) := by
  have hhash : parsePreimage (List.replicate 64 50) = some failedRequest.hash := by decide
  have hvalue : (0 : Int64) ≤ 1000 := by decide
  refine .failed ⟨hhash, hvalue, Int64.le_refl 0, ?_, .inl rfl⟩ rfl
  rintro amount hamount
  exact Option.some.inj hamount

theorem repeated_terminal_taken_for_contradiction : ¬ ∀ (lib : HashLib Bytes) (q : Requested Bytes)
    (m : Payment) (t : TerminalPayment Bytes), Reads lib q m (some t) →
    (∀ records ∈ m.maps, (records.map Prod.fst).Nodup) →
    ∀ first second, m.SameMessage first → m.SameMessage second →
    ∀ configuredDuration uncertainFromStart before stop rest,
      (∀ e ∈ before, ProgressEvent lib q e) → Stops stop →
      consumePaymentStream lib configuredDuration q uncertainFromStart
        (before ++ .response (some first) :: .response (some second) :: stop :: rest)
        = some t.intoResult := by
  intro h
  have hreads := failedUpdate_reads [(65536, [1]), (65537, [2])]
  have hkeys : ∀ records ∈ (failedUpdate [(65536, [1]), (65537, [2])]).maps,
      (records.map Prod.fst).Nodup := by
    intro records hmem
    obtain rfl := List.mem_singleton.mp hmem
    decide
  refine consume_backwards hreads hkeys List.mem_cons_self (by decide) ?_
  exact h _ _ _ _ hreads hkeys _ _ (Payment.sameMessage_refl _) (Payment.backwards_same _)
    0 true [] .elapsed [] (by simp) trivial

theorem repeated_terminal_recognised_iff_single :
    (∀ first second, (failedUpdate [(65536, [1])]).SameMessage first →
      (failedUpdate [(65536, [1])]).SameMessage second →
      ∀ configuredDuration uncertainFromStart before stop rest,
      (∀ e ∈ before, ProgressEvent hexHashes failedRequest e) → Stops stop →
      consumePaymentStream hexHashes configuredDuration failedRequest uncertainFromStart
        (before ++ .response (some first) :: .response (some second) :: stop :: rest)
        = some (.error (.paymentFailed failedRequest.hash (paymentFailureReason 2)))) ↔
      ∀ records ∈ (failedUpdate [(65536, [1])]).maps, records.length ≤ 1 := by
  refine repeated_terminal_recognised_iff (failedUpdate_reads _) fun records hmem => ?_
  obtain rfl := List.mem_singleton.mp hmem
  decide

end Nigiri.Lnd
