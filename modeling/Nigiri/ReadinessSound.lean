import Nigiri.OpenAndConfirm
import Nigiri.ReverseReadiness

/-! What a bootstrapped channel has shown: its funding was new in the mempool when the only
blocks were mined, and before each of the two probes one round of answers had both nodes at the
tip with the channel active. -/
namespace Nigiri.Fixtures
open Nigiri.WireFormat Nigiri.Process Nigiri.Polling Nigiri.Lnd
variable {Hash Invoice : Type} {α β σ : Type} {h t : PairTrace Hash Invoice}

/-- A node has the chain and the graph of the test network at this height. -/
structure AtHeight (info : LndSyncStatus) (height : UInt64) : Prop where
  regtest : info.networkIsRegtest = true
  chain : info.syncedToChain = true
  graph : info.syncedToGraph = true
  height : info.blockHeight.toUInt64 = height

/-- A side of the channel can send more than a probe costs. -/
structure Spendable (channel : ChannelReadiness) : Prop where
  active : channel.active = true
  balance : READINESS_PAYMENT < channel.localBalance

/-- One of the five probes of a round was answered. -/
def ProbeAnswered (channelPoint : OutPoint) (ends : ChannelEnds) (round : Nat)
    (t : PairTrace Hash Invoice) (probe : ChannelProbe)
    (answer : (probe.call channelPoint ends : PairCall Hash Invoice).Answer) : Prop :=
  (⟨.poll ⟨probe.call channelPoint ends, round⟩, some (some (some answer))⟩ :
    PairEvent Hash Invoice) ∈ t

/-- A single round, nothing but polls of its own five probes, in which both nodes had the channel
active with enough on their side and stood at the height that Bitcoin answered. -/
def ReadyRound (channelPoint : OutPoint) (ends : ChannelEnds) (t : PairTrace Hash Invoice) :
    Prop :=
  ∃ round aliceChannel bobChannel aliceInfo bobInfo height,
    (∀ e ∈ t, e.request = .park ∨
      ∃ probe, e.request = .poll ⟨ChannelProbe.call channelPoint ends probe, round⟩) ∧
    ProbeAnswered channelPoint ends round t .aliceChannel (.ok (some aliceChannel)) ∧
    ProbeAnswered channelPoint ends round t .bobChannel (.ok (some bobChannel)) ∧
    ProbeAnswered channelPoint ends round t .aliceInfo (.ok aliceInfo) ∧
    ProbeAnswered channelPoint ends round t .bobInfo (.ok bobInfo) ∧
    ProbeAnswered channelPoint ends round t .bitcoinHeight (.ok height) ∧
    Spendable aliceChannel ∧ Spendable bobChannel ∧ AtHeight aliceInfo height ∧
    AtHeight bobInfo height

/-- A payment of an invoice that its receiver created: it succeeded under the hash of that
invoice, which the receiver then reported as settled. -/
def ProbePaid (payer receiver : Node) (t : PairTrace Hash Invoice) : Prop :=
  ∃ invoice payment settling,
    t = ⟨.call (.createReadinessInvoice receiver),
        some (some (.ok (invoice, payment.paymentHash)))⟩ ::
      ⟨.call (.payReadinessInvoice payer invoice), some (some (.ok payment))⟩ ::
      (settling ++ [⟨.call (.invoiceState receiver payment.paymentHash),
        some (some (.ok .settled))⟩]) ∧
    payment.state = .succeeded

section Inversion

theorem runs_lndOperation {service operation : String} {q : PairCall Hash Invoice}
    {answer : q.Answer → Except (LndError Hash) α} {a : α}
    (hrun : Runs (lndOperation service operation q answer) t (some (.ok a))) :
    ∃ result, t = [⟨.call q, some (some result)⟩] ∧ answer result = .ok a := by
  obtain ⟨reply, t', rfl, hrest⟩ := hrun.of_ask
  cases reply with
  | none => cases hrest.of_done.2
  | some result =>
    cases ha : answer result with
    | error error =>
      simp only [ha] at hrest
      cases hrest.of_done.2
    | ok a' =>
      simp only [ha] at hrest
      obtain ⟨rfl, hok⟩ := hrest.of_done
      obtain rfl := Except.ok.inj hok
      exact ⟨result, rfl, ha⟩

theorem runs_orLeave {p : PairTask Hash Invoice α} {k : α → PairRound Hash Invoice σ β} {b : β}
    (hrun : Runs (orLeave p k) t (some (.inr (.ok b)))) :
    ∃ a t₁ t₂, t = t₁ ++ t₂ ∧ Runs p t₁ (some (.ok a)) ∧
      Runs (k a) t₂ (some (.inr (.ok b))) := by
  obtain ⟨result, t₁, t₂, rfl, hp, hk⟩ := hrun.of_bind
  cases result with
  | error stop => cases hk.of_done.2
  | ok a => exact ⟨a, t₁, t₂, rfl, hp, hk⟩

theorem runs_runOrLeave {service : String} {observation : Observation Hash}
    {q : PairCall Hash Invoice} {k : q.Answer → PairRound Hash Invoice σ β} {b : β}
    (hrun : Runs (runOrLeave service observation q k) t (some (.inr (.ok b)))) :
    ∃ answer t', t = ⟨.call q, some (some answer)⟩ :: t' ∧
      Runs (k answer) t' (some (.inr (.ok b))) := by
  obtain ⟨reply, t', rfl, hrest⟩ := hrun.of_ask
  cases reply with
  | none => cases hrest.of_done.2
  | some answer => exact ⟨answer, t', rfl, hrest⟩

/-- A round that has only paused does not end the loop. -/
theorem not_runs_retryAfterDelay {service : String} {observation : Observation Hash} {next : σ}
    {b : β} : ¬ Runs (retryAfterDelay service observation next : PairRound Hash Invoice σ β) t
      (some (.inr (.ok b))) := by
  intro hrun
  obtain ⟨u, t', rfl, hrest⟩ := runs_runOrLeave hrun
  cases hrest.of_done.2

end Inversion

section Rounds
variable {channelPoint : OutPoint} {ends : ChannelEnds}

theorem channelIsSpendable_iff {channel : Option ChannelReadiness} :
    channelIsSpendable channel = true ↔ ∃ c, channel = some c ∧ Spendable c := by
  cases channel with
  | none => exact iff_of_false (fun h => by cases h) fun ⟨c, hc, _⟩ => by cases hc
  | some c =>
    simp only [channelIsSpendable, Bool.and_eq_true, decide_eq_true_eq]
    constructor
    · rintro ⟨hactive, hbalance⟩
      exact ⟨c, rfl, hactive, hbalance⟩
    · rintro ⟨c', hc, hactive, hbalance⟩
      obtain rfl := Option.some.inj hc
      exact ⟨hactive, hbalance⟩

theorem graphSynchronized_iff {info : LndSyncStatus} {height : UInt64} :
    graphSynchronized info height = true ↔ AtHeight info height := by
  simp only [graphSynchronized, chainSynchronized, Bool.and_eq_true, beq_iff_eq]
  constructor
  · rintro ⟨⟨⟨hregtest, hchain⟩, hheight⟩, hgraph⟩
    exact ⟨hregtest, hchain, hgraph, hheight⟩
  · rintro ⟨hregtest, hchain, hgraph, hheight⟩
    exact ⟨⟨⟨hregtest, hchain⟩, hheight⟩, hgraph⟩

/-- Only the node's own answer tells of a channel; a transient error brings none. -/
theorem channelObservation_some {service operation : String} {observation : Observation Hash}
    {reply : Option (Except (LndError Hash) (Option ChannelReadiness))} {c : ChannelReadiness}
    (hread : (do channelObservation operation (← deadlineReply service observation reply)) =
      (.ok (some c) : Except (FixtureError Hash) _)) : reply = some (.ok (some c)) := by
  match reply with
  | none => cases hread
  | some (.ok channel) => rw [Except.ok.inj hread]
  | some (.error error) =>
    change channelObservation operation (.error error) = _ at hread
    rw [channelObservation] at hread
    split at hread
    next => cases hread
    next => cases hread

theorem infoObservation_some {service operation : String} {observation : Observation Hash}
    {reply : Option (Except (LndError Hash) LndSyncStatus)} {info : LndSyncStatus}
    (hread : (do infoObservation operation (← deadlineReply service observation reply)) =
      (.ok (some info) : Except (FixtureError Hash) _)) : reply = some (.ok info) := by
  match reply with
  | none => cases hread
  | some (.ok info') => rw [Option.some.inj (Except.ok.inj hread)]
  | some (.error error) =>
    change infoObservation operation (.error error) = _ at hread
    rw [infoObservation] at hread
    split at hread
    next => cases hread
    next => cases hread

theorem height_ok {service : String} {observation : Observation Hash}
    {reply : Option (Except (FixtureError Hash) UInt64)} {height : UInt64}
    (hread : (do (← deadlineReply service observation reply)) =
      (.ok height : Except (FixtureError Hash) _)) : reply = some (.ok height) := by
  match reply with
  | none => cases hread
  | some (.error error) => cases hread
  | some (.ok height') => rw [Except.ok.inj hread]

/-- What a join of the five probes has gathered, if it leaves the loop. -/
theorem readyRound_of_join {observation : Observation Hash} {round : Nat}
    {outs : (probe : ChannelProbe) → probe.Out}
    (hpolls : Polls (channelProbes channelPoint ends observation round) t)
    (houts : ∀ probe, ∃ reply,
      Ready (channelProbes channelPoint ends observation round) t probe reply ∧
        ChannelProbe.read channelPoint ends observation probe reply = .ok (outs probe))
    (hready : readyChannel outs = true) : ReadyRound channelPoint ends t := by
  simp only [readyChannel, Bool.and_eq_true, Option.any_eq_true] at hready
  obtain ⟨⟨⟨halice, hbob⟩, aliceInfo, haliceInfo, halicesync⟩, bobInfo, hbobInfo, hbobsync⟩ :=
    hready
  obtain ⟨aliceChannel, haliceChannel, halicespend⟩ := channelIsSpendable_iff.mp halice
  obtain ⟨bobChannel, hbobChannel, hbobspend⟩ := channelIsSpendable_iff.mp hbob
  have answered (probe : ChannelProbe) {out : probe.Out}
      {answer : (probe.call channelPoint ends : PairCall Hash Invoice).Answer}
      (hout : outs probe = out) (hread : ∀ reply : (probe.call channelPoint ends :
        PairCall Hash Invoice).Reply, ChannelProbe.read channelPoint ends observation probe reply =
          .ok out → reply = some answer) :
      ProbeAnswered channelPoint ends round t probe answer := by
    obtain ⟨reply, hreply, hok⟩ := houts probe
    rw [hout] at hok
    obtain rfl := hread reply hok
    exact hreply
  refine ⟨round, aliceChannel, bobChannel, aliceInfo, bobInfo, outs .bitcoinHeight, hpolls,
    answered .aliceChannel haliceChannel fun _ => channelObservation_some,
    answered .bobChannel hbobChannel fun _ => channelObservation_some,
    answered .aliceInfo haliceInfo fun _ => infoObservation_some,
    answered .bobInfo hbobInfo fun _ => infoObservation_some,
    answered .bitcoinHeight rfl fun _ => height_ok, halicespend, hbobspend,
    graphSynchronized_iff.mp halicesync, graphSynchronized_iff.mp hbobsync⟩

/-- The wait for the channel ends with a round in which everything was ready at once. -/
theorem runs_waitForActiveChannel {lib : PairLib Hash}
    (hrun : Runs (waitForActiveChannel channelPoint ends lib) t (some (.ok ()))) :
    ∃ waiting round, t = waiting ++ round ∧ ReadyRound channelPoint ends round := by
  obtain ⟨state, waiting, last, rfl, hlast⟩ := hrun.of_repeatUntil
  obtain ⟨u, connecting, joining, rfl, -, hjoining⟩ := runs_orLeave hlast
  obtain ⟨result, round, rest, rfl, hjoin, hrest⟩ := hjoining.of_bind
  cases result with
  | error error => cases hrest.of_done.2
  | ok outs =>
    simp only at hrest
    split at hrest
    next hready =>
      obtain ⟨rfl, -⟩ := hrest.of_done
      obtain ⟨round', hround, hpolls, houts⟩ := ensures_tryJoin (h := []) round _ hjoin
      obtain rfl : round = round' := hround
      refine ⟨waiting ++ connecting, round, by simp, readyRound_of_join hpolls houts hready⟩
    next => exact (not_runs_retryAfterDelay hrest).elim

end Rounds

theorem runs_waitForSettledInvoice {lib : PairLib Hash} {receiver : Node} {paymentHash : Hash}
    (hrun : Runs (waitForSettledInvoice lib receiver paymentHash) t (some (.ok ()))) :
    ∃ settling, t = settling ++ ([⟨.call (.invoiceState receiver paymentHash),
      some (some (.ok .settled))⟩] : PairTrace Hash Invoice) :=
  ensures_waitForSettledInvoice (h := []) lib receiver paymentHash t _ hrun rfl

section Probes
variable [DecidableEq Hash] {lib : PairLib Hash} {channelPoint : OutPoint} {ends : ChannelEnds}

theorem runs_proveReadinessPayment
    (hrun : Runs (proveReadinessPayment lib : PairTask Hash Invoice Unit) t (some (.ok ()))) :
    ProbePaid .alice .bob t := by
  obtain ⟨⟨invoice, paymentHash⟩, _, _, rfl, hcreate, hpaying⟩ := runs_tryBind hrun
  obtain ⟨created, rfl, hcreated⟩ := runs_lndOperation hcreate
  obtain ⟨payment, _, _, rfl, hpay, hverifying⟩ := runs_tryBind hpaying
  obtain ⟨paid, rfl, hpaid⟩ := runs_lndOperation hpay
  obtain ⟨u, _, _, rfl, hverify, hsettling⟩ := runs_tryBind hverifying
  obtain ⟨rfl, hverified⟩ := hverify.of_done
  obtain ⟨rfl, hstate⟩ := (verifyReadinessPayment_ok lib).mp hverified
  obtain ⟨settling, rfl⟩ := runs_waitForSettledInvoice hsettling
  obtain rfl : created = .ok (invoice, payment.paymentHash) := hcreated
  obtain rfl : paid = .ok payment := hpaid
  exact ⟨invoice, payment, settling, rfl, hstate⟩

/-- The last attempt had a round of its own, and paid the invoice it had created. -/
theorem runs_reverseRound {observation : Observation Hash}
    (hrun : Runs (reverseRound lib channelPoint ends observation :
      PairRound Hash Invoice (Observation Hash) Unit) t (some (.inr (.ok ())))) :
    ∃ waiting round probe, t = waiting ++ round ++ probe ∧ ReadyRound channelPoint ends round ∧
      ProbePaid .bob .alice probe := by
  obtain ⟨u, _, _, rfl, hactive, hcreating⟩ := runs_orLeave hrun
  obtain ⟨waiting, round, rfl, hready⟩ := runs_waitForActiveChannel hactive
  obtain ⟨⟨invoice, paymentHash⟩, _, _, rfl, hcreate, hpaying⟩ := runs_orLeave hcreating
  obtain ⟨created, rfl, hcreated⟩ := runs_lndOperation hcreate
  obtain ⟨answer, _, rfl, hanswered⟩ := runs_runOrLeave hpaying
  cases answer with
  | error error =>
    simp only at hanswered
    split at hanswered
    next => exact (not_runs_retryAfterDelay hanswered).elim
    next => cases hanswered.of_done.2
  | ok payment =>
    obtain ⟨u, _, _, rfl, hverify, hsettling⟩ := runs_orLeave hanswered
    obtain ⟨rfl, hverified⟩ := hverify.of_done
    obtain ⟨rfl, hstate⟩ := (verifyReadinessPayment_ok lib).mp hverified
    obtain ⟨result, _, _, rfl, hsettle, hleave⟩ := hsettling.of_bind
    obtain ⟨rfl, hresult⟩ := hleave.of_done
    obtain rfl := Sum.inr.inj hresult
    obtain ⟨settling, rfl⟩ := runs_waitForSettledInvoice hsettle
    obtain rfl : created = .ok (invoice, payment.paymentHash) := hcreated
    refine ⟨waiting, round, _, rfl, hready, invoice, payment, settling, ?_, hstate⟩
    simp

theorem runs_proveReverseReadinessWithRetry
    (hrun : Runs (proveReverseReadinessWithRetry lib channelPoint ends :
      PairTask Hash Invoice Unit) t (some (.ok ()))) :
    ∃ waiting round probe, t = waiting ++ round ++ probe ∧ ReadyRound channelPoint ends round ∧
      ProbePaid .bob .alice probe := by
  obtain ⟨observation, attempts, last, rfl, hlast⟩ := hrun.of_repeatUntil
  obtain ⟨waiting, round, probe, rfl, hready, hpaid⟩ := runs_reverseRound hlast
  exact ⟨attempts ++ waiting, round, probe, by simp, hready, hpaid⟩

end Probes

section Mining

/-- A request that mines no blocks. -/
def Unmining : Await (PairCall Hash Invoice) → Prop
  | .call (.mineBlocks _) => False
  | _ => True

theorem mined_eq_nil_of_asks {p : PairTask Hash Invoice α} (hp : Asks Unmining p)
    {o : Option (Except (Stop Hash) α)} (hrun : Runs p t o) : mined t = [] := by
  refine List.filterMap_eq_nil_iff.mpr fun e he => ?_
  have hkind := hp.runs hrun e he
  obtain ⟨q, reply⟩ := e
  cases q with
  | call q => cases q <;> first | rfl | exact hkind.elim
  | poll f => rfl
  | park => rfl

theorem asks_lndOperation {S : Await (PairCall Hash Invoice) → Prop} {service operation : String}
    {q : PairCall Hash Invoice} {answer : q.Answer → Except (LndError Hash) α} (hq : S (.call q)) :
    Asks S (lndOperation service operation q answer) := by
  refine ⟨hq, fun reply => ?_⟩
  cases reply with
  | none => exact trivial
  | some result =>
    simp only
    split
    next => exact trivial
    next => exact trivial

theorem asks_bitcoinOperation {S : Await (PairCall Hash Invoice) → Prop} {operation : String}
    {q : PairCall Hash Invoice} {answer : q.Answer → Except (FixtureError Hash) α}
    (hq : S (.call q)) : Asks S (bitcoinOperation operation q answer) := by
  refine ⟨hq, fun reply => ?_⟩
  cases reply with
  | none => exact trivial
  | some result =>
    simp only
    split
    next => exact trivial
    next => exact trivial

theorem unmining_waitForConfirmedBalance (required : UInt64) :
    Asks (@Unmining Hash Invoice) (waitForConfirmedBalance required) := by
  refine ⟨fun observation => asks_runOrLeave trivial fun answer => ?_, fun _ => trivial⟩
  cases answer with
  | ok balance =>
    simp only
    split
    next => exact trivial
    next => exact asks_retryAfterDelay trivial
  | error error =>
    simp only
    split
    next => exact asks_retryAfterDelay trivial
    next => exact trivial

theorem unmining_ensurePeerConnected (lib : PairLib Hash) (ends : ChannelEnds) :
    Asks (@Unmining Hash Invoice) (ensurePeerConnected lib ends) :=
  asks_ensurePeerConnected lib ends trivial (fun _ => trivial) trivial

theorem unmining_waitForActiveChannel (channelPoint : OutPoint) (ends : ChannelEnds)
    (lib : PairLib Hash) :
    Asks (@Unmining Hash Invoice) (waitForActiveChannel channelPoint ends lib) :=
  asks_waitForActiveChannel channelPoint ends lib trivial (fun _ => trivial) trivial trivial
    fun _ _ => trivial

theorem unmining_waitForSettledInvoice (lib : PairLib Hash) (receiver : Node)
    (paymentHash : Hash) :
    Asks (@Unmining Hash Invoice) (waitForSettledInvoice lib receiver paymentHash) :=
  asks_waitForSettledInvoice lib receiver paymentHash trivial trivial

variable [DecidableEq Hash] (lib : PairLib Hash)

theorem unmining_proveReadinessPayment :
    Asks (@Unmining Hash Invoice) (proveReadinessPayment lib) := by
  refine asks_tryBind (asks_lndOperation trivial) fun (invoice, paymentHash) => ?_
  refine asks_tryBind (asks_lndOperation trivial) fun payment => ?_
  exact asks_tryBind trivial fun _ => unmining_waitForSettledInvoice lib .bob paymentHash

theorem unmining_proveReverseReadinessWithRetry (channelPoint : OutPoint) (ends : ChannelEnds) :
    Asks (@Unmining Hash Invoice) (proveReverseReadinessWithRetry lib channelPoint ends) := by
  refine ⟨fun observation => ?_, fun _ => trivial⟩
  refine asks_orLeave (unmining_waitForActiveChannel channelPoint ends lib) fun _ => ?_
  refine asks_orLeave (asks_lndOperation trivial) fun (invoice, paymentHash) => ?_
  refine asks_runOrLeave trivial fun answer => ?_
  cases answer with
  | ok payment =>
    refine asks_orLeave trivial fun _ => ?_
    exact (unmining_waitForSettledInvoice lib .alice paymentHash).bind fun _ => trivial
  | error error =>
    simp only
    split
    next => exact asks_retryAfterDelay trivial
    next => exact trivial

end Mining

/-- A funded channel had its blocks mined, so a history with one mining call at most has one. -/
theorem mined_of_funded {channelPoint : OutPoint} (hfunded : Funded h channelPoint)
    (hmined : (mined h).length ≤ 1) : mined h = [CHANNEL_CONFIRMATIONS] := by
  obtain ⟨before, baseline, current, reply, after, rfl, -, -, -⟩ := hfunded
  have hsplit : mined (before ++ ⟨.call (.mineBlocks CHANNEL_CONFIRMATIONS), reply⟩ :: after) =
      mined before ++ CHANNEL_CONFIRMATIONS :: mined after := mined_append
  rw [hsplit, List.length_append, List.length_cons] at hmined
  rw [hsplit, List.eq_nil_of_length_eq_zero (l := mined before) (by omega),
    List.eq_nil_of_length_eq_zero (l := mined after) (by omega)]
  rfl

/-- A bootstrap that succeeds has set up both nodes without mining any blocks, and then run each
of its four stages to its end. -/
theorem runs_bootstrapReadyChannel [DecidableEq Hash] {lib : PairLib Hash} {bobHost : String}
    {allocation : ChannelAllocation} {channelPoint : OutPoint}
    (hrun : Runs (bootstrapReadyChannel lib bobHost allocation) h (some (.ok channelPoint))) :
    ∃ aliceInfo bobInfo request setup funding active probe reverse,
      h = ⟨.call (.getInfo .alice), some (some (.ok aliceInfo))⟩ ::
        ⟨.call (.getInfo .bob), some (some (.ok bobInfo))⟩ :: setup ++ funding ++ active ++
          probe ++ reverse ∧
      mined setup = [] ∧
      Runs (openAndConfirmChannel request) funding (some (.ok channelPoint)) ∧
      Runs (waitForActiveChannel channelPoint ⟨aliceInfo.publicKey, bobInfo.publicKey, bobHost⟩
        lib) active (some (.ok ())) ∧
      Runs (proveReadinessPayment lib) probe (some (.ok ())) ∧
      Runs (proveReverseReadinessWithRetry lib channelPoint
        ⟨aliceInfo.publicKey, bobInfo.publicKey, bobHost⟩) reverse (some (.ok ())) := by
  obtain ⟨aliceInfo, _, _, rfl, halice, hrun₁⟩ := runs_tryBind hrun
  obtain ⟨_, rfl, rfl⟩ := runs_lndOperation halice
  obtain ⟨bobInfo, _, _, rfl, hbob, hrun₂⟩ := runs_tryBind hrun₁
  obtain ⟨_, rfl, rfl⟩ := runs_lndOperation hbob
  obtain ⟨address, naming, _, rfl, haddress, hrun₃⟩ := runs_tryBind hrun₂
  obtain ⟨_, funds, _, rfl, hfund, hrun₄⟩ := runs_tryBind hrun₃
  obtain ⟨_, balance, _, rfl, hbalance, hrun₅⟩ := runs_tryBind hrun₄
  obtain ⟨_, connecting, _, rfl, hconnect, hrun₆⟩ := runs_tryBind hrun₅
  have hsetup : mined (naming ++ funds ++ balance ++ connecting) = [] := by
    rw [mined_append, mined_append, mined_append,
      mined_eq_nil_of_asks (asks_lndOperation (by trivial)) haddress,
      mined_eq_nil_of_asks (asks_bitcoinOperation (by trivial)) hfund,
      mined_eq_nil_of_asks (unmining_waitForConfirmedBalance _) hbalance,
      mined_eq_nil_of_asks (unmining_ensurePeerConnected _ _) hconnect]
    rfl
  split at hrun₆
  next => cases hrun₆.of_done.2
  next request _ =>
    obtain ⟨opened, funding, _, rfl, hopen, hrun₇⟩ := runs_tryBind hrun₆
    obtain ⟨_, active, _, rfl, hactive, hrun₈⟩ := runs_tryBind hrun₇
    obtain ⟨_, probe, _, rfl, hprobe, hrun₉⟩ := runs_tryBind hrun₈
    obtain ⟨_, reverse, _, rfl, hreverse, hdone⟩ := runs_tryBind hrun₉
    obtain ⟨rfl, hpoint⟩ := hdone.of_done
    obtain rfl := Except.ok.inj hpoint
    refine ⟨aliceInfo, bobInfo, request, _, funding, active, probe, reverse, ?_, hsetup, hopen,
      hactive, hprobe, hreverse⟩
    simp

/-- What the stages of a bootstrap have shown. -/
structure Bootstrapped (channelPoint : OutPoint) (ends : ChannelEnds)
    (funding round probe round' probe' : PairTrace Hash Invoice) : Prop where
  funded : Funded funding channelPoint
  ready : ReadyRound channelPoint ends round
  paid : ProbePaid .alice .bob probe
  ready' : ReadyRound channelPoint ends round'
  paid' : ProbePaid .bob .alice probe'

/-- Over every run: a bootstrap that succeeds has mined blocks once, behind a snapshot in which
the channel's funding was new; then there was a round in which both sides were ready at once, a
probe from Alice to Bob, a further such round, and a probe from Bob to Alice. -/
theorem bootstrap_ready_channel_sound [DecidableEq Hash] (lib : PairLib Hash) (bobHost : String)
    (allocation : ChannelAllocation) (h : PairTrace Hash Invoice) (channelPoint : OutPoint)
    (hrun : Runs (bootstrapReadyChannel lib bobHost allocation) h (some (.ok channelPoint))) :
    mined h = [CHANNEL_CONFIRMATIONS] ∧
    ∃ aliceInfo bobInfo setup funding waiting round probe waiting' round' probe',
      h = ⟨.call (.getInfo .alice), some (some (.ok aliceInfo))⟩ ::
        ⟨.call (.getInfo .bob), some (some (.ok bobInfo))⟩ :: setup ++ funding ++
          (waiting ++ round) ++ probe ++ (waiting' ++ round' ++ probe') ∧
      Bootstrapped channelPoint ⟨aliceInfo.publicKey, bobInfo.publicKey, bobHost⟩ funding round
        probe round' probe' := by
  obtain ⟨aliceInfo, bobInfo, request, setup, funding, active, probe, reverse, rfl, hsetup, hopen,
    hactive, hprobe, hreverse⟩ := runs_bootstrapReadyChannel hrun
  have hpost : OpenPost request funding (some (.ok channelPoint)) :=
    ensures_openAndConfirmChannel funding _ hopen
  have hfunded := hpost.funded channelPoint rfl
  refine ⟨?_, ?_⟩
  · rw [mined_append, mined_append, mined_append, mined_append,
      mined_of_funded hfunded (mined_length_le hpost.each),
      mined_eq_nil_of_asks (unmining_waitForActiveChannel _ _ _) hactive,
      mined_eq_nil_of_asks (unmining_proveReadinessPayment lib) hprobe,
      mined_eq_nil_of_asks (unmining_proveReverseReadinessWithRetry lib _ _) hreverse]
    simpa [mined, minesBlocks] using hsetup
  · obtain ⟨waiting, round, rfl, hready⟩ := runs_waitForActiveChannel hactive
    obtain ⟨waiting', round', probe', rfl, hready', hpaid'⟩ :=
      runs_proveReverseReadinessWithRetry hreverse
    exact ⟨aliceInfo, bobInfo, setup, funding, waiting, round, probe, waiting', round', probe', rfl,
      hfunded, hready, runs_proveReadinessPayment hprobe, hready', hpaid'⟩

section Golden

/-- The opening is reported before the mempool shows the funding. -/
def fundingRun (request : OpenChannelRequest) : PairTrace Unit Unit :=
  ⟨.call .mempoolTransactions, some (some (.ok []))⟩ ::
    (([⟨.poll (opening request), some (some (some (.ok goldenPoint)))⟩] ++ []) ++
    ([⟨.poll ⟨.mempoolTransactions, 1⟩, some (some (some (.ok [fundingTxid])))⟩] ++ []) ++
    [⟨.call (.mineBlocks 6), some (some (.ok ()))⟩])

theorem runs_funding (request : OpenChannelRequest) :
    Runs (openAndConfirmChannel request) (fundingRun request) (some (.ok goldenPoint)) := by
  have hopened (observation : Observation Unit) : Runs (openRound request []
      ⟨none, observation, 0⟩ : PairRound Unit Unit (OpenState Unit) _)
      ([⟨.poll (opening request), some (some (some (.ok goldenPoint)))⟩] ++ [])
      (some (.inl ⟨some goldenPoint, observation, 1⟩)) := by
    refine (runs_select (b := .ok (.inl goldenPoint)) rfl ?_).bind ?_
    · exact runs_ask (runs_done _)
    · exact runs_done _
  have hseen (observation : Observation Unit) : Runs (openRound request []
      ⟨some goldenPoint, observation, 1⟩ : PairRound Unit Unit (OpenState Unit) _)
      ([⟨.poll ⟨.mempoolTransactions, 1⟩, some (some (some (.ok [fundingTxid])))⟩] ++ [])
      (some (.inr (.ok (some goldenPoint, [fundingTxid])))) := by
    refine (runs_select (b := .ok (.inr [fundingTxid])) rfl ?_).bind ?_
    · exact runs_ask (runs_done _)
    · exact runs_done _
  refine runs_ask ((runs_again (hopened _) (runs_leave (hseen _))).bind ?_)
  exact runs_ask (runs_done _)

/-- Both nodes answer at once at every stage, but for the first payment from Bob. -/
def bootstrappedRun : PairTrace Unit Unit :=
  ⟨.call (.getInfo .alice), some (some (.ok { goldenInfo with publicKey := [2] }))⟩ ::
  ⟨.call (.getInfo .bob), some (some (.ok { goldenInfo with publicKey := [3] }))⟩ ::
  ⟨.call (.newAddress .alice), some (some (.ok "bcrt1"))⟩ ::
  ⟨.call (.fundAddress "bcrt1" 5000), some (some (.ok ()))⟩ ::
  ([⟨.call (.confirmedBalance .alice), some (some (.ok 5000))⟩] ++
  ([⟨.call (.peerConnected .alice [3]), some (some (.ok true))⟩] ++
  (fundingRun ⟨[3], 4000, 2000, by decide, by decide⟩ ++ (activeRun ++
  (⟨.call (.createReadinessInvoice .bob), some (some (.ok ((), ())))⟩ ::
  ⟨.call (.payReadinessInvoice .alice ()), some (some (.ok ⟨(), .succeeded⟩))⟩ ::
  ⟨.call (.invoiceState .bob ()), some (some (.ok .settled))⟩ :: (retriedRun ++ []))))))

theorem runs_bootstrapped : Runs (bootstrapReadyChannel goldenLib "bob" ⟨4000, 2000, 5000⟩)
    bootstrappedRun (some (.ok goldenPoint)) := by
  have hbalance : Runs (waitForConfirmedBalance 4000 : PairTask Unit Unit Unit)
      [⟨.call (.confirmedBalance .alice), some (some (.ok 5000))⟩] (some (.ok ())) := by
    refine runs_leave (runs_ask ?_)
    exact runs_done _
  have hprobe : Runs (proveReadinessPayment goldenLib : PairTask Unit Unit Unit)
      [⟨.call (.createReadinessInvoice .bob), some (some (.ok ((), ())))⟩,
        ⟨.call (.payReadinessInvoice .alice ()), some (some (.ok ⟨(), .succeeded⟩))⟩,
        ⟨.call (.invoiceState .bob ()), some (some (.ok .settled))⟩] (some (.ok ())) := by
    refine runs_ask (runs_ask (runs_leave (runs_ask ?_)))
    exact runs_done _
  refine runs_ask (runs_ask (runs_ask (runs_ask (hbalance.bind (runs_connected.bind ?_)))))
  refine (runs_funding _).bind (runs_active.bind (hprobe.bind (runs_retried.bind ?_)))
  exact runs_done _

theorem bootstrap_ready_channel_sound_bootstrapped :
    mined bootstrappedRun = [CHANNEL_CONFIRMATIONS] :=
  (bootstrap_ready_channel_sound goldenLib "bob" ⟨4000, 2000, 5000⟩ bootstrappedRun goldenPoint
    runs_bootstrapped).1

end Golden

end Nigiri.Fixtures
