import Nigiri.LndPair

/-! A channel between the two nodes of a pair, from its funding to two probe payments, one in
each direction. -/
namespace Nigiri.Fixtures
open Nigiri.WireFormat Nigiri.Process Nigiri.Polling Nigiri.Lnd
variable {Hash Invoice : Type} {α β : Type}

def LND_PEER_PORT : UInt16 := 9735
def CHANNEL_CONFIRMATIONS : UInt64 := 6

/-- The probe payments, in millisatoshis. -/
def READINESS_PAYMENT : UInt64 := 1000

/-- Amounts of a channel are satoshis. -/
structure ChannelAllocation where
  capacity : UInt64
  push : UInt64
  fundingAmount : UInt64

/-- How peer hosts are normalized and payment hashes written. -/
structure PairLib (Hash : Type) where
  normalizeOutboundPeerHost : String → Option String
  displayHash : Hash → String

/-- The two ends of a channel. -/
structure ChannelEnds where
  alicePublicKey : Bytes
  bobPublicKey : Bytes
  bobHost : String

def PeerAddress.new (lib : PairLib Hash) (publicKey : Bytes) (host : String) (port : UInt16) :
    Except (LndError Hash) PeerAddress :=
  let host := String.ofList (Core.trimMatches Core.isWhitespace host.toList)
  if host.isEmpty then .error (invalidRequest "peer host must not be blank")
  else if port = 0 then .error (invalidRequest "peer port must not be zero")
  else match lib.normalizeOutboundPeerHost host with
    | none => .error (invalidRequest "peer host must be a valid host without a port")
    | some host => .ok ⟨publicKey, host, port⟩

/-- An answer of LND under the deadline, or the error that its operation is reported with. -/
def lndOperation (service operation : String) (q : PairCall Hash Invoice)
    (answer : q.Answer → Except (LndError Hash) α) : PairTask Hash Invoice α :=
  run service (.operation operation) q fun result =>
    match answer result with
    | .ok a => .done (.ok a)
    | .error error => fail (.bootstrap operation error)

/-- A call of Bitcoin under the deadline, whose errors are returned as they are. -/
def bitcoinOperation (operation : String) (q : PairCall Hash Invoice)
    (answer : q.Answer → Except (FixtureError Hash) α) : PairTask Hash Invoice α :=
  run "lightning-channel" (.operation operation) q fun result =>
    match answer result with
    | .ok a => .done (.ok a)
    | .error error => fail error

section Loops
variable {σ : Type}

/-- A round of a loop that ends it with a result, or leaves a state for the next one. -/
abbrev PairRound (Hash Invoice σ β : Type) : Type 1 :=
  Task (@PairCall.Reply Hash Invoice) (σ ⊕ Except (Stop Hash) β)

def leave (result : Except (Stop Hash) β) : PairRound Hash Invoice σ β := .done (.inr result)

def leaveWith (error : FixtureError Hash) : PairRound Hash Invoice σ β :=
  leave (.error (.returned error))

/-- A part of a round whose error ends the loop. -/
def orLeave (p : PairTask Hash Invoice α) (k : α → PairRound Hash Invoice σ β) :
    PairRound Hash Invoice σ β :=
  p.bind fun
    | .error stop => leave (.error stop)
    | .ok a => k a

/-- A call of a round; only the deadline ends the loop here. -/
def runOrLeave (service : String) (observation : Observation Hash) (q : PairCall Hash Invoice)
    (k : q.Answer → PairRound Hash Invoice σ β) : PairRound Hash Invoice σ β :=
  .ask (.call q) fun
    | none => leaveWith (.readinessTimeout service observation)
    | some answer => k answer

/-- The pause before the next round. -/
def retryAfterDelay (service : String) (observation : Observation Hash) (next : σ) :
    PairRound Hash Invoice σ β :=
  runOrLeave service observation .retryDelay fun () => .done (.inl next)

end Loops

def balanceText (balance required : UInt64) : String :=
  s!"Alice confirmed balance={balance} required={required}"

def confirmedBalanceRound (required : UInt64) (observation : Observation Hash) :
    PairRound Hash Invoice (Observation Hash) Unit :=
  runOrLeave "lnd-alice" observation (.confirmedBalance .alice) fun
    | .ok balance =>
      if required ≤ balance then leave (.ok ())
      else
        let observation := .operation (balanceText balance required)
        retryAfterDelay "lnd-alice" observation observation
    | .error error =>
      if isTransientLndReadiness error then
        let observation := .notReady "Alice wallet balance is not ready" error
        retryAfterDelay "lnd-alice" observation observation
      else leaveWith (.bootstrap "query Alice confirmed balance" error)

def waitForConfirmedBalance (required : UInt64) : PairTask Hash Invoice Unit :=
  repeatUntil (confirmedBalanceRound required)
    (.operation s!"waiting for Alice confirmed balance to reach {required} satoshis")

def isAlreadyConnected : LndError Hash → Bool
  | .status .alreadyExists _ => true
  | _ => false

/-- A connection attempt that is still converging is looked at again after a pause. -/
def connectPeer (peer : PeerAddress) (observation : Observation Hash) :
    PairRound Hash Invoice (Observation Hash) Unit :=
  runOrLeave "lightning-channel" observation (.connectPeer .alice peer) fun
    | .ok () => retryAfterDelay "lightning-channel" observation observation
    | .error error =>
      if isTransientLndReadiness error || isAlreadyConnected error then
        let observation := .notReady "peer connection is converging" error
        retryAfterDelay "lightning-channel" observation observation
      else leaveWith (.bootstrap "connect Alice to Bob" error)

def peerRound (bobPublicKey : Bytes) (peer : PeerAddress) (observation : Observation Hash) :
    PairRound Hash Invoice (Observation Hash) Unit :=
  runOrLeave "lightning-channel" observation (.peerConnected .alice bobPublicKey) fun
    | .ok true => leave (.ok ())
    | .ok false => connectPeer peer observation
    | .error error =>
      if isTransientLndReadiness error then
        connectPeer peer (.notReady "peer listing is not ready" error)
      else leaveWith (.bootstrap "query Alice peer connection" error)

@[irreducible]
def ensurePeerConnected (lib : PairLib Hash) (ends : ChannelEnds) : PairTask Hash Invoice Unit :=
  match PeerAddress.new lib ends.bobPublicKey ends.bobHost LND_PEER_PORT with
  | .error error => fail (.bootstrap "configure Bob peer address" error)
  | .ok peer =>
    repeatUntil (peerRound ends.bobPublicKey peer)
      (.operation "waiting for Alice to connect to Bob over the private network")

section Open
variable (request : OpenChannelRequest)

/-- The one opening of a channel, which runs on while the mempool is looked at. -/
def opening : Started (PairCall Hash Invoice) := ⟨.openChannel .alice request, 0⟩

def flattenOpen (reply : Option (Except (LndError Hash) OutPoint)) :
    Except (FixtureError Hash) OutPoint :=
  match deadlineReply "lightning-channel" (.operation "open Alice-to-Bob channel") reply with
  | .error error => .error error
  | .ok (.error error) => .error (.bootstrap "open channel" error)
  | .ok (.ok channelPoint) => .ok channelPoint

def flattenMempool (observation : Observation Hash)
    (reply : Option (Except (FixtureError Hash) (List Txid))) :
    Except (FixtureError Hash) (List Txid) :=
  match deadlineReply "lightning-channel" observation reply with
  | .error error => .error error
  | .ok result => result

/-- What the loop carries until a new transaction is seen. -/
structure OpenState (Hash : Type) where
  opened : Option OutPoint
  observation : Observation Hash
  round : Nat

/-- The opening is looked at first, until it has ended; the mempool always. -/
def openBranches (state : OpenState Hash) : List (Branch (@PairCall.Reply Hash Invoice)
    (Except (FixtureError Hash) (OutPoint ⊕ List Txid))) :=
  [⟨opening request, state.opened.isNone, fun reply => (flattenOpen reply).map .inl⟩,
    ⟨⟨.mempoolTransactions, state.round⟩, true, fun reply =>
      (flattenMempool state.observation reply).map .inr⟩]

def newlyObserved (baseline current : List Txid) : List Txid :=
  current.filter fun txid => txid ∉ baseline

def openRound (baseline : List Txid) (state : OpenState Hash) :
    PairRound Hash Invoice (OpenState Hash) (Option OutPoint × List Txid) :=
  (select (openBranches request state)).bind fun
    | none => leave (.error .panicked)
    | some (.error error) => leaveWith error
    | some (.ok (.inl channelPoint)) =>
      .done (.inl ⟨some channelPoint, state.observation, state.round + 1⟩)
    | some (.ok (.inr current)) =>
      if newlyObserved baseline current = [] then
        let observation := .operation "channel funding transaction is not yet in mempool"
        retryAfterDelay "lightning-channel" observation ⟨state.opened, observation, state.round + 1⟩
      else leave (.ok (state.opened, newlyObserved baseline current))

def unobservedFunding (channelPoint : OutPoint) : LndError Hash :=
  .invalidResponse "open channel"
    "funding transaction was not observed before confirmation mining"
    (some channelPoint.txid.toText)

/-- The opening's result, once it has to be there. -/
def awaitOpened : Option OutPoint → PairTask Hash Invoice OutPoint
  | some channelPoint => .done (.ok channelPoint)
  | none => (finish (opening request)).bind fun reply =>
    match flattenOpen reply with
    | .error error => fail error
    | .ok channelPoint => .done (.ok channelPoint)

/-- Six blocks for the transactions that were new, among them the one that funds the channel. -/
def confirmOpened (triggered : Option OutPoint × List Txid) : PairTask Hash Invoice OutPoint :=
  tryBind (bitcoinOperation "mine six channel funding confirmations"
    (.mineBlocks CHANNEL_CONFIRMATIONS) id) fun () =>
  tryBind (awaitOpened request triggered.1) fun channelPoint =>
  if channelPoint.txid ∈ triggered.2 then .done (.ok channelPoint)
  else fail (.bootstrap "verify channel funding transaction" (unobservedFunding channelPoint))

def openAndConfirmChannel : PairTask Hash Invoice OutPoint :=
  tryBind (bitcoinOperation "capture mempool before opening Alice-to-Bob channel"
    .mempoolTransactions id) fun baseline =>
  tryBind (repeatUntil (openRound request baseline)
    ⟨none, .operation "waiting for the channel funding transaction in mempool", 0⟩)
    (confirmOpened request)

end Open

section Active
variable (channelPoint : OutPoint) (ends : ChannelEnds)

def infoObservation (operation : String) :
    Except (LndError Hash) LndSyncStatus → Except (FixtureError Hash) (Option LndSyncStatus)
  | .ok info => .ok (some info)
  | .error error =>
    if isTransientLndReadiness error then .ok none else .error (.bootstrap operation error)

def channelObservation (operation : String) : Except (LndError Hash) (Option ChannelReadiness) →
    Except (FixtureError Hash) (Option ChannelReadiness)
  | .ok channel => .ok channel
  | .error error =>
    if isTransientLndReadiness error then .ok none else .error (.bootstrap operation error)

def channelIsSpendable : Option ChannelReadiness → Bool
  | some channel => channel.active && READINESS_PAYMENT < channel.localBalance
  | none => false

/-- What is asked at once in a round of the wait for the channel. -/
inductive ChannelProbe where
  | aliceChannel
  | bobChannel
  | aliceInfo
  | bobInfo
  | bitcoinHeight
  deriving DecidableEq

instance : Fintype ChannelProbe where
  elems := {.aliceChannel, .bobChannel, .aliceInfo, .bobInfo, .bitcoinHeight}
  complete probe := by cases probe <;> decide

abbrev ChannelProbe.Out : ChannelProbe → Type
  | .aliceChannel | .bobChannel => Option ChannelReadiness
  | .aliceInfo | .bobInfo => Option LndSyncStatus
  | .bitcoinHeight => UInt64

def ChannelProbe.call : ChannelProbe → PairCall Hash Invoice
  | .aliceChannel => .channelReadiness .alice channelPoint ends.bobPublicKey
  | .bobChannel => .channelReadiness .bob channelPoint ends.alicePublicKey
  | .aliceInfo => .getInfo .alice
  | .bobInfo => .getInfo .bob
  | .bitcoinHeight => .blockHeight

/-- A probe's reply as its block returns it: a transient error of a node is no answer. -/
def ChannelProbe.read (observation : Observation Hash) : (probe : ChannelProbe) →
    (probe.call channelPoint ends : PairCall Hash Invoice).Reply →
      Except (FixtureError Hash) probe.Out
  | .aliceChannel, reply => do
    channelObservation "query Alice channel" (← deadlineReply "lnd-alice" observation reply)
  | .bobChannel, reply => do
    channelObservation "query Bob channel" (← deadlineReply "lnd-bob" observation reply)
  | .aliceInfo, reply => do
    infoObservation "query Alice graph synchronization"
      (← deadlineReply "lnd-alice" observation reply)
  | .bobInfo, reply => do
    infoObservation "query Bob graph synchronization" (← deadlineReply "lnd-bob" observation reply)
  | .bitcoinHeight, reply => do (← deadlineReply "bitcoind" observation reply)

abbrev channelProbes (observation : Observation Hash) (round : Nat) :
    Joined (@PairCall.Reply Hash Invoice) (FixtureError Hash) where
  Name := ChannelProbe
  Out := ChannelProbe.Out
  future probe := ⟨probe.call channelPoint ends, round⟩
  read := ChannelProbe.read channelPoint ends observation
  order := [.aliceChannel, .bobChannel, .aliceInfo, .bobInfo, .bitcoinHeight]

/-- Both sides can spend, and both nodes have the graph at the height of the same round. -/
def readyChannel (outs : (probe : ChannelProbe) → probe.Out) : Bool :=
  channelIsSpendable (outs .aliceChannel) && channelIsSpendable (outs .bobChannel) &&
    (outs .aliceInfo).any (graphSynchronized · (outs .bitcoinHeight)) &&
    (outs .bobInfo).any (graphSynchronized · (outs .bitcoinHeight))

def channelSeen (outs : (probe : ChannelProbe) → probe.Out) : Observation Hash :=
  .channel channelPoint (outs .bitcoinHeight) (outs .aliceChannel) (outs .aliceInfo)
    (outs .bobChannel) (outs .bobInfo)

/-- One round: the peers are connected, and all five probes are asked at once. -/
def activeRound (lib : PairLib Hash) (state : Observation Hash × Nat) :
    PairRound Hash Invoice (Observation Hash × Nat) Unit :=
  orLeave (ensurePeerConnected lib ends) fun () =>
    (tryJoin (channelProbes channelPoint ends state.1 state.2)).bind fun
      | .error error => leaveWith error
      | .ok outs =>
        if readyChannel outs then leave (.ok ())
        else
          let observation := channelSeen channelPoint outs
          retryAfterDelay "lightning-channel" observation (observation, state.2 + 1)

def waitForActiveChannel (lib : PairLib Hash) : PairTask Hash Invoice Unit :=
  repeatUntil (activeRound channelPoint ends lib)
    (.operation ("waiting for active channel " ++ channelPoint.toText), 0)

end Active

section Payments
variable [DecidableEq Hash] (lib : PairLib Hash)

def createReadinessInvoice (receiver : Node) : PairTask Hash Invoice (Invoice × Hash) :=
  lndOperation receiver.service "create 1000-msat readiness invoice"
    (.createReadinessInvoice receiver) id

def verifyReadinessPayment (paymentHash : Hash) (payment : PaymentReadiness Hash) :
    Except (Stop Hash) Unit :=
  if payment.paymentHash ≠ paymentHash ∨ payment.state ≠ .succeeded then
    .error (.returned (.bootstrap "verify readiness payment" (.invalidResponse "readiness payment"
      "payment did not succeed with the readiness invoice hash"
      (some (lib.displayHash paymentHash)))))
  else .ok ()

def InvoiceState.debugText : InvoiceState → String
  | .opened => "Open"
  | .settled => "Settled"
  | .canceled => "Canceled"
  | .accepted => "Accepted"
  | .unknown value => s!"Unknown({value})"

def unsettledInvoice (paymentHash : Hash) (state : InvoiceState) : LndError Hash :=
  .invalidResponse "readiness invoice"
    ("invoice reached non-settled state " ++ state.debugText) (some (lib.displayHash paymentHash))

def settledInvoiceRound (receiver : Node) (paymentHash : Hash) (observation : Observation Hash) :
    PairRound Hash Invoice (Observation Hash) Unit :=
  runOrLeave receiver.service observation (.invoiceState receiver paymentHash) fun
    | .ok .settled => leave (.ok ())
    | .ok .opened | .ok .accepted => retryAfterDelay receiver.service observation observation
    | .ok state =>
      leaveWith (.bootstrap "verify readiness invoice" (unsettledInvoice lib paymentHash state))
    | .error error =>
      if isTransientLndReadiness error then
        let observation := .notReady "readiness invoice is not ready" error
        retryAfterDelay receiver.service observation observation
      else leaveWith (.bootstrap "lookup readiness invoice" error)

def waitForSettledInvoice (receiver : Node) (paymentHash : Hash) : PairTask Hash Invoice Unit :=
  repeatUntil (settledInvoiceRound lib receiver paymentHash) (.operation
    s!"waiting for readiness invoice {lib.displayHash paymentHash} to settle")

def proveReadinessPayment : PairTask Hash Invoice Unit :=
  tryBind (createReadinessInvoice .bob) fun (invoice, paymentHash) =>
  tryBind (lndOperation "lnd-alice" "pay Alice-to-Bob 1000-msat readiness invoice"
    (.payReadinessInvoice .alice invoice) id) fun payment =>
  tryBind (.done (verifyReadinessPayment lib paymentHash payment)) fun () =>
  waitForSettledInvoice lib .bob paymentHash

/-- Only a failure for want of a route or of balance is tried again. -/
def isTransientRoutingFailure : LndError Hash → Bool
  | .paymentFailed _ reason => reason == "no route" || reason == "insufficient balance"
  | _ => false

def routeText (paymentHash : Hash) : String :=
  s!"Bob-to-Alice route is not ready for invoice {lib.displayHash paymentHash}"

/-- One attempt, with an invoice of its own. -/
def reverseRound (channelPoint : OutPoint) (ends : ChannelEnds) (observation : Observation Hash) :
    PairRound Hash Invoice (Observation Hash) Unit :=
  orLeave (waitForActiveChannel channelPoint ends lib) fun () =>
  orLeave (createReadinessInvoice .alice) fun (invoice, paymentHash) =>
  runOrLeave "lnd-bob" observation (.payReadinessInvoice .bob invoice) fun
    | .ok payment =>
      orLeave (.done (verifyReadinessPayment lib paymentHash payment)) fun () =>
      (waitForSettledInvoice lib .alice paymentHash).bind leave
    | .error error =>
      if isTransientRoutingFailure error then
        let observation := .notReady (routeText lib paymentHash) error
        retryAfterDelay "lightning-channel" observation observation
      else leaveWith (.bootstrap "pay Bob-to-Alice readiness invoice" error)

def proveReverseReadinessWithRetry (channelPoint : OutPoint) (ends : ChannelEnds) :
    PairTask Hash Invoice Unit :=
  repeatUntil (reverseRound lib channelPoint ends)
    (.operation "waiting for Bob-to-Alice routing policy propagation")

/-- The whole bootstrap: a funded node, an opened and confirmed channel, and both probes. -/
def bootstrapReadyChannel (bobHost : String) (allocation : ChannelAllocation) :
    PairTask Hash Invoice OutPoint :=
  tryBind (lndOperation "lnd-alice" "query Alice identity for channel bootstrap"
    (.getInfo .alice) id) fun aliceInfo =>
  tryBind (lndOperation "lnd-bob" "query Bob identity for channel bootstrap"
    (.getInfo .bob) id) fun bobInfo =>
  tryBind (lndOperation "lnd-alice" "request Alice P2WPKH funding address"
    (.newAddress .alice) id) fun address =>
  tryBind (bitcoinOperation "fund Alice on-chain wallet and mine its confirmation"
    (.fundAddress address allocation.fundingAmount) id) fun () =>
  tryBind (waitForConfirmedBalance allocation.capacity) fun () =>
  let ends : ChannelEnds := ⟨aliceInfo.publicKey, bobInfo.publicKey, bobHost⟩
  tryBind (ensurePeerConnected lib ends) fun () =>
  match OpenChannelRequest.new bobInfo.publicKey allocation.capacity allocation.push with
  | .error error => fail (.bootstrap "configure channel opening" error)
  | .ok request =>
    tryBind (openAndConfirmChannel request) fun channelPoint =>
    tryBind (waitForActiveChannel channelPoint ends lib) fun () =>
    tryBind (proveReadinessPayment lib) fun () =>
    tryBind (proveReverseReadinessWithRetry lib channelPoint ends) fun () =>
    .done (.ok channelPoint)

end Payments

end Nigiri.Fixtures
