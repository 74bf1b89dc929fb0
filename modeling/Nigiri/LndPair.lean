import Nigiri.FixtureError
import Nigiri.PegIn
import Nigiri.Polling

/-! The calls a pair fixture makes of its two LND nodes and of Bitcoin, each under one startup
deadline, and the wait until both nodes stand at the Bitcoin tip. -/
namespace Nigiri.Fixtures
open Nigiri.WireFormat Nigiri.Process Nigiri.Polling Nigiri.Lnd
variable {Hash Invoice : Type}

inductive Node where
  | alice
  | bob
  deriving DecidableEq, Repr

def Node.service : Node → String
  | .alice => "lnd-alice"
  | .bob => "lnd-bob"

structure PaymentReadiness (Hash : Type) where
  paymentHash : Hash
  state : PaymentState
  deriving DecidableEq, Repr

inductive InvoiceState where
  | opened
  | settled
  | canceled
  | accepted
  | unknown (value : Int32)
  deriving DecidableEq, Repr

structure PeerAddress where
  publicKey : Bytes
  host : String
  port : UInt16
  deriving DecidableEq, Repr

/-- The calls of the connector, by the node they go to, those of Bitcoin, and the pause between
two rounds. Amounts are satoshis. -/
inductive PairCall (Hash Invoice : Type) where
  | getInfo (node : Node)
  | newAddress (node : Node)
  | confirmedBalance (node : Node)
  | peerConnected (node : Node) (publicKey : Bytes)
  | connectPeer (node : Node) (peer : PeerAddress)
  | openChannel (node : Node) (request : OpenChannelRequest)
  | channelReadiness (node : Node) (channelPoint : OutPoint) (remotePublicKey : Bytes)
  | createReadinessInvoice (node : Node)
  | payReadinessInvoice (node : Node) (invoice : Invoice)
  | invoiceState (node : Node) (paymentHash : Hash)
  | blockHeight
  | fundAddress (address : String) (amount : UInt64)
  | mempoolTransactions
  | mineBlocks (blocks : UInt64)
  | retryDelay

/-- A mempool is a set of transaction ids; only membership in its list is read. -/
abbrev PairCall.Answer : PairCall Hash Invoice → Type
  | .getInfo _ => Except (LndError Hash) LndSyncStatus
  | .newAddress _ => Except (LndError Hash) String
  | .confirmedBalance _ => Except (LndError Hash) UInt64
  | .peerConnected .. => Except (LndError Hash) Bool
  | .connectPeer .. => Except (LndError Hash) Unit
  | .openChannel .. => Except (LndError Hash) OutPoint
  | .channelReadiness .. => Except (LndError Hash) (Option ChannelReadiness)
  | .createReadinessInvoice _ => Except (LndError Hash) (Invoice × Hash)
  | .payReadinessInvoice .. => Except (LndError Hash) (PaymentReadiness Hash)
  | .invoiceState .. => Except (LndError Hash) InvoiceState
  | .blockHeight => Except (FixtureError Hash) UInt64
  | .fundAddress .. => Except (FixtureError Hash) Unit
  | .mempoolTransactions => Except (FixtureError Hash) (List Txid)
  | .mineBlocks _ => Except (FixtureError Hash) Unit
  | .retryDelay => Unit

/-- What a call gives under the startup deadline, or that the deadline has passed. -/
abbrev PairCall.Reply (q : PairCall Hash Invoice) : Type := Option q.Answer

/-- A failed fixture returns an error; a selection without an enabled branch panics. -/
inductive Stop (Hash : Type) where
  | returned (error : FixtureError Hash)
  | panicked

abbrev PairTask (Hash Invoice α : Type) : Type 1 :=
  Task (@PairCall.Reply Hash Invoice) (Except (Stop Hash) α)

abbrev PairTrace (Hash Invoice : Type) := TaskTrace (@PairCall.Reply Hash Invoice)

abbrev PairEvent (Hash Invoice : Type) :=
  Event (Await (PairCall Hash Invoice)) (Await.Answer (@PairCall.Reply Hash Invoice))

def fail {α : Type} (error : FixtureError Hash) : PairTask Hash Invoice α :=
  .done (.error (.returned error))

def deadlineReply {α : Type} (service : String) (observation : Observation Hash) :
    Option α → Except (FixtureError Hash) α
  | none => .error (.readinessTimeout service observation)
  | some a => .ok a

/-- A call that is awaited under the deadline; only the deadline ends the task here. -/
def run {α : Type} (service : String) (observation : Observation Hash)
    (q : PairCall Hash Invoice) (k : q.Answer → PairTask Hash Invoice α) :
    PairTask Hash Invoice α :=
  .ask (.call q) fun
    | none => fail (.readinessTimeout service observation)
    | some answer => k answer

def waitBeforeRetry {α : Type} (service : String) (observation : Observation Hash)
    (k : PairTask Hash Invoice α) : PairTask Hash Invoice α :=
  run service observation .retryDelay fun () => k

def chainSynchronized (status : LndSyncStatus) (bitcoinHeight : UInt64) : Bool :=
  status.networkIsRegtest && status.syncedToChain &&
    status.blockHeight.toUInt64 == bitcoinHeight

def graphSynchronized (status : LndSyncStatus) (bitcoinHeight : UInt64) : Bool :=
  chainSynchronized status bitcoinHeight && status.syncedToGraph

/-- What a probe of a node brought: a deadline error, or what the node answered. -/
abbrev InfoResult (Hash : Type) :=
  Except (FixtureError Hash) (Except (LndError Hash) LndSyncStatus)

abbrev HeightResult (Hash : Type) :=
  Except (FixtureError Hash) (Except (FixtureError Hash) UInt64)

/-- The probes of one round that have completed. -/
structure SyncRound (Hash : Type) where
  aliceInfo : Option (InfoResult Hash)
  bobInfo : Option (InfoResult Hash)
  bitcoinHeight : Option (HeightResult Hash)

/-- A probe's result is kept, but an LND error that is not transient ends the wait. -/
def settleInfo (operation : String) (result : InfoResult Hash) :
    Except (FixtureError Hash) (InfoResult Hash) :=
  match result with
  | .ok (.error error) =>
    if isTransientLndReadiness error then .ok result else .error (.bootstrap operation error)
  | result => .ok result

def syncBranches (service : String) (observation : Observation Hash) (round : Nat)
    (got : SyncRound Hash) :
    List (Branch (@PairCall.Reply Hash Invoice) (Except (FixtureError Hash) (SyncRound Hash))) :=
  [⟨⟨.getInfo .alice, round⟩, got.aliceInfo.isNone, fun reply =>
      (settleInfo "query Alice synchronization" (deadlineReply service observation reply)).map
        fun result => { got with aliceInfo := some result }⟩,
    ⟨⟨.getInfo .bob, round⟩, got.bobInfo.isNone, fun reply =>
      (settleInfo "query Bob synchronization" (deadlineReply "lnd-bob" observation reply)).map
        fun result => { got with bobInfo := some result }⟩,
    ⟨⟨.blockHeight, round⟩, got.bitcoinHeight.isNone, fun reply =>
      .ok { got with bitcoinHeight := some (deadlineReply "bitcoind" observation reply) }⟩]

abbrev ProbeResults (Hash : Type) := InfoResult Hash × InfoResult Hash × HeightResult Hash

/-- The round is over when all three have completed. -/
def takeResults (got : SyncRound Hash) : SyncRound Hash ⊕ Except (Stop Hash) (ProbeResults Hash) :=
  match got.aliceInfo, got.bobInfo, got.bitcoinHeight with
  | some alice, some bob, some bitcoin => .inr (.ok (alice, bob, bitcoin))
  | _, _, _ => .inl got

/-- One selection among the probes that have not completed. -/
def probeStep (service : String) (observation : Observation Hash) (round : Nat)
    (got : SyncRound Hash) : Task (@PairCall.Reply Hash Invoice)
      (SyncRound Hash ⊕ Except (Stop Hash) (ProbeResults Hash)) :=
  (select (syncBranches service observation round got)).bind fun
    | none => .done (.inr (.error .panicked))
    | some (.error error) => .done (.inr (.error (.returned error)))
    | some (.ok got) => .done (takeResults got)

/-- The three probes of a round, each polled until it has completed. -/
def probeRound (service : String) (observation : Observation Hash) (round : Nat) :
    PairTask Hash Invoice (ProbeResults Hash) :=
  repeatUntil (probeStep service observation round) ⟨none, none, none⟩

/-- How the wait goes on after a round. -/
inductive SyncArm (Hash : Type) where
  | synchronized
  | failed (error : FixtureError Hash)
  | again (service : String) (observation : Observation Hash)

def heightsText (alice bob : LndSyncStatus) (bitcoinHeight : UInt64) : String :=
  s!"Alice height={alice.blockHeight} regtest={alice.networkIsRegtest} " ++
    s!"chain={alice.syncedToChain} graph={alice.syncedToGraph}; " ++
    s!"Bob height={bob.blockHeight} regtest={bob.networkIsRegtest} " ++
    s!"chain={bob.syncedToChain} graph={bob.syncedToGraph}; bitcoind height={bitcoinHeight}"

/-- The first arm that fits decides; the answers of all three are compared first. -/
def leaveRound : InfoResult Hash → InfoResult Hash → HeightResult Hash → SyncArm Hash
  | .ok (.ok alice), .ok (.ok bob), .ok (.ok bitcoinHeight) =>
    if chainSynchronized alice bitcoinHeight && chainSynchronized bob bitcoinHeight then
      .synchronized
    else
      .again (if !chainSynchronized alice bitcoinHeight then "lnd-alice" else "lnd-bob")
        (.operation (heightsText alice bob bitcoinHeight))
  | .error error, _, _ | _, .error error, _ | _, _, .error error => .failed error
  | .ok (.error error), _, _ => .again "lnd-alice" (.notReady "Alice GetInfo is not ready" error)
  | _, .ok (.error error), _ => .again "lnd-bob" (.notReady "Bob GetInfo is not ready" error)
  | _, _, .ok (.error error) => .again "bitcoind" (.tipNotReady error)

/-- One round, from the service and the observation the last one left. -/
def syncRound (state : String × Observation Hash × Nat) :
    Task (@PairCall.Reply Hash Invoice)
      ((String × Observation Hash × Nat) ⊕ Except (Stop Hash) Unit) :=
  (probeRound state.1 state.2.1 state.2.2).bind fun
    | .error stop => .done (.inr (.error stop))
    | .ok (alice, bob, bitcoin) =>
      match leaveRound alice bob bitcoin with
      | .synchronized => .done (.inr (.ok ()))
      | .failed error => .done (.inr (.error (.returned error)))
      | .again service observation =>
        .ask (.call .retryDelay) fun
          | none => .done (.inr (.error (.returned (.readinessTimeout service observation))))
          | some () => .done (.inl (service, observation, state.2.2 + 1))

def waitForLndSync : PairTask Hash Invoice Unit :=
  repeatUntil syncRound
    ("lnd-alice", .operation "waiting for both LND nodes to synchronize to regtest", 0)

end Nigiri.Fixtures
