import Nigiri.NodeRpc
import Nigiri.TwoPhase

/-! The operations of a client that commit on its node and then go on: a faucet payment, a
broadcast, and the issuance of an asset. -/
namespace Nigiri.Core
open Nigiri.Process Nigiri.TwoPhase
variable {Address : Type} {α β : Type}

inductive NigiriNetwork where
  | bitcoin
  | liquid
  deriving DecidableEq, Repr

/-- The libraries of both networks. The hash of a contract is that of its JSON text. -/
structure NodeLib (Address : Type) extends PegLib Address where
  liquidTxidFromStr : String → Option String
  liquidAddressFromStr : String → Option String
  isLiquidRegtest : String → Bool
  contractHash : Value → Option String

/-- What the node answers to an issuance. -/
structure IssueAssetResponse where
  txid : String
  vin : UInt32
  asset : String
  deriving DecidableEq, Repr

structure MintResponse where
  asset : String
  txid : String
  issuanceTxin : IssuanceTxIn
  deriving DecidableEq, Repr

/-- The calls to the node. Both payments are its `sendtoaddress`; of the second the transaction id
is read at once. -/
inductive NodeCall where
  | sendToAddress (params : List Value)
  | sendRawTransaction (params : List Value)
  | getNewAddress
  | generateToAddress (blocks : UInt64) (address : String)
  | issueAsset (params : List Value)
  | sendAsset (params : List Value)

abbrev NodeCall.Answer : NodeCall → Type
  | .sendToAddress _ => Except NigiriError String
  | .sendRawTransaction _ => Except NigiriError String
  | .getNewAddress => Except NigiriError String
  | .generateToAddress .. => Except NigiriError (List String)
  | .issueAsset _ => Except NigiriError IssueAssetResponse
  | .sendAsset _ => Except NigiriError String

abbrev NodeProc := Proc NodeCall NodeCall.Answer

namespace NigiriNetwork

def nativeSendParams (address amount : String) : NigiriNetwork → List Value
  | bitcoin => [.string address, .number amount]
  | liquid => [.string address, .number amount, .string "", .string "", .bool false, .bool false,
      .number "1", .string "unset", .bool false, .string ""]

variable (lib : NodeLib Address)

def parseTxid (operation value : String) : NigiriNetwork → Except NigiriError String
  | bitcoin => Core.parseTxid lib.toPegLib operation value
  | liquid => parseString lib.liquidTxidFromStr operation value "Liquid txid"

def parseAddress (operation value : String) : NigiriNetwork → Except NigiriError String
  | bitcoin => Core.parseAddress lib.toPegLib operation value
  | liquid => do
    let address ← parseString lib.liquidAddressFromStr operation value "Liquid address"
    if lib.isLiquidRegtest address then return address
    else .error (.invalidResponse operation "expected Liquid address was not for regtest")

end NigiriNetwork

namespace NigiriClient
variable (lib : NodeLib Address) (network : NigiriNetwork)

/-- A step whose error is returned at once. -/
def orReturn (p : NodeProc (Except NigiriError α)) (k : α → NodeProc (Except NigiriError β)) :
    NodeProc (Except NigiriError β) :=
  p.bind fun
    | .error error => .done (.error error)
    | .ok a => k a

def newAddress : NodeProc (Except NigiriError String) :=
  .ask .getNewAddress fun
    | .error error => .done (.error error)
    | .ok value => .done (network.parseAddress lib "new address" value)

def generateToAddress (blocks : UInt64) (address : String) :
    NodeProc (Except NigiriError (List String)) :=
  if blocks = 0 then .done (.error (.invalidRequest "block count must be greater than zero"))
  else .ask (.generateToAddress blocks address) .done

def mineCommittedTransaction (operation txid : String) : NodeProc (Except NigiriError Unit) :=
  let result : NodeProc (Except NigiriError Unit) :=
    orReturn (newAddress lib network) fun address =>
    orReturn (generateToAddress 1 address) fun _ => .done (.ok ())
  result.bind fun result => .done (result.mapError fun source =>
    .postTransactionMiningFailed operation txid source)

/-- The rest of an operation whose commit is answered with the text of a transaction id. -/
def confirmCommitted (operation : String) :
    Except NigiriError String → NodeProc (Except NigiriError String)
  | .error error => .done (.error error)
  | .ok value =>
    match network.parseTxid lib operation value with
    | .error error => .done (.error error)
    | .ok txid => orReturn (mineCommittedTransaction lib network operation txid) fun () =>
      .done (.ok txid)

/-- One bitcoin, in satoshis. -/
def ONE_BTC : UInt64 := 100000000

def faucet (address : String) (amount : Option UInt64) : NodeProc (Except NigiriError String) :=
  match amountAsJsonNumber lib.toPegLib (amount.getD ONE_BTC)
    "faucet amount could not be represented as JSON" with
  | .error error => .done (.error error)
  | .ok (_, number) =>
    .ask (.sendToAddress (network.nativeSendParams address number))
      (confirmCommitted lib network "faucet")

def broadcastTx (transactionHex : String) : NodeProc (Except NigiriError String) :=
  .ask (.sendRawTransaction [.string transactionHex])
    (confirmCommitted lib network "broadcast transaction")

def assetContract (name ticker : String) : Value :=
  .object [("entity", .object [("domain", .string "nigiri-rs.invalid")]),
    ("issuer_pubkey", .string (String.join (List.replicate 33 "00"))), ("name", .string name),
    ("precision", .number "0"), ("ticker", .string ticker), ("version", .number "0")]

def mint (address : String) (quantity : UInt64) (name ticker : String) :
    NodeProc (Except NigiriError MintResponse) :=
  match lib.contractHash (assetContract name ticker) with
  | none => .done (.error (.invalidRequest "asset contract could not be constructed"))
  | some contractHash =>
    let number := Value.number (toString quantity.toNat)
    .ask (.issueAsset [number, .number "0", .bool true, .string contractHash]) fun
      | .error error => .done (.error error)
      | .ok issued =>
        .ask (.sendAsset [.string address, number, .string "", .string "", .bool false,
          .bool false, .number "1", .string "unset", .bool false, .string issued.asset]) fun
          | .error source =>
            .done (.error (.assetTransferFailed issued.asset ⟨issued.txid, issued.vin⟩ source))
          | .ok txid => .done (.ok ⟨issued.asset, txid, ⟨issued.txid, issued.vin⟩⟩)

section Committed
variable (operation : String)

/-- Payments, broadcasts and issuances commit; mining and the transfer of an asset wait for that.
What was committed is told by a transaction id that can be read, or by an issued asset. -/
def commitPlan : Plan NodeCall NodeCall.Answer String where
  commits
    | .sendToAddress _ | .sendRawTransaction _ | .issueAsset _ => true
    | _ => false
  follows
    | .generateToAddress .. | .sendAsset _ => true
    | _ => false
  committed
    | ⟨.sendToAddress _, some (.ok value)⟩ => (network.parseTxid lib operation value).toOption
    | ⟨.sendRawTransaction _, some (.ok value)⟩ =>
      (network.parseTxid lib operation value).toOption
    | ⟨.issueAsset _, some (.ok issued)⟩ => some issued.asset
    | _ => none
  committed_commits e id h := by
    obtain ⟨q, reply⟩ := e
    cases q <;> first | rfl | cases h
  follows_commits q h := by
    cases q <;> first | rfl | cases h

/-- The error of a failed confirmation tells the transaction. -/
def TellsTxid (txid : String) (error : NigiriError) : Prop :=
  ∃ source, error = .postTransactionMiningFailed operation txid source

/-- The error of a failed transfer tells the asset. -/
def TellsAsset (asset : String) (error : NigiriError) : Prop :=
  ∃ issuanceTxin source, error = .assetTransferFailed asset issuanceTxin source

variable {lib network operation} {q : NodeCall} {value txid : String}

theorem asks_mineCommittedTransaction :
    Asks ((commitPlan lib network operation).commits · = false)
      (mineCommittedTransaction lib network operation txid) := by
  refine Asks.bind ?_ fun _ => trivial
  refine Asks.bind ⟨rfl, fun reply => by cases reply <;> trivial⟩ fun address => ?_
  cases address with
  | error error => trivial
  | ok address => exact Asks.bind ⟨rfl, fun _ => trivial⟩ fun mined => by cases mined <;> trivial

theorem mineCommittedTransaction_tells {t : Trace NodeCall NodeCall.Answer}
    {result : Except NigiriError Unit}
    (hrun : Runs (mineCommittedTransaction lib network operation txid) t (some result)) :
    Settles (TellsTxid operation) (fun _ _ => True) txid result := by
  obtain ⟨mined, _, _, _, _, hdone⟩ := Runs.of_bind hrun
  obtain ⟨_, rfl⟩ := Runs.of_done hdone
  cases mined with
  | error source => exact ⟨source, rfl⟩
  | ok _ => trivial

/-- A payment or a broadcast ends with the error of its answer, or mines for the transaction id
that it has read there. -/
theorem confirmCommitted_settles (reply : Except NigiriError String) :
    (reply.toOption.bind (fun value => (network.parseTxid lib operation value).toOption) = none ∧
      ∃ error, confirmCommitted lib network operation reply = .done (.error error)) ∨
    ∃ id, reply.toOption.bind (fun value => (network.parseTxid lib operation value).toOption) =
        some id ∧
      Asks ((commitPlan lib network operation).commits · = false)
        (confirmCommitted lib network operation reply) ∧
      ∀ t result, Runs (confirmCommitted lib network operation reply) t (some result) →
        Settles (TellsTxid operation) (fun id returned => returned = id) id result := by
  cases reply with
  | error error => exact .inl ⟨rfl, error, rfl⟩
  | ok value =>
    simp only [confirmCommitted, Except.toOption, Option.bind_some]
    cases network.parseTxid lib operation value with
    | error error => exact .inl ⟨rfl, error, rfl⟩
    | ok txid =>
      refine .inr ⟨txid, rfl, ?_, fun t result hrun => ?_⟩
      · exact Asks.bind asks_mineCommittedTransaction fun mined => by cases mined <;> trivial
      · obtain ⟨mined, _, _, _, hmined, hdone⟩ := Runs.of_bind hrun
        have htells := mineCommittedTransaction_tells hmined
        cases mined with
        | error error =>
          obtain ⟨_, rfl⟩ := Runs.of_done hdone
          exact htells
        | ok _ =>
          obtain ⟨_, rfl⟩ := Runs.of_done hdone
          rfl

end Committed

section Operations
variable {lib : NodeLib Address} {network : NigiriNetwork} {t : Trace NodeCall NodeCall.Answer}

theorem faucet_keepsId {address : String} {amount : Option UInt64}
    {o : Option (Except NigiriError String)}
    (hrun : Runs (faucet lib network address amount) t o) :
    KeepsId (commitPlan lib network "faucet") (TellsTxid "faucet")
      (fun id txid => txid = id) t o := by
  rw [faucet] at hrun
  cases hamount : amountAsJsonNumber lib.toPegLib (amount.getD ONE_BTC)
      "faucet amount could not be represented as JSON" with
  | error error =>
    rw [hamount] at hrun
    exact keepsId_refused hrun
  | ok number =>
    rw [hamount] at hrun
    refine keepsId_ask rfl rfl (fun reply => ?_) hrun
    have hsettles := @confirmCommitted_settles _ lib network "faucet" reply
    cases reply <;> exact hsettles

theorem broadcastTx_keepsId {transactionHex : String} {o : Option (Except NigiriError String)}
    (hrun : Runs (broadcastTx lib network transactionHex) t o) :
    KeepsId (commitPlan lib network "broadcast transaction") (TellsTxid "broadcast transaction")
      (fun id txid => txid = id) t o := by
  refine keepsId_ask rfl rfl (fun reply => ?_) hrun
  have hsettles := @confirmCommitted_settles _ lib network "broadcast transaction" reply
  cases reply <;> exact hsettles

theorem mint_keepsId {address name ticker : String} {quantity : UInt64}
    {o : Option (Except NigiriError MintResponse)}
    (hrun : Runs (mint lib address quantity name ticker) t o) :
    KeepsId (commitPlan lib network "mint") TellsAsset
      (fun asset response => response.asset = asset) t o := by
  rw [mint] at hrun
  cases hcontract : lib.contractHash (assetContract name ticker) with
  | none =>
    rw [hcontract] at hrun
    exact keepsId_refused hrun
  | some contractHash =>
    rw [hcontract] at hrun
    refine keepsId_ask rfl rfl (fun reply => ?_) hrun
    cases reply with
    | error error => exact .inl ⟨rfl, error, rfl⟩
    | ok issued =>
      refine .inr ⟨issued.asset, rfl, ⟨rfl, fun sent => by cases sent <;> trivial⟩, ?_⟩
      intro t result hsent
      obtain ⟨sent, _, _, hdone⟩ := Runs.of_ask hsent
      cases sent with
      | error source =>
        obtain ⟨_, rfl⟩ := Runs.of_done hdone
        exact ⟨_, source, rfl⟩
      | ok txid =>
        obtain ⟨_, rfl⟩ := Runs.of_done hdone
        rfl

/-- Whatever the node answers, a faucet payment, a broadcast and an issuance commit at most once,
go on only from what was committed, and tell it in every later error and in their result. -/
theorem committed_ids_are_kept (lib : NodeLib Address) (network : NigiriNetwork)
    (t : Trace NodeCall NodeCall.Answer) :
    (∀ address amount o, Runs (faucet lib network address amount) t o →
      KeepsId (commitPlan lib network "faucet") (TellsTxid "faucet")
        (fun id txid => txid = id) t o) ∧
    (∀ transactionHex o, Runs (broadcastTx lib network transactionHex) t o →
      KeepsId (commitPlan lib network "broadcast transaction")
        (TellsTxid "broadcast transaction") (fun id txid => txid = id) t o) ∧
    ∀ address quantity name ticker o, Runs (mint lib address quantity name ticker) t o →
      KeepsId (commitPlan lib network "mint") TellsAsset
        (fun asset response => response.asset = asset) t o :=
  ⟨fun _ _ _ => faucet_keepsId, fun _ _ => broadcastTx_keepsId, fun _ _ _ _ _ => mint_keepsId⟩

end Operations

/-- The same requests in the same order, of a call of a peg to its Bitcoin node and of a client to
its own. -/
inductive SameCalls : PegProc α → NodeProc α → Prop where
  | done (a : α) : SameCalls (.done a) (.done a)
  | send {address amount k k'} (h : ∀ reply, SameCalls (k reply) (k' reply)) :
    SameCalls (.ask (.sendToAddress address amount) k)
      (.ask (.sendToAddress [.string address, .number amount]) k')
  | address {k k'} (h : ∀ reply, SameCalls (k reply) (k' reply)) :
    SameCalls (.ask .getNewAddress k) (.ask .getNewAddress k')
  | mine {blocks address k k'} (h : ∀ reply, SameCalls (k reply) (k' reply)) :
    SameCalls (.ask (.generateToAddress blocks address) k)
      (.ask (.generateToAddress blocks address) k')

/-- A peg pays through the faucet of its Bitcoin client. -/
theorem faucet_bitcoin (lib : NodeLib Address) (address : String) (amount : UInt64) :
    SameCalls (Core.faucet lib.toPegLib address amount)
      (faucet lib .bitcoin address (some amount)) := by
  rw [Core.faucet, faucet, Option.getD_some]
  cases amountAsJsonNumber lib.toPegLib amount
      "faucet amount could not be represented as JSON" with
  | error error => exact .done _
  | ok number =>
    refine .send fun sent => ?_
    cases sent with
    | error error => exact .done _
    | ok value =>
      simp only [confirmCommitted, NigiriNetwork.parseTxid]
      cases Core.parseTxid lib.toPegLib "faucet" value with
      | error error => exact .done _
      | ok txid =>
        refine .address fun issued => ?_
        cases issued with
        | error source => exact .done _
        | ok issued =>
          simp only [NigiriNetwork.parseAddress]
          cases Core.parseAddress lib.toPegLib "new address" issued with
          | error source => exact .done _
          | ok address =>
            refine .mine fun mined => ?_
            cases mined <;> exact .done _

end NigiriClient

end Nigiri.Core
