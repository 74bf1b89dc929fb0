import Nigiri.WireFormat
import Nigiri.Process

/-! Reading a peg-out from a Liquid transaction and releasing it on Bitcoin. Scripts,
addresses, amounts and hexadecimal text belong to libraries and are parameters. -/
namespace Nigiri.Core
open Nigiri.WireFormat Nigiri.Process
variable {Address : Type}

/-- The input of the transaction that issued an asset. -/
structure IssuanceTxIn where
  txid : String
  vin : UInt32
  deriving DecidableEq, Repr

inductive NigiriError where
  | httpTransport (operation : String)
  | httpStatus (operation : String) (status : Nat) (body : String)
  | rpcFailed (method : String) (code : Int32) (message : String)
  | timeout (operation : String) (duration : Nat)
  | invalidRequest (detail : String)
  | invalidResponse (operation detail : String)
  | postTransactionMiningFailed (operation txid : String) (source : NigiriError)
  | assetTransferFailed (asset : String) (issuanceTxin : IssuanceTxIn) (source : NigiriError)
  | pegOutputNotFound (liquidTxid : String)
  | pegOutputMalformed (liquidTxid detail : String)
  | pegInImmature (reached need : UInt64)
  deriving DecidableEq, Repr

/-- One item of a script, as the script library reads it. -/
inductive Instruction where
  | op (code : UInt8)
  | pushBytes (bytes : Bytes)
  | malformed
  deriving DecidableEq, Repr

/-- The libraries. Amounts are satoshis; a JSON number is its exact text. -/
structure PegLib (Address : Type) where
  fromHex : String → Option Bytes
  instructions : Bytes → List Instruction
  displayBlockHash : Bytes → String
  addressFromScript : Bytes → Option Address
  displayAddress : Address → String
  amountFromStr : String → Option UInt64
  amountToString : UInt64 → String
  numberFromStr : String → Option String
  txidFromStr : String → Option String
  addressFromStr : String → Option String
  isRegtest : String → Bool

structure LiquidOutput where
  asset : Option Bytes
  value : Option String
  scriptPubKeyHex : String
  deriving DecidableEq, Repr

structure LiquidTransaction where
  vout : List LiquidOutput
  deriving DecidableEq, Repr

/-- What a pair remembers of its two chains. -/
structure Peg where
  parentGenesis : Bytes
  peggedAsset : Bytes

structure PegOutTarget where
  parentGenesis : Bytes
  destination : Bytes
  deriving DecidableEq, Repr

def OP_RETURN : UInt8 := 0x6a

def decodePegOutScript (lib : PegLib Address) (script : Bytes) : Except String PegOutTarget :=
  match lib.instructions script with
  | .op op :: rest =>
    if op ≠ OP_RETURN then .error "script does not begin with OP_RETURN"
    else match rest with
      | .pushBytes genesis :: rest =>
        if genesis.length ≠ 32 then .error "expected a 32-byte parent genesis hash push"
        else match rest with
          | .pushBytes destination :: _ =>
            if destination = [] then .error "expected a non-empty destination script push"
            else .ok ⟨genesis, destination⟩
          | _ => .error "expected a non-empty destination script push"
      | _ => .error "expected a 32-byte parent genesis hash push"
  | _ => .error "script does not begin with OP_RETURN"

section Decode
variable (lib : PegLib Address) (peg : Peg) (txid : String)

def malformed (detail : String) : NigiriError := .pegOutputMalformed txid detail

/-- What an output's script names, if it is a peg-out at all. -/
def outputTarget (output : LiquidOutput) : Option PegOutTarget :=
  match lib.fromHex output.scriptPubKeyHex with
  | none => none
  | some raw => (decodePegOutScript lib raw).toOption

/-- The destination and amount of an output that names this pair's parent. -/
def readPegOut (target : PegOutTarget) (output : LiquidOutput) :
    Except NigiriError (Address × UInt64) :=
  match lib.addressFromScript target.destination with
  | none => .error (malformed txid "destination script is not a standard address")
  | some destination =>
    match output.value with
    | none => .error (malformed txid "peg-out output has no explicit value")
    | some value =>
      match lib.amountFromStr value with
      | none => .error (malformed txid s!"peg-out value {value} is not an amount")
      | some amount =>
        if output.asset ≠ some peg.peggedAsset then
          .error (malformed txid
            "peg-out output must carry the explicit configured pegged asset")
        else .ok (destination, amount)

def mismatchDetail (target : PegOutTarget) : String :=
  let theirs := lib.displayBlockHash target.parentGenesis
  let ours := lib.displayBlockHash peg.parentGenesis
  s!"peg-out names parent chain {theirs} but this pair's parent is {ours}"

/-- One pass over the outputs, with the first foreign peg-out and the selected own one. -/
def scanOutputs (mismatch : Option String) (selected : Option (Address × UInt64)) :
    List LiquidOutput → Except NigiriError (Address × UInt64)
  | [] =>
    match selected, mismatch with
    | some output, _ => .ok output
    | none, some detail => .error (malformed txid detail)
    | none, none => .error (.pegOutputNotFound txid)
  | output :: rest =>
    match outputTarget lib output with
    | none => scanOutputs mismatch selected rest
    | some target =>
      if target.parentGenesis ≠ peg.parentGenesis then
        scanOutputs (mismatch.or (some (mismatchDetail lib peg target))) selected rest
      else if selected.isSome then
        .error (malformed txid "multiple peg-out outputs name this parent chain")
      else
        match readPegOut lib peg txid target output with
        | .error error => .error error
        | .ok read => scanOutputs mismatch (some read) rest

def decodePegOut (transaction : LiquidTransaction) :
    Except NigiriError (Address × UInt64) :=
  scanOutputs lib peg txid none none transaction.vout

end Decode

/-- What the Liquid node answers to a request for a peg-in address. -/
structure PegInAddress where
  mainchainAddress : String
  claimScript : String
  deriving DecidableEq, Repr

structure MainchainTransaction where
  hex : String
  confirmations : UInt64
  deriving DecidableEq, Repr

/-- The calls of a release and of a peg-in. The Liquid node gets `getRawTransaction`,
`getPegInAddress` and `claimPegIn`, the Bitcoin node the others; `getMainchainTransaction` is
its own `getrawtransaction`. -/
inductive PegCall where
  | getRawTransaction (txid : String) (verbose : UInt64)
  | sendToAddress (address : String) (amount : String)
  | getNewAddress
  | generateToAddress (blocks : UInt64) (address : String)
  | getPegInAddress
  | getMainchainTransaction (txid : String)
  | getTxOutProof (txid : String)
  | claimPegIn (hex proof : String)
  deriving DecidableEq, Repr

abbrev PegCall.Answer : PegCall → Type
  | .getRawTransaction .. => Except NigiriError LiquidTransaction
  | .sendToAddress .. => Except NigiriError String
  | .getNewAddress => Except NigiriError String
  | .generateToAddress .. => Except NigiriError (List String)
  | .getPegInAddress => Except NigiriError PegInAddress
  | .getMainchainTransaction _ => Except NigiriError MainchainTransaction
  | .getTxOutProof _ => Except NigiriError String
  | .claimPegIn .. => Except NigiriError String

abbrev PegProc := Proc PegCall PegCall.Answer

def amountAsJsonNumber (lib : PegLib Address) (amount : UInt64) (detail : String) :
    Except NigiriError (String × String) :=
  let amountText := lib.amountToString amount
  match lib.numberFromStr amountText with
  | some number => .ok (amountText, number)
  | none => .error (.invalidRequest detail)

def isWhitespace (c : Char) : Bool :=
  let n := c.toNat
  (9 ≤ n && n ≤ 13) || n == 32 || n == 0x85 || n == 0xa0 || n == 0x1680
    || (0x2000 ≤ n && n ≤ 0x200a) || n == 0x2028 || n == 0x2029 || n == 0x202f
    || n == 0x205f || n == 0x3000

def trimMatches (p : Char → Bool) (cs : List Char) : List Char :=
  ((cs.dropWhile p).reverse.dropWhile p).reverse

/-- Text answers are trimmed, with and without quotes, before they are parsed. -/
def parseString (parse : String → Option String) (operation value expected : String) :
    Except NigiriError String :=
  let text := trimMatches (· == '"') (trimMatches isWhitespace value.toList)
  match parse (String.ofList text) with
  | some parsed => .ok parsed
  | none => .error (.invalidResponse operation ("expected " ++ expected))

def parseTxid (lib : PegLib Address) (operation value : String) : Except NigiriError String :=
  parseString lib.txidFromStr operation value "Bitcoin txid"

def parseAddress (lib : PegLib Address) (operation value : String) :
    Except NigiriError String := do
  let unchecked ← parseString lib.addressFromStr operation value "Bitcoin address"
  if lib.isRegtest unchecked then return unchecked
  else .error (.invalidResponse operation "expected Bitcoin address was not for regtest")

/-- One block to a fresh address; the payment is committed whatever becomes of it. -/
def mineCommittedTransaction (lib : PegLib Address) (operation txid : String) :
    PegProc (Except NigiriError Unit) :=
  let failed (source : NigiriError) : PegProc (Except NigiriError Unit) :=
    .done (.error (.postTransactionMiningFailed operation txid source))
  .ask .getNewAddress fun
    | .error source => failed source
    | .ok value =>
      match parseAddress lib "new address" value with
      | .error source => failed source
      | .ok address =>
        .ask (.generateToAddress 1 address) fun
          | .error source => failed source
          | .ok _ => .done (.ok ())

def faucet (lib : PegLib Address) (address : String) (amount : UInt64) :
    PegProc (Except NigiriError String) :=
  match amountAsJsonNumber lib amount "faucet amount could not be represented as JSON" with
  | .error error => .done (.error error)
  | .ok (_, number) =>
    .ask (.sendToAddress address number) fun
      | .error error => .done (.error error)
      | .ok value =>
        match parseTxid lib "faucet" value with
        | .error error => .done (.error error)
        | .ok txid => do
          match ← mineCommittedTransaction lib "faucet" txid with
          | .error error => return .error error
          | .ok () => return .ok txid

structure PegOut (Address : Type) where
  liquidTxid : String
  destination : Address
  amount : UInt64
  bitcoinTxid : String

def releasePegOut (lib : PegLib Address) (peg : Peg) (liquidTxid : String) :
    PegProc (Except NigiriError (PegOut Address)) :=
  .ask (.getRawTransaction liquidTxid 1) fun
    | .error error => .done (.error error)
    | .ok transaction =>
      match decodePegOut lib peg liquidTxid transaction with
      | .error error => .done (.error error)
      | .ok (destination, amount) => do
        match ← faucet lib (lib.displayAddress destination) amount with
        | .error error => return .error error
        | .ok bitcoinTxid => return .ok ⟨liquidTxid, destination, amount, bitcoinTxid⟩

end Nigiri.Core
