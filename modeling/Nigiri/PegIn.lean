import Nigiri.Peg

/-! A whole peg-in: an address, a deposit, its maturity, and the claim, which is submitted again
while the Liquid node's view of the mainchain lags behind. -/
namespace Nigiri.Core
open Nigiri.Process
variable {Address : Type}

/-- How many extra blocks are mined while waiting for the Liquid node to catch up. -/
def CLAIM_RETRY_BLOCKS : Nat := 20

/-- Only the maturity rejection is retried; its code also covers permanent refusals. -/
def worthRetrying : NigiriError → Bool
  | .pegInImmature _ _ => true
  | .rpcFailed method code message =>
    code == -8 && method == "claimpegin" &&
      message == "Peg-in Bitcoin transaction needs more confirmations to be sent."
  | _ => false

structure PegInRequest where
  mainchainAddress : String
  claimScript : String
  deriving DecidableEq, Repr

structure PegIn where
  mainchainTxid : String
  claimTxid : String
  amount : UInt64
  deriving DecidableEq, Repr

/-- How a call ends: with its result, or in a failed expectation. -/
inductive Finished (α : Type) where
  | returned (a : α)
  | panicked
  deriving DecidableEq, Repr

/-- A step whose error is returned at once. -/
def orReturn {α β : Type} (p : PegProc (Except NigiriError α))
    (k : α → PegProc (Finished (Except NigiriError β))) :
    PegProc (Finished (Except NigiriError β)) :=
  p.bind fun
    | .error error => .done (.returned (.error error))
    | .ok a => k a

def newAddress (lib : PegLib Address) : PegProc (Except NigiriError String) :=
  .ask .getNewAddress fun
    | .error error => .done (.error error)
    | .ok value => .done (parseAddress lib "new address" value)

def generateToAddress (blocks : UInt64) (address : String) :
    PegProc (Except NigiriError (List String)) :=
  if blocks = 0 then .done (.error (.invalidRequest "block count must be greater than zero"))
  else .ask (.generateToAddress blocks address) .done

def pegInRequest (lib : PegLib Address) : PegProc (Except NigiriError PegInRequest) :=
  .ask .getPegInAddress fun
    | .error error => .done (.error error)
    | .ok issued =>
      match lib.addressFromStr issued.mainchainAddress with
      | none => .done (.error (.invalidResponse "peg-in address" "expected a Bitcoin address"))
      | some address =>
        if lib.isRegtest address then .done (.ok ⟨address, issued.claimScript⟩)
        else .done (.error (.invalidResponse "peg-in address" "expected a regtest Bitcoin address"))

/-- A deposit with its merkle proof, once it has the depth the sidechain asks for. -/
def fetchMaturedDeposit (peginConfirmationDepth : UInt64) (txid : String) :
    PegProc (Except NigiriError (String × String)) :=
  .ask (.getMainchainTransaction txid) fun
    | .error error => .done (.error error)
    | .ok deposit =>
      if deposit.confirmations < peginConfirmationDepth then
        .done (.error (.pegInImmature deposit.confirmations peginConfirmationDepth))
      else
        .ask (.getTxOutProof txid) fun
          | .error error => .done (.error error)
          | .ok proof => .done (.ok (deposit.hex, proof))

def submitClaim (hex proof : String) : PegProc (Except NigiriError String) :=
  .ask (.claimPegIn hex proof) .done

/-- The attempts still to be made: attempt 0 is the initial claim, every later one mines exactly
one block first. -/
def claimLoop (mainchainTxid : String) (amount : UInt64) (miningAddress hex proof : String) :
    List Nat → Option NigiriError → PegProc (Finished (Except NigiriError PegIn))
  | [], some error => .done (.returned (.error error))
  | [], none => .done .panicked
  | attempt :: attempts, _ =>
    orReturn (if 0 < attempt then generateToAddress 1 miningAddress else .done (.ok [])) fun _ =>
      (submitClaim hex proof).bind fun
        | .ok claimTxid => .done (.returned (.ok ⟨mainchainTxid, claimTxid, amount⟩))
        | .error error =>
          if worthRetrying error then
            claimLoop mainchainTxid amount miningAddress hex proof attempts (some error)
          else .done (.returned (.error error))

def completePegIn (lib : PegLib Address) (peginConfirmationDepth amount : UInt64) :
    PegProc (Finished (Except NigiriError PegIn)) :=
  orReturn (pegInRequest lib) fun request =>
  orReturn (faucet lib request.mainchainAddress amount) fun mainchainTxid =>
  orReturn (newAddress lib) fun miningAddress =>
  let remaining := if peginConfirmationDepth = 0 then 0 else peginConfirmationDepth - 1
  orReturn (if 0 < remaining then generateToAddress remaining miningAddress else .done (.ok []))
    fun _ =>
  orReturn (fetchMaturedDeposit peginConfirmationDepth mainchainTxid) fun (hex, proof) =>
  claimLoop mainchainTxid amount miningAddress hex proof (List.range (CLAIM_RETRY_BLOCKS + 1)) none

end Nigiri.Core
