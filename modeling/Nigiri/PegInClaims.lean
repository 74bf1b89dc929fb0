import Mathlib.Algebra.GroupWithZero.Nat
import Mathlib.Algebra.BigOperators.Group.List.Basic
import Nigiri.PegIn
import Nigiri.PegRelease

/-! What a peg-in has asked of the two nodes at every point of a run: one deposit, read once with
its proof, and claims of that pair alone, one more block between any two of them. -/
namespace Nigiri.Core
open Nigiri.Process
variable {Address : Type} {lib : PegLib Address} {depth amount : UInt64}

abbrev PegEvent := Event PegCall PegCall.Answer

def depositOf : PegEvent → Option (Option (Except NigiriError String))
  | ⟨.sendToAddress .., reply⟩ => some reply
  | _ => none

def depositReadOf : PegEvent → Option (Option (Except NigiriError MainchainTransaction))
  | ⟨.getMainchainTransaction _, reply⟩ => some reply
  | _ => none

def proofReadOf : PegEvent → Option (Option (Except NigiriError String))
  | ⟨.getTxOutProof _, reply⟩ => some reply
  | _ => none

def claimOf : PegEvent → Option (Option (Except NigiriError String))
  | ⟨.claimPegIn .., reply⟩ => some reply
  | _ => none

/-- The blocks a mining call is known to have mined. -/
def blocksOf : PegEvent → Nat
  | ⟨.generateToAddress blocks _, some (.ok _)⟩ => blocks.toNat
  | _ => 0

/-- The answers to the calls of one kind, in order. -/
def deposits (h : PegTrace) := h.filterMap depositOf
def depositReads (h : PegTrace) := h.filterMap depositReadOf
def proofReads (h : PegTrace) := h.filterMap proofReadOf
def claims (h : PegTrace) := h.filterMap claimOf
def minedBlocks (h : PegTrace) : Nat := (h.map blocksOf).sum

@[simp] theorem depositReads_append (h t : PegTrace) :
    depositReads (h ++ t) = depositReads h ++ depositReads t := List.filterMap_append ..

@[simp] theorem proofReads_append (h t : PegTrace) :
    proofReads (h ++ t) = proofReads h ++ proofReads t := List.filterMap_append ..

@[simp] theorem claims_append (h t : PegTrace) : claims (h ++ t) = claims h ++ claims t :=
  List.filterMap_append ..

theorem minedBlocks_append (h t : PegTrace) :
    minedBlocks (h ++ t) = minedBlocks h + minedBlocks t := by
  rw [minedBlocks, List.map_append, List.sum_append]
  rfl

/-- A claim was refused for a reason that another block may remove. -/
def Rejected (reply : Option (Except NigiriError String)) : Prop :=
  ∃ error, reply = some (.error error) ∧ worthRetrying error = true

/-- The history of a peg-in up to the return of the faucet that made its deposit. -/
def FaucetReturned (lib : PegLib Address) (amount : UInt64) (txid : String) (h : PegTrace) : Prop :=
  ∃ request t t', h = t ++ t' ∧ Runs (pegInRequest lib) t (some (.ok request)) ∧
    Runs (faucet lib request.mainchainAddress amount) t' (some (.ok txid))

/-- So many blocks are known to have been mined since the faucet returned. -/
def MinedSince (lib : PegLib Address) (amount : UInt64) (h : PegTrace) (blocks : Nat) : Prop :=
  ∃ front back txid, h = front ++ back ∧ FaucetReturned lib amount txid front ∧
    minedBlocks back = blocks

/-- The last call was a claim that was rejected and may be made again. -/
def Retryable (h : PegTrace) : Prop :=
  (claims h).length ≤ CLAIM_RETRY_BLOCKS ∧
    ∃ before hex proof reply, h = before ++ [⟨.claimPegIn hex proof, reply⟩] ∧ Rejected reply

/-- Since that claim one block has been mined, and nothing else done. -/
def Remined (h : PegTrace) : Prop :=
  ∃ before address blocks, h = before ++ [⟨.generateToAddress 1 address, some (.ok blocks)⟩] ∧
    Retryable before

/-- The deposit is mature and read with its proof, every claim so far was rejected, and since the
faucet returned the missing confirmations were mined and one block for each rejection. -/
structure ClaimReady (lib : PegLib Address) (depth amount : UInt64) (h : PegTrace)
    (hex proof : String) : Prop where
  depositRead : ∃ confirmations, depositReads h = [some (.ok ⟨hex, confirmations⟩)] ∧
    depth ≤ confirmations
  proofRead : proofReads h = [some (.ok proof)]
  rejected : ∀ reply ∈ claims h, Rejected reply
  budget : (claims h).length ≤ CLAIM_RETRY_BLOCKS
  mined : MinedSince lib amount h ((depth.toNat - 1) + (claims h).length)
  behind : claims h = [] ∨ Remined h

/-- What must hold of the history when a call is made. -/
def Justified (lib : PegLib Address) (depth amount : UInt64) (h : PegTrace) : PegCall → Prop
  | .sendToAddress .. => deposits h = [] ∧ claims h = []
  | .getMainchainTransaction _ => depositReads h = [] ∧ claims h = []
  | .getTxOutProof _ => proofReads h = [] ∧ claims h = []
  | .generateToAddress blocks _ => claims h = [] ∨ Retryable h ∧ blocks = 1
  | .claimPegIn hex proof => ClaimReady lib depth amount h hex proof
  | _ => claims h = []

/-- The call was answered with what the next step needs. -/
def Served (lib : PegLib Address) : PegEvent → Prop
  | ⟨.getPegInAddress, some (.ok issued)⟩ =>
    ∃ address, lib.addressFromStr issued.mainchainAddress = some address ∧
      lib.isRegtest address = true
  | ⟨.sendToAddress .., some (.ok value)⟩ => ∃ txid, parseTxid lib "faucet" value = .ok txid
  | ⟨.getNewAddress, some (.ok value)⟩ =>
    ∃ address, parseAddress lib "new address" value = .ok address
  | ⟨.generateToAddress .., some (.ok _)⟩ | ⟨.getMainchainTransaction _, some (.ok _)⟩
  | ⟨.getTxOutProof _, some (.ok _)⟩ | ⟨.claimPegIn .., _⟩ => True
  | _ => False

/-- The deposit, where it is reported, is reported at the depth the sidechain asks for. -/
def Mature (depth : UInt64) : PegEvent → Prop
  | ⟨.getMainchainTransaction _, some (.ok deposit)⟩ => depth ≤ deposit.confirmations
  | _ => True

/-- How a run that returned has ended: in a step before the first claim that failed, in the claim
that decided, or in a mining call that failed behind a rejected claim. -/
inductive PegInEnd (lib : PegLib Address) (depth amount : UInt64) (h : PegTrace) :
    Except NigiriError PegIn → Prop where
  | failed (error : NigiriError) (hclaims : claims h = [])
    (hfail : ∃ e ∈ h, ¬ (Served lib e ∧ Mature depth e)) :
    PegInEnd lib depth amount h (.error error)
  | claimed {before : PegTrace} {hex proof claimTxid txid : String}
    (hlast : h = before ++ [⟨.claimPegIn hex proof, some (.ok claimTxid)⟩]) :
    PegInEnd lib depth amount h (.ok ⟨txid, claimTxid, amount⟩)
  | refused {before : PegTrace} {hex proof : String} {error : NigiriError}
    (hlast : h = before ++ [⟨.claimPegIn hex proof, some (.error error)⟩])
    (hfinal : worthRetrying error = false ∨ (claims h).length = CLAIM_RETRY_BLOCKS + 1) :
    PegInEnd lib depth amount h (.error error)
  | unmined {before : PegTrace} {hex proof address : String} {rejection error : NigiriError}
    (hlast : h = before ++ [⟨.claimPegIn hex proof, some (.error rejection)⟩,
      ⟨.generateToAddress 1 address, some (.error error)⟩])
    (hrejection : worthRetrying rejection = true) : PegInEnd lib depth amount h (.error error)

/-- What holds of every run of a peg-in, from any point on. -/
def PegInPost (lib : PegLib Address) (depth amount : UInt64) (h : PegTrace)
    (result : Option (Finished (Except NigiriError PegIn))) : Prop :=
  Each (Justified lib depth amount) h ∧
    ∀ finished, result = some finished → ∃ r, finished = .returned r ∧ PegInEnd lib depth amount h r

theorem PegInPost.unfinished {h : PegTrace} (hall : Each (Justified lib depth amount) h) :
    PegInPost lib depth amount h none := ⟨hall, fun _ hr => by cases hr⟩

theorem PegInPost.returned {h : PegTrace} {r : Except NigiriError PegIn}
    (hall : Each (Justified lib depth amount) h) (hend : PegInEnd lib depth amount h r) :
    PegInPost lib depth amount h (some (.returned r)) := by
  refine ⟨hall, fun finished hr => ?_⟩
  obtain rfl := Option.some.inj hr
  exact ⟨r, rfl, hend⟩

/-- What a step must ensure when its error is returned and its result leads on to `k`. -/
def OrReturned {α β : Type} (k : α → PegProc (Finished (Except NigiriError β)))
    (Φ : PegTrace → Option (Finished (Except NigiriError β)) → Prop) :
    PegTrace → Option (Except NigiriError α) → Prop
  | h, none => Φ h none
  | h, some (.error error) => Φ h none ∧ Φ h (some (.returned (.error error)))
  | h, some (.ok a) => Ensures h (k a) Φ

theorem ensures_orReturn {α β : Type} {h : PegTrace} {p : PegProc (Except NigiriError α)}
    {k : α → PegProc (Finished (Except NigiriError β))}
    {Φ : PegTrace → Option (Finished (Except NigiriError β)) → Prop}
    (hp : Ensures h p (OrReturned k Φ)) : Ensures h (orReturn p k) Φ := by
  refine ensures_bind (hp.mono fun h' o ho => ?_)
  match o with
  | none => exact ho
  | some (.error error) => exact ensures_done ho.1 ho.2
  | some (.ok a) => exact ho

/-- Nothing has been read or claimed yet. -/
structure Unread (h : PegTrace) : Prop where
  reads : depositReads h = []
  proofs : proofReads h = []
  claims : claims h = []

theorem Unread.append {h t : PegTrace} (hh : Unread h) (ht : Unread t) : Unread (h ++ t) :=
  ⟨by simp [hh.reads, ht.reads], by simp [hh.proofs, ht.proofs], by simp [hh.claims, ht.claims]⟩

/-- A part of the peg-in that neither reads nor claims has gone on from `h` to `h'`. -/
structure Advanced (lib : PegLib Address) (depth amount : UInt64) (h h' : PegTrace) : Prop where
  each : Each (Justified lib depth amount) h'
  added : ∃ t, h' = h ++ t ∧ Unread t

/-- Such a part fails only on a call that was not served. -/
def AdvancedPost {α : Type} (lib : PegLib Address) (depth amount : UInt64) (h h' : PegTrace)
    (o : Option (Except NigiriError α)) : Prop :=
  Advanced lib depth amount h h' ∧ ∀ error, o = some (.error error) → ∃ e ∈ h', ¬ Served lib e

section Advance
variable {α : Type} {h h' : PegTrace}

theorem Advanced.refl (hall : Each (Justified lib depth amount) h) :
    Advanced lib depth amount h h := ⟨hall, [], by simp, ⟨rfl, rfl, rfl⟩⟩

theorem Advanced.asked {q : PegCall} (reply : Option q.Answer)
    (hadv : Advanced lib depth amount h h') (hq : Justified lib depth amount h' q)
    (hunread : Unread [⟨q, reply⟩]) : Advanced lib depth amount h (h' ++ [⟨q, reply⟩]) := by
  obtain ⟨hall, t, rfl, ht⟩ := hadv
  exact ⟨each_concat.mpr ⟨hall, hq⟩, t ++ [⟨q, reply⟩], by simp, ht.append hunread⟩

theorem Advanced.unclaimed (hadv : Advanced lib depth amount h h') (hclaims : claims h = []) :
    claims h' = [] := by
  obtain ⟨-, t, rfl, ht⟩ := hadv
  rw [claims_append, hclaims, ht.claims, List.append_nil]

theorem Advanced.pending (hadv : Advanced lib depth amount h h') :
    AdvancedPost lib depth amount h h' (none : Option (Except NigiriError α)) :=
  ⟨hadv, fun _ ho => by cases ho⟩

theorem Advanced.succeeded (hadv : Advanced lib depth amount h h') (a : α) :
    Ensures h' (.done (.ok a)) (AdvancedPost lib depth amount h) :=
  ensures_done hadv.pending ⟨hadv, fun _ ho => by cases ho⟩

theorem Advanced.failed {q : PegCall} {reply : Option q.Answer}
    (hadv : Advanced lib depth amount h (h' ++ [⟨q, reply⟩])) (hlast : ¬ Served lib ⟨q, reply⟩)
    (error : NigiriError) : Ensures (h' ++ [⟨q, reply⟩]) (.done (.error error : Except _ α))
      (AdvancedPost lib depth amount h) :=
  ensures_done hadv.pending ⟨hadv, fun _ _ => ⟨_, by simp, hlast⟩⟩

theorem mineCommittedTransaction_advanced (operation txid : String) (hclaims : claims h = [])
    (hadv : Advanced lib depth amount h h') : Ensures h'
      (mineCommittedTransaction lib operation txid) (AdvancedPost lib depth amount h) := by
  have hasked (reply) := hadv.asked (q := .getNewAddress) reply (hadv.unclaimed hclaims)
    ⟨rfl, rfl, rfl⟩
  refine ensures_ask hadv.pending (hasked _).pending fun reply => ?_
  cases reply with
  | error source => exact (hasked (some (.error source))).failed (fun hserved => hserved) _
  | ok value =>
    cases ha : parseAddress lib "new address" value with
    | error source =>
      simp only [ha]
      refine (hasked _).failed ?_ _
      rintro ⟨address, haddress⟩
      rw [ha] at haddress
      cases haddress
    | ok address =>
      simp only [ha]
      have hmined (reply) := (hasked (some (.ok value))).asked
        (q := .generateToAddress 1 address) reply (.inl ((hasked _).unclaimed hclaims))
        ⟨rfl, rfl, rfl⟩
      refine ensures_ask (hasked _).pending (hmined _).pending fun reply => ?_
      cases reply with
      | error source => exact (hmined (some (.error source))).failed (fun hserved => hserved) _
      | ok _ => exact (hmined _).succeeded ()

/-- The faucet makes the first deposit, and reads and claims nothing. -/
theorem faucet_advanced (hlib : AmountsAreNumbers lib) (address : String)
    (hall : Each (Justified lib depth amount) h) (hdeposits : deposits h = [])
    (hclaims : claims h = []) : Ensures h (faucet lib address amount)
      (AdvancedPost lib depth amount h) := by
  obtain ⟨number, hnumber, -⟩ := hlib amount
  have hadv : Advanced lib depth amount h h := .refl hall
  have hsent (reply) := hadv.asked (q := .sendToAddress address number) reply
    ⟨hdeposits, hclaims⟩ ⟨rfl, rfl, rfl⟩
  simp only [faucet, amountAsJsonNumber, hnumber]
  refine ensures_ask hadv.pending (hsent _).pending fun reply => ?_
  cases reply with
  | error error => exact (hsent (some (.error error))).failed (fun hserved => hserved) _
  | ok value =>
    cases htxid : parseTxid lib "faucet" value with
    | error error =>
      simp only [htxid]
      refine (hsent _).failed ?_ _
      rintro ⟨txid, hok⟩
      rw [htxid] at hok
      cases hok
    | ok txid =>
      simp only [htxid]
      refine ensures_bind ((mineCommittedTransaction_advanced _ _ hclaims (hsent _)).mono ?_)
      rintro h' mined ⟨hmined, hfailed⟩
      cases mined with
      | none => exact hmined.pending
      | some result =>
        cases result with
        | error error => exact ensures_done hmined.pending ⟨hmined, fun _ _ => hfailed _ rfl⟩
        | ok _ => exact hmined.succeeded txid

end Advance

end Nigiri.Core
