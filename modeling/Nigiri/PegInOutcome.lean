import Nigiri.PegInClaims

/-! One round of the claim loop after another, the whole peg-in, and how it ends. -/
namespace Nigiri.Core
open Nigiri.Process
variable {Address : Type} {lib : PegLib Address} {depth amount : UInt64} {h : PegTrace}

theorem MinedSince.append {blocks : Nat} (hmined : MinedSince lib amount h blocks)
    (t : PegTrace) : MinedSince lib amount (h ++ t) (blocks + minedBlocks t) := by
  obtain ⟨front, back, txid, rfl, hfaucet, rfl⟩ := hmined
  exact ⟨front, back ++ t, txid, by simp, hfaucet, by rw [minedBlocks_append]⟩

/-- The state in which the loop comes to an attempt. -/
structure Attempting (lib : PegLib Address) (depth amount : UInt64) (h : PegTrace)
    (hex proof : String) (attempt : Nat) (last : Option NigiriError) : Prop where
  each : Each (Justified lib depth amount) h
  depositRead : ∃ confirmations, depositReads h = [some (.ok ⟨hex, confirmations⟩)] ∧
    depth ≤ confirmations
  proofRead : proofReads h = [some (.ok proof)]
  rejected : ∀ reply ∈ claims h, Rejected reply
  count : (claims h).length = attempt
  mined : MinedSince lib amount h ((depth.toNat - 1) + (attempt - 1))
  last : match last with
    | none => attempt = 0
    | some error => 0 < attempt ∧ worthRetrying error = true ∧
      ∃ before, h = before ++ [⟨.claimPegIn hex proof, some (.error error)⟩]

/-- A claim that is ready decides the peg-in, or leads to the next attempt. -/
theorem claim_ensures {hex proof : String} {attempt : Nat} (txid : String)
    (hall : Each (Justified lib depth amount) h) (hready : ClaimReady lib depth amount h hex proof)
    (hcount : (claims h).length = attempt)
    {next : NigiriError → PegProc (Finished (Except NigiriError PegIn))}
    (hnext : ∀ h' error, Attempting lib depth amount h' hex proof (attempt + 1) (some error) →
      Ensures h' (next error) (PegInPost lib depth amount)) :
    Ensures h ((submitClaim hex proof).bind fun
      | .ok claimTxid => .done (.returned (.ok ⟨txid, claimTxid, amount⟩))
      | .error error =>
        if worthRetrying error then next error else .done (.returned (.error error)))
      (PegInPost lib depth amount) := by
  have hclaimed (reply) :
      Each (Justified lib depth amount) (h ++ [⟨.claimPegIn hex proof, reply⟩]) :=
    each_concat.mpr ⟨hall, hready⟩
  refine ensures_ask (.unfinished hall) (.unfinished (hclaimed none)) fun reply => ?_
  cases reply with
  | ok claimTxid =>
    exact ensures_done (.unfinished (hclaimed _)) (.returned (hclaimed _) (.claimed rfl))
  | error error =>
    simp only [Proc.bind]
    split
    next hretry =>
      refine hnext _ error ⟨hclaimed _, ?_, ?_, ?_, ?_, ?_, Nat.succ_pos _, hretry, h, rfl⟩
      · obtain ⟨confirmations, hread, hdepth⟩ := hready.depositRead
        exact ⟨confirmations, by rw [depositReads_append, hread]; rfl, hdepth⟩
      · rw [proofReads_append, hready.proofRead]
        rfl
      · intro reply hreply
        rw [claims_append, List.mem_append] at hreply
        rcases hreply with hbefore | hlast
        · exact hready.rejected reply hbefore
        · obtain rfl := List.mem_singleton.mp hlast
          exact ⟨error, rfl, hretry⟩
      · rw [claims_append, List.length_append, hcount]
        rfl
      · have hmined := hready.mined.append [⟨.claimPegIn hex proof, some (.error error)⟩]
        rw [hcount] at hmined
        exact hmined
    next hfinal =>
      exact ensures_done (.unfinished (hclaimed _))
        (.returned (hclaimed _) (.refused rfl (.inl (by simpa using hfinal))))

/-- A further attempt comes behind a claim that may be made again. -/
theorem Attempting.retryable {hex proof : String} {attempt : Nat} {last : Option NigiriError}
    (hattempt : Attempting lib depth amount h hex proof attempt last) (hpos : 0 < attempt)
    (hbudget : attempt ≤ CLAIM_RETRY_BLOCKS) : Retryable h := by
  refine ⟨hattempt.count.symm ▸ hbudget, ?_⟩
  have hlast := hattempt.last
  cases last with
  | none => exact absurd hlast (Nat.ne_of_gt hpos)
  | some error =>
    obtain ⟨-, hretry, before, hbefore⟩ := hlast
    exact ⟨before, hex, proof, _, hbefore, error, rfl, hretry⟩

/-- Before a further attempt one block is mined, and the claim is ready again. -/
theorem Attempting.ready {hex proof : String} {attempt : Nat} {last : Option NigiriError}
    (hattempt : Attempting lib depth amount h hex proof attempt last)
    (hbudget : attempt ≤ CLAIM_RETRY_BLOCKS) {t : PegTrace} (ht : Unread t)
    (hblocks : minedBlocks t = attempt - (attempt - 1))
    (hbehind : claims (h ++ t) = [] ∨ Remined (h ++ t)) :
    ClaimReady lib depth amount (h ++ t) hex proof := by
  have hclaims : claims (h ++ t) = claims h := by rw [claims_append, ht.claims, List.append_nil]
  refine ⟨?_, ?_, ?_, ?_, ?_, hbehind⟩
  · obtain ⟨confirmations, hread, hdepth⟩ := hattempt.depositRead
    exact ⟨confirmations, by rw [depositReads_append, hread, ht.reads, List.append_nil], hdepth⟩
  · rw [proofReads_append, hattempt.proofRead, ht.proofs, List.append_nil]
  · rw [hclaims]
    exact hattempt.rejected
  · rw [hclaims, hattempt.count]
    exact hbudget
  · have hmined := hattempt.mined.append t
    rw [hclaims, hattempt.count]
    have hsum : depth.toNat - 1 + (attempt - 1) + minedBlocks t = depth.toNat - 1 + attempt := by
      omega
    rwa [hsum] at hmined

/-- The loop from any attempt on, by induction on the attempts that are left. -/
theorem claimLoop_ensures (txid miningAddress hex proof : String) (left : Nat) :
    ∀ {h : PegTrace} {attempt : Nat} {last : Option NigiriError},
      attempt + left = CLAIM_RETRY_BLOCKS + 1 →
      Attempting lib depth amount h hex proof attempt last →
      Ensures h (claimLoop txid amount miningAddress hex proof (List.range' attempt left) last)
        (PegInPost lib depth amount) := by
  induction left with
  | zero =>
    intro h attempt last hleft hattempt
    have hlast := hattempt.last
    cases last with
    | none => simp only at hlast; omega
    | some error =>
      obtain ⟨-, -, before, hbefore⟩ := hlast
      refine ensures_done (.unfinished hattempt.each) (.returned hattempt.each ?_)
      exact .refused hbefore (.inr (hattempt.count.trans hleft))
  | succ left ih =>
    intro h attempt last hleft hattempt
    have hbudget : attempt ≤ CLAIM_RETRY_BLOCKS := by omega
    have hnext (h' : PegTrace) (error : NigiriError)
        (h'attempt : Attempting lib depth amount h' hex proof (attempt + 1) (some error)) :
        Ensures h' (claimLoop txid amount miningAddress hex proof
          (List.range' (attempt + 1) left) (some error)) (PegInPost lib depth amount) :=
      ih (by omega) h'attempt
    rw [List.range'_succ, claimLoop]
    split
    next hpos =>
      -- a further attempt: the block before it may fail to be mined
      have hretryable := hattempt.retryable hpos hbudget
      have hmining (reply) : Each (Justified lib depth amount)
          (h ++ [⟨.generateToAddress 1 miningAddress, reply⟩]) :=
        each_concat.mpr ⟨hattempt.each, .inr ⟨hretryable, rfl⟩⟩
      refine ensures_orReturn (ensures_ask (.unfinished hattempt.each)
        (.unfinished (hmining none)) fun reply => ?_)
      cases reply with
      | error error =>
        have hlast := hattempt.last
        cases last with
        | none => simp only at hlast; omega
        | some rejection =>
          obtain ⟨-, hretry, before, rfl⟩ := hlast
          have hend : PegInPost lib depth amount _ _ :=
            .returned (hmining (some (.error error))) (.unmined (List.append_assoc ..) hretry)
          exact ensures_done (.unfinished (hmining _)) ⟨.unfinished (hmining _), hend⟩
      | ok blocks =>
        refine ensures_done (.unfinished (hmining _)) ?_
        have hone : minedBlocks [⟨.generateToAddress 1 miningAddress, some (.ok blocks)⟩] = 1 := rfl
        refine claim_ensures txid (hmining _) (hattempt.ready hbudget ⟨rfl, rfl, rfl⟩ ?_
          (.inr ⟨h, _, blocks, rfl, hretryable⟩)) ?_ hnext
        ·           omega
        · rw [claims_append, List.length_append, hattempt.count]
          rfl
    next hzero =>
      have hnone : claims (h ++ []) = [] := by
        rw [List.append_nil]
        exact List.eq_nil_of_length_eq_zero (hattempt.count.trans (Nat.eq_zero_of_not_pos hzero))
      have hready := hattempt.ready hbudget (t := []) ⟨rfl, rfl, rfl⟩
        (by simp [minedBlocks]; omega) (.inl hnone)
      rw [List.append_nil] at hready
      refine ensures_orReturn (ensures_done (.unfinished hattempt.each) ?_)
      exact claim_ensures txid hattempt.each hready hattempt.count hnext

section BeforeClaims
variable {α : Type} {e : PegEvent} {next : α → PegProc (Finished (Except NigiriError PegIn))}

theorem ensures_failed (error : NigiriError) (hall : Each (Justified lib depth amount) h)
    (hclaims : claims h = []) (hfail : ∃ e ∈ h, ¬ (Served lib e ∧ Mature depth e)) :
    Ensures h (.done (.error error)) (OrReturned next (PegInPost lib depth amount)) :=
  ensures_done (.unfinished hall)
    ⟨.unfinished hall, .returned hall (.failed error hclaims hfail)⟩

/-- One call before the first claim: it fails the peg-in only when it was not served. -/
theorem ensures_orReturn_ask {q : PegCall} {k : q.Answer → PegProc (Except NigiriError α)}
    (hk : ∀ r, ∃ x, k r = .done x)
    (hall : Each (Justified lib depth amount) h) (hq : Justified lib depth amount h q)
    (hclaims : ∀ reply, claims (h ++ [⟨q, reply⟩]) = [])
    (hfail : ∀ r error, k r = .done (.error error) → ¬ Served lib ⟨q, some r⟩)
    (hok : ∀ r a, k r = .done (.ok a) → Each (Justified lib depth amount) (h ++ [⟨q, some r⟩]) →
      Ensures (h ++ [⟨q, some r⟩]) (next a) (PegInPost lib depth amount)) :
    Ensures h (orReturn (.ask q k) next) (PegInPost lib depth amount) := by
  have hasked (reply) : Each (Justified lib depth amount) (h ++ [⟨q, reply⟩]) :=
    each_concat.mpr ⟨hall, hq⟩
  refine ensures_orReturn (ensures_ask (.unfinished hall) (.unfinished (hasked none)) fun r => ?_)
  obtain ⟨x, hr⟩ := hk r
  rw [hr]
  cases x with
  | error error =>
    exact ensures_failed error (hasked _) (hclaims _)
      ⟨_, List.mem_concat_self, fun hserved => hfail r error hr hserved.1⟩
  | ok a => exact ensures_done (.unfinished (hasked _)) (hok r a hr (hasked _))

end BeforeClaims

/-- The deposit and its proof are read once, before any claim. -/
theorem fetchMaturedDeposit_ensures (txid : String)
    {next : String × String → PegProc (Finished (Except NigiriError PegIn))}
    (hall : Each (Justified lib depth amount) h) (hunread : Unread h)
    (hmined : MinedSince lib amount h (depth.toNat - 1))
    (hnext : ∀ h' hex proof, Attempting lib depth amount h' hex proof 0 none →
      Ensures h' (next (hex, proof)) (PegInPost lib depth amount)) :
    Ensures h (orReturn (fetchMaturedDeposit depth txid) next) (PegInPost lib depth amount) := by
  have hread (reply) : Each (Justified lib depth amount)
      (h ++ [⟨.getMainchainTransaction txid, reply⟩]) :=
    each_concat.mpr ⟨hall, hunread.reads, hunread.claims⟩
  have hclaims (reply) : claims (h ++ [⟨.getMainchainTransaction txid, reply⟩]) = [] := by
    rw [claims_append, hunread.claims]
    rfl
  refine ensures_orReturn
    (ensures_ask (.unfinished hall) (.unfinished (hread none)) fun reply => ?_)
  cases reply with
  | error error =>
    exact ensures_failed error (hread _) (hclaims _) ⟨_, List.mem_concat_self, fun hs => hs.1⟩
  | ok deposit =>
    simp only
    split
    next himmature =>
      exact ensures_failed _ (hread _) (hclaims _)
        ⟨_, List.mem_concat_self, fun hs => absurd himmature (UInt64.not_lt.mpr hs.2)⟩
    next hmature =>
      have hproof (reply) : Each (Justified lib depth amount)
          (h ++ [⟨.getMainchainTransaction txid, some (.ok deposit)⟩]
            ++ [⟨.getTxOutProof txid, reply⟩]) := by
        refine each_concat.mpr ⟨hread _, ?_, hclaims _⟩
        rw [proofReads_append, hunread.proofs]
        rfl
      have hnone (reply) : claims (h ++ [⟨.getMainchainTransaction txid, some (.ok deposit)⟩]
          ++ [⟨.getTxOutProof txid, reply⟩]) = [] := by
        rw [claims_append, hclaims]
        rfl
      refine ensures_ask (.unfinished (hread _)) (.unfinished (hproof none)) fun reply => ?_
      cases reply with
      | error error =>
        exact ensures_failed error (hproof _) (hnone _) ⟨_, List.mem_concat_self, fun hs => hs.1⟩
      | ok proof =>
        refine ensures_done (.unfinished (hproof _)) (hnext _ _ _ ?_)
        refine ⟨hproof _, ⟨deposit.confirmations, ?_, UInt64.not_lt.mp hmature⟩, ?_, ?_, ?_, ?_,
          rfl⟩
        · rw [depositReads_append, depositReads_append, hunread.reads]
          rfl
        · rw [proofReads_append, proofReads_append, hunread.proofs]
          rfl
        · intro reply hreply
          rw [hnone] at hreply
          cases hreply
        · rw [hnone]
          rfl
        · rw [List.append_assoc]
          exact hmined.append _

/-- The blocks that the faucet's own one leaves missing are mined before anything is read. -/
theorem maturity_ensures (miningAddress : String) {next : List String →
      PegProc (Finished (Except NigiriError PegIn))}
    (hall : Each (Justified lib depth amount) h) (hunread : Unread h)
    (hmined : MinedSince lib amount h 0)
    (hnext : ∀ h' blocks, Each (Justified lib depth amount) h' → Unread h' →
      MinedSince lib amount h' (depth.toNat - 1) →
      Ensures h' (next blocks) (PegInPost lib depth amount)) :
    let remaining := if depth = 0 then 0 else depth - 1
    Ensures h (orReturn (if 0 < remaining then generateToAddress remaining miningAddress
      else .done (.ok [])) next) (PegInPost lib depth amount) := by
  intro remaining
  have hremaining : remaining.toNat = depth.toNat - 1 := by
    unfold remaining
    split
    next hzero => rw [hzero]; rfl
    next hzero =>
      have hle : (1 : UInt64) ≤ depth := by
        rw [UInt64.le_iff_toNat_le]
        exact Nat.one_le_iff_ne_zero.mpr fun h0 => hzero (UInt64.toNat.inj h0)
      rw [UInt64.toNat_sub_of_le _ _ hle]
      rfl
  split
  next hpos =>
    have hne : remaining ≠ 0 := UInt64.pos_iff_ne_zero.mp hpos
    rw [generateToAddress, if_neg hne]
    refine ensures_orReturn_ask (fun r => ⟨r, rfl⟩) hall (.inl hunread.claims) ?_ ?_ ?_
    · intro reply
      rw [claims_append, hunread.claims]
      rfl
    · rintro _ error ⟨⟩
      exact fun hserved => hserved
    · rintro _ blocks ⟨⟩ hasked
      refine hnext _ _ hasked (hunread.append ⟨rfl, rfl, rfl⟩) ?_
      have hsum := hmined.append [⟨.generateToAddress remaining miningAddress, some (.ok blocks)⟩]
      have hblocks : minedBlocks [⟨.generateToAddress remaining miningAddress, some (.ok blocks)⟩]
        = remaining.toNat := Nat.add_zero _
      rwa [hblocks, hremaining, Nat.zero_add] at hsum
  next hnone =>
    have hzero : depth.toNat - 1 = 0 := by
      rw [← hremaining, UInt64.not_lt.mp hnone |> UInt64.le_zero_iff.mp]
      rfl
    refine ensures_orReturn (ensures_done (.unfinished hall) (hnext _ _ hall hunread ?_))
    rwa [hzero]

theorem newAddress_ensures {next : String → PegProc (Finished (Except NigiriError PegIn))}
    (hall : Each (Justified lib depth amount) h) (hunread : Unread h)
    (hmined : MinedSince lib amount h 0)
    (hnext : ∀ h' address, Each (Justified lib depth amount) h' → Unread h' →
      MinedSince lib amount h' 0 → Ensures h' (next address) (PegInPost lib depth amount)) :
    Ensures h (orReturn (newAddress lib) next) (PegInPost lib depth amount) := by
  refine ensures_orReturn_ask ?_ hall hunread.claims ?_ ?_ ?_
  · intro r
    cases r with
    | error error => exact ⟨_, rfl⟩
    | ok value => exact ⟨_, rfl⟩
  · intro reply
    rw [claims_append, hunread.claims]
    rfl
  · intro r error hr hserved
    cases r with
    | error error => exact hserved
    | ok value =>
      obtain ⟨address, haddress⟩ := hserved
      simp only [haddress] at hr
      cases hr
  · intro r address _ hasked
    exact hnext _ _ hasked (hunread.append ⟨rfl, rfl, rfl⟩) (hmined.append _)

theorem pegInRequest_ensures {next : PegInRequest → PegProc (Finished (Except NigiriError PegIn))}
    (hnext : ∀ h' request, Each (Justified lib depth amount) h' → Unread h' → deposits h' = [] →
      Runs (pegInRequest lib) h' (some (.ok request)) →
      Ensures h' (next request) (PegInPost lib depth amount)) :
    Ensures [] (orReturn (pegInRequest lib) next) (PegInPost lib depth amount) := by
  refine ensures_orReturn_ask ?_ each_nil rfl (fun _ => rfl) ?_ ?_
  · intro r
    cases r with
    | error error => exact ⟨_, rfl⟩
    | ok issued =>
      simp only
      split
      next => exact ⟨_, rfl⟩
      next => split <;> exact ⟨_, rfl⟩
  · intro r error hr hserved
    cases r with
    | error error => exact hserved
    | ok issued =>
      obtain ⟨address, haddress, hregtest⟩ := hserved
      simp only [haddress, hregtest] at hr
      cases hr
  · intro r request hr hasked
    have hdone (p : PegProc (Except NigiriError PegInRequest)) (hp : p = .done (.ok request)) :
        Runs p [] (some (.ok request)) := by
      rw [hp]
      exact ⟨rfl, .inr rfl⟩
    exact hnext _ request hasked ⟨rfl, rfl, rfl⟩ rfl (.inr (.inr ⟨r, [], rfl, hdone _ hr⟩))

theorem completePegIn_ensures (hlib : AmountsAreNumbers lib) :
    Ensures [] (completePegIn lib depth amount) (PegInPost lib depth amount) := by
  refine pegInRequest_ensures fun requested request hall hunread hdeposits hrequest => ?_
  have hfaucet := (faucet_advanced hlib request.mainchainAddress hall hdeposits hunread.claims).and
    (ensures_runs requested (faucet lib request.mainchainAddress amount))
  refine ensures_orReturn (hfaucet.mono fun h' o ho => ?_)
  obtain ⟨⟨⟨hall, t, rfl, ht⟩, hfailed⟩, t', happend, hpaid⟩ := ho
  obtain rfl := List.append_cancel_left happend
  match o with
  | none => exact .unfinished hall
  | some (.error error) =>
    obtain ⟨e, he, hserved⟩ := hfailed error rfl
    refine ⟨.unfinished hall, .returned hall (.failed error (hunread.append ht).claims ?_)⟩
    exact ⟨e, he, fun hs => hserved hs.1⟩
  | some (.ok txid) =>
    have hmined : MinedSince lib amount (requested ++ t) 0 :=
      ⟨_, [], txid, by simp, ⟨request, requested, t, rfl, hrequest, hpaid⟩, rfl⟩
    refine newAddress_ensures hall (hunread.append ht) hmined
      fun h miningAddress hall hunread hmined => ?_
    refine maturity_ensures miningAddress hall hunread hmined fun h _ hall hunread hmined => ?_
    refine fetchMaturedDeposit_ensures txid hall hunread hmined fun h hex proof hattempt => ?_
    have hloop := claimLoop_ensures txid miningAddress hex proof (CLAIM_RETRY_BLOCKS + 1)
      (Nat.zero_add _) hattempt
    rw [← List.range_eq_range'] at hloop
    exact hloop

section Counts
variable (hall : Each (Justified lib depth amount) h)
include hall

theorem deposits_length_le : (deposits h).length ≤ 1 := by
  refine hall.length_filterMap_le fun h ⟨request, reply⟩ hjust hsome => ?_
  cases request with
  | sendToAddress address number =>
    have hnone : deposits h = [] := hjust.1
    exact Nat.lt_one_iff.mpr (List.length_eq_zero_iff.mpr hnone)
  | _ => cases hsome

theorem depositReads_length_le : (depositReads h).length ≤ 1 := by
  refine hall.length_filterMap_le fun h ⟨request, reply⟩ hjust hsome => ?_
  cases request with
  | getMainchainTransaction txid =>
    have hnone : depositReads h = [] := hjust.1
    exact Nat.lt_one_iff.mpr (List.length_eq_zero_iff.mpr hnone)
  | _ => cases hsome

theorem proofReads_length_le : (proofReads h).length ≤ 1 := by
  refine hall.length_filterMap_le fun h ⟨request, reply⟩ hjust hsome => ?_
  cases request with
  | getTxOutProof txid =>
    have hnone : proofReads h = [] := hjust.1
    exact Nat.lt_one_iff.mpr (List.length_eq_zero_iff.mpr hnone)
  | _ => cases hsome

theorem claims_length_le : (claims h).length ≤ CLAIM_RETRY_BLOCKS + 1 := by
  refine hall.length_filterMap_le fun h ⟨request, reply⟩ hjust hsome => ?_
  cases request with
  | claimPegIn hex proof => exact Nat.lt_succ_of_le hjust.budget
  | _ => cases hsome

end Counts

/-- A history splits at its last claim in one way. -/
theorem last_claim_unique {before before' after after' : PegTrace} {hex proof hex' proof' : String}
    {reply reply' : Option (Except NigiriError String)}
    (hsplit : before ++ ⟨.claimPegIn hex proof, reply⟩ :: after
      = before' ++ ⟨.claimPegIn hex' proof', reply'⟩ :: after')
    (hlast : claims after = []) (hlast' : claims after' = []) : after = after' := by
  have inside {t t' : PegTrace} {hex proof : String} {reply : Option (Except NigiriError String)}
      (ht : claims (t ++ ⟨.claimPegIn hex proof, reply⟩ :: t') = []) : False := by
    rw [claims_append] at ht
    exact absurd (List.append_eq_nil_iff.mp ht).2 (List.cons_ne_nil _ _)
  rcases List.append_eq_append_iff.mp hsplit with ⟨t, -, ht⟩ | ⟨t, -, ht⟩
  · cases t with
    | nil => exact (List.cons.inj ht).2
    | cons e t =>
      rw [(List.cons.inj ht).2] at hlast
      exact (inside hlast).elim
  · cases t with
    | nil => exact (List.cons.inj ht).2.symm
    | cons e t =>
      rw [(List.cons.inj ht).2] at hlast'
      exact (inside hlast').elim

/-- Nothing is known to be mined behind the last claim of a peg-in that has returned. -/
theorem PegInEnd.unmined_after {r : Except NigiriError PegIn} (hend : PegInEnd lib depth amount h r)
    {before after : PegTrace} {hex proof : String} {reply : Option (Except NigiriError String)}
    (hsplit : h = before ++ ⟨.claimPegIn hex proof, reply⟩ :: after) (hlast : claims after = []) :
    minedBlocks after = 0 := by
  cases hend with
  | failed _ hclaims _ =>
    rw [hsplit, claims_append] at hclaims
    exact absurd (List.append_eq_nil_iff.mp hclaims).2 (List.cons_ne_nil _ _)
  | claimed hlast' | refused hlast' =>
    rw [last_claim_unique (hsplit.symm.trans hlast') hlast rfl]
    rfl
  | unmined hlast' =>
    rw [last_claim_unique (hsplit.symm.trans hlast') hlast rfl]
    rfl

/-- The last claim gives the result, and is final or the last there may be. -/
def DecidedByClaim (amount : UInt64) (h : PegTrace) (r : Except NigiriError PegIn) : Prop :=
  ∃ before hex proof reply txid, h = before ++ [⟨.claimPegIn hex proof, some reply⟩] ∧
    r = reply.map (fun claimTxid => ⟨txid, claimTxid, amount⟩) ∧
    ∀ error, reply = .error error → worthRetrying error = true →
      (claims h).length = CLAIM_RETRY_BLOCKS + 1

theorem PegInEnd.decided {r : Except NigiriError PegIn} (hend : PegInEnd lib depth amount h r)
    (hserved : ∀ e ∈ h, Served lib e ∧ Mature depth e) : DecidedByClaim amount h r := by
  cases hend with
  | failed _ _ hfail =>
    obtain ⟨e, he, hnot⟩ := hfail
    exact absurd (hserved e he) hnot
  | claimed hlast => exact ⟨_, _, _, _, _, hlast, rfl, fun _ herror => by cases herror⟩
  | refused hlast hfinal =>
    refine ⟨_, _, _, _, "", hlast, rfl, fun error' herror hretry => ?_⟩
    obtain rfl := Except.error.inj herror
    refine hfinal.resolve_left fun hno => ?_
    rw [hretry] at hno
    cases hno
  | unmined hlast _ =>
    have hmem : _ ∈ h := hlast ▸ List.mem_append_right _ (List.mem_cons_of_mem _ List.mem_cons_self)
    exact (hserved _ hmem).1.elim

/-- What follows the claim that a history ends with: nothing once it has decided, and else one
more block, and the next claim behind it. -/
inductive BehindClaim (h : PegTrace) : PegTrace → Prop where
  | nothing : BehindClaim h []
  | unmined {address : String} {answer : Option (Except NigiriError (List String))}
    (hretry : Retryable h) (hanswer : ∀ blocks, answer ≠ some (.ok blocks)) :
    BehindClaim h [⟨.generateToAddress 1 address, answer⟩]
  | mined {address : String} {blocks : List String} (hretry : Retryable h) :
    BehindClaim h [⟨.generateToAddress 1 address, some (.ok blocks)⟩]
  | again {address hex proof : String} {blocks : List String}
    {reply : Option (Except NigiriError String)} {rest : PegTrace} (hretry : Retryable h) :
    BehindClaim h
      (⟨.generateToAddress 1 address, some (.ok blocks)⟩ :: ⟨.claimPegIn hex proof, reply⟩ :: rest)

theorem Retryable.last {e : PegEvent} (hretry : Retryable (h ++ [e])) :
    ∃ hex proof reply, e = ⟨.claimPegIn hex proof, reply⟩ := by
  obtain ⟨-, before, hex, proof, reply, hlast, -⟩ := hretry
  exact ⟨hex, proof, reply, (List.cons.inj (List.append_inj' hlast rfl).2).1⟩

/-- Once a claim has been made, nothing is called for but a block and the next claim. -/
theorem called_behind_claim {e : PegEvent} (hall : Each (Justified lib depth amount) (h ++ [e]))
    (hclaims : claims h ≠ []) :
    (∃ address, e.request = .generateToAddress 1 address) ∧ Retryable h ∨
      (∃ hex proof, e.request = .claimPegIn hex proof) ∧ Remined h := by
  have hjust := (each_concat.mp hall).2
  obtain ⟨request, reply⟩ := e
  cases request with
  | sendToAddress => exact absurd hjust.2 hclaims
  | getMainchainTransaction => exact absurd hjust.2 hclaims
  | getTxOutProof => exact absurd hjust.2 hclaims
  | generateToAddress blocks address =>
    obtain ⟨hretry, rfl⟩ := hjust.resolve_left hclaims
    exact .inl ⟨⟨address, rfl⟩, hretry⟩
  | claimPegIn hex proof => exact .inr ⟨⟨hex, proof, rfl⟩, hjust.behind.resolve_left hclaims⟩
  | getRawTransaction => exact absurd hjust hclaims
  | getNewAddress => exact absurd hjust hclaims
  | getPegInAddress => exact absurd hjust hclaims

theorem behindClaim_of_each {hex proof : String} {reply : Option (Except NigiriError String)}
    {before after : PegTrace}
    (hall : Each (Justified lib depth amount) (before ++ ⟨.claimPegIn hex proof, reply⟩ :: after)) :
    BehindClaim (before ++ [⟨.claimPegIn hex proof, reply⟩]) after := by
  have hclaims (t : PegTrace) : claims (before ++ [⟨.claimPegIn hex proof, reply⟩] ++ t) ≠ [] := by
    rw [claims_append, claims_append]
    refine List.append_ne_nil_of_left_ne_nil (List.append_ne_nil_of_right_ne_nil _ ?_) _
    exact List.cons_ne_nil _ _
  rcases after with _ | ⟨e, after⟩
  · exact .nothing
  have hfirst : Each (Justified lib depth amount)
      (before ++ [⟨.claimPegIn hex proof, reply⟩] ++ [e]) := fun b e' a hsplit =>
    hall b e' (a ++ after) (by rw [← List.cons_append, ← List.append_assoc, ← hsplit]; simp)
  obtain ⟨⟨address, haddress⟩, hretry⟩ | ⟨-, h', address, blocks, hlast, -⟩ :=
    called_behind_claim hfirst (by simpa only [List.append_nil] using hclaims [])
  · obtain ⟨_, answer⟩ := e
    obtain rfl := haddress
    rcases after with _ | ⟨e, after⟩
    · rcases answer with _ | error | blocks
      · exact .unmined hretry fun _ h => by cases h
      · exact .unmined hretry fun _ h => by cases h
      · exact .mined hretry
    have hsecond : Each (Justified lib depth amount) (before ++ [⟨.claimPegIn hex proof, reply⟩]
        ++ [⟨.generateToAddress 1 address, answer⟩] ++ [e]) := fun b e' a hsplit =>
      hall b e' (a ++ after) (by rw [← List.cons_append, ← List.append_assoc, ← hsplit]; simp)
    obtain ⟨-, hretry'⟩ | ⟨⟨hex', proof', hclaim⟩, h', address', blocks, hlast, -⟩ :=
      called_behind_claim hsecond (hclaims _)
    · obtain ⟨_, _, _, hevent⟩ := hretry'.last
      cases hevent
    · cases (List.cons.inj (List.append_inj' hlast rfl).2).1
      obtain ⟨_, reply'⟩ := e
      obtain rfl := hclaim
      exact .again hretry
  · cases (List.cons.inj (List.append_inj' hlast rfl).2).1

theorem straight_orReturn {α β : Type} {p : PegProc (Except NigiriError α)}
    {k : α → PegProc (Finished (Except NigiriError β))} (hp : Straight p)
    (hk : ∀ a, Straight (k a)) : Straight (orReturn p k) := by
  refine hp.bind fun result => ?_
  cases result with
  | error error => exact trivial
  | ok a => exact hk a

theorem straight_generateToAddress (needed : Prop) [Decidable needed] (blocks : UInt64)
    (address : String) :
    Straight (if needed then generateToAddress blocks address else .done (.ok [])) := by
  unfold generateToAddress
  split
  next =>
    split
    next => exact trivial
    next => exact fun _ => trivial
  next => exact trivial

theorem straight_claimLoop (txid miningAddress hex proof : String) (attempts : List Nat) :
    ∀ last, Straight (claimLoop txid amount miningAddress hex proof attempts last) := by
  induction attempts with
  | nil =>
    intro last
    cases last <;> exact trivial
  | cons attempt attempts ih =>
    intro last
    refine straight_orReturn (straight_generateToAddress _ 1 miningAddress) fun _ reply => ?_
    cases reply with
    | ok claimTxid => exact trivial
    | error error =>
      simp only [Proc.bind]
      split
      next => exact ih (some error)
      next => exact trivial

theorem straight_completePegIn : Straight (completePegIn lib depth amount) := by
  refine straight_orReturn ?_ fun request => straight_orReturn (straight_faucet _ _) fun txid =>
    straight_orReturn ?_ fun miningAddress =>
      straight_orReturn (straight_generateToAddress _ _ _) fun _ =>
        straight_orReturn ?_ fun deposit => straight_claimLoop _ _ _ _ _ none
  · intro reply
    cases reply with
    | error error => exact trivial
    | ok issued =>
      simp only
      split
      next => exact trivial
      next => split <;> exact trivial
  · intro reply
    cases reply <;> exact trivial
  · intro reply
    cases reply with
    | error error => exact trivial
    | ok deposit =>
      simp only
      split
      next => exact trivial
      next =>
        intro reply
        cases reply <;> exact trivial

/-- What holds of every run of a peg-in, whether it has returned or not. -/
structure PegInRun (lib : PegLib Address) (depth amount : UInt64) (h : PegTrace)
    (o : Option (Finished (Except NigiriError PegIn))) : Prop where
  deposits : (deposits h).length ≤ 1
  depositReads : (depositReads h).length ≤ 1
  proofReads : (proofReads h).length ≤ 1
  claims : (claims h).length ≤ CLAIM_RETRY_BLOCKS + 1
  claimed : ∀ before hex proof reply after, h = before ++ ⟨.claimPegIn hex proof, reply⟩ :: after →
    ClaimReady lib depth amount before hex proof ∧
      BehindClaim (before ++ [⟨.claimPegIn hex proof, reply⟩]) after
  returned : ∀ finished, o = some finished → ∃ r, finished = .returned r ∧
    (∀ before hex proof reply after, h = before ++ ⟨.claimPegIn hex proof, reply⟩ :: after →
      Core.claims after = [] → minedBlocks after = 0) ∧
    ((∀ e ∈ h, Served lib e ∧ Mature depth e) → DecidedByClaim amount h r)

section Golden

/-- A peg-in at depth 2 up to the reading of its deposit. -/
def deposited : PegTrace :=
  [⟨.getPegInAddress, some (.ok ⟨"a", "51"⟩)⟩,
    ⟨.sendToAddress "a" "0.00010001", some (.ok "t")⟩,
    ⟨.getNewAddress, some (.ok "m")⟩, ⟨.generateToAddress 1 "m", some (.ok ["b"])⟩,
    ⟨.getNewAddress, some (.ok "m")⟩, ⟨.generateToAddress 1 "m", some (.ok ["c"])⟩]

def lagging : NigiriError :=
  .rpcFailed "claimpegin" (-8) "Peg-in Bitcoin transaction needs more confirmations to be sent."

/-- The first claim is rejected, and the second one, a block later, accepted. -/
def claimedRun : PegTrace :=
  deposited ++ [⟨.getMainchainTransaction "t", some (.ok ⟨"00", 2⟩)⟩,
    ⟨.getTxOutProof "t", some (.ok "p")⟩, ⟨.claimPegIn "00" "p", some (.error lagging)⟩,
    ⟨.generateToAddress 1 "m", some (.ok ["d"])⟩, ⟨.claimPegIn "00" "p", some (.ok "l")⟩]

/-- The deposit is reported one confirmation short. -/
def immatureRun : PegTrace :=
  deposited ++ [⟨.getMainchainTransaction "t", some (.ok ⟨"00", 1⟩)⟩]

theorem golden_txid : parseTxid goldenLib "faucet" "t" = .ok "t" := by decide

theorem golden_address : parseAddress goldenLib "new address" "m" = .ok "m" := by decide

theorem runs_deposited {t : PegTrace} {o : Option (Finished (Except NigiriError PegIn))}
    (ht : Runs (orReturn (fetchMaturedDeposit 2 "t") fun x =>
      claimLoop "t" 10001 "m" x.1 x.2 (List.range (CLAIM_RETRY_BLOCKS + 1)) none) t o) :
    Runs (completePegIn goldenLib 2 10001) (deposited ++ t) o := by
  refine .inr (.inr ⟨.ok ⟨"a", "51"⟩, _, rfl, ?_⟩)
  refine .inr (.inr ⟨.ok "t", _, rfl, ?_⟩)
  simp only [golden_txid]
  refine .inr (.inr ⟨.ok "m", _, rfl, ?_⟩)
  simp only [golden_address]
  refine .inr (.inr ⟨.ok ["b"], _, rfl, ?_⟩)
  refine .inr (.inr ⟨.ok "m", _, rfl, ?_⟩)
  simp only [golden_address]
  exact .inr (.inr ⟨.ok ["c"], _, rfl, ht⟩)

theorem runs_claimed : Runs (completePegIn goldenLib 2 10001) claimedRun
    (some (.returned (.ok ⟨"t", "l", 10001⟩))) := by
  refine runs_deposited (.inr (.inr ⟨.ok ⟨"00", 2⟩, _, rfl, ?_⟩))
  refine .inr (.inr ⟨.ok "p", _, rfl, ?_⟩)
  refine .inr (.inr ⟨.error lagging, _, rfl, ?_⟩)
  refine .inr (.inr ⟨.ok ["d"], _, rfl, ?_⟩)
  exact .inr (.inr ⟨.ok "l", _, rfl, rfl, .inr rfl⟩)

theorem served_deposited : ∀ e ∈ deposited, Served goldenLib e := by
  intro e he
  simp only [deposited, List.mem_cons, List.not_mem_nil, or_false] at he
  rcases he with rfl | rfl | rfl | rfl | rfl | rfl
  · exact ⟨"a", rfl, rfl⟩
  · exact ⟨"t", golden_txid⟩
  · exact ⟨"m", golden_address⟩
  · trivial
  · exact ⟨"m", golden_address⟩
  · trivial

end Golden

end Nigiri.Core
