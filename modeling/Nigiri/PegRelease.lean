import Nigiri.AnsweredRuns
import Nigiri.Peg

/-! Exactly one own peg-out, read right or refused, and one payment for it. -/
namespace Nigiri.Core
open Nigiri.WireFormat Nigiri.Process
variable {Address : Type} {lib : PegLib Address} {peg : Peg} {txid : String}

/-- The output's script is valid hexadecimal and names this pair's parent chain. -/
def namesParent (lib : PegLib Address) (peg : Peg) (output : LiquidOutput) : Bool :=
  match outputTarget lib output with
  | some target => target.parentGenesis = peg.parentGenesis
  | none => false

/-- The output is an own peg-out that can be paid: a standard destination, an explicit
representable value, and the pegged asset. -/
structure Payable (lib : PegLib Address) (peg : Peg) (output : LiquidOutput)
    (destination : Address) (amount : UInt64) : Prop where
  target : ∃ t, outputTarget lib output = some t ∧ t.parentGenesis = peg.parentGenesis ∧
    lib.addressFromScript t.destination = some destination
  value : ∃ v, output.value = some v ∧ lib.amountFromStr v = some amount
  asset : output.asset = some peg.peggedAsset

/-- Reading the output of a list that stands alone; a second own one is an ambiguity. -/
def readOwn (lib : PegLib Address) (peg : Peg) (txid : String) (output : LiquidOutput) :
    Except NigiriError (Address × UInt64) :=
  match outputTarget lib output with
  | some target => readPegOut lib peg txid target output
  | none => .error (.pegOutputNotFound txid)

theorem readPegOut_ok_iff {target : PegOutTarget} {output : LiquidOutput}
    {destination : Address} {amount : UInt64} :
    readPegOut lib peg txid target output = .ok (destination, amount) ↔
      lib.addressFromScript target.destination = some destination ∧
      (∃ v, output.value = some v ∧ lib.amountFromStr v = some amount) ∧
      output.asset = some peg.peggedAsset := by
  unfold readPegOut
  cases hd : lib.addressFromScript target.destination with
  | none => simp
  | some d =>
    cases hv : output.value with
    | none => simp
    | some v =>
      cases ha : lib.amountFromStr v with
      | none => simp [ha]
      | some a =>
        by_cases hasset : output.asset = some peg.peggedAsset
        · simp [ha, hasset]
        · simp [ha, hasset]

theorem namesParent_iff {output : LiquidOutput} : namesParent lib peg output = true ↔
    ∃ t, outputTarget lib output = some t ∧ t.parentGenesis = peg.parentGenesis := by
  unfold namesParent
  cases outputTarget lib output with
  | none => simp
  | some target => simp

theorem readOwn_ok_iff {output : LiquidOutput} (hown : namesParent lib peg output = true)
    {destination : Address} {amount : UInt64} :
    readOwn lib peg txid output = .ok (destination, amount) ↔
      Payable lib peg output destination amount := by
  obtain ⟨target, ht, hparent⟩ := namesParent_iff.mp hown
  simp only [readOwn, ht, readPegOut_ok_iff]
  constructor
  · rintro ⟨hd, hv, ha⟩
    exact ⟨⟨target, ht, hparent, hd⟩, hv, ha⟩
  · rintro ⟨⟨t, ht', -, hd⟩, hv, ha⟩
    obtain rfl := Option.some.inj (ht.symm.trans ht')
    exact ⟨hd, hv, ha⟩

/-- An output that is no own peg-out leaves at most its mismatch behind. -/
theorem scanOutputs_skip {output : LiquidOutput} (h : namesParent lib peg output = false)
    (mismatch : Option String) (selected : Option (Address × UInt64))
    (rest : List LiquidOutput) :
    ∃ mismatch', scanOutputs lib peg txid mismatch selected (output :: rest)
      = scanOutputs lib peg txid mismatch' selected rest := by
  unfold namesParent at h
  cases ht : outputTarget lib output with
  | none => exact ⟨mismatch, by simp only [scanOutputs, ht]⟩
  | some target =>
    rw [ht] at h
    have hne : target.parentGenesis ≠ peg.parentGenesis := of_decide_eq_false h
    exact ⟨mismatch.or (some (mismatchDetail lib peg target)),
      by simp only [scanOutputs, ht, if_pos hne]⟩

theorem scanOutputs_own {output : LiquidOutput} (h : namesParent lib peg output = true)
    (mismatch : Option String) (rest : List LiquidOutput) :
    scanOutputs lib peg txid mismatch none (output :: rest)
      = (readOwn lib peg txid output).bind fun read =>
          scanOutputs lib peg txid mismatch (some read) rest := by
  obtain ⟨target, ht, hparent⟩ := namesParent_iff.mp h
  simp only [scanOutputs, readOwn, ht, hparent, ne_eq, not_true_eq_false, if_false,
    Option.isSome_none, Bool.false_eq_true]
  cases readPegOut lib peg txid target output <;> rfl

theorem scanOutputs_second {output : LiquidOutput} (h : namesParent lib peg output = true)
    (mismatch : Option String) (read : Address × UInt64) (rest : List LiquidOutput) :
    scanOutputs lib peg txid mismatch (some read) (output :: rest)
      = .error (malformed txid "multiple peg-out outputs name this parent chain") := by
  obtain ⟨target, ht, hparent⟩ := namesParent_iff.mp h
  simp only [scanOutputs, ht, hparent, ne_eq, not_true_eq_false, if_false,
    Option.isSome_some, if_true]

/-- After one own peg-out, the rest only decides whether there is another. -/
theorem scanOutputs_selected (mismatch : Option String) (read : Address × UInt64)
    (outputs : List LiquidOutput) :
    scanOutputs lib peg txid mismatch (some read) outputs
      = if outputs.filter (namesParent lib peg) = [] then .ok read
        else .error (malformed txid "multiple peg-out outputs name this parent chain") := by
  induction outputs generalizing mismatch with
  | nil => rfl
  | cons output rest ih =>
    cases h : namesParent lib peg output with
    | false =>
      obtain ⟨mismatch', hskip⟩ := scanOutputs_skip h mismatch (some read) rest
      rw [hskip, ih, List.filter_cons_of_neg (by simp [h])]
    | true =>
      rw [scanOutputs_second h, List.filter_cons_of_pos h, if_neg (List.cons_ne_nil _ _)]

/-- Without an own peg-out there is nothing to release. -/
theorem scanOutputs_none {outputs : List LiquidOutput}
    (h : outputs.filter (namesParent lib peg) = []) (mismatch : Option String) :
    ∃ error, scanOutputs lib peg txid mismatch none outputs = .error error := by
  induction outputs generalizing mismatch with
  | nil =>
    cases mismatch with
    | none => exact ⟨_, rfl⟩
    | some detail => exact ⟨_, rfl⟩
  | cons output rest ih =>
    cases hn : namesParent lib peg output with
    | true =>
      rw [List.filter_cons_of_pos hn] at h
      cases h
    | false =>
      rw [List.filter_cons_of_neg (by simp [hn])] at h
      obtain ⟨mismatch', hskip⟩ := scanOutputs_skip hn mismatch none rest
      rw [hskip]
      exact ih h mismatch'

/-- With one, the result is read off the own peg-outs alone, errors included. -/
theorem scanOutputs_first {outputs : List LiquidOutput} {own : LiquidOutput}
    {others : List LiquidOutput}
    (h : outputs.filter (namesParent lib peg) = own :: others) (mismatch : Option String) :
    scanOutputs lib peg txid mismatch none outputs
      = (readOwn lib peg txid own).bind fun read =>
          if others = [] then .ok read
          else .error (malformed txid "multiple peg-out outputs name this parent chain") := by
  induction outputs generalizing mismatch with
  | nil => cases h
  | cons output rest ih =>
    cases hn : namesParent lib peg output with
    | true =>
      rw [List.filter_cons_of_pos hn] at h
      obtain ⟨rfl, rfl⟩ := List.cons.inj h
      simp only [scanOutputs_own hn, scanOutputs_selected]
    | false =>
      rw [List.filter_cons_of_neg (by simp [hn])] at h
      obtain ⟨mismatch', hskip⟩ := scanOutputs_skip hn mismatch none rest
      rw [hskip]
      exact ih h mismatch'

/-- Decoding succeeds exactly on one own peg-out that can be paid. -/
theorem decodePegOut_ok_iff {transaction : LiquidTransaction} {destination : Address}
    {amount : UInt64} :
    decodePegOut lib peg txid transaction = .ok (destination, amount) ↔
      ∃ output, transaction.vout.filter (namesParent lib peg) = [output] ∧
        Payable lib peg output destination amount := by
  unfold decodePegOut
  cases hown : transaction.vout.filter (namesParent lib peg) with
  | nil =>
    obtain ⟨error, herror⟩ := @scanOutputs_none _ lib peg txid _ hown none
    simp [herror]
  | cons own others =>
    have hnames : namesParent lib peg own = true := by
      have hmem : own ∈ transaction.vout.filter (namesParent lib peg) := by simp [hown]
      exact (List.mem_filter.mp hmem).2
    rw [scanOutputs_first hown]
    constructor
    · intro h
      cases hread : readOwn lib peg txid own with
      | error e =>
        rw [hread] at h
        cases h
      | ok read =>
        rw [hread] at h
        simp only [Except.bind] at h
        split at h
        · rename_i hothers
          obtain rfl := Except.ok.inj h
          exact ⟨own, by rw [hothers], (readOwn_ok_iff hnames).mp hread⟩
        · cases h
    · rintro ⟨output, heq, hpayable⟩
      obtain ⟨rfl, rfl⟩ := List.cons.inj heq
      rw [(readOwn_ok_iff hnames).mpr hpayable]
      rfl

/-- Outputs around the own peg-outs do not matter, whatever the result. -/
theorem decodePegOut_congr {t t' : LiquidTransaction}
    (h : t.vout.filter (namesParent lib peg) = t'.vout.filter (namesParent lib peg))
    (hown : t.vout.filter (namesParent lib peg) ≠ []) :
    decodePegOut lib peg txid t = decodePegOut lib peg txid t' := by
  obtain ⟨own, others, hcons⟩ := List.exists_cons_of_ne_nil hown
  rw [decodePegOut, decodePegOut, scanOutputs_first hcons, scanOutputs_first (h ▸ hcons)]

/-- Nor does the order of the outputs, for what is released. -/
theorem decodePegOut_perm {t t' : LiquidTransaction} (h : t.vout.Perm t'.vout)
    (released : Address × UInt64) :
    decodePegOut lib peg txid t = .ok released ↔
      decodePegOut lib peg txid t' = .ok released := by
  have hfilter (output : LiquidOutput) : t.vout.filter (namesParent lib peg) = [output] ↔
      t'.vout.filter (namesParent lib peg) = [output] := by
    have hperm := h.filter (namesParent lib peg)
    constructor
    · intro heq
      exact List.perm_singleton.mp (heq ▸ hperm).symm
    · intro heq
      exact List.perm_singleton.mp (heq ▸ hperm)
  obtain ⟨destination, amount⟩ := released
  simp only [decodePegOut_ok_iff, hfilter]

/-- Amounts are written as JSON numbers that read back as themselves. -/
def AmountsAreNumbers (lib : PegLib Address) : Prop :=
  ∀ amount, ∃ number, lib.numberFromStr (lib.amountToString amount) = some number ∧
    lib.amountFromStr number = some amount

abbrev PegTrace := List (Event PegCall PegCall.Answer)

/-- The payments requested in a run: address and amount of each. -/
def payments : PegTrace → List (String × String)
  | [] => []
  | ⟨.sendToAddress address amount, _⟩ :: h => (address, amount) :: payments h
  | _ :: h => payments h

theorem payments_append (h t : PegTrace) : payments (h ++ t) = payments h ++ payments t := by
  induction h with
  | nil => rfl
  | cons e h ih =>
    obtain ⟨request, reply⟩ := e
    cases request with
    | sendToAddress address amount => exact congrArg (List.cons (address, amount)) ih
    | _ => exact ih

/-- Requests that pay nothing leave the payments of a history as they are. -/
structure Unpaid (h h' : PegTrace) : Prop where
  payments : payments h' = payments h
  extends_ : ∃ t, h' = h ++ t

theorem Unpaid.refl (h : PegTrace) : Unpaid h h := ⟨rfl, [], by simp⟩

theorem Unpaid.append {h t : PegTrace} (ht : Core.payments t = []) : Unpaid h (h ++ t) :=
  ⟨by rw [payments_append, ht, List.append_nil], t, rfl⟩

theorem mineCommittedTransaction_ensures (operation txid' : String) (h : PegTrace) :
    Ensures h (mineCommittedTransaction lib operation txid') fun h' _ => Unpaid h h' := by
  refine ensures_ask (.refl h) (.append rfl) fun reply => ?_
  cases reply with
  | error source => exact ensures_done (.append rfl) (.append rfl)
  | ok value =>
    cases ha : parseAddress lib "new address" value with
    | error source =>
      simp only [ha]
      exact ensures_done (.append rfl) (.append rfl)
    | ok address =>
      simp only [ha]
      refine ensures_ask (.append rfl) ?_ fun reply => ?_
      · rw [List.append_assoc]
        exact .append rfl
      · rw [List.append_assoc]
        cases reply with
        | error source => exact ensures_done (.append rfl) (.append rfl)
        | ok _ => exact ensures_done (.append rfl) (.append rfl)

/-- A faucet call pays first, and nothing more afterwards. -/
def FaucetPost (address number : String) (h h' : PegTrace)
    (result : Option (Except NigiriError String)) : Prop :=
  h' = h ∧ result = none ∨ ∃ reply t, h' = h ++ ⟨.sendToAddress address number, reply⟩ :: t ∧
    payments t = []

theorem faucet_ensures {address number : String} {amount : UInt64}
    (hnumber : lib.numberFromStr (lib.amountToString amount) = some number) (h : PegTrace) :
    Ensures h (faucet lib address amount) (FaucetPost address number h) := by
  have paid (reply : Option (Except NigiriError String)) (t : PegTrace) (ht : payments t = [])
      (result : Option (Except NigiriError String)) : FaucetPost address number h
        (h ++ [⟨.sendToAddress address number, reply⟩] ++ t) result :=
    .inr ⟨reply, t, List.append_assoc .., ht⟩
  have sent (reply : Option (Except NigiriError String))
      (result : Option (Except NigiriError String)) : FaucetPost address number h
        (h ++ [⟨.sendToAddress address number, reply⟩]) result := by
    simpa only [List.append_nil] using paid reply [] rfl result
  simp only [faucet, amountAsJsonNumber, hnumber]
  refine ensures_ask (.inl ⟨rfl, rfl⟩) (sent none none) fun reply => ?_
  cases reply with
  | error error => exact ensures_done (sent _ _) (sent _ _)
  | ok value =>
    cases htxid : parseTxid lib "faucet" value with
    | error error =>
      simp only [htxid]
      exact ensures_done (sent _ _) (sent _ _)
    | ok txid' =>
      simp only [htxid]
      refine ensures_bind ((mineCommittedTransaction_ensures "faucet" txid' _).mono ?_)
      rintro h' mined ⟨hpayments, t, rfl⟩
      have ht : payments t = [] := by
        rw [payments_append] at hpayments
        exact List.append_right_eq_self.mp hpayments
      match mined with
      | none => exact paid _ t ht none
      | some (.error error) =>
        exact ensures_done (paid (some (.ok value)) t ht none) (paid (some (.ok value)) t ht _)
      | some (.ok ()) =>
        exact ensures_done (paid (some (.ok value)) t ht none) (paid (some (.ok value)) t ht _)

/-- What a release does with the transaction it has read: nothing but to fail when that decodes to
no release, and when it decodes to one, a single payment, which the call does not return without. -/
def PaidOnce (lib : PegLib Address) (peg : Peg) (txid : String) (transaction : LiquidTransaction)
    (t : PegTrace) (result : Option (Except NigiriError (PegOut Address))) : Prop :=
  match decodePegOut lib peg txid transaction with
  | .error error => t = [] ∧ (result = none ∨ result = some (.error error))
  | .ok (destination, amount) => ∃ number, lib.amountFromStr number = some amount ∧
    (t = [] ∧ result = none ∨ ∃ reply rest,
      t = ⟨.sendToAddress (lib.displayAddress destination) number, reply⟩ :: rest ∧
      payments rest = [])

/-- A release reads the transaction it is asked for before all else. -/
inductive ReleasePost (lib : PegLib Address) (peg : Peg) (txid : String) :
    PegTrace → Option (Except NigiriError (PegOut Address)) → Prop where
  | before : ReleasePost lib peg txid [] none
  | asked : ReleasePost lib peg txid [⟨.getRawTransaction txid 1, none⟩] none
  | failed {result} (error : NigiriError) (hresult : result = none ∨ result = some (.error error)) :
    ReleasePost lib peg txid [⟨.getRawTransaction txid 1, some (.error error)⟩] result
  | fetched {t result} (transaction : LiquidTransaction)
    (hpaid : PaidOnce lib peg txid transaction t result) :
    ReleasePost lib peg txid (⟨.getRawTransaction txid 1, some (.ok transaction)⟩ :: t) result

theorem releasePegOut_ensures (hlib : AmountsAreNumbers lib) :
    Ensures [] (releasePegOut lib peg txid) (ReleasePost lib peg txid) := by
  refine ensures_ask .before .asked fun reply => ?_
  cases reply with
  | error error => exact ensures_done (.failed error (.inl rfl)) (.failed error (.inr rfl))
  | ok transaction =>
    cases hdecode : decodePegOut lib peg txid transaction with
    | error error =>
      simp only [hdecode]
      have refused {result : Option (Except NigiriError (PegOut Address))}
          (hresult : result = none ∨ result = some (.error error)) :
          PaidOnce lib peg txid transaction [] result := by
        rw [PaidOnce, hdecode]
        exact ⟨rfl, hresult⟩
      exact ensures_done (.fetched transaction (refused (.inl rfl)))
        (.fetched transaction (refused (.inr rfl)))
    | ok read =>
      obtain ⟨destination, amount⟩ := read
      obtain ⟨number, hnumber, hback⟩ := hlib amount
      simp only [hdecode]
      refine ensures_bind ((faucet_ensures hnumber _).mono ?_)
      -- what the faucet has paid is what the release has paid
      have post (result : Option (Except NigiriError (PegOut Address))) {t : PegTrace}
          (ht : t = [] ∧ result = none ∨ ∃ reply rest,
            t = ⟨.sendToAddress (lib.displayAddress destination) number, reply⟩ :: rest ∧
            payments rest = []) :
          ReleasePost lib peg txid
            (⟨.getRawTransaction txid 1, some (.ok transaction)⟩ :: t) result := by
        refine .fetched transaction ?_
        rw [PaidOnce, hdecode]
        exact ⟨number, hback, ht⟩
      rintro h paid (⟨rfl, rfl⟩ | ⟨reply, t, rfl, ht⟩)
      · exact post none (.inl ⟨rfl, rfl⟩)
      · have hpaid (result : Option (Except NigiriError (PegOut Address))) :=
          post result (.inr ⟨reply, t, rfl, ht⟩)
        rcases paid with _ | error | bitcoinTxid
        · exact hpaid none
        · exact ensures_done (hpaid none) (hpaid _)
        · exact ensures_done (hpaid none) (hpaid _)

theorem straight_mineCommittedTransaction (operation txid' : String) :
    Straight (mineCommittedTransaction lib operation txid') := by
  intro reply
  cases reply with
  | error source => exact trivial
  | ok value =>
    simp only
    split
    next => exact trivial
    next =>
      intro reply
      cases reply <;> exact trivial

theorem straight_faucet (address : String) (amount : UInt64) :
    Straight (faucet lib address amount) := by
  unfold faucet
  split
  next => exact trivial
  next =>
    intro reply
    cases reply with
    | error error => exact trivial
    | ok value =>
      simp only
      split
      next => exact trivial
      next =>
        refine (straight_mineCommittedTransaction _ _).bind fun mined => ?_
        cases mined <;> exact trivial

theorem straight_releasePegOut : Straight (releasePegOut lib peg txid) := by
  intro reply
  cases reply with
  | error error => exact trivial
  | ok transaction =>
    simp only
    split
    next => exact trivial
    next =>
      refine (straight_faucet _ _).bind fun paid => ?_
      cases paid <;> exact trivial

/-- Decoding accepts exactly one own, payable peg-out, whatever stands around it and in any
order; a release reads its transaction, pays that destination that amount once, and pays nothing
otherwise; whatever the nodes reply, it comes to its result. -/
theorem peg_out_decoded_and_released_once (lib : PegLib Address) (peg : Peg) (txid : String)
    (hlib : AmountsAreNumbers lib) :
    (∀ transaction destination amount,
      decodePegOut lib peg txid transaction = .ok (destination, amount) ↔
        ∃ output, transaction.vout.filter (namesParent lib peg) = [output] ∧
          Payable lib peg output destination amount) ∧
    (∀ t t' : LiquidTransaction,
      t.vout.filter (namesParent lib peg) = t'.vout.filter (namesParent lib peg) →
      t.vout.filter (namesParent lib peg) ≠ [] →
      decodePegOut lib peg txid t = decodePegOut lib peg txid t') ∧
    (∀ t t' : LiquidTransaction, t.vout.Perm t'.vout → ∀ released,
      decodePegOut lib peg txid t = .ok released ↔
        decodePegOut lib peg txid t' = .ok released) ∧
    Ensures [] (releasePegOut lib peg txid) (ReleasePost lib peg txid) ∧
    ∀ nodes, Returns nodes [] (releasePegOut lib peg txid)
      fun h result => ReleasePost lib peg txid h (some result) := by
  have hrelease : Ensures [] (releasePegOut lib peg txid) (ReleasePost lib peg txid) :=
    releasePegOut_ensures hlib
  refine ⟨fun _ _ _ => decodePegOut_ok_iff, fun _ _ => decodePegOut_congr,
    fun _ _ => decodePegOut_perm, hrelease, fun nodes => ?_⟩
  exact (hrelease.returns straight_releasePegOut.returns).mono fun h result hresult => hresult.1

section Golden

def hexValue (c : Char) : Nat := "0123456789abcdef".toList.idxOf c

def hexText : List Char → Bytes
  | c :: d :: rest => UInt8.ofNat (hexValue c * 16 + hexValue d) :: hexText rest
  | _ => []

/-- Opcodes up to 75 push that many bytes. -/
def directPushes : Nat → Bytes → List Instruction
  | 0, _ | _, [] => []
  | fuel + 1, code :: rest =>
    if 75 < code then .op code :: directPushes fuel rest
    else if rest.length < code.toNat then [.malformed]
    else .pushBytes (rest.take code.toNat) :: directPushes fuel (rest.drop code.toNat)

def goldenScript : String :=
  "6a2006226e46111a0b59caaf126043eb5bbf28c34f3a5e332a1fc7b2b73cf188910f16"
    ++ "0014153a100bf13cf08f49d13163e49df5a51d186626"

def goldenGenesis : Bytes :=
  hexText "06226e46111a0b59caaf126043eb5bbf28c34f3a5e332a1fc7b2b73cf188910f".toList

def goldenDestination : String := "bcrt1qz5apqzl38ncg7jw3x937f80455w3se3xfhd0f5"

/-- The libraries on the outputs of a captured peg-out; other amounts only need to be read
back. -/
def goldenLib : PegLib String where
  fromHex text := some (hexText text.toList)
  instructions script := directPushes script.length script
  displayBlockHash _ := "0f9188f13cb7b2c71f2a335e3a4fc328bf5beb436012afca590b1a11466e2206"
  addressFromScript script :=
    if script = hexText "0014153a100bf13cf08f49d13163e49df5a51d186626".toList then
      some goldenDestination
    else none
  displayAddress := id
  amountFromStr text :=
    if text.toList = "0.00010001".toList then some 10001
    else some (UInt64.ofNat text.toList.length)
  amountToString amount :=
    if amount = 10001 then "0.00010001" else String.ofList (List.replicate amount.toNat '1')
  numberFromStr := some
  txidFromStr := some
  addressFromStr := some
  isRegtest _ := true

def goldenPeg : Peg := ⟨goldenGenesis, [0xab]⟩

def goldenTransaction : LiquidTransaction :=
  ⟨[⟨none, some "0.5", "0014389ffce9cd9ae88dcc0631e88a821ffdbe9bfe26"⟩,
    ⟨some [0xab], some "0.00010001", goldenScript⟩]⟩

theorem goldenLib_amounts : AmountsAreNumbers goldenLib := by
  intro amount
  refine ⟨goldenLib.amountToString amount, rfl, ?_⟩
  by_cases h : amount = 10001
  · subst h
    rfl
  · have hne : List.replicate amount.toNat '1' ≠ "0.00010001".toList := by
      intro heq
      have hmem : '0' ∈ List.replicate amount.toNat '1' := by
        rw [heq]
        decide
      exact absurd (List.eq_of_mem_replicate hmem) (by decide)
    simp only [goldenLib, if_neg h, String.toList_ofList, if_neg hne, List.length_replicate,
      UInt64.ofNat_toNat]

/-- Nodes that know the captured transaction and do whatever is asked of them. -/
def goldenNodes : Environment PegCall PegCall.Answer := fun _ call =>
  match call with
  | .getRawTransaction .. => .ok goldenTransaction
  | .sendToAddress .. => .ok "ab"
  | .getNewAddress => .ok "bcrt1"
  | .generateToAddress .. => .ok []
  | .getPegInAddress => .ok ⟨"bcrt1", ""⟩
  | .getMainchainTransaction _ => .ok ⟨"", 1⟩
  | .getTxOutProof _ => .ok ""
  | .claimPegIn .. => .ok "ab"

/-- A captured peg-out next to an ordinary output decodes, and its release pays once. -/
theorem peg_out_decoded_and_released_once_golden :
    decodePegOut goldenLib goldenPeg "ab" goldenTransaction = .ok (goldenDestination, 10001) ∧
    Returns goldenNodes [] (releasePegOut goldenLib goldenPeg "ab") fun h _ =>
      ∃ number, goldenLib.amountFromStr number = some 10001 ∧
        payments h = [(goldenDestination, number)] := by
  have h := peg_out_decoded_and_released_once goldenLib goldenPeg "ab" goldenLib_amounts
  have hdecode : decodePegOut goldenLib goldenPeg "ab" goldenTransaction
      = .ok (goldenDestination, 10001) := by
    refine (h.1 _ _ _).mpr ⟨⟨some [0xab], some "0.00010001", goldenScript⟩, ?_, ?_, ?_, rfl⟩
    · decide +kernel
    · exact ⟨⟨goldenGenesis, hexText "0014153a100bf13cf08f49d13163e49df5a51d186626".toList⟩,
        by decide +kernel, rfl, by decide +kernel⟩
    · exact ⟨"0.00010001", rfl, by decide +kernel⟩
  refine ⟨hdecode, ?_⟩
  obtain ⟨t, _, hrun, ht, result, rfl, hpost⟩ := h.2.2.2.2 goldenNodes
  refine ⟨t, some result, hrun, ht, result, rfl, ?_⟩
  rw [List.nil_append] at hpost ⊢
  cases hpost with
  | failed error hresult => cases ht.1
  | fetched transaction hpaid =>
    obtain rfl : transaction = goldenTransaction := Except.ok.inj (Option.some.inj ht.1)
    rw [PaidOnce, hdecode] at hpaid
    obtain ⟨number, hnumber, ⟨-, hnone⟩ | ⟨reply, rest, rfl, hrest⟩⟩ := hpaid
    · cases hnone
    · exact ⟨number, hnumber, congrArg (List.cons (goldenDestination, number)) hrest⟩

end Golden

end Nigiri.Core
