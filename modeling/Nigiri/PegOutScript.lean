import Nigiri.PushEncoding
import Nigiri.Peg

/-! The script of a peg-out, over a script library that reads pushes as Bitcoin encodes them. -/
namespace Nigiri.Core
open Nigiri.WireFormat Nigiri.PushEncoding
variable {Address : Type}

/-- What the script library promises of its instructions. -/
structure FollowsPushEncoding (instructions : Bytes → List Instruction) : Prop where
  nil : instructions [] = []
  op : ∀ code rest, formOf code = none → instructions (code :: rest) = .op code :: instructions rest
  push : ∀ (form : PushForm) (bytes rest : Bytes), form.Fits bytes.length →
    instructions (form.write bytes ++ rest) = .pushBytes bytes :: instructions rest
  truncated : ∀ script, Truncated script → instructions script = [.malformed]

section Reading
variable {instructions : Bytes → List Instruction} (h : FollowsPushEncoding instructions)
include h

theorem FollowsPushEncoding.reads_push {script bytes : Bytes} {items : List Instruction} :
    instructions script = .pushBytes bytes :: items ↔
      ∃ (form : PushForm) (rest : Bytes), form.Fits bytes.length ∧
        script = form.write bytes ++ rest ∧ items = instructions rest := by
  constructor
  · intro hread
    obtain rfl | ⟨code, rest, hcode, rfl⟩ | ⟨form, found, rest, hfits, rfl⟩ | hcut :=
      script_cases script
    · rw [h.nil] at hread
      cases hread
    · rw [h.op code rest hcode] at hread
      cases hread
    · rw [h.push form found rest hfits] at hread
      cases hread
      exact ⟨form, rest, hfits, rfl, rfl⟩
    · rw [h.truncated script hcut] at hread
      cases hread
  · intro hwritten
    obtain ⟨form, rest, hfits, rfl, rfl⟩ := hwritten
    exact h.push form bytes rest hfits

theorem FollowsPushEncoding.reads_op {script : Bytes} {code : UInt8} {items : List Instruction} :
    instructions script = .op code :: items ↔
      ∃ rest, formOf code = none ∧ script = code :: rest ∧ items = instructions rest := by
  constructor
  · intro hread
    obtain rfl | ⟨found, rest, hcode, rfl⟩ | ⟨form, bytes, rest, hfits, rfl⟩ | hcut :=
      script_cases script
    · rw [h.nil] at hread
      cases hread
    · rw [h.op found rest hcode] at hread
      cases hread
      exact ⟨rest, hcode, rfl, rfl⟩
    · rw [h.push form bytes rest hfits] at hread
      cases hread
    · rw [h.truncated script hcut] at hread
      cases hread
  · intro hwritten
    obtain ⟨rest, hcode, rfl, rfl⟩ := hwritten
    exact h.op code rest hcode

end Reading

/-- The script of a peg-out: both pushes in any form that has room for them, then any tail. -/
def pegOutScript (genesisForm destinationForm : PushForm) (target : PegOutTarget)
    (tail : Bytes) : Bytes :=
  OP_RETURN :: (genesisForm.write target.parentGenesis ++
    (destinationForm.write target.destination ++ tail))

section Decode
variable {lib : PegLib Address} {script : Bytes} {target : PegOutTarget}

theorem decoded_instructions :
    decodePegOutScript lib script = .ok target ↔
      target.parentGenesis.length = 32 ∧ target.destination ≠ [] ∧
        ∃ items, lib.instructions script =
          .op OP_RETURN :: .pushBytes target.parentGenesis :: .pushBytes target.destination ::
            items := by
  constructor
  · intro hdecoded
    unfold decodePegOutScript at hdecoded
    split at hdecoded
    · rename_i op rest hitems
      split_ifs at hdecoded with hop
      split at hdecoded
      · rename_i genesis rest
        split_ifs at hdecoded with hgenesis
        split at hdecoded
        · rename_i destination items
          split_ifs at hdecoded with hdestination
          cases hdecoded
          exact ⟨not_not.mp hgenesis, hdestination, items, by rw [hitems, not_not.mp hop]⟩
        · cases hdecoded
      · cases hdecoded
    · cases hdecoded
  · intro hitems
    obtain ⟨hgenesis, hdestination, items, hitems⟩ := hitems
    simp [decodePegOutScript, hitems, hgenesis, hdestination]

/-- A script decodes to what it pushes behind its return, and only such scripts decode. -/
theorem decode_peg_out_script_iff (hlib : FollowsPushEncoding lib.instructions) :
    decodePegOutScript lib script = .ok target ↔
      target.parentGenesis.length = 32 ∧ target.destination ≠ [] ∧
        ∃ (genesisForm destinationForm : PushForm) (tail : Bytes),
          genesisForm.Fits target.parentGenesis.length ∧
            destinationForm.Fits target.destination.length ∧
            script = pegOutScript genesisForm destinationForm target tail := by
  rw [decoded_instructions]
  refine and_congr_right fun _ => and_congr_right fun _ => ?_
  constructor
  · intro hitems
    obtain ⟨items, hitems⟩ := hitems
    obtain ⟨pushes, _, rfl, hpushes⟩ := hlib.reads_op.mp hitems
    obtain ⟨genesisForm, rest, hgenesis, rfl, hrest⟩ := hlib.reads_push.mp hpushes.symm
    obtain ⟨destinationForm, tail, hdestination, rfl, _⟩ := hlib.reads_push.mp hrest.symm
    exact ⟨genesisForm, destinationForm, tail, hgenesis, hdestination, rfl⟩
  · intro hscript
    obtain ⟨genesisForm, destinationForm, tail, hgenesis, hdestination, rfl⟩ := hscript
    refine ⟨lib.instructions tail, ?_⟩
    rw [pegOutScript, hlib.op OP_RETURN _ (by decide), hlib.push genesisForm _ _ hgenesis,
      hlib.push destinationForm _ _ hdestination]

end Decode

theorem peg_out_script_codec (lib : PegLib Address)
    (hlib : FollowsPushEncoding lib.instructions) :
    (∀ (script : Bytes) (target : PegOutTarget),
      decodePegOutScript lib script = .ok target ↔
        target.parentGenesis.length = 32 ∧ target.destination ≠ [] ∧
          ∃ (genesisForm destinationForm : PushForm) (tail : Bytes),
            genesisForm.Fits target.parentGenesis.length ∧
              destinationForm.Fits target.destination.length ∧
              script = pegOutScript genesisForm destinationForm target tail) ∧
    ∀ (genesisForm destinationForm : PushForm) (target : PegOutTarget) (tail : Bytes),
      target.parentGenesis.length = 32 → target.destination ≠ [] →
      genesisForm.Fits target.parentGenesis.length →
      destinationForm.Fits target.destination.length →
      decodePegOutScript lib (pegOutScript genesisForm destinationForm target tail) =
        .ok target := by
  refine ⟨fun _ _ => decode_peg_out_script_iff hlib, ?_⟩
  intro genesisForm destinationForm target tail hlength hne hgenesis hdestination
  apply (decode_peg_out_script_iff hlib).mpr
  exact ⟨hlength, hne, genesisForm, destinationForm, tail, hgenesis, hdestination, rfl⟩

section Reader

/-- Reading a script as Bitcoin encodes it. -/
def readInstructions : Bytes → List Instruction
  | [] => []
  | code :: rest =>
    match formOf code with
    | none => .op code :: readInstructions rest
    | some form =>
      let n := pushLength form code rest
      if rest.length < form.width + n then [.malformed]
      else .pushBytes ((rest.drop form.width).take n) ::
        readInstructions ((rest.drop form.width).drop n)
termination_by script => script.length
decreasing_by
  · simp only [List.length_cons]
    omega
  · simp only [List.length_cons, List.length_drop]
    omega

theorem readInstructions_form {form : PushForm} {n : Nat} (hfits : form.Fits n) (body : Bytes) :
    readInstructions (form.header n ++ body) =
      if body.length < n then [.malformed]
      else .pushBytes (body.take n) :: readInstructions (body.drop n) := by
  have hwidth : (littleEndian form.width n).length = form.width := length_littleEndian _ _
  have hbody : (littleEndian form.width n ++ body).drop form.width = body :=
    List.drop_left' hwidth
  rw [PushForm.header, List.cons_append, readInstructions, formOf_code hfits]
  simp only [pushLength_header hfits, hbody, List.length_append, hwidth]
  by_cases hshort : body.length < n
  · rw [if_pos hshort, if_pos (by omega)]
  · rw [if_neg hshort, if_neg (by omega)]

theorem readInstructions_follows : FollowsPushEncoding readInstructions where
  nil := by rw [readInstructions]
  op := by
    intro code rest hcode
    rw [readInstructions, hcode]
  push := by
    intro form bytes rest hfits
    have hlong : ¬ (bytes ++ rest).length < bytes.length := by simp
    rw [PushForm.write, List.append_assoc, readInstructions_form hfits, if_neg hlong,
      List.take_left, List.drop_left]
  truncated := by
    intro script hcut
    cases hcut with
    | bytes form n present hfits hshort => rw [readInstructions_form hfits, if_pos hshort]
    | length form n present hshort =>
      rw [readInstructions, formOf_code_short hshort]
      simp only
      rw [if_pos (by omega)]

/-- The libraries with a script reader of their own; nothing else of them is asked. -/
def scriptLib : PegLib String where
  fromHex _ := none
  instructions := readInstructions
  displayBlockHash _ := ""
  addressFromScript _ := none
  displayAddress := id
  amountFromStr _ := none
  amountToString _ := ""
  numberFromStr := some
  txidFromStr := some
  addressFromStr := some
  isRegtest _ := true

/-- A proof may follow the destination, whatever it is. -/
theorem peg_out_script_codec_example :
    decodePegOutScript scriptLib
        (pegOutScript .direct .pushData1 ⟨List.replicate 32 0x11, [0x00, 0x14]⟩ [0x4e, 0xff]) =
      .ok ⟨List.replicate 32 0x11, [0x00, 0x14]⟩ := by
  apply (peg_out_script_codec scriptLib readInstructions_follows).2
  · exact List.length_replicate
  · simp
  · simp [PushForm.Fits]
  · simp [PushForm.Fits, PushForm.width]

end Reader
end Nigiri.Core
