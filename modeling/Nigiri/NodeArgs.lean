import Mathlib.Data.List.Nodup
import Nigiri.LndConfig

/-! The command line of a chain's node, and how a composite's arguments replace those the chain
sets itself. -/
namespace Nigiri.Fixtures
open Nigiri.Lnd

abbrev Argument := List Char

/-- The part of a node argument that says which setting it sets. -/
def argumentKey (argument : Argument) : List Char :=
  match splitOnce "=".toList argument with
  | none => argument
  | some (key, _) => key

def mergeNodeArgs (base extra : List Argument) : List Argument :=
  let overridden := extra.map argumentKey
  (base.filter fun argument => !overridden.contains (argumentKey argument)) ++ extra

def Sets (key : List Char) (argument : Argument) : Bool := argumentKey argument == key

section Merge
variable {base extra : List Argument} {key : List Char}

theorem mem_keys {arguments : List Argument} :
    key ∈ arguments.map argumentKey ↔ ∃ argument ∈ arguments, Sets key argument = true := by
  simp [Sets]

theorem mergeNodeArgs_eq (base extra : List Argument) :
    mergeNodeArgs base extra =
      (base.filter fun argument => argumentKey argument ∉ extra.map argumentKey) ++ extra := by
  unfold mergeNodeArgs
  refine congrArg (· ++ extra) ?_
  apply List.filter_congr
  intro argument _
  simp only [List.contains_eq_mem, decide_not]

theorem mergeNodeArgs_nil_right (base : List Argument) : mergeNodeArgs base [] = base := by
  rw [mergeNodeArgs_eq, List.append_nil]
  exact List.filter_eq_self.mpr (by simp)

theorem mergeNodeArgs_nil_left (extra : List Argument) : mergeNodeArgs [] extra = extra := rfl

theorem filter_kept (hkey : key ∉ extra.map argumentKey) :
    (base.filter fun argument => argumentKey argument ∉ extra.map argumentKey).filter (Sets key) =
      base.filter (Sets key) := by
  rw [List.filter_filter]
  apply List.filter_congr
  intro argument _
  by_cases hsets : argumentKey argument = key
  · subst hsets
    simpa [Sets] using hkey
  · simp [Sets, hsets]

theorem filter_overridden (hkey : key ∈ extra.map argumentKey) :
    (base.filter fun argument => argumentKey argument ∉ extra.map argumentKey).filter (Sets key) =
      [] := by
  rw [List.filter_filter, List.filter_eq_nil_iff]
  intro argument _ hboth
  obtain ⟨hsets, hkept⟩ := Bool.and_eq_true_iff.mp hboth
  have hsame : argumentKey argument = key := by simpa [Sets] using hsets
  exact (of_decide_eq_true hkept) (hsame ▸ hkey)

/-- A setting that the composite names has the composite's values alone. -/
theorem merged_overridden (hkey : key ∈ extra.map argumentKey) :
    (mergeNodeArgs base extra).filter (Sets key) = extra.filter (Sets key) := by
  rw [mergeNodeArgs_eq, List.filter_append, filter_overridden hkey, List.nil_append]

/-- A setting that the composite does not name is as the chain sets it. -/
theorem merged_kept (hkey : key ∉ extra.map argumentKey) :
    (mergeNodeArgs base extra).filter (Sets key) = base.filter (Sets key) := by
  have hnone : extra.filter (Sets key) = [] := by
    rw [List.filter_eq_nil_iff]
    intro argument hmem hsets
    exact hkey (mem_keys.mpr ⟨argument, hmem, hsets⟩)
  rw [mergeNodeArgs_eq, List.filter_append, filter_kept hkey, hnone, List.append_nil]

/-- Keys are compared whole. -/
example : mergeNodeArgs ["-validatepeginfoo=1".toList, "-server".toList]
      ["-validatepegin=1".toList, "-server".toList] =
    ["-validatepeginfoo=1".toList, "-validatepegin=1".toList, "-server".toList] := by decide

theorem keys_merged :
    key ∈ (mergeNodeArgs base extra).map argumentKey ↔
      key ∈ base.map argumentKey ∨ key ∈ extra.map argumentKey := by
  by_cases hkey : key ∈ extra.map argumentKey
  · simp only [mergeNodeArgs_eq, List.map_append, List.mem_append, hkey, or_true]
  · have hmem : key ∈ (mergeNodeArgs base extra).map argumentKey ↔
        key ∈ base.map argumentKey := by
      simp only [mem_keys]
      simp only [← List.mem_filter, merged_kept hkey]
    rw [hmem]
    simp [hkey]

theorem mergeNodeArgs_assoc (base first second : List Argument) :
    mergeNodeArgs (mergeNodeArgs base first) second =
      mergeNodeArgs base (mergeNodeArgs first second) := by
  have hkept : ∀ argument,
      argumentKey argument ∉ (mergeNodeArgs first second).map argumentKey ↔
        argumentKey argument ∉ second.map argumentKey ∧
          argumentKey argument ∉ first.map argumentKey := by
    intro argument
    rw [keys_merged, not_or, and_comm]
  rw [mergeNodeArgs_eq base (mergeNodeArgs first second)]
  simp only [hkept, Bool.decide_and]
  rw [← List.filter_filter, mergeNodeArgs_eq base first, mergeNodeArgs_eq _ second,
    mergeNodeArgs_eq first second, List.filter_append, List.append_assoc]

end Merge

theorem node_args_merge (base extra : List Argument) :
    mergeNodeArgs base extra =
        (base.filter fun argument => argumentKey argument ∉ extra.map argumentKey) ++ extra ∧
      (∀ key, (mergeNodeArgs base extra).filter (Sets key) =
        if key ∈ extra.map argumentKey then extra.filter (Sets key)
        else base.filter (Sets key)) ∧
      mergeNodeArgs base [] = base ∧ mergeNodeArgs [] extra = extra ∧
      ∀ further, mergeNodeArgs (mergeNodeArgs base extra) further =
        mergeNodeArgs base (mergeNodeArgs extra further) := by
  refine ⟨mergeNodeArgs_eq base extra, ?_, mergeNodeArgs_nil_right base,
    mergeNodeArgs_nil_left extra, mergeNodeArgs_assoc base extra⟩
  intro key
  by_cases hkey : key ∈ extra.map argumentKey
  · rw [if_pos hkey, merged_overridden hkey]
  · rw [if_neg hkey, merged_kept hkey]

section Liquid

def RPC_USER : List Char := "admin1".toList
def RPC_PASSWORD : List Char := "123".toList
def INITIAL_FREE_COINS : Nat := 2100000000000000

def Liquid.NODE_RPC_PORT : Nat := 18884

def setting (s : String × List Char) : Argument := s.1.toList ++ '=' :: s.2

def Liquid.settings : List (String × List Char) := [
  ("-chain", "liquidregtest".toList),
  ("-server", "1".toList),
  ("-txindex", "1".toList),
  ("-rpcbind", "0.0.0.0:".toList ++ (toString Liquid.NODE_RPC_PORT).toList),
  ("-rpcallowip", "0.0.0.0/0".toList),
  ("-rpcport", (toString Liquid.NODE_RPC_PORT).toList),
  ("-rpcuser", RPC_USER),
  ("-rpcpassword", RPC_PASSWORD),
  ("-validatepegin", "0".toList),
  ("-initialfreecoins", (toString INITIAL_FREE_COINS).toList),
  ("-fallbackfee", "0.000001".toList),
  ("-con_connect_genesis_outputs", "1".toList),
  ("-printtoconsole", "1".toList)]

def Liquid.nodeCmd : List Argument := Liquid.settings.map setting

end Liquid
end Nigiri.Fixtures
