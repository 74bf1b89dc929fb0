import Nigiri.CharBoundaries
import Nigiri.Redaction

/-! Diagnostics are cut to a bound on a character boundary: a tail from its end, and a head from
its beginning, with a marker where there is room for one. -/
namespace Nigiri.Fixtures
open Utf8 AsciiCase Rewrite

def sourceTruncationMarker : Bytes := ascii "[TRUNCATED]"

/-- Subtraction that panics below zero. -/
def checkedSubUsize (n k : Nat) : Option Nat := if k ≤ n then some (n - k) else none

/-- The last boundary up to a place; below the beginning there is none. -/
def boundaryBefore (value : Bytes) : Nat → Option Nat
  | 0 => if isCharBoundary value then some 0 else none
  | stop + 1 =>
    if isCharBoundary (value.drop (stop + 1)) then some (stop + 1) else boundaryBefore value stop

/-- A bound too small to hold the marker keeps text instead of announcing the cut. -/
def utf8Head (value : Bytes) (maximumBytes : Nat) : Option Bytes :=
  if value.length ≤ maximumBytes then some value
  else do
    let (reserved, marker) :=
      if sourceTruncationMarker.length < maximumBytes then
        (sourceTruncationMarker.length, sourceTruncationMarker)
      else (0, [])
    let stop ← boundaryBefore value (← checkedSubUsize maximumBytes reserved)
    return (← slice value (value.drop stop)) ++ marker

def redactedHead (value : Bytes) (maximumBytes : Nat) : Option Bytes := do
  utf8Head (← redact value) maximumBytes

section Cuts
variable {cs : List Char} {n : Nat}

/-- Up to any place, the last boundary ends the longest prefix that ends there or before. -/
theorem boundaryBefore_longest (hn : n ≤ (encode cs).length) :
    ∃ ds, ds <+: cs ∧ boundaryBefore (encode cs) n = some (encode ds).length ∧
      (encode ds).length ≤ n ∧
      ∀ es, es <+: cs → (encode es).length ≤ n → es <+: ds := by
  induction n with
  | zero =>
    have hboundary := (isText_encode cs).isCharBoundary
    refine ⟨[], List.nil_prefix, by rw [boundaryBefore, if_pos hboundary]; rfl, Nat.le_refl 0, ?_⟩
    exact fun es hes hle => prefix_of_length_le hes List.nil_prefix hle
  | succ n ih =>
    rw [boundaryBefore]
    split
    next hboundary =>
      obtain ⟨ds, hds, hend⟩ := (isCharBoundary_drop hn).mp hboundary
      refine ⟨ds, hds, by rw [hend], hend.le, fun es hes hle => ?_⟩
      exact prefix_of_length_le hes hds (hend ▸ hle)
    next hinside =>
      obtain ⟨ds, hds, hstop, hle, hlongest⟩ := ih (by omega)
      refine ⟨ds, hds, hstop, by omega, fun es hes hend => hlongest es hes ?_⟩
      -- a prefix that ended at the place would make it a boundary
      have hne : (encode es).length ≠ n + 1 := fun heq =>
        hinside ((isCharBoundary_drop hn).mpr ⟨es, hes, heq⟩)
      omega

/-- Cutting behind a prefix keeps its bytes. -/
theorem slice_prefix {ds : List Char} (hds : ds <+: cs) :
    slice (encode cs) ((encode cs).drop (encode ds).length) = some (encode ds) := by
  obtain ⟨es, rfl⟩ := hds
  have hwhole := (isText_encode (ds ++ es)).isCharBoundary
  rw [encode_append] at hwhole ⊢
  have hrest := (isText_encode es).isCharBoundary
  rw [List.drop_left, slice, hwhole, hrest, List.length_append, Nat.add_sub_cancel, List.take_left]
  rfl

/-- A head that is cut keeps the longest prefix that leaves room for what is put behind it. -/
theorem utf8Head_cut (hlong : n < (encode cs).length) {reserved : Nat} {marker : Bytes}
    (hchoice : (if sourceTruncationMarker.length < n then
        (sourceTruncationMarker.length, sourceTruncationMarker)
      else (0, [])) = (reserved, marker)) :
    ∃ ds, ds <+: cs ∧ utf8Head (encode cs) n = some (encode ds ++ marker) ∧
      (encode ds).length + marker.length ≤ n ∧
      ∀ es, es <+: cs → (encode es).length + marker.length ≤ n → es <+: ds := by
  have hreserved : reserved = marker.length ∧ reserved ≤ n := by
    split at hchoice
    next hroom =>
      obtain ⟨rfl, rfl⟩ := Prod.mk.inj hchoice
      exact ⟨rfl, hroom.le⟩
    next =>
      obtain ⟨rfl, rfl⟩ := Prod.mk.inj hchoice
      exact ⟨rfl, Nat.zero_le n⟩
  obtain ⟨rfl, hroom⟩ := hreserved
  obtain ⟨ds, hds, hstop, hle, hlongest⟩ :=
    @boundaryBefore_longest cs (n - marker.length) (by omega)
  refine ⟨ds, hds, ?_, by omega, fun es hes hend => hlongest es hes (by omega)⟩
  rw [utf8Head, if_neg (Nat.not_le.mpr hlong), hchoice]
  simp only [checkedSubUsize, if_pos hroom, Option.bind_eq_bind, Option.bind_some, hstop,
    slice_prefix hds]
  rfl

theorem utf8Tail_longest (cs : List Char) (n : Nat) :
    ∃ es, es <:+ cs ∧ utf8Tail (encode cs) n = some (encode es) ∧ (encode es).length ≤ n ∧
      ∀ fs, fs <:+ cs → (encode fs).length ≤ n → fs <:+ es := by
  rw [utf8Tail]
  split
  next hfits => exact ⟨cs, List.suffix_rfl, rfl, hfits, fun fs hfs _ => hfs⟩
  next hlong =>
    have hroom := Nat.lt_of_not_le hlong
    obtain ⟨es, hes, hdrop, hle, hlongest⟩ :=
      @dropWhile_isContinuation cs ((encode cs).length - n) (Nat.sub_le _ _)
    refine ⟨es, hes, ?_, by omega, fun fs hfs hend => hlongest fs hfs (by omega)⟩
    rw [hdrop, slice, (isText_encode es).isCharBoundary]
    simp [isCharBoundary]

end Cuts

/-- A tail is the longest suffix within the bound. A head is the whole text if that fits, and else
the longest prefix that leaves room for the marker, with the marker; without the marker where the
bound has no room for more than it. Neither ever subtracts below zero, nor cuts a character. -/
theorem utf8_tail_and_head (cs : List Char) (n : Nat) :
    (∃ es, es <:+ cs ∧ utf8Tail (encode cs) n = some (encode es) ∧ (encode es).length ≤ n ∧
      ∀ fs, fs <:+ cs → (encode fs).length ≤ n → fs <:+ es) ∧
    (n < (encode cs).length →
      checkedSubUsize (encode cs).length n = some ((encode cs).length - n)) ∧
    (∃ output, utf8Head (encode cs) n = some output ∧ output.length ≤ n) ∧
    ((encode cs).length ≤ n → utf8Head (encode cs) n = some (encode cs)) ∧
    (n < (encode cs).length → sourceTruncationMarker.length < n →
      ∃ ds, ds <+: cs ∧ utf8Head (encode cs) n = some (encode ds ++ sourceTruncationMarker) ∧
        ∀ es, es <+: cs → (encode es).length + sourceTruncationMarker.length ≤ n → es <+: ds) ∧
    (n < (encode cs).length → n ≤ sourceTruncationMarker.length →
      ∃ ds, ds <+: cs ∧ utf8Head (encode cs) n = some (encode ds) ∧
        ∀ es, es <+: cs → (encode es).length ≤ n → es <+: ds) := by
  refine ⟨utf8Tail_longest cs n, fun hlong => if_pos hlong.le, ?_, fun hfits => if_pos hfits,
    fun hlong hroom => ?_, fun hlong hfull => ?_⟩
  · by_cases hfits : (encode cs).length ≤ n
    · exact ⟨encode cs, if_pos hfits, hfits⟩
    · obtain ⟨ds, -, hhead, hle, -⟩ := utf8Head_cut (Nat.lt_of_not_le hfits) rfl
      exact ⟨_, hhead, by rw [List.length_append]; exact hle⟩
  · obtain ⟨ds, hds, hhead, -, hlongest⟩ := utf8Head_cut hlong (if_pos hroom)
    exact ⟨ds, hds, hhead, hlongest⟩
  · obtain ⟨ds, hds, hhead, -, hlongest⟩ := utf8Head_cut hlong (if_neg (Nat.not_lt.mpr hfull))
    rw [List.append_nil] at hhead
    exact ⟨ds, hds, hhead, hlongest⟩

end Nigiri.Fixtures
