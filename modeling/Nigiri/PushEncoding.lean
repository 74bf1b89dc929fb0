import Nigiri.WireFormat

/-! Byte strings in a script: each is written behind its length, in one of four forms. A byte above
the forms' own is an operation and stands for itself. -/
namespace Nigiri.PushEncoding
open Nigiri.WireFormat

/-- A number in a fixed count of bytes, lowest first. -/
def littleEndian : Nat → Nat → Bytes
  | 0, _ => []
  | width + 1, n => UInt8.ofNat (n % 256) :: littleEndian width (n / 256)

def fromLittleEndian : Bytes → Nat
  | [] => 0
  | b :: bs => b.toNat + 256 * fromLittleEndian bs

inductive PushForm where
  | direct | pushData1 | pushData2 | pushData4
  deriving DecidableEq, Repr

/-- How many bytes of length a form has; a direct push has its length for its code. -/
def PushForm.width : PushForm → Nat
  | .direct => 0 | .pushData1 => 1 | .pushData2 => 2 | .pushData4 => 4

def PushForm.Fits : PushForm → Nat → Prop
  | .direct, n => n ≤ 75
  | form, n => n < 256 ^ form.width

def PushForm.code : PushForm → Nat → UInt8
  | .direct, n => UInt8.ofNat n
  | .pushData1, _ => 0x4c
  | .pushData2, _ => 0x4d
  | .pushData4, _ => 0x4e

def PushForm.header (form : PushForm) (n : Nat) : Bytes :=
  form.code n :: littleEndian form.width n

def PushForm.write (form : PushForm) (bytes : Bytes) : Bytes :=
  form.header bytes.length ++ bytes

/-- A push whose bytes, or whose length, the script ends before. -/
inductive Truncated : Bytes → Prop where
  | bytes (form : PushForm) (n : Nat) (present : Bytes) (hfits : form.Fits n)
    (hshort : present.length < n) : Truncated (form.header n ++ present)
  | length (form : PushForm) (n : Nat) (present : Bytes)
    (hshort : present.length < form.width) : Truncated (form.code n :: present)

/-- The form a code stands for; above the last code there is none. -/
def formOf (code : UInt8) : Option PushForm :=
  if code ≤ 75 then some .direct
  else if code = 0x4c then some .pushData1
  else if code = 0x4d then some .pushData2
  else if code = 0x4e then some .pushData4
  else none

theorem length_littleEndian (width n : Nat) : (littleEndian width n).length = width := by
  induction width generalizing n with
  | zero => rfl
  | succ width ih => rw [littleEndian, List.length_cons, ih]

theorem fromLittleEndian_littleEndian (width : Nat) {n : Nat} (hn : n < 256 ^ width) :
    fromLittleEndian (littleEndian width n) = n := by
  induction width generalizing n with
  | zero =>
    have hzero : n = 0 := by simpa using hn
    rw [hzero]
    rfl
  | succ width ih =>
    have hlow : n / 256 < 256 ^ width := by
      rw [Nat.div_lt_iff_lt_mul (by omega), ← Nat.pow_succ]
      exact hn
    have hbyte : (UInt8.ofNat (n % 256)).toNat = n % 256 := by simp
    rw [littleEndian, fromLittleEndian, ih hlow, hbyte]
    omega

theorem littleEndian_fromLittleEndian (bs : Bytes) :
    littleEndian bs.length (fromLittleEndian bs) = bs := by
  induction bs with
  | nil => rfl
  | cons b bs ih =>
    have hb : b.toNat < 256 := b.toNat_lt
    have hlow : (b.toNat + 256 * fromLittleEndian bs) % 256 = b.toNat := by omega
    have hhigh : (b.toNat + 256 * fromLittleEndian bs) / 256 = fromLittleEndian bs := by omega
    rw [List.length_cons, fromLittleEndian, littleEndian, hlow, hhigh, ih, UInt8.ofNat_toNat]

theorem fromLittleEndian_lt (bs : Bytes) : fromLittleEndian bs < 256 ^ bs.length := by
  induction bs with
  | nil => simp [fromLittleEndian]
  | cons b bs ih =>
    have hb : b.toNat < 256 := b.toNat_lt
    rw [fromLittleEndian, List.length_cons, Nat.pow_succ]
    omega

theorem formOf_code {form : PushForm} {n : Nat} (hfits : form.Fits n) :
    formOf (form.code n) = some form := by
  cases form with
  | direct =>
    have hn : n ≤ 75 := hfits
    have hcode : UInt8.ofNat n ≤ 75 := by
      rw [UInt8.le_iff_toNat_le]
      simp
      omega
    rw [PushForm.code, formOf, if_pos hcode]
  | pushData1 => rfl
  | pushData2 => rfl
  | pushData4 => rfl

/-- The length a push states, as its code and the bytes behind it give it. -/
def pushLength (form : PushForm) (code : UInt8) (rest : Bytes) : Nat :=
  match form with
  | .direct => code.toNat
  | form => fromLittleEndian (rest.take form.width)

theorem formOf_direct {code : UInt8} (h : formOf code = some .direct) : code.toNat ≤ 75 := by
  unfold formOf at h
  split_ifs at h with hle
  · simpa [UInt8.le_iff_toNat_le] using hle
  all_goals cases h

theorem formOf_long {code : UInt8} {form : PushForm} (h : formOf code = some form)
    (hform : form ≠ .direct) (n : Nat) : form.code n = code := by
  unfold formOf at h
  split_ifs at h <;> cases h
  · exact absurd rfl hform
  all_goals
    rename_i hcode
    rw [hcode]
    rfl

/-- The header that a code and the bytes behind it spell. -/
theorem header_read {code : UInt8} {form : PushForm} {rest : Bytes}
    (hform : formOf code = some form) (hlong : form.width ≤ rest.length) :
    form.Fits (pushLength form code rest) ∧
      code :: rest = form.header (pushLength form code rest) ++ rest.drop form.width := by
  by_cases hdirect : form = .direct
  · subst hdirect
    refine ⟨formOf_direct hform, ?_⟩
    simp [PushForm.header, PushForm.code, PushForm.width, littleEndian, pushLength]
  · have hlength : (rest.take form.width).length = form.width := List.length_take_of_le hlong
    have hread : pushLength form code rest = fromLittleEndian (rest.take form.width) := by
      cases form with
      | direct => exact absurd rfl hdirect
      | _ => rfl
    have hfits : fromLittleEndian (rest.take form.width) < 256 ^ form.width := by
      have hlt := fromLittleEndian_lt (rest.take form.width)
      rwa [hlength] at hlt
    have hbytes := littleEndian_fromLittleEndian (rest.take form.width)
    rw [hlength] at hbytes
    rw [hread]
    constructor
    · cases form with
      | direct => exact absurd rfl hdirect
      | _ => exact hfits
    · rw [PushForm.header, formOf_long hform hdirect, hbytes, List.cons_append,
        List.take_append_drop]

theorem truncated_of_short {code : UInt8} {form : PushForm} {rest : Bytes}
    (hform : formOf code = some form) (hshort : rest.length < form.width) :
    Truncated (code :: rest) := by
  have hlong : form ≠ .direct := by
    intro hdirect
    rw [hdirect] at hshort
    exact Nat.not_lt_zero _ hshort
  rw [← formOf_long hform hlong 0]
  exact .length form 0 rest hshort

theorem formOf_code_short {form : PushForm} {n : Nat} {present : Bytes}
    (hshort : present.length < form.width) : formOf (form.code n) = some form := by
  cases form with
  | direct => exact absurd hshort (Nat.not_lt_zero _)
  | _ => rfl

/-- What begins a script: nothing, an operation, a push, or a push that is cut off. -/
theorem script_cases (script : Bytes) :
    script = [] ∨ (∃ code rest, formOf code = none ∧ script = code :: rest) ∨
      (∃ (form : PushForm) (bytes rest : Bytes), form.Fits bytes.length ∧
        script = form.write bytes ++ rest) ∨
      Truncated script := by
  cases script with
  | nil => exact .inl rfl
  | cons code rest =>
    refine .inr ?_
    cases hform : formOf code with
    | none => exact .inl ⟨code, rest, hform, rfl⟩
    | some form =>
      refine .inr ?_
      by_cases hshort : rest.length < form.width
      · exact .inr (truncated_of_short hform hshort)
      · have hlong : form.width ≤ rest.length := by omega
        obtain ⟨hfits, hscript⟩ := header_read hform hlong
        by_cases hcut : (rest.drop form.width).length < pushLength form code rest
        · rw [hscript]
          exact .inr (.bytes form _ _ hfits hcut)
        · have hlength : ((rest.drop form.width).take (pushLength form code rest)).length =
              pushLength form code rest := List.length_take_of_le (by omega)
          refine .inl ⟨form, (rest.drop form.width).take (pushLength form code rest),
            (rest.drop form.width).drop (pushLength form code rest), by rwa [hlength], ?_⟩
          rw [PushForm.write, hlength, List.append_assoc, List.take_append_drop, hscript]

theorem pushLength_header {form : PushForm} {n : Nat} (hfits : form.Fits n) (rest : Bytes) :
    pushLength form (form.code n) (littleEndian form.width n ++ rest) = n := by
  have htake : ∀ width, (littleEndian width n ++ rest).take width = littleEndian width n := by
    intro width
    exact List.take_left' (length_littleEndian width n)
  cases form with
  | direct =>
    have hn : n ≤ 75 := hfits
    simp [pushLength, PushForm.code]
    omega
  | pushData1 => exact (congrArg _ (htake 1)).trans (fromLittleEndian_littleEndian 1 hfits)
  | pushData2 => exact (congrArg _ (htake 2)).trans (fromLittleEndian_littleEndian 2 hfits)
  | pushData4 => exact (congrArg _ (htake 4)).trans (fromLittleEndian_littleEndian 4 hfits)

end Nigiri.PushEncoding
