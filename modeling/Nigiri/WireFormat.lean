import Mathlib.Algebra.Group.Nat.Defs
import Mathlib.Data.List.Basic
import Mathlib.Tactic.Common

/-! Numbered-field wire format: base-128 numbers, length-prefixed byte strings, and
messages as plain concatenations of fields. Writing is injective, so nothing a
message holds is lost on the wire. -/
namespace Nigiri.WireFormat

abbrev Bytes := List UInt8

/-- Seven bits a byte, lowest first; every byte but the last has its high bit set. -/
def varint (n : Nat) : Bytes :=
  if n < 128 then [UInt8.ofNat n]
  else UInt8.ofNat (n % 128 + 128) :: varint (n / 128)
termination_by n

inductive Payload where
  | number (n : Nat)
  | bytes (bs : Bytes)
  deriving DecidableEq, Repr

structure Field where
  tag : Nat
  payload : Payload
  deriving DecidableEq, Repr

def Field.encode (f : Field) : Bytes :=
  match f.payload with
  | .number n => varint (f.tag * 8) ++ varint n
  | .bytes bs => varint (f.tag * 8 + 2) ++ varint bs.length ++ bs

def encode (fs : List Field) : Bytes := fs.flatMap Field.encode

/-- A number field, left out when it holds the default. -/
def numberField (tag n : Nat) : List Field :=
  if n = 0 then [] else [⟨tag, .number n⟩]

/-- A signed number is written in two's complement over 64 bits. -/
def int64Field (tag : Nat) (v : Int64) : List Field := numberField tag v.toUInt64.toNat

/-- A 32-bit signed number is sign-extended first. -/
def int32Field (tag : Nat) (v : Int32) : List Field := int64Field tag v.toInt64

/-- A byte-string field, left out when it is empty. -/
def bytesField (tag : Nat) (bs : Bytes) : List Field :=
  if bs = [] then [] else [⟨tag, .bytes bs⟩]

/-- An embedded message is written even when it is empty. -/
def messageField (tag : Nat) (fs : List Field) : Field := ⟨tag, .bytes (encode fs)⟩

/-- A map is a repeated message of key and value, in the order its entries are visited. -/
def mapField (tag : Nat) (entries : List (UInt64 × Bytes)) : List Field :=
  entries.map fun e => messageField tag (numberField 1 e.1.toNat ++ bytesField 2 e.2)

theorem varint_of_lt {n : Nat} (h : n < 128) : varint n = [UInt8.ofNat n] := by
  rw [varint, if_pos h]

theorem varint_of_le {n : Nat} (h : 128 ≤ n) :
    varint n = UInt8.ofNat (n % 128 + 128) :: varint (n / 128) := by
  rw [varint, if_neg (by omega)]

private theorem byte_inj {m n : Nat} (hm : m < 256) (hn : n < 256)
    (h : UInt8.ofNat m = UInt8.ofNat n) : m = n := by
  have h' := congrArg UInt8.toNat h
  simpa [Nat.mod_eq_of_lt hm, Nat.mod_eq_of_lt hn] using h'

/-- A number is read back whatever follows it, and so is what follows. -/
theorem varint_append_inj (m n : Nat) (x y : Bytes)
    (h : varint m ++ x = varint n ++ y) : m = n ∧ x = y := by
  induction m using Nat.strongRecOn generalizing n with
  | ind m ih =>
    rcases Nat.lt_or_ge m 128 with hm | hm <;> rcases Nat.lt_or_ge n 128 with hn | hn
    · rw [varint_of_lt hm, varint_of_lt hn] at h
      obtain ⟨hb, hxy⟩ := List.cons.inj h
      exact ⟨byte_inj (by omega) (by omega) hb, hxy⟩
    · rw [varint_of_lt hm, varint_of_le hn] at h
      have hb := byte_inj (by omega) (by omega) (List.cons.inj h).1
      omega
    · rw [varint_of_le hm, varint_of_lt hn] at h
      have hb := byte_inj (by omega) (by omega) (List.cons.inj h).1
      omega
    · rw [varint_of_le hm, varint_of_le hn] at h
      obtain ⟨hb, hrest⟩ := List.cons.inj h
      have hlow := byte_inj (by omega) (by omega) hb
      obtain ⟨hhigh, hxy⟩ := ih (m / 128) (by omega) (n / 128) hrest
      exact ⟨by omega, hxy⟩

theorem Field.encode_append_inj (f g : Field) (x y : Bytes)
    (h : f.encode ++ x = g.encode ++ y) : f = g ∧ x = y := by
  obtain ⟨s, p⟩ := f
  obtain ⟨t, q⟩ := g
  cases p with
  | number m =>
    cases q with
    | number n =>
      simp only [Field.encode, List.append_assoc] at h
      obtain ⟨hk, h⟩ := varint_append_inj _ _ _ _ h
      obtain ⟨rfl, rfl⟩ := varint_append_inj _ _ _ _ h
      obtain rfl : s = t := by omega
      exact ⟨rfl, rfl⟩
    | bytes bs =>
      simp only [Field.encode, List.append_assoc] at h
      have hk := (varint_append_inj _ _ _ _ h).1
      omega
  | bytes as =>
    cases q with
    | number n =>
      simp only [Field.encode, List.append_assoc] at h
      have hk := (varint_append_inj _ _ _ _ h).1
      omega
    | bytes bs =>
      simp only [Field.encode, List.append_assoc] at h
      obtain ⟨hk, h⟩ := varint_append_inj _ _ _ _ h
      obtain ⟨hl, h⟩ := varint_append_inj _ _ _ _ h
      obtain ⟨rfl, rfl⟩ := List.append_inj h hl
      obtain rfl : s = t := by omega
      exact ⟨rfl, rfl⟩

theorem varint_ne_nil (n : Nat) : varint n ≠ [] := by
  rcases Nat.lt_or_ge n 128 with h | h
  · simp [varint_of_lt h]
  · simp [varint_of_le h]

theorem Field.encode_ne_nil (f : Field) : f.encode ≠ [] := by
  obtain ⟨t, p⟩ := f
  cases p <;> simp [Field.encode, varint_ne_nil]

/-- Two messages with one encoding have the same fields in the same order. -/
theorem encode_inj (fs gs : List Field) (h : encode fs = encode gs) : fs = gs := by
  induction fs generalizing gs with
  | nil =>
    cases gs with
    | nil => rfl
    | cons g gs =>
      have hg : g.encode = [] := (List.append_eq_nil_iff.mp h.symm).1
      exact absurd hg g.encode_ne_nil
  | cons f fs ih =>
    cases gs with
    | nil =>
      have hf : f.encode = [] := (List.append_eq_nil_iff.mp h).1
      exact absurd hf f.encode_ne_nil
    | cons g gs =>
      obtain ⟨rfl, hrest⟩ := Field.encode_append_inj f g _ _ h
      rw [ih gs hrest]

/-- The fields of one number, in the order written. -/
def select (tag : Nat) (fs : List Field) : List Field := fs.filter fun f => f.tag = tag

@[simp] theorem select_append (tag : Nat) (fs gs : List Field) :
    select tag (fs ++ gs) = select tag fs ++ select tag gs := List.filter_append ..

@[simp] theorem select_numberField (tag t n : Nat) :
    select tag (numberField t n) = if t = tag then numberField t n else [] := by
  by_cases hn : n = 0 <;> by_cases ht : t = tag <;> simp [select, numberField, hn, ht]

@[simp] theorem select_bytesField (tag t : Nat) (bs : Bytes) :
    select tag (bytesField t bs) = if t = tag then bytesField t bs else [] := by
  by_cases hb : bs = [] <;> by_cases ht : t = tag <;> simp [select, bytesField, hb, ht]

@[simp] theorem select_int64Field (tag t : Nat) (v : Int64) :
    select tag (int64Field t v) = if t = tag then int64Field t v else [] :=
  select_numberField ..

@[simp] theorem select_int32Field (tag t : Nat) (v : Int32) :
    select tag (int32Field t v) = if t = tag then int32Field t v else [] :=
  select_int64Field ..

theorem select_messages {α : Type*} (tag t : Nat) (g : α → List Field) (xs : List α) :
    select tag (xs.map fun x => messageField t (g x))
      = if t = tag then xs.map fun x => messageField t (g x) else [] := by
  by_cases ht : t = tag <;> simp [select, messageField, ht]

@[simp] theorem select_mapField (tag t : Nat) (entries : List (UInt64 × Bytes)) :
    select tag (mapField t entries) = if t = tag then mapField t entries else [] :=
  select_messages tag t (fun e : UInt64 × Bytes => numberField 1 e.1.toNat ++ bytesField 2 e.2) _

theorem numberField_inj (tag : Nat) {m n : Nat} (h : numberField tag m = numberField tag n) :
    m = n := by
  by_cases hm : m = 0 <;> by_cases hn : n = 0 <;> simp_all [numberField]

theorem int64Field_inj (tag : Nat) {v w : Int64}
    (h : int64Field tag v = int64Field tag w) : v = w := by
  obtain ⟨v⟩ := v
  obtain ⟨w⟩ := w
  exact congrArg Int64.ofUInt64 (UInt64.toNat_inj.mp (numberField_inj tag h))

theorem int32Field_inj (tag : Nat) {v w : Int32}
    (h : int32Field tag v = int32Field tag w) : v = w := by
  have hv := congrArg Int64.toInt (int64Field_inj tag h)
  simpa only [Int32.toInt_toInt64, Int32.toInt_inj] using hv

theorem bytesField_inj (tag : Nat) {as bs : Bytes}
    (h : bytesField tag as = bytesField tag bs) : as = bs := by
  by_cases ha : as = [] <;> by_cases hb : bs = [] <;> simp_all [bytesField]

theorem messageField_inj (tag : Nat) {fs gs : List Field}
    (h : messageField tag fs = messageField tag gs) : fs = gs := by
  have hpayload := congrArg Field.payload h
  exact encode_inj fs gs (Payload.bytes.inj hpayload)

/-- Repeated messages of equal encodings agree on whatever their encoding determines. -/
theorem map_eq_of_messages {α β : Type*} (tag : Nat) {g : α → List Field} {f : α → β}
    (hf : ∀ x y, g x = g y → f x = f y) {xs ys : List α}
    (h : (xs.map fun x => messageField tag (g x)) = ys.map fun y => messageField tag (g y)) :
    xs.map f = ys.map f := by
  induction xs generalizing ys with
  | nil =>
    cases ys with
    | nil => rfl
    | cons y ys => cases h
  | cons x xs ih =>
    cases ys with
    | nil => cases h
    | cons y ys =>
      obtain ⟨hhead, htail⟩ := List.cons.inj h
      rw [List.map_cons, List.map_cons, hf x y (messageField_inj tag hhead), ih htail]

/-- The encoding of a map shows its entries in the order they were visited. -/
theorem mapField_inj (tag : Nat) {entries entries' : List (UInt64 × Bytes)}
    (h : mapField tag entries = mapField tag entries') : entries = entries' := by
  have hentry (e e' : UInt64 × Bytes)
      (he : numberField 1 e.1.toNat ++ bytesField 2 e.2
        = numberField 1 e'.1.toNat ++ bytesField 2 e'.2) : e = e' := by
    have hkey : numberField 1 e.1.toNat = numberField 1 e'.1.toNat := by
      simpa using congrArg (select 1) he
    have hvalue : bytesField 2 e.2 = bytesField 2 e'.2 := by
      simpa using congrArg (select 2) he
    exact Prod.ext (UInt64.toNat_inj.mp (numberField_inj 1 hkey)) (bytesField_inj 2 hvalue)
  have hid := map_eq_of_messages tag (f := id) hentry h
  rwa [List.map_id, List.map_id] at hid

end Nigiri.WireFormat
