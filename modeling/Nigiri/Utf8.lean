import Nigiri.Rewrite

/-! Text as UTF-8 bytes: where characters start, cutting text at ASCII bytes, and rewriting it
at ASCII bytes only. -/
namespace Nigiri.Utf8
open Rewrite

abbrev Bytes := List UInt8

def encode (cs : List Char) : Bytes := cs.flatMap String.utf8EncodeChar

/-- Valid UTF-8: the encoding of some characters. -/
def IsText (bs : Bytes) : Prop := ∃ cs, encode cs = bs

def isAscii (b : UInt8) : Bool := b < 128

def isContinuation (b : UInt8) : Bool := 128 ≤ b && b < 192

/-- A position is a character boundary when it is the end or does not continue a character. -/
def isCharBoundary : Bytes → Bool
  | [] => true
  | b :: _ => !isContinuation b

/-- How many bytes a character has, by its first. -/
def charWidth (b : UInt8) : Nat :=
  if b < 128 then 1 else if b < 224 then 2 else if b < 240 then 3 else 4

/-- The first character and what follows it; nothing inside a character or at the end. -/
def nextChar : Bytes → Option (Bytes × Bytes)
  | [] => none
  | b :: bs =>
    if isContinuation b then none
    else some ((b :: bs).take (charWidth b), (b :: bs).drop (charWidth b))

theorem isAscii_ofNat {n : Nat} (h : n < 128) : isAscii (UInt8.ofNat n) = true := by
  simp [isAscii, UInt8.lt_iff_toNat_lt]
  omega

/-- A leading byte says how many continuation bytes follow it. -/
theorem leadingByte {n : Nat} (h : 192 ≤ n) (h' : n < 256) :
    isAscii (UInt8.ofNat n) = false ∧ isContinuation (UInt8.ofNat n) = false ∧
      charWidth (UInt8.ofNat n) = if n < 224 then 2 else if n < 240 then 3 else 4 := by
  have hn : (UInt8.ofNat n).toNat = n := by simp [Nat.mod_eq_of_lt h']
  refine ⟨?_, ?_, ?_⟩
  · simp only [isAscii, UInt8.lt_iff_toNat_lt, hn, decide_eq_false_iff_not]
    exact fun hlt => absurd hlt (by simp; omega)
  · simp only [isContinuation, UInt8.lt_iff_toNat_lt, UInt8.le_iff_toNat_le, hn]
    simp
    omega
  · simp only [charWidth, UInt8.lt_iff_toNat_lt, hn]
    rw [if_neg (by simp; omega)]
    rfl

theorem continuationByte {n : Nat} (h : 128 ≤ n) (h' : n < 192) :
    isAscii (UInt8.ofNat n) = false ∧ isContinuation (UInt8.ofNat n) = true := by
  have hn : (UInt8.ofNat n).toNat = n := by
    rw [UInt8.toNat_ofNat']
    omega
  refine ⟨?_, ?_⟩
  · simp only [isAscii, UInt8.lt_iff_toNat_lt, hn, decide_eq_false_iff_not]
    exact fun hlt => absurd hlt (by simp; omega)
  · simp only [isContinuation, UInt8.lt_iff_toNat_lt, UInt8.le_iff_toNat_le, hn]
    simp
    omega

/-- A character is one ASCII byte, or a leading byte and its continuations. -/
theorem utf8EncodeChar_cases (c : Char) :
    (∃ b, String.utf8EncodeChar c = [b] ∧ isAscii b = true) ∨
    ∃ b bs, String.utf8EncodeChar c = b :: bs ∧ isAscii b = false ∧ isContinuation b = false ∧
      charWidth b = bs.length + 1 ∧ ∀ x ∈ bs, isAscii x = false ∧ isContinuation x = true := by
  have cont (n : Nat) : isAscii (UInt8.ofNat (n % 64 + 128)) = false ∧
      isContinuation (UInt8.ofNat (n % 64 + 128)) = true :=
    continuationByte (by omega) (by omega)
  generalize hv : c.val.toNat = v
  by_cases h1 : v ≤ 127
  · left
    refine ⟨UInt8.ofNat v, ?_, isAscii_ofNat (by omega)⟩
    simp [String.utf8EncodeChar, hv, h1]
  right
  by_cases h2 : v ≤ 2047
  · obtain ⟨ha, hc, hw⟩ := @leadingByte (v / 64 % 32 + 192) (by omega) (by omega)
    refine ⟨_, [UInt8.ofNat (v % 64 + 128)], ?_, ha, hc, ?_, ?_⟩
    · simp [String.utf8EncodeChar, hv, h1, h2]
    · rw [hw, if_pos (by omega), List.length_singleton]
    · exact List.forall_mem_singleton.mpr (cont v)
  by_cases h3 : v ≤ 65535
  · obtain ⟨ha, hc, hw⟩ := @leadingByte (v / 4096 % 16 + 224) (by omega) (by omega)
    refine ⟨_, [UInt8.ofNat (v / 64 % 64 + 128), UInt8.ofNat (v % 64 + 128)], ?_, ha, hc, ?_, ?_⟩
    · simp [String.utf8EncodeChar, hv, h1, h2, h3]
    · rw [hw, if_neg (by omega), if_pos (by omega), List.length_cons, List.length_singleton]
    · exact List.forall_mem_cons.mpr ⟨cont (v / 64), List.forall_mem_singleton.mpr (cont v)⟩
  · obtain ⟨ha, hc, hw⟩ := @leadingByte (v / 262144 % 8 + 240) (by omega) (by omega)
    refine ⟨_, [UInt8.ofNat (v / 4096 % 64 + 128), UInt8.ofNat (v / 64 % 64 + 128),
      UInt8.ofNat (v % 64 + 128)], ?_, ha, hc, ?_, ?_⟩
    · simp [String.utf8EncodeChar, hv, h1, h2, h3]
    · rw [hw, if_neg (by omega), if_neg (by omega), List.length_cons, List.length_cons,
        List.length_singleton]
    · exact List.forall_mem_cons.mpr ⟨cont (v / 4096),
        List.forall_mem_cons.mpr ⟨cont (v / 64), List.forall_mem_singleton.mpr (cont v)⟩⟩

theorem encode_cons (c : Char) (cs : List Char) :
    encode (c :: cs) = String.utf8EncodeChar c ++ encode cs := rfl

theorem encode_append (cs ds : List Char) : encode (cs ++ ds) = encode cs ++ encode ds :=
  List.flatMap_append

theorem isText_nil : IsText [] := ⟨[], rfl⟩

theorem IsText.append {as bs : Bytes} (ha : IsText as) (hb : IsText bs) : IsText (as ++ bs) := by
  obtain ⟨cs, rfl⟩ := ha
  obtain ⟨ds, rfl⟩ := hb
  exact ⟨cs ++ ds, encode_append cs ds⟩

theorem isText_encode (cs : List Char) : IsText (encode cs) := ⟨cs, rfl⟩

theorem isText_utf8EncodeChar (c : Char) : IsText (String.utf8EncodeChar c) :=
  ⟨[c], by simp [encode]⟩

theorem isText_ascii {bs : Bytes} (h : ∀ b ∈ bs, isAscii b = true) : IsText bs := by
  induction bs with
  | nil => exact isText_nil
  | cons b bs ih =>
    obtain ⟨hb, hbs⟩ := List.forall_mem_cons.mp h
    have hlt : b.toNat < 128 := by
      simpa [isAscii, UInt8.lt_iff_toNat_lt] using hb
    have hchar : String.utf8EncodeChar (Char.ofNat b.toNat) = [b] := by
      have hv : (Char.ofNat b.toNat).val.toNat = b.toNat := by
        rw [Char.ofNat, dif_pos (.inl (by omega))]
        rfl
      unfold String.utf8EncodeChar
      dsimp only
      rw [hv, if_pos (by omega)]
      simp
    exact (hchar ▸ isText_utf8EncodeChar (Char.ofNat b.toNat)).append (ih hbs)

/-- Text can be cut before an ASCII byte and after it. -/
theorem IsText.split {as bs : Bytes} {b : UInt8} (hb : isAscii b = true)
    (h : IsText (as ++ b :: bs)) : IsText as ∧ IsText bs := by
  obtain ⟨cs, h⟩ := h
  induction cs generalizing as with
  | nil => exact absurd h (by simp [encode])
  | cons c cs ih =>
    rw [encode_cons] at h
    rcases utf8EncodeChar_cases c with ⟨x, hx, -⟩ | ⟨x, xs, hx, hxa, -, -, hxs⟩
    · rw [hx] at h
      cases as with
      | nil => exact ⟨isText_nil, ⟨cs, (List.cons.inj h).2⟩⟩
      | cons a as =>
        obtain ⟨rfl, hrest⟩ := List.cons.inj h
        obtain ⟨has, hbs⟩ := ih hrest
        exact ⟨(hx ▸ isText_utf8EncodeChar c).append has, hbs⟩
    · have hall : ∀ y ∈ String.utf8EncodeChar c, isAscii y = false := by
        rw [hx]
        exact List.forall_mem_cons.mpr ⟨hxa, fun y hy => (hxs y hy).1⟩
      rcases List.append_eq_append_iff.mp h with ⟨ys, hcs, hys⟩ | ⟨ys, hcs, hys⟩
      · obtain ⟨has, hbs⟩ := ih hys
        rw [hcs]
        exact ⟨(isText_utf8EncodeChar c).append has, hbs⟩
      · -- the cut would have to fall inside the character
        cases ys with
        | nil =>
          rw [List.append_nil] at hcs
          rw [List.nil_append] at hys
          refine ⟨hcs ▸ isText_utf8EncodeChar c, ?_⟩
          exact (@ih [] hys.symm).2
        | cons y ys =>
          obtain ⟨rfl, -⟩ := List.cons.inj hys
          have hmem : b ∈ String.utf8EncodeChar c :=
            hcs ▸ List.mem_append_right _ List.mem_cons_self
          rw [hall b hmem] at hb
          cases hb

theorem IsText.drop_ascii {as bs : Bytes} (has : ∀ a ∈ as, isAscii a = true)
    (h : IsText (as ++ bs)) : IsText bs := by
  induction as with
  | nil => exact h
  | cons a as ih =>
    obtain ⟨ha, has⟩ := List.forall_mem_cons.mp has
    exact ih has (@IsText.split [] (as ++ bs) a ha h).2

theorem IsText.isCharBoundary {bs : Bytes} (h : IsText bs) : isCharBoundary bs = true := by
  obtain ⟨cs, rfl⟩ := h
  cases cs with
  | nil => rfl
  | cons c cs =>
    rw [encode_cons]
    rcases utf8EncodeChar_cases c with ⟨b, hb, ha⟩ | ⟨b, bs, hb, -, hc, -⟩
    · rw [hb]
      have hlt : b.toNat < 128 := by simpa [isAscii, UInt8.lt_iff_toNat_lt] using ha
      simp [Utf8.isCharBoundary, isContinuation, UInt8.le_iff_toNat_le, hlt]
    · rw [hb]
      simp [Utf8.isCharBoundary, hc]

theorem nextChar_ascii {b : UInt8} (h : isAscii b = true) (bs : Bytes) :
    nextChar (b :: bs) = some ([b], bs) := by
  have hlt : b.toNat < 128 := by simpa [isAscii, UInt8.lt_iff_toNat_lt] using h
  have hc : isContinuation b = false := by
    simp [isContinuation, UInt8.le_iff_toNat_le]
    omega
  have hw : charWidth b = 1 := by simp [charWidth, UInt8.lt_iff_toNat_lt, hlt]
  rw [nextChar, hc, hw]
  rfl

/-- In text, the first character is read whole. -/
theorem IsText.head {b : UInt8} {bs : Bytes} (h : IsText (b :: bs)) :
    (isAscii b = true ∧ IsText bs) ∨
    ∃ xs t, b :: bs = xs ++ t ∧ xs ≠ [] ∧ (∀ x ∈ xs, isAscii x = false) ∧ IsText xs ∧ IsText t ∧
      nextChar (b :: bs) = some (xs, t) := by
  obtain ⟨cs, h⟩ := h
  cases cs with
  | nil => cases h
  | cons c cs =>
    rw [encode_cons] at h
    rcases utf8EncodeChar_cases c with ⟨x, hx, hxa⟩ | ⟨x, xs, hx, hxa, hc, hw, hxs⟩
    · rw [hx] at h
      obtain ⟨rfl, hrest⟩ := List.cons.inj h
      exact .inl ⟨hxa, cs, hrest⟩
    · right
      rw [hx] at h
      refine ⟨x :: xs, encode cs, h.symm, List.cons_ne_nil x xs, ?_,
        hx ▸ isText_utf8EncodeChar c, isText_encode cs, ?_⟩
      · exact List.forall_mem_cons.mpr ⟨hxa, fun y hy => (hxs y hy).1⟩
      · rw [← h, List.cons_append, nextChar, hc, hw]
        simp

variable {σ : Type*} {step : Step UInt8 σ}

/-- A step that copies what is not ASCII, so that it acts at ASCII bytes only. -/
def AsciiStep (step : Step UInt8 σ) : Prop :=
  ∀ s b r, isAscii b = false → step s b r = ⟨[b], 0, s⟩

theorem rewrite_nonAscii (hstep : AsciiStep step) (s : σ) (xs t : Bytes)
    (h : ∀ x ∈ xs, isAscii x = false) : rewrite step s (xs ++ t) = xs ++ rewrite step s t := by
  induction xs with
  | nil => rfl
  | cons x xs ih =>
    obtain ⟨hx, hxs⟩ := List.forall_mem_cons.mp h
    rw [List.cons_append, rewrite_cons, hstep s x _ hx, List.drop_zero, ih hxs]
    rfl

/-- Text stays text when each piece is text and text is left behind it. -/
theorem rewrite_isText (hstep : AsciiStep step)
    (hpiece : ∀ s b r, isAscii b = true → IsText r →
      IsText (step s b r).emitted ∧ IsText (r.drop (step s b r).extra))
    (s : σ) {t : Bytes} (h : IsText t) : IsText (rewrite step s t) := by
  induction hn : t.length using Nat.strong_induction_on generalizing s t with
  | _ n ih =>
    cases t with
    | nil => exact isText_nil
    | cons b r =>
      rcases h.head with ⟨hb, hr⟩ | ⟨xs, t, heq, hne, hxs, htext, ht, -⟩
      · obtain ⟨hemit, hdrop⟩ := hpiece s b r hb hr
        rw [rewrite_cons]
        refine hemit.append (ih _ ?_ _ hdrop rfl)
        rw [← hn, List.length_drop, List.length_cons]
        omega
      · rw [heq, rewrite_nonAscii hstep s xs t hxs]
        refine htext.append (ih _ ?_ s ht rfl)
        have hpos : 0 < xs.length := List.length_pos_iff.mpr hne
        rw [← hn, heq, List.length_append]
        omega

end Nigiri.Utf8
