import Nigiri.Utf8

/-! Where a text can be cut: its boundaries are the ends of its prefixes, and from any place there
is a nearest one on either side. -/
namespace Nigiri.Utf8

/-- No character is without a byte, and all but the first of them continue it. -/
theorem utf8EncodeChar_bytes (c : Char) :
    ∃ b bs, String.utf8EncodeChar c = b :: bs ∧ ∀ x ∈ bs, isContinuation x = true := by
  obtain ⟨b, hb, -⟩ | ⟨b, bs, hb, -, -, -, hbs⟩ := utf8EncodeChar_cases c
  · exact ⟨b, [], hb, fun x hx => by cases hx⟩
  · exact ⟨b, bs, hb, fun x hx => (hbs x hx).2⟩

/-- A place inside a character. -/
theorem drop_char {c : Char} {cs : List Char} {k : Nat} (hk : 0 < k)
    (hin : k ≤ (String.utf8EncodeChar c).length) :
    ∃ xs, (encode (c :: cs)).drop k = xs ++ encode cs ∧ (∀ x ∈ xs, isContinuation x = true) ∧
      k + xs.length = (String.utf8EncodeChar c).length := by
  obtain ⟨b, bs, hb, hbs⟩ := utf8EncodeChar_bytes c
  rw [hb, List.length_cons] at hin
  obtain ⟨k, rfl⟩ := Nat.exists_eq_succ_of_ne_zero hk.ne'
  refine ⟨bs.drop k, ?_, fun x hx => hbs x ((List.drop_suffix k bs).subset hx), ?_⟩
  · rw [encode_cons, hb, List.cons_append, List.drop_succ_cons,
      List.drop_append_of_le_length (by omega)]
  · rw [hb, List.length_drop, List.length_cons]
    omega

/-- A place behind a character. -/
theorem drop_behind {c : Char} {cs : List Char} {k : Nat}
    (hbehind : (String.utf8EncodeChar c).length ≤ k) :
    (encode (c :: cs)).drop k = (encode cs).drop (k - (String.utf8EncodeChar c).length) := by
  rw [encode_cons, List.drop_append, List.drop_of_length_le hbehind, List.nil_append]

theorem length_encode_cons (c : Char) (cs : List Char) :
    (encode (c :: cs)).length = (String.utf8EncodeChar c).length + (encode cs).length := by
  rw [encode_cons, List.length_append]

/-- Of two prefixes of a text, the one with no more bytes is a prefix of the other. -/
theorem prefix_of_length_le {ds es cs : List Char} (hd : ds <+: cs) (he : es <+: cs)
    (hle : (encode ds).length ≤ (encode es).length) : ds <+: es := by
  obtain hprefix | ⟨fs, rfl⟩ := List.prefix_or_prefix_of_prefix hd he
  · exact hprefix
  · cases fs with
    | nil => rw [List.append_nil]
    | cons f fs =>
      obtain ⟨b, bs, hb, -⟩ := utf8EncodeChar_bytes f
      rw [encode_append, List.length_append, length_encode_cons, hb, List.length_cons] at hle
      omega

/-- The boundaries of a text are the ends of its prefixes. -/
theorem isCharBoundary_drop {cs : List Char} {k : Nat} (hk : k ≤ (encode cs).length) :
    isCharBoundary ((encode cs).drop k) = true ↔ ∃ ds, ds <+: cs ∧ (encode ds).length = k := by
  induction cs generalizing k with
  | nil =>
    obtain rfl : k = 0 := Nat.le_zero.mp hk
    exact iff_of_true rfl ⟨[], List.prefix_rfl, rfl⟩
  | cons c cs ih =>
    by_cases hzero : k = 0
    · subst hzero
      exact iff_of_true (isText_encode (c :: cs)).isCharBoundary ⟨[], List.nil_prefix, rfl⟩
    by_cases hin : k < (String.utf8EncodeChar c).length
    · obtain ⟨xs, hdrop, hxs, hlen⟩ := @drop_char c cs k (Nat.pos_of_ne_zero hzero) hin.le
      rw [hdrop]
      constructor
      · intro hboundary
        cases xs with
        | nil => simp only [List.length_nil] at hlen; omega
        | cons x xs =>
          rw [List.cons_append, isCharBoundary, hxs x List.mem_cons_self] at hboundary
          cases hboundary
      · rintro ⟨ds, hds, hend⟩
        cases ds with
        | nil => exact absurd hend.symm hzero
        | cons d ds =>
          obtain ⟨rfl, -⟩ := List.cons_prefix_cons.mp hds
          rw [length_encode_cons] at hend
          omega
    · have hbehind := Nat.le_of_not_lt hin
      rw [length_encode_cons] at hk
      rw [drop_behind hbehind, ih (by omega)]
      constructor
      · rintro ⟨ds, hds, hlen⟩
        exact ⟨c :: ds, List.cons_prefix_cons.mpr ⟨rfl, hds⟩, by rw [length_encode_cons]; omega⟩
      · rintro ⟨ds, hds, hend⟩
        cases ds with
        | nil => exact absurd hend.symm hzero
        | cons d ds =>
          obtain ⟨rfl, hrest⟩ := List.cons_prefix_cons.mp hds
          rw [length_encode_cons] at hend
          exact ⟨ds, hrest, by omega⟩

/-- Behind any place, the first boundary begins the longest suffix that starts there or later. -/
theorem dropWhile_isContinuation (cs : List Char) {k : Nat} (hk : k ≤ (encode cs).length) :
    ∃ es, es <:+ cs ∧ ((encode cs).drop k).dropWhile isContinuation = encode es ∧
      k + (encode es).length ≤ (encode cs).length ∧
      ∀ fs, fs <:+ cs → k + (encode fs).length ≤ (encode cs).length → fs <:+ es := by
  have hstart (cs : List Char) : (encode cs).dropWhile isContinuation = encode cs := by
    cases cs with
    | nil => rfl
    | cons c cs =>
      have hboundary := (isText_encode (c :: cs)).isCharBoundary
      obtain ⟨b, bs, hb, -⟩ := utf8EncodeChar_bytes c
      rw [encode_cons, hb, List.cons_append] at hboundary ⊢
      exact List.dropWhile_cons_of_neg (by simpa [isCharBoundary] using hboundary)
  induction cs generalizing k with
  | nil =>
    obtain rfl : k = 0 := Nat.le_zero.mp hk
    exact ⟨[], List.suffix_rfl, rfl, Nat.le_refl _, fun fs hfs _ => hfs⟩
  | cons c cs ih =>
    by_cases hzero : k = 0
    · subst hzero
      exact ⟨c :: cs, List.suffix_rfl, hstart _, by omega, fun fs hfs _ => hfs⟩
    rw [length_encode_cons] at hk ⊢
    by_cases hin : k ≤ (String.utf8EncodeChar c).length
    · obtain ⟨xs, hdrop, hxs, hlen⟩ := @drop_char c cs k (Nat.pos_of_ne_zero hzero) hin
      refine ⟨cs, List.suffix_cons c cs, ?_, by omega, fun fs hfs hle => ?_⟩
      · rw [hdrop, List.dropWhile_append_of_pos hxs, hstart]
      · obtain rfl | hfs := List.suffix_cons_iff.mp hfs
        · rw [length_encode_cons] at hle
          omega
        · exact hfs
    · obtain ⟨es, hes, hdrop, hlen, hlongest⟩ :=
        @ih (k - (String.utf8EncodeChar c).length) (by omega)
      refine ⟨es, hes.trans (List.suffix_cons c cs), ?_, by omega, fun fs hfs hle => ?_⟩
      · rw [drop_behind (by omega), hdrop]
      · obtain rfl | hfs := List.suffix_cons_iff.mp hfs
        · rw [length_encode_cons] at hle
          omega
        · exact hlongest fs hfs (by omega)

end Nigiri.Utf8
