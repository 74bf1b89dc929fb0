import Nigiri.Utf8

/-! ASCII words in text in any letter case: where they occur, and what cannot change that. -/
namespace Nigiri.AsciiCase
open Utf8 Rewrite

-- A quantifier over the bytes of a text is decided along the text, never over all 256 bytes.
instance (priority := 2000) decidableForallByte (p : UInt8 → Prop) [DecidablePred p] (bs : Bytes) :
    Decidable (∀ b ∈ bs, p b) := List.decidableBAll p bs

instance (priority := 2000) decidableForallByteOf (p : UInt8 → Prop) [DecidablePred p]
    (b? : Option UInt8) : Decidable (∀ b ∈ b?, p b) :=
  decidable_of_iff (∀ b ∈ b?.toList, p b) (by simp)

/-- The bytes of an ASCII literal. -/
def ascii (s : String) : Bytes := s.toUTF8.data.toList

def toAsciiLowercase (b : UInt8) : UInt8 := if 65 ≤ b && b ≤ 90 then b + 32 else b

def toAsciiUppercase (b : UInt8) : UInt8 := if 97 ≤ b && b ≤ 122 then b - 32 else b

def lowered (bs : Bytes) : Bytes := bs.map toAsciiLowercase

def eqIgnoreAsciiCase (as bs : Bytes) : Bool := lowered as == lowered bs

def startsIgnoreAsciiCase (word text : Bytes) : Bool :=
  word.length ≤ text.length && eqIgnoreAsciiCase (text.take word.length) word

@[simp] theorem lowered_append (as bs : Bytes) : lowered (as ++ bs) = lowered as ++ lowered bs :=
  List.map_append

@[simp] theorem lowered_length (bs : Bytes) : (lowered bs).length = bs.length := List.length_map _

theorem lowered_cons (b : UInt8) (bs : Bytes) :
    lowered (b :: bs) = toAsciiLowercase b :: lowered bs := rfl

theorem toNat_lowercase (b : UInt8) : (toAsciiLowercase b).toNat =
    if 65 ≤ b.toNat ∧ b.toNat ≤ 90 then b.toNat + 32 else b.toNat := by
  by_cases h : 65 ≤ b.toNat ∧ b.toNat ≤ 90
  · have hb : (65 ≤ b && b ≤ 90) = true := by
      simpa [UInt8.le_iff_toNat_le] using h
    rw [toAsciiLowercase, if_pos hb, if_pos h, UInt8.toNat_add]
    exact Nat.mod_eq_of_lt (by simp; omega)
  · have hb : ¬ (65 ≤ b && b ≤ 90) = true := by
      simpa [UInt8.le_iff_toNat_le] using h
    rw [toAsciiLowercase, if_neg hb, if_neg h]

theorem toNat_uppercase (b : UInt8) : (toAsciiUppercase b).toNat =
    if 97 ≤ b.toNat ∧ b.toNat ≤ 122 then b.toNat - 32 else b.toNat := by
  by_cases h : 97 ≤ b.toNat ∧ b.toNat ≤ 122
  · have hb : (97 ≤ b && b ≤ 122) = true := by
      simpa [UInt8.le_iff_toNat_le] using h
    have hle : (32 : UInt8) ≤ b := by
      rw [UInt8.le_iff_toNat_le]
      simp
      omega
    rw [toAsciiUppercase, if_pos hb, if_pos h, UInt8.toNat_sub_of_le _ _ hle]
    rfl
  · have hb : ¬ (97 ≤ b && b ≤ 122) = true := by
      simpa [UInt8.le_iff_toNat_le] using h
    rw [toAsciiUppercase, if_neg hb, if_neg h]

theorem uppercase_lowercase (b : UInt8) :
    toAsciiUppercase (toAsciiLowercase b) = toAsciiUppercase b := by
  rw [← UInt8.toNat_inj, toNat_uppercase, toNat_uppercase, toNat_lowercase]
  by_cases h : 65 ≤ b.toNat ∧ b.toNat ≤ 90
  · rw [if_pos h, if_pos (by omega), if_neg (by omega)]
    omega
  · rw [if_neg h]

/-- A byte below the lower-case letters is spelled in one way. -/
theorem lowercase_eq_iff {b c : UInt8} (hc : c.toNat < 65 ∨ 90 < c.toNat ∧ c.toNat < 97) :
    toAsciiLowercase b = c ↔ b = c := by
  rw [← UInt8.toNat_inj, ← UInt8.toNat_inj, toNat_lowercase]
  split <;> omega

theorem eq_of_lowered {as bs : Bytes} (h : lowered as = bs) (hbs : ∀ b ∈ bs, b.toNat < 65) :
    as = bs := by
  induction as generalizing bs with
  | nil => exact h
  | cons a as ih =>
    subst h
    obtain ⟨ha, has⟩ := List.forall_mem_cons.mp hbs
    have hhead := (lowercase_eq_iff (.inl ha)).mp rfl
    rw [lowered_cons, ← hhead, ← ih rfl has]

theorem isAscii_lowercase (b : UInt8) : isAscii (toAsciiLowercase b) = isAscii b := by
  have h := toNat_lowercase b
  rw [Bool.eq_iff_iff]
  simp only [isAscii, UInt8.lt_iff_toNat_lt, decide_eq_true_iff, h]
  split
  · simp
    omega
  · rfl

theorem mem_lowered {c : UInt8} (hc : c.toNat < 65 ∨ 90 < c.toNat ∧ c.toNat < 97) {bs : Bytes} :
    c ∈ lowered bs ↔ c ∈ bs := by
  rw [lowered, List.mem_map]
  constructor
  · rintro ⟨b, hb, h⟩
    exact (lowercase_eq_iff hc).mp h ▸ hb
  · exact fun h => ⟨c, h, (lowercase_eq_iff hc).mpr rfl⟩

theorem isAscii_of_lowered {as bs : Bytes} (h : lowered as = lowered bs)
    (hbs : ∀ b ∈ bs, isAscii b = true) : ∀ a ∈ as, isAscii a = true := by
  intro a ha
  have hmem : toAsciiLowercase a ∈ lowered bs := h ▸ List.mem_map_of_mem ha
  obtain ⟨b, hb, hab⟩ := List.mem_map.mp hmem
  rw [← isAscii_lowercase a, ← hab, isAscii_lowercase b]
  exact hbs b hb

theorem startsIgnoreAsciiCase_iff {word text : Bytes} :
    startsIgnoreAsciiCase word text = true ↔
      ∃ found rest, text = found ++ rest ∧ lowered found = lowered word := by
  rw [startsIgnoreAsciiCase, Bool.and_eq_true, decide_eq_true_iff, eqIgnoreAsciiCase, beq_iff_eq]
  constructor
  · rintro ⟨-, h⟩
    exact ⟨_, _, (List.take_append_drop word.length text).symm, h⟩
  · rintro ⟨found, rest, rfl, h⟩
    have hlen : found.length = word.length := by simpa using congrArg List.length h
    refine ⟨by rw [List.length_append]; omega, ?_⟩
    rw [← hlen, List.take_left, h]

theorem startsIgnoreAsciiCase_iff_lowered {word text : Bytes} :
    startsIgnoreAsciiCase word text = true ↔ lowered word <+: lowered text := by
  rw [startsIgnoreAsciiCase_iff]
  constructor
  · rintro ⟨found, rest, rfl, h⟩
    exact ⟨lowered rest, by rw [lowered_append, h]⟩
  · rintro ⟨rest, h⟩
    obtain ⟨found, rest', htext, hfound, -⟩ := List.map_eq_append_iff.mp h.symm
    exact ⟨found, rest', htext, hfound⟩

theorem startsIgnoreAsciiCase_append {word text : Bytes}
    (h : startsIgnoreAsciiCase word text = true) (more : Bytes) :
    startsIgnoreAsciiCase word (text ++ more) = true := by
  rw [startsIgnoreAsciiCase_iff_lowered] at h ⊢
  rw [lowered_append]
  exact h.trans (List.prefix_append _ _)

theorem startsIgnoreAsciiCase_of_length {word text more : Bytes}
    (h : startsIgnoreAsciiCase word (text ++ more) = true) (hlen : word.length ≤ text.length) :
    startsIgnoreAsciiCase word text = true := by
  rw [startsIgnoreAsciiCase_iff_lowered] at h ⊢
  rw [lowered_append] at h
  exact List.prefix_of_prefix_length_le h (List.prefix_append _ _) (by simpa using hlen)

/-- A word that is begun otherwise than the text is not there, however the text goes on. -/
theorem startsIgnoreAsciiCase_clash {word text : Bytes} (h : ¬ lowered word <+: lowered text)
    (h' : ¬ lowered text <+: lowered word) (more : Bytes) :
    startsIgnoreAsciiCase word (text ++ more) = false := by
  rw [Bool.eq_false_iff, Ne, startsIgnoreAsciiCase_iff_lowered, lowered_append]
  intro hstarts
  exact (List.prefix_or_prefix_of_prefix hstarts (List.prefix_append _ _)).elim h h'

theorem startsIgnoreAsciiCase_front {front back text : Bytes}
    (h : startsIgnoreAsciiCase front text = false) :
    startsIgnoreAsciiCase (front ++ back) text = false := by
  rw [Bool.eq_false_iff, Ne, startsIgnoreAsciiCase_iff_lowered] at h ⊢
  rw [lowered_append]
  exact fun hstarts => h ((List.prefix_append _ _).trans hstarts)

/-- What follows a text neither completes a word begun in it nor hides one. -/
def Inert (word more : Bytes) : Prop :=
  ∀ text, startsIgnoreAsciiCase word (text ++ more) = startsIgnoreAsciiCase word text

theorem inert_of_length {word more : Bytes}
    (h : ∀ text, startsIgnoreAsciiCase word (text ++ more) = true → word.length ≤ text.length) :
    Inert word more := by
  intro text
  rw [Bool.eq_iff_iff]
  exact ⟨fun hs => startsIgnoreAsciiCase_of_length hs (h text hs),
    fun hs => startsIgnoreAsciiCase_append hs more⟩

theorem inert_of_notMem {word : Bytes} {b : UInt8} (hb : toAsciiLowercase b ∉ lowered word)
    (more : Bytes) : Inert word (b :: more) := by
  refine inert_of_length fun text h => ?_
  by_contra hlen
  rw [startsIgnoreAsciiCase_iff_lowered, lowered_append, lowered_cons] at h
  have hmore : lowered text ++ [toAsciiLowercase b] <+: lowered word := by
    refine List.prefix_of_prefix_length_le ?_ h (by simp; omega)
    exact ⟨lowered more, by simp⟩
  exact hb (hmore.subset (by simp))

/-- A word ending in two equal bytes that nothing written later has next to each other. -/
theorem inert_of_double {c : UInt8} (hc : c.toNat < 65)
    {front more : Bytes} (hpair : ¬ [c, c] <:+: more) (hhead : more.head? ≠ some c) :
    Inert (front ++ [c, c]) more := by
  refine inert_of_length fun text h => ?_
  by_contra hlen
  obtain ⟨found, rest, htext, hfound⟩ := startsIgnoreAsciiCase_iff.mp h
  obtain ⟨front', tail', rfl, hfront, htail⟩ :
      ∃ front' tail', found = front' ++ tail' ∧ lowered front' = lowered front ∧
        lowered tail' = [c, c] := by
    have hcc : lowered [c, c] = [c, c] := by
      simp [lowered, (lowercase_eq_iff (.inl hc)).mpr rfl]
    rw [lowered_append, hcc] at hfound
    obtain ⟨l₁, l₂, h₀, h₁, h₂⟩ := List.map_eq_append_iff.mp hfound
    exact ⟨l₁, l₂, h₀, h₁, h₂⟩
  have htail' : tail' = [c, c] := eq_of_lowered htail (by simp [hc])
  have hlen' : front'.length = front.length := by simpa using congrArg List.length hfront
  rw [List.length_append, List.length_cons, List.length_singleton] at hlen
  rw [htail', List.append_assoc] at htext
  rcases List.append_eq_append_iff.mp htext with ⟨as, hfr, hmore⟩ | ⟨as, htx, hmore⟩
  · exact hpair ⟨as, rest, by rw [hmore, List.append_assoc]⟩
  · -- then the text ends inside the pair
    have has : as.length < 2 := by
      have := congrArg List.length htx
      rw [List.length_append] at this
      omega
    cases as with
    | nil => exact hpair ⟨[], rest, by simpa using hmore⟩
    | cons a as =>
      cases as with
      | nil =>
        obtain ⟨-, hrest⟩ := List.cons.inj hmore
        exact hhead (by rw [← show c :: rest = more from hrest]; rfl)
      | cons => exact absurd has (by simp)

theorem position_length {word text : Bytes} {n : Nat}
    (h : position (startsIgnoreAsciiCase word) text = some n) :
    n + word.length ≤ text.length := by
  obtain ⟨xs, t, rfl, rfl, -, hstart, -⟩ := position_some h
  rw [startsIgnoreAsciiCase, Bool.and_eq_true, decide_eq_true_iff] at hstart
  rw [List.length_append]
  omega

end Nigiri.AsciiCase
