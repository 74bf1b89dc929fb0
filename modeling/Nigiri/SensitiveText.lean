import Mathlib.Algebra.GroupWithZero.Nat
import Nigiri.Masking

/-! Removing caller-supplied values from what a node says of them. A text is its characters;
offsets into it count bytes, and cutting it inside a character panics, which is `none`. -/
namespace Nigiri.Core

def byteLength (text : List Char) : Nat := (text.map Char.utf8Size).sum

/-- The text before a byte offset and from it on. -/
def splitAtByte : List Char → Nat → Option (List Char × List Char)
  | text, 0 => some ([], text)
  | [], _ + 1 => none
  | c :: cs, n + 1 =>
    if n + 1 < c.utf8Size then none
    else (splitAtByte cs (n + 1 - c.utf8Size)).map fun p => (c :: p.1, p.2)

/-- The byte offset of the first match. -/
def find (pattern : List Char) : List Char → Option Nat
  | [] => if pattern = [] then some 0 else none
  | c :: cs =>
    if pattern.isPrefixOf (c :: cs) then some 0
    else (find pattern cs).map (· + c.utf8Size)

def SENSITIVE_ANCHOR_BYTES : Nat := 12

/-- The last character boundary of a text at or before an offset. -/
def floorBoundary (value : List Char) : Nat → Nat
  | 0 => 0
  | n + 1 => if (splitAtByte value (n + 1)).isSome then n + 1 else floorBoundary value n

/-- The leading bytes matched when looking for an echo, on a character boundary. -/
def anchorOf (value : List Char) : Option (List Char) :=
  if byteLength value ≤ SENSITIVE_ANCHOR_BYTES then some value
  else (splitAtByte value (floorBoundary value SENSITIVE_ANCHOR_BYTES)).map Prod.fst

/-- However much of the value is actually present, in bytes. -/
def matchedBytes (value echoed : List Char) : Nat :=
  byteLength (((value.zip echoed).takeWhile fun p => p.1 = p.2).map Prod.fst)

def redactedMark : List Char := "[redacted]".toList

/-- The loop of `redact_value`, with how many rounds it may take. -/
def redactFrom (value anchor : List Char) : Nat → List Char → List Char → Option (List Char)
  | 0, _, _ => none
  | rounds + 1, redacted, rest =>
    match find anchor rest with
    | none => some (redacted ++ rest)
    | some offset =>
      match splitAtByte rest offset with
      | none => none
      | some (before, echoed) =>
        match splitAtByte echoed (matchedBytes value echoed) with
        | none => none
        | some (_, rest) =>
          redactFrom value anchor rounds (redacted ++ before ++ redactedMark) rest

/-- Each round consumes something, so that there are no more rounds than letters. -/
def redactValue (text value : List Char) : Option (List Char) :=
  match anchorOf value with
  | none => none
  | some anchor => redactFrom value anchor (text.length + 1) [] text

def redactSensitive (text : List Char) (sensitive : List (List Char)) : Option (List Char) :=
  (sensitive.filter (· ≠ [])).foldlM redactValue text

section Bytes
variable {text before after value : List Char} {n : Nat}

theorem byteLength_cons (c : Char) (text : List Char) :
    byteLength (c :: text) = c.utf8Size + byteLength text := by
  simp [byteLength]

theorem byteLength_append (text rest : List Char) :
    byteLength (text ++ rest) = byteLength text + byteLength rest := by
  simp [byteLength]

theorem byteLength_pos (h : text ≠ []) : 0 < byteLength text := by
  cases text with
  | nil => exact absurd rfl h
  | cons c cs =>
    have hpos := c.utf8Size_pos
    rw [byteLength_cons]
    omega

theorem length_le_byteLength (text : List Char) : text.length ≤ byteLength text := by
  induction text with
  | nil => exact Nat.le_refl 0
  | cons c cs ih =>
    have hpos := c.utf8Size_pos
    rw [byteLength_cons, List.length_cons]
    omega

/-- A text is cut at an offset exactly when that many bytes are its first characters. -/
theorem splitAtByte_iff :
    splitAtByte text n = some (before, after) ↔ text = before ++ after ∧ byteLength before = n := by
  induction text generalizing n before with
  | nil =>
    cases n with
    | zero =>
      simp only [splitAtByte, Option.some.injEq, Prod.mk.injEq]
      constructor
      · intro h
        obtain ⟨rfl, rfl⟩ := h
        exact ⟨rfl, rfl⟩
      · intro h
        obtain ⟨hnil, _⟩ := h
        obtain ⟨rfl, rfl⟩ := List.append_eq_nil_iff.mp hnil.symm
        exact ⟨rfl, rfl⟩
    | succ n =>
      simp only [splitAtByte]
      constructor
      · intro h
        cases h
      · intro h
        obtain ⟨hnil, hbytes⟩ := h
        obtain ⟨rfl, rfl⟩ := List.append_eq_nil_iff.mp hnil.symm
        cases hbytes
  | cons c cs ih =>
    have hpos := c.utf8Size_pos
    cases n with
    | zero =>
      simp only [splitAtByte, Option.some.injEq, Prod.mk.injEq]
      constructor
      · intro h
        obtain ⟨rfl, rfl⟩ := h
        exact ⟨rfl, rfl⟩
      · intro h
        obtain ⟨htext, hbytes⟩ := h
        cases before with
        | nil => exact ⟨rfl, htext⟩
        | cons d ds =>
          rw [byteLength_cons] at hbytes
          have hd := d.utf8Size_pos
          omega
    | succ n =>
      rw [splitAtByte]
      by_cases hinside : n + 1 < c.utf8Size
      · rw [if_pos hinside]
        constructor
        · intro h
          cases h
        · intro h
          obtain ⟨htext, hbytes⟩ := h
          cases before with
          | nil => cases hbytes
          | cons d ds =>
            obtain ⟨rfl, _⟩ := List.cons.inj htext
            rw [byteLength_cons] at hbytes
            omega
      · rw [if_neg hinside]
        constructor
        · intro h
          obtain ⟨p, hp, heq⟩ := Option.map_eq_some_iff.mp h
          cases heq
          obtain ⟨hcs, hbytes⟩ := ih.mp hp
          refine ⟨?_, ?_⟩
          · rw [hcs]
            rfl
          · rw [byteLength_cons, hbytes]
            omega
        · intro h
          obtain ⟨htext, hbytes⟩ := h
          cases before with
          | nil => cases hbytes
          | cons d ds =>
            obtain ⟨rfl, hcs⟩ := List.cons.inj htext
            rw [byteLength_cons] at hbytes
            rw [ih.mpr ⟨hcs, (by omega : byteLength ds = n + 1 - c.utf8Size)⟩]
            rfl

end Bytes

section Find
variable {pattern text : List Char}

/-- Where a pattern is found, it stands, and nowhere before. -/
theorem find_some {offset : Nat} (h : find pattern text = some offset) :
    ∃ before rest, text = before ++ (pattern ++ rest) ∧ byteLength before = offset ∧
      ∀ c r, c :: r <:+ before → ¬ pattern <+: c :: r ++ (pattern ++ rest) := by
  induction text generalizing offset with
  | nil =>
    rw [find] at h
    split_ifs at h with hpattern
    cases h
    subst hpattern
    refine ⟨[], [], rfl, rfl, ?_⟩
    intro c r hsuffix
    simp at hsuffix
  | cons c cs ih =>
    rw [find] at h
    by_cases hprefix : pattern.isPrefixOf (c :: cs)
    · rw [if_pos hprefix] at h
      cases h
      obtain ⟨rest, hrest⟩ := List.isPrefixOf_iff_prefix.mp hprefix
      refine ⟨[], rest, hrest.symm, rfl, ?_⟩
      intro c r hsuffix
      simp at hsuffix
    · rw [if_neg hprefix] at h
      obtain ⟨inner, hinner, rfl⟩ := Option.map_eq_some_iff.mp h
      obtain ⟨before, rest, rfl, hbytes, hfirst⟩ := ih hinner
      refine ⟨c :: before, rest, rfl, ?_, ?_⟩
      · rw [byteLength_cons, hbytes]
        exact Nat.add_comm _ _
      · intro d r hsuffix
        obtain heq | hsuffix := List.suffix_cons_iff.mp hsuffix
        · obtain ⟨rfl, rfl⟩ := List.cons.inj heq
          intro hstart
          exact hprefix (List.isPrefixOf_iff_prefix.mpr hstart)
        · exact hfirst d r hsuffix

theorem find_none (h : find pattern text = none) : ¬ pattern <:+: text := by
  induction text with
  | nil =>
    rw [find] at h
    split_ifs at h with hpattern
    intro hinfix
    exact hpattern (List.infix_nil.mp hinfix)
  | cons c cs ih =>
    rw [find] at h
    by_cases hprefix : pattern.isPrefixOf (c :: cs)
    · rw [if_pos hprefix] at h
      cases h
    · rw [if_neg hprefix, Option.map_eq_none_iff] at h
      intro hinfix
      obtain hstart | hinfix := List.infix_cons_iff.mp hinfix
      · exact hprefix (List.isPrefixOf_iff_prefix.mpr hstart)
      · exact ih h hinfix

/-- The first characters two texts share. -/
def shared : List Char → List Char → List Char
  | a :: as, b :: bs => if a = b then a :: shared as bs else []
  | _, _ => []

theorem matchedBytes_eq (value echoed : List Char) :
    matchedBytes value echoed = byteLength (shared value echoed) := by
  have htake : ∀ value echoed : List Char,
      ((value.zip echoed).takeWhile fun p => p.1 = p.2).map Prod.fst = shared value echoed := by
    intro value
    induction value with
    | nil =>
      intro echoed
      rw [List.zip_nil_left, shared]
      · rfl
      · intro a as b bs h
        cases h
    | cons a as ih =>
      intro echoed
      cases echoed with
      | nil => rfl
      | cons b bs =>
        rw [List.zip_cons_cons, shared]
        by_cases hab : a = b
        · rw [List.takeWhile_cons_of_pos (by simpa using hab), if_pos hab, List.map_cons, ih]
        · rw [List.takeWhile_cons_of_neg (by simpa using hab), if_neg hab]
          rfl
  rw [matchedBytes, htake]

theorem shared_prefix_left (value echoed : List Char) : shared value echoed <+: value := by
  induction value generalizing echoed with
  | nil => exact List.nil_prefix
  | cons a as ih =>
    cases echoed with
    | nil => exact List.nil_prefix
    | cons b bs =>
      rw [shared]
      split_ifs with hab
      · exact List.cons_prefix_cons.mpr ⟨rfl, ih bs⟩
      · exact List.nil_prefix

theorem shared_prefix_right (value echoed : List Char) : shared value echoed <+: echoed := by
  induction value generalizing echoed with
  | nil => exact List.nil_prefix
  | cons a as ih =>
    cases echoed with
    | nil => exact List.nil_prefix
    | cons b bs =>
      rw [shared]
      split_ifs with hab
      · exact List.cons_prefix_cons.mpr ⟨hab, ih bs⟩
      · exact List.nil_prefix

theorem shared_append (start value echoed : List Char) :
    shared (start ++ value) (start ++ echoed) = start ++ shared value echoed := by
  induction start with
  | nil => rfl
  | cons a as ih =>
    have hstep : shared (a :: (as ++ value)) (a :: (as ++ echoed)) =
        a :: shared (as ++ value) (as ++ echoed) := if_pos rfl
    exact hstep.trans (congrArg _ ih)

end Find

section Anchor
variable {value anchor : List Char}

theorem floorBoundary_le (value : List Char) (n : Nat) : floorBoundary value n ≤ n := by
  induction n with
  | zero => exact Nat.le_refl 0
  | succ n ih =>
    rw [floorBoundary]
    split_ifs
    · exact Nat.le_refl _
    · exact Nat.le_succ_of_le ih

theorem floorBoundary_some (value : List Char) (n : Nat) :
    (splitAtByte value (floorBoundary value n)).isSome = true := by
  induction n with
  | zero =>
    cases value <;> rfl
  | succ n ih =>
    rw [floorBoundary]
    split_ifs with hboundary
    · exact hboundary
    · exact ih

theorem le_floorBoundary {m n : Nat} (hle : m ≤ n) (h : (splitAtByte value m).isSome = true) :
    m ≤ floorBoundary value n := by
  induction n with
  | zero => omega
  | succ n ih =>
    rw [floorBoundary]
    split_ifs with hboundary
    · exact hle
    · by_cases hm : m = n + 1
      · subst hm
        exact absurd h hboundary
      · exact ih (by omega)

/-- An anchor is the whole of a short value, and of a longer one all the leading characters that
fit. -/
theorem anchorOf_iff :
    anchorOf value = some anchor ↔
      (byteLength value ≤ SENSITIVE_ANCHOR_BYTES ∧ anchor = value) ∨
        ∃ d t, value = anchor ++ d :: t ∧ byteLength anchor ≤ SENSITIVE_ANCHOR_BYTES ∧
          SENSITIVE_ANCHOR_BYTES < byteLength anchor + d.utf8Size := by
  unfold anchorOf
  by_cases hshort : byteLength value ≤ SENSITIVE_ANCHOR_BYTES
  · rw [if_pos hshort]
    constructor
    · intro h
      cases h
      exact .inl ⟨hshort, rfl⟩
    · intro h
      obtain ⟨_, rfl⟩ | ⟨d, t, rfl, _, hlong⟩ := h
      · rfl
      · rw [byteLength_append, byteLength_cons] at hshort
        omega
  · rw [if_neg hshort]
    have hbound := floorBoundary_le value SENSITIVE_ANCHOR_BYTES
    constructor
    · intro h
      obtain ⟨⟨before, rest⟩, hsplit, rfl⟩ := Option.map_eq_some_iff.mp h
      obtain ⟨hvalue, hbytes⟩ := splitAtByte_iff.mp hsplit
      simp only
      cases rest with
      | nil =>
        rw [hvalue, List.append_nil] at hshort
        omega
      | cons d t =>
        refine .inr ⟨d, t, hvalue, by omega, ?_⟩
        by_contra hfits
        have hlonger :
            splitAtByte value (byteLength (before ++ [d])) = some (before ++ [d], t) := by
          apply splitAtByte_iff.mpr
          rw [hvalue]
          simp
        have hsum : byteLength (before ++ [d]) = byteLength before + d.utf8Size := by
          simp [byteLength]
        have hle := @le_floorBoundary value _ SENSITIVE_ANCHOR_BYTES (by omega)
          (Option.isSome_iff_exists.mpr ⟨_, hlonger⟩)
        have hpos := d.utf8Size_pos
        omega
    · intro h
      obtain ⟨hle, _⟩ | ⟨d, t, hvalue, hfits, hlong⟩ := h
      · exact absurd hle hshort
      · obtain ⟨⟨before, rest⟩, hsplit⟩ := Option.isSome_iff_exists.mp
          (floorBoundary_some value SENSITIVE_ANCHOR_BYTES)
        obtain ⟨hbefore, hbytes⟩ := splitAtByte_iff.mp hsplit
        have hsome := Option.isSome_iff_exists.mpr
          ⟨_, splitAtByte_iff.mpr ⟨hvalue, rfl⟩⟩
        have hle := le_floorBoundary hfits hsome
        rw [hsplit, Option.map_some]
        have hsame : before ++ rest = anchor ++ d :: t := by rw [← hbefore, hvalue]
        obtain ⟨as, hanchor, hrest⟩ | ⟨as, hbefore', hrest⟩ := List.append_eq_append_iff.mp hsame
        · have hempty : byteLength as = 0 := by
            rw [hanchor, byteLength_append] at hle
            omega
          cases as with
          | nil => rw [hanchor, List.append_nil]
          | cons a as =>
            have hpos := byteLength_pos (List.cons_ne_nil a as)
            omega
        · cases as with
          | nil => rw [hbefore', List.append_nil]
          | cons a as =>
            obtain ⟨rfl, _⟩ := List.cons.inj hrest
            rw [hbefore', byteLength_append, byteLength_cons] at hbytes
            omega

theorem anchorOf_total (value : List Char) : ∃ anchor, anchorOf value = some anchor := by
  unfold anchorOf
  split_ifs
  · exact ⟨value, rfl⟩
  · obtain ⟨p, hp⟩ := Option.isSome_iff_exists.mp (floorBoundary_some value SENSITIVE_ANCHOR_BYTES)
    exact ⟨p.1, by rw [hp]; rfl⟩

theorem anchorOf_starts (h : anchorOf value = some anchor) : anchor <+: value := by
  obtain ⟨_, rfl⟩ | ⟨d, t, rfl, _⟩ := anchorOf_iff.mp h
  · exact List.prefix_rfl
  · exact List.prefix_append anchor _

theorem anchorOf_nonempty (h : anchorOf value = some anchor) (hne : value ≠ []) :
    anchor ≠ [] := by
  obtain ⟨_, rfl⟩ | ⟨d, t, _, _, hlong⟩ := anchorOf_iff.mp h
  · exact hne
  · intro hnil
    rw [hnil] at hlong
    have hle := d.utf8Size_le_four
    have hzero : byteLength [] = 0 := rfl
    simp only [SENSITIVE_ANCHOR_BYTES] at hlong
    omega

end Anchor

/-- How a value is removed from a text: up to the first anchor the text is kept, and what follows
is covered as far as it agrees with the value. -/
inductive Redaction (value anchor : List Char) : List Char → List Char → Prop where
  | done (text : List Char) (h : ¬ anchor <:+: text) : Redaction value anchor text text
  | round (before echo rest result : List Char)
    (hfirst : ∀ c r, c :: r <:+ before → ¬ anchor <+: c :: r ++ (echo ++ rest))
    (hecho : shared value (echo ++ rest) = echo) (hanchor : anchor <+: echo)
    (h : Redaction value anchor rest result) :
    Redaction value anchor (before ++ (echo ++ rest)) (before ++ (redactedMark ++ result))

theorem redactFrom_some {value anchor : List Char} (hne : anchor ≠ []) (hvalue : anchor <+: value)
    {rounds : Nat} {redacted text : List Char} (hrounds : text.length < rounds) :
    ∃ result, redactFrom value anchor rounds redacted text = some (redacted ++ result) ∧
      Redaction value anchor text result := by
  induction rounds generalizing redacted text with
  | zero => exact absurd hrounds (Nat.not_lt_zero _)
  | succ rounds ih =>
    rw [redactFrom]
    cases hfind : find anchor text with
    | none => exact ⟨text, rfl, .done text (find_none hfind)⟩
    | some offset =>
      obtain ⟨before, after, rfl, hbytes, hfirst⟩ := find_some hfind
      have hcut : splitAtByte (before ++ (anchor ++ after)) offset =
          some (before, anchor ++ after) := splitAtByte_iff.mpr ⟨rfl, hbytes⟩
      obtain ⟨tail, rfl⟩ := hvalue
      have hshared := shared_append anchor tail after
      obtain ⟨rest, hrest⟩ := shared_prefix_right (anchor ++ tail) (anchor ++ after)
      have hmatched : splitAtByte (anchor ++ after)
          (matchedBytes (anchor ++ tail) (anchor ++ after)) =
            some (shared (anchor ++ tail) (anchor ++ after), rest) := by
        rw [matchedBytes_eq]
        exact splitAtByte_iff.mpr ⟨hrest.symm, rfl⟩
      have hanchor : anchor <+: shared (anchor ++ tail) (anchor ++ after) := by
        rw [hshared]
        exact List.prefix_append anchor _
      have hshorter : rest.length < rounds := by
        have hlength := congrArg List.length hrest
        have hpos := List.length_pos_iff.mpr hne
        have hle := hanchor.length_le
        rw [List.length_append] at hlength hrounds
        omega
      obtain ⟨result, hresult, hredaction⟩ :=
        @ih (redacted ++ before ++ redactedMark) rest hshorter
      refine ⟨before ++ (redactedMark ++ result), ?_, ?_⟩
      · simp only [hcut, hmatched]
        rw [hresult]
        simp only [List.append_assoc]
      · rw [← hrest] at hfirst ⊢
        have hecho : shared (anchor ++ tail)
            (shared (anchor ++ tail) (anchor ++ after) ++ rest) =
              shared (anchor ++ tail) (anchor ++ after) := by rw [hrest]
        exact .round before _ rest result hfirst hecho hanchor hredaction

end Nigiri.Core
