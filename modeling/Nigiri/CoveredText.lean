import Nigiri.SecretBorder

/-! Secrets in a text whose values were exchanged: inside a key only the key's own value is found,
and in front of a mask nothing is found that was not found in front of what it covers. -/
namespace Nigiri.Fixtures
open Utf8 AsciiCase Rewrite

/-- Up to a bracket both texts are the same, and no anchor reaches over it. -/
def Covert (x y : Bytes) : Prop :=
  x = y ∨ ∃ front back t, x = front ++ back ∧ y = front ++ 91 :: t ∧
    ∀ xs, anchorAt (xs ++ x) = anchorAt (xs ++ front)

variable {cliKey d : Bool} {kind other : SecretValueKind} {header start start' t x y : Bytes}

theorem lowered_lowered (bs : Bytes) : lowered (lowered bs) = lowered bs := by
  have hbyte (b : UInt8) : toAsciiLowercase (toAsciiLowercase b) = toAsciiLowercase b := by
    rw [← UInt8.toNat_inj, toNat_lowercase (toAsciiLowercase b), if_neg]
    rw [toNat_lowercase]
    split <;> omega
  rw [lowered, lowered, List.map_map]
  exact List.map_congr_left fun b _ => hbyte b

theorem isGapByte_lowercase {b : UInt8} (h : isGapByte b = true) : toAsciiLowercase b = b := by
  have hall : ∀ b ∈ ascii "'\"=: \t" ++ [12], toAsciiLowercase b = b := by decide
  exact hall b (gapByte_cases h)

theorem isSeamByte_lowercase {b : UInt8} (h : isSeamByte b = true) :
    isSeamByte (toAsciiLowercase b) = true := by
  have hall : ∀ b ∈ ascii "_-.hex", isSeamByte b = true := by decide
  rcases Bool.or_eq_true_iff.mp h with hgap | hletter
  · rw [isGapByte_lowercase hgap]
    exact h
  · exact hall _ (List.contains_iff_mem.mp hletter)

theorem isProse_lowered (h : isProse (lowered t) = true) : isProse t = true := by
  rw [isProse, Bool.and_eq_true, Bool.and_eq_true, decide_eq_true_iff] at h ⊢
  obtain ⟨⟨hlength, hhex⟩, hhead⟩ := h
  refine ⟨⟨by rwa [lowered_length] at hlength, List.all_eq_true.mpr fun s hs => ?_⟩, ?_⟩
  · rw [← List.all_eq_true.mp hhex s hs, Bool.eq_iff_iff, Bool.not_eq_true', Bool.not_eq_true',
      ← Bool.not_eq_true, ← Bool.not_eq_true, startsIgnoreAsciiCase_iff_lowered,
      startsIgnoreAsciiCase_iff_lowered, lowered_lowered]
  · cases t with
    | nil => rfl
    | cons b r =>
      have hall : ∀ b ∈ ascii "'\"=: \t\r\n" ++ [12], toAsciiLowercase b = b := by decide
      by_contra hb
      have hb : (isQuote b || isAsciiWhitespace b || isDelimiter b) = true := by
        rw [Bool.not_eq_true', Bool.not_eq_false] at hb
        exact hb
      have hmem : b ∈ ascii "'\"=: \t\r\n" ++ [12] := by
        simp only [isQuote, isAsciiWhitespace, isDelimiter, Bool.or_eq_true, beq_iff_eq] at hb
        rcases hb with ((rfl | rfl) | (((rfl | rfl) | rfl) | rfl) | rfl) | rfl | rfl <;> decide
      rw [lowered_cons, hall b hmem] at hhead
      simp [hb] at hhead

/-- An anchor begins and ends with a letter that no gap has. -/
theorem anchor_ends : ∀ entry ∈ secretAnchors, (∀ b ∈ entry.1.head?, isSeamByte b = false) ∧
    ∀ b ∈ entry.1.getLast?, isSeamByte b = false := by decide +kernel

/-- An anchor that ends inside another one has no value there. -/
theorem anchors_inside : ∀ entry ∈ secretAnchors, ∀ tail ∈ entry.1.tails, tail ≠ [] →
    ∀ other ∈ secretAnchors, other.1.isPrefixOf tail = true → other.1 ≠ tail →
      isProse (tail.drop other.1.length) = true := by decide +kernel

/-- The key in front of a value: an anchor and what separates the value from it. -/
theorem secretAt_header (h : secretAt cliKey (header ++ start) = some (kind, start)) :
    ∃ found seam, header = found ++ seam ∧ (lowered found, kind) ∈ secretAnchors ∧
      anchorAt (header ++ start) = some (lowered found, kind) ∧
      valueAfter cliKey (seam ++ start) = some start ∧ (∀ b ∈ seam, isSeamByte b = true) ∧
      ∃ b ∈ seam, isGapByte b = true := by
  obtain ⟨entry, hanchor, h⟩ := Option.bind_eq_some_iff.mp h
  obtain ⟨start', hstart, hpair⟩ := Option.map_eq_some_iff.mp h
  cases hpair
  obtain ⟨hmem, found, rest, hsplit, hfound⟩ := anchorAt_some hanchor
  have hentry : lowered found = entry.1 := hfound.trans (anchors_lowercase entry hmem)
  rw [hsplit, ← hentry, lowered_length, List.drop_left] at hstart
  obtain ⟨seam, rfl, hseam, hgap⟩ := valueAfter_seam hstart
  rw [← List.append_assoc] at hsplit
  refine ⟨found, seam, List.append_cancel_right hsplit, hentry ▸ hmem, hentry ▸ hanchor, hstart,
    hseam, hgap⟩

theorem lowered_ends {found : Bytes} (hmem : (lowered found, kind) ∈ secretAnchors) :
    (∀ b ∈ found.head?, isSeamByte b = false) ∧ ∀ b ∈ found.getLast?, isSeamByte b = false := by
  obtain ⟨hhead, hlast⟩ := anchor_ends _ hmem
  refine ⟨fun b hb => Bool.eq_false_iff.mpr fun hseam => ?_, fun b hb =>
    Bool.eq_false_iff.mpr fun hseam => ?_⟩
  · have hlower := isSeamByte_lowercase hseam
    rw [hhead _ (by rw [lowered, List.head?_map, Option.mem_def.mp hb]; rfl)] at hlower
    cases hlower
  · have hlower := isSeamByte_lowercase hseam
    rw [hlast _ (by rw [lowered, List.getLast?_map, Option.mem_def.mp hb]; rfl)] at hlower
    cases hlower

/-- A secret found inside a key is the one the key stands for. -/
theorem secretAt_within (h : secretAt cliKey (header ++ start) = some (kind, start))
    (halike : Alike start t) {c : UInt8} {r : Bytes} (hr : c :: r <:+ header)
    (hinner : secretAt d (c :: r ++ t) = some (other, start')) : other = kind ∧ start' = t := by
  obtain ⟨found, seam, rfl, hmem, -, hvalue, hseam, g, hg, hgap⟩ := secretAt_header h
  obtain ⟨header', hsplit, hne, -⟩ := secretAt_some hinner
  rw [hsplit] at hinner
  obtain ⟨found', seam', rfl, hmem', -, hvalue', hseam', -⟩ := secretAt_header hinner
  have hfound' : found' ≠ [] := fun hnil => by
    rw [hnil] at hmem'
    exact (anchor_bytes _ hmem').1 rfl
  obtain ⟨y, ys, rfl⟩ := List.exists_cons_of_ne_nil hfound'
  have hfirst := (lowered_ends hmem').1 y rfl
  rcases suffix_append hr with hr | ⟨x, xs, hx, heq⟩
  · rw [List.append_assoc] at hsplit
    have hc := hseam c (hr.subset List.mem_cons_self)
    rw [(List.cons.inj hsplit).1, hfirst] at hc
    cases hc
  rw [heq, List.append_assoc, List.append_assoc] at hsplit
  have hborder := gapByte_border hgap
  have hsame (hfound : x :: xs = y :: ys) : other = kind ∧ start' = t := by
    rw [hfound] at hsplit
    rw [← List.append_cancel_left hsplit] at hvalue'
    have hexchange := valueAfter_exchange hvalue halike
    rw [valueAfter_true hvalue'] at hexchange
    refine ⟨?_, Option.some.inj hexchange⟩
    obtain ⟨front, hfront⟩ := hx
    refine anchors_same_kind _ hmem _ hmem' ⟨lowered front, ?_⟩
    rw [← hfound, ← lowered_append, hfront]
  rcases List.append_eq_append_iff.mp hsplit with ⟨as, hlonger, hrest⟩ | ⟨as, hshorter, hrest⟩
  · cases as with
    | nil => exact hsame (by rw [hlonger, List.append_nil])
    | cons a as =>
      -- the anchor would end in the seam, or reach over its separator
      exfalso
      have hlast : ∀ b ∈ (a :: as).getLast?, isSeamByte b = false := fun b hb => by
        refine (lowered_ends hmem').2 b ?_
        rw [hlonger, List.getLast?_append_of_ne_nil _ (List.cons_ne_nil a as)]
        exact hb
      have hoverlap : g ∈ a :: as ∨ ∀ b ∈ a :: as, isSeamByte b = true := by
        rcases List.append_eq_append_iff.mp hrest with ⟨bs, has, -⟩ | ⟨bs, hbs, -⟩
        · exact .inl (has ▸ List.mem_append_left _ hg)
        · exact .inr fun b hb => hseam b (hbs ▸ List.mem_append_left _ hb)
      rcases hoverlap with hover | hends
      · refine hborder.1 _ hmem' ?_
        have hgmem : g ∈ y :: ys := hlonger ▸ List.mem_append_right _ hover
        rw [lowered_lowered]
        exact List.mem_map_of_mem hgmem
      · have hseamed := hends _ (List.getLast_mem (List.cons_ne_nil a as))
        rw [hlast _ (List.getLast?_eq_some_getLast _)] at hseamed
        cases hseamed
  · cases as with
    | nil => exact hsame (by rw [hshorter, List.append_nil])
    | cons a as =>
      exfalso
      obtain ⟨front, hfront⟩ := hx
      have htail : lowered (x :: xs) ∈ (lowered found).tails :=
        (List.mem_tails _ _).mpr ⟨lowered front, by rw [← lowered_append, hfront]⟩
      have hprose := anchors_inside _ hmem _ htail (by simp [lowered]) _ hmem'
        (List.isPrefixOf_iff_prefix.mpr ⟨lowered (a :: as), by rw [hshorter, lowered_append]⟩)
        (fun heq => by
          have hlength := congrArg List.length heq
          rw [lowered_length, lowered_length, hshorter, List.length_append] at hlength
          simp at hlength)
      rw [hshorter, lowered_append, List.drop_left] at hprose
      rw [hrest, valueAfter_prose (isProse_lowered hprose)] at hvalue'
      cases hvalue'

theorem Covert.refl (x : Bytes) : Covert x x := .inl rfl

theorem Covert.append_left (xs : Bytes) (h : Covert x y) : Covert (xs ++ x) (xs ++ y) := by
  rcases h with rfl | ⟨front, back, t, hx, hy, hborder⟩
  · exact .refl _
  · refine .inr ⟨xs ++ front, back, t, by rw [hx, List.append_assoc], by rw [hy, List.append_assoc],
      fun zs => ?_⟩
    rw [← List.append_assoc, hborder, List.append_assoc]

/-- Where nothing was found in a text, nothing is found in the covered text. -/
theorem Covert.secretAt (h : Covert x y) (hd : d = true → cliKey = true)
    (hnone : secretAt cliKey x = none) : secretAt d y = none := by
  have hmono (u : Bytes) (hu : valueAfter cliKey u = none) : valueAfter d u = none := by
    cases d with
    | true => rwa [hd rfl] at hu
    | false =>
      rcases valueAfter_cli u false with hnone | hsame
      · exact hnone
      · cases cliKey with
        | false => exact hu
        | true => rw [hsame, hu]
  rcases h with rfl | ⟨front, back, t, rfl, rfl, hborder⟩
  · rw [Fixtures.secretAt] at hnone ⊢
    cases hanchor : anchorAt x with
    | none => rfl
    | some entry =>
      rw [hanchor, Option.bind_some, Option.map_eq_none_iff] at hnone
      rw [Option.bind_some, hmono _ hnone]
      rfl
  · have hsame : anchorAt (front ++ back) = anchorAt front := hborder []
    rw [Fixtures.secretAt, hsame] at hnone
    rw [Fixtures.secretAt, anchorAt_stopper (by decide)]
    cases hanchor : anchorAt front with
    | none => rfl
    | some entry =>
      obtain ⟨-, found, rest, rfl, hfound⟩ := anchorAt_some hanchor
      have hlen : found.length = entry.1.length := by simpa using congrArg List.length hfound
      rw [hanchor, Option.bind_some, Option.map_eq_none_iff, ← hlen, List.append_assoc,
        List.drop_left] at hnone
      rw [Option.bind_some, Option.map_eq_none_iff, ← hlen, List.append_assoc, List.drop_left]
      by_contra hsome
      exact valueAfter_bracket hsome back (hmono _ hnone)

end Nigiri.Fixtures
