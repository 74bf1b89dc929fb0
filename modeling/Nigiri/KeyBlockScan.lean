import Nigiri.AnchoredRefinement

/-! The scan for private key blocks as a rewriting: a block is found, or not, at each byte. On
text the code's search for markers performs it, whatever blocks it steps over. -/
namespace Nigiri.Fixtures
open Utf8 AsciiCase Rewrite

/-- The label and the body of the private key block that starts a text. -/
def keyBlockAt (text : Bytes) : Option (Bytes × Bytes) :=
  if startsIgnoreAsciiCase beginMarker text then
    let labelStart := text.drop beginMarker.length
    (find labelStart dashes).bind fun n =>
      let label := labelStart.take n
      if isPrivateKeyLabel label then some (label, (labelStart.drop n).drop dashes.length) else none
  else none

/-- What is left behind a block, unless its end marker is missing. -/
def afterBlock (label body : Bytes) : Option Bytes :=
  (findAsciiCaseInsensitive body (endMarker label)).map fun stop =>
    body.drop (stop + (endMarker label).length)

def keyBlockStep : Step UInt8 Unit := fun _ c r =>
  match keyBlockAt (c :: r) with
  | none => ⟨[c], 0, ()⟩
  | some (label, body) =>
    let blockEnd := (afterBlock label body).getD []
    ⟨redaction ((c :: r).length - blockEnd.length) redactedPrivateKey,
      r.length - blockEnd.length, ()⟩

def scanKeyBlocks (text : Bytes) : Bytes := rewrite keyBlockStep () text

theorem scanKeyBlocks_copy {c : UInt8} {r : Bytes} (h : keyBlockAt (c :: r) = none) :
    scanKeyBlocks (c :: r) = c :: scanKeyBlocks r := by
  rw [scanKeyBlocks, rewrite_cons, keyBlockStep, h]
  rfl

theorem tracks_keyBlock : Tracks keyBlockStep fun _ _ => () := fun _ _ _ => rfl

/-- A stretch in which no private key block starts is copied. -/
theorem scanKeyBlocks_skip (xs t : Bytes)
    (h : ∀ c r, c :: r <:+ xs → keyBlockAt (c :: r ++ t) = none) :
    scanKeyBlocks (xs ++ t) = xs ++ scanKeyBlocks t := by
  rw [scanKeyBlocks, rewrite_copy tracks_keyBlock]
  · rfl
  · intro _ c r hr
    rw [keyBlockStep, ← List.cons_append, h c r hr]
    exact ⟨rfl, rfl⟩

theorem find_dashes {t : Bytes} {n : Nat} (h : find t dashes = some n) :
    ∃ label body, t = label ++ (dashes ++ body) ∧ label.length = n ∧
      ∀ c r, c :: r <:+ label → dashes.isPrefixOf (c :: r ++ (dashes ++ body)) = false := by
  obtain ⟨xs, u, ht, hlen, -, hu, hbefore⟩ := position_some h
  obtain ⟨body, rfl⟩ := List.isPrefixOf_iff_prefix.mp hu
  exact ⟨xs, body, ht, hlen, hbefore⟩

theorem keyBlockAt_eq_none {t : Bytes} (h : startsIgnoreAsciiCase beginMarker t = false) :
    keyBlockAt t = none := by
  rw [keyBlockAt, h]
  rfl

theorem keyBlockAt_begin {found : Bytes} (h : lowered found = lowered beginMarker)
    (labelStart : Bytes) : keyBlockAt (found ++ labelStart) =
      (find labelStart dashes).bind fun n =>
        if isPrivateKeyLabel (labelStart.take n) then
          some (labelStart.take n, (labelStart.drop n).drop dashes.length)
        else none := by
  have hstart : startsIgnoreAsciiCase beginMarker (found ++ labelStart) = true :=
    startsIgnoreAsciiCase_iff.mpr ⟨found, labelStart, rfl, h⟩
  have hlen : found.length = beginMarker.length := by simpa using congrArg List.length h
  rw [keyBlockAt, if_pos hstart, ← hlen, List.drop_left]

theorem keyBlockAt_some {t label body : Bytes} (h : keyBlockAt t = some (label, body)) :
    ∃ found, t = found ++ (label ++ (dashes ++ body)) ∧ lowered found = lowered beginMarker ∧
      isPrivateKeyLabel label = true ∧
      ∀ c r, c :: r <:+ label → dashes.isPrefixOf (c :: r ++ (dashes ++ body)) = false := by
  cases hbegin : startsIgnoreAsciiCase beginMarker t with
  | false =>
    rw [keyBlockAt_eq_none hbegin] at h
    cases h
  | true =>
    obtain ⟨found, labelStart, rfl, hfound⟩ := startsIgnoreAsciiCase_iff.mp hbegin
    rw [keyBlockAt_begin hfound] at h
    obtain ⟨n, hn, h⟩ := Option.bind_eq_some_iff.mp h
    obtain ⟨label', body', rfl, rfl, hbefore⟩ := find_dashes hn
    rw [List.take_left, List.drop_left, List.drop_left] at h
    split at h
    · next hprivate =>
      cases h
      exact ⟨found, rfl, hfound, hprivate, hbefore⟩
    · cases h

theorem afterBlock_some {label body t : Bytes} (h : afterBlock label body = some t) :
    ∃ block found, body = block ++ (found ++ t) ∧ lowered found = lowered (endMarker label) := by
  obtain ⟨stop, hstop, rfl⟩ := Option.map_eq_some_iff.mp h
  obtain ⟨xs, u, rfl, rfl, -, hu, -⟩ := position_some hstop
  obtain ⟨found, rest, rfl, hfound⟩ := startsIgnoreAsciiCase_iff.mp hu
  have hlen : found.length = (endMarker label).length := by
    simpa using congrArg List.length hfound
  refine ⟨xs, found, ?_, hfound⟩
  rw [← List.drop_drop, List.drop_left, ← hlen, List.drop_left]

theorem afterBlock_suffix (label body : Bytes) : (afterBlock label body).getD [] <:+ body := by
  cases h : afterBlock label body with
  | none => exact List.nil_suffix
  | some t =>
    obtain ⟨block, found, rfl, -⟩ := afterBlock_some h
    exact ⟨block ++ found, by simp⟩

theorem drop_afterBlock {c : UInt8} {r label body : Bytes}
    (h : keyBlockAt (c :: r) = some (label, body)) :
    r.drop (r.length - ((afterBlock label body).getD []).length) =
      (afterBlock label body).getD [] := by
  obtain ⟨found, hsplit, hfound, -⟩ := keyBlockAt_some h
  cases found with
  | nil => cases hfound
  | cons x xs =>
    obtain ⟨-, hr⟩ := List.cons.inj hsplit
    refine (List.suffix_iff_eq_drop.mp ?_).symm
    refine (afterBlock_suffix label body).trans ⟨xs ++ (label ++ dashes), ?_⟩
    rw [hr, List.append_assoc, List.append_assoc]
    rfl

/-- A block is masked as a whole, and the scan goes on behind it. -/
theorem scanKeyBlocks_block {t label body : Bytes} (h : keyBlockAt t = some (label, body)) :
    scanKeyBlocks t =
      redaction (t.length - ((afterBlock label body).getD []).length) redactedPrivateKey ++
        scanKeyBlocks ((afterBlock label body).getD []) := by
  cases t with
  | nil => cases h
  | cons c r =>
    rw [scanKeyBlocks, rewrite_cons, keyBlockStep, h]
    simp only
    rw [drop_afterBlock h]
    rfl

/-- A marker cannot start inside another one. -/
theorem beginMarker_within {found : Bytes} (h : lowered found = lowered beginMarker) {c : UInt8}
    {r : Bytes} (hr : c :: r <:+ found) (hne : c :: r ≠ found) (t : Bytes) :
    startsIgnoreAsciiCase beginMarker (c :: r ++ t) = false := by
  have hborder : ∀ u ∈ (lowered beginMarker).tails, u ≠ [] → u ≠ lowered beginMarker →
      ¬ u <+: lowered beginMarker := by decide
  rw [Bool.eq_false_iff, Ne, startsIgnoreAsciiCase_iff_lowered, lowered_append]
  intro hstarts
  have hsuffix : lowered (c :: r) <:+ lowered beginMarker := h ▸ hr.map toAsciiLowercase
  have hlen : (lowered (c :: r)).length ≤ (lowered beginMarker).length := hsuffix.length_le
  refine hborder (lowered (c :: r)) ((List.mem_tails _ _).mpr hsuffix) ?_ ?_
    (List.prefix_of_prefix_length_le (List.prefix_append _ _) hstarts hlen)
  · exact List.cons_ne_nil _ _
  · intro heq
    refine hne (hr.eq_of_length ?_)
    rw [← lowered_length (c :: r), heq, ← h, lowered_length]

theorem starts_dashes {t : Bytes} (h : startsIgnoreAsciiCase beginMarker t = true) :
    dashes.isPrefixOf t = true := by
  obtain ⟨found, rest, rfl, hfound⟩ := startsIgnoreAsciiCase_iff.mp h
  have hsplit : lowered beginMarker = dashes ++ lowered (ascii "BEGIN ") := by decide
  rw [hsplit] at hfound
  obtain ⟨front, back, rfl, hfront, -⟩ := List.map_eq_append_iff.mp hfound
  rw [eq_of_lowered hfront (by decide), List.append_assoc]
  exact List.isPrefixOf_iff_prefix.mpr (List.prefix_append _ _)

/-- No marker starts behind one and before the dashes that end its label. -/
theorem beginMarker_in_label {found label t : Bytes} (hfound : lowered found = lowered beginMarker)
    (hlabel : ∀ c r, c :: r <:+ label → dashes.isPrefixOf (c :: r ++ t) = false) {c : UInt8}
    {r : Bytes} (hr : c :: r <:+ found ++ label) (hne : c :: r ≠ found ++ label) :
    startsIgnoreAsciiCase beginMarker (c :: r ++ t) = false := by
  rcases suffix_append hr with hr | ⟨x, xs, hxs, heq⟩
  · rw [Bool.eq_false_iff]
    intro hbegin
    exact Bool.false_ne_true ((hlabel c r hr).symm.trans (starts_dashes hbegin))
  · rw [heq, List.append_assoc]
    exact beginMarker_within hfound hxs (fun h => hne (by rw [heq, h])) _

/-- A marker that starts no private key block is copied with its label. -/
theorem scanKeyBlocks_label {found label t : Bytes} (hfound : lowered found = lowered beginMarker)
    (hlabel : ∀ c r, c :: r <:+ label → dashes.isPrefixOf (c :: r ++ t) = false)
    (hnone : keyBlockAt (found ++ (label ++ t)) = none) :
    scanKeyBlocks (found ++ (label ++ t)) = found ++ label ++ scanKeyBlocks t := by
  rw [← List.append_assoc] at hnone ⊢
  refine scanKeyBlocks_skip (found ++ label) t fun c r hr => ?_
  by_cases hwhole : c :: r = found ++ label
  · rw [hwhole, hnone]
  · exact keyBlockAt_eq_none (beginMarker_in_label hfound hlabel hr hwhole)

theorem isAscii_beginMarker {found : Bytes} (h : lowered found = lowered beginMarker) :
    ∀ b ∈ found, isAscii b = true := isAscii_of_lowered h (by decide)

/-- Text in which dashes stand is text before, between and behind them. -/
theorem isText_dashes {xs t : Bytes} (h : IsText (xs ++ (dashes ++ t))) :
    IsText xs ∧ IsText (dashes ++ t) ∧ IsText t := by
  have hdashes : ∀ b ∈ dashes, isAscii b = true := by decide
  have hxs : IsText xs := (@IsText.split xs (ascii "----" ++ t) 45 (by decide) h).1
  have ht : IsText t := by
    refine (@IsText.split (xs ++ ascii "----") t 45 (by decide) ?_).2
    rw [List.append_assoc]
    exact h
  exact ⟨hxs, (isText_ascii hdashes).append ht, ht⟩

theorem isText_afterBlock {label body : Bytes} (h : IsText body) :
    IsText ((afterBlock label body).getD []) := by
  cases hafter : afterBlock label body with
  | none => exact isText_nil
  | some t =>
    obtain ⟨block, found, rfl, hfound⟩ := afterBlock_some hafter
    rw [endMarker, lowered_append] at hfound
    obtain ⟨front, back, rfl, -, hback⟩ := List.map_eq_append_iff.mp hfound
    obtain rfl : back = dashes := eq_of_lowered hback (by decide)
    rw [List.append_assoc, ← List.append_assoc] at h
    exact (isText_dashes h).2.2

theorem isText_scanKeyBlocks {t : Bytes} (h : IsText t) : IsText (scanKeyBlocks t) := by
  refine rewrite_isText (fun _ b r hb => ?_) (fun _ b r hb hr => ?_) () h
  · have hnone : keyBlockAt (b :: r) = none := by
      refine keyBlockAt_eq_none (Bool.eq_false_iff.mpr fun hbegin => ?_)
      obtain ⟨found, rest, hsplit, hfound⟩ := startsIgnoreAsciiCase_iff.mp hbegin
      cases found with
      | nil => cases hfound
      | cons x xs =>
        have hx := isAscii_beginMarker hfound x List.mem_cons_self
        rw [← (List.cons.inj hsplit).1, hb] at hx
        cases hx
    rw [keyBlockStep, hnone]
  · have hbtext : IsText [b] := isText_ascii (List.forall_mem_singleton.mpr hb)
    cases hblock : keyBlockAt (b :: r) with
    | none =>
      rw [keyBlockStep, hblock]
      exact ⟨hbtext, hr⟩
    | some p =>
      obtain ⟨label, body⟩ := p
      obtain ⟨found, hsplit, hfound, -⟩ := keyBlockAt_some hblock
      have hrest : IsText (label ++ (dashes ++ body)) :=
        (hsplit ▸ hbtext.append hr : IsText (found ++ _)).drop_ascii (isAscii_beginMarker hfound)
      rw [keyBlockStep, hblock]
      simp only
      rw [drop_afterBlock hblock]
      exact ⟨isText_redaction _ (by decide), isText_afterBlock (isText_dashes hrest).2.2⟩

theorem redactPrivateKeyFrom_eq (fuel : Nat) (cursor output : Bytes) (h : IsText cursor)
    (hfuel : cursor.length < fuel) :
    redactPrivateKeyFrom fuel cursor output = some (output ++ scanKeyBlocks cursor) := by
  induction fuel generalizing cursor output with
  | zero => exact absurd hfuel (Nat.not_lt_zero _)
  | succ fuel ih =>
    have hall : slice cursor [] = some cursor := by
      simpa using @slice_of_isText cursor [] (by simpa using h) isText_nil
    rw [redactPrivateKeyFrom]
    cases hbegin : findAsciiCaseInsensitive cursor beginMarker with
    | none =>
      have hscan := scanKeyBlocks_skip cursor [] fun c r hr => by
        rw [List.append_nil]
        exact keyBlockAt_eq_none (position_none hbegin c r hr)
      rw [List.append_nil] at hscan
      rw [hall, hscan]
      simp [scanKeyBlocks]
    | some begin =>
      obtain ⟨front, block, hsplit, rfl, -, hstart, hbefore⟩ := position_some hbegin
      obtain ⟨found, labelStart, rfl, hfound⟩ := startsIgnoreAsciiCase_iff.mp hstart
      have hlen : found.length = beginMarker.length := by
        simpa using congrArg List.length hfound
      have hpos : 0 < beginMarker.length := by decide
      have hblockStart : cursor.drop front.length = found ++ labelStart := by
        rw [hsplit, List.drop_left]
      have hfront : scanKeyBlocks cursor = front ++ scanKeyBlocks (found ++ labelStart) := by
        rw [hsplit]
        exact scanKeyBlocks_skip _ _ fun c r hr => keyBlockAt_eq_none (hbefore c r hr)
      have hblockText : IsText front ∧ IsText (found ++ labelStart) := by
        obtain ⟨t, ht⟩ := List.isPrefixOf_iff_prefix.mp (starts_dashes hstart)
        rw [hsplit, ← ht] at h
        exact ⟨(isText_dashes h).1, ht ▸ (isText_dashes h).2.1⟩
      have hlabelStart : IsText labelStart :=
        hblockText.2.drop_ascii (isAscii_beginMarker hfound)
      have hlabelSlice : slice labelStart [] = some labelStart := by
        simpa using @slice_of_isText labelStart [] (by simpa using hlabelStart) isText_nil
      have hkeyBlock := keyBlockAt_begin hfound labelStart
      simp only [hblockStart]
      rw [← hlen, List.drop_left, hlabelSlice, hfront]
      simp only [Option.bind_eq_bind, Option.bind_some]
      cases hdashes : find labelStart dashes with
      | none =>
        -- the code stops searching here; no marker can follow, for it would bring the dashes
        have hscan := @scanKeyBlocks_label found labelStart [] hfound
          (fun c r hr => by simpa using position_none hdashes c r hr)
          (by rw [List.append_nil, hkeyBlock, hdashes]; rfl)
        rw [List.append_nil] at hscan
        simp only
        rw [hall, hscan, hsplit]
        simp [scanKeyBlocks]
      | some n =>
        obtain ⟨label, body, rfl, rfl, hlabel⟩ := find_dashes hdashes
        rw [hdashes, Option.bind_some, List.take_left, List.drop_left, List.drop_left]
          at hkeyBlock
        obtain ⟨hlabelText, hlabelEnd, hbody⟩ := isText_dashes hlabelStart
        have hfoundText : IsText found := isText_ascii (isAscii_beginMarker hfound)
        simp only [List.drop_left, slice_of_isText hlabelStart hlabelEnd, Option.bind_some]
        cases hprivate : isPrivateKeyLabel label with
        | false =>
          rw [hprivate, if_neg Bool.false_ne_true] at hkeyBlock
          have hcursor : cursor = (front ++ (found ++ label)) ++ (dashes ++ body) := by
            rw [hsplit]
            simp only [List.append_assoc]
          have hslice : slice cursor (dashes ++ body) = some (front ++ (found ++ label)) := by
            rw [hcursor] at h ⊢
            exact slice_of_isText h hlabelEnd
          have hshort : (dashes ++ body).length < fuel := by
            rw [hcursor, List.length_append, List.length_append, List.length_append] at hfuel
            omega
          rw [scanKeyBlocks_label hfound hlabel hkeyBlock, hslice]
          simp only [Bool.not_false, if_true, Option.bind_some]
          rw [ih _ _ hlabelEnd hshort]
          simp only [List.append_assoc]
        | true =>
          rw [hprivate, if_pos rfl] at hkeyBlock
          have hslice : slice cursor (found ++ (label ++ (dashes ++ body))) = some front := by
            rw [hsplit] at h ⊢
            exact slice_of_isText h hblockText.2
          have hend : ((findAsciiCaseInsensitive body (endMarker label)).map fun stop =>
              body.drop (stop + (endMarker label).length)) = afterBlock label body := rfl
          have hshort : ((afterBlock label body).getD []).length < fuel := by
            have hsuffix := (afterBlock_suffix label body).length_le
            rw [hsplit, List.length_append, List.length_append, List.length_append,
              List.length_append] at hfuel
            omega
          rw [scanKeyBlocks_block hkeyBlock, hslice]
          simp only [Bool.not_true, Bool.false_eq_true, if_false, Option.bind_some, hend]
          rw [ih _ _ (isText_afterBlock hbody) hshort]
          simp only [List.append_assoc]

theorem redactPrivateKeyBlocks_eq {value : Bytes} (h : IsText value) :
    redactPrivateKeyBlocks value = some (scanKeyBlocks value) := by
  rw [redactPrivateKeyBlocks, redactPrivateKeyFrom_eq _ _ _ h (Nat.lt_succ_self _),
    List.nil_append]

end Nigiri.Fixtures
