import Nigiri.JoinedKeyBlocks

/-! Text in which a bracket or a semicolon and then a space follow every anchor, as in diagnostics
that have been joined: no token value and no separator reaches its end. -/
namespace Nigiri.Fixtures
open Utf8 AsciiCase Rewrite

def HasGuard (t : Bytes) : Prop :=
  ∃ xs b ys, t = xs ++ b :: ys ∧ b ∈ ascii ";[" ∧ 32 ∈ ys

def Guarded (t : Bytes) : Prop :=
  ∀ c r, c :: r <:+ t → anchorAt (c :: r) ≠ none → HasGuard (c :: r)

theorem Guarded.suffix {t u : Bytes} (h : Guarded t) (hu : u <:+ t) : Guarded u :=
  fun c r hr => h c r (hr.trans hu)

theorem HasGuard.append_left {t : Bytes} (h : HasGuard t) (xs : Bytes) : HasGuard (xs ++ t) := by
  obtain ⟨ys, b, zs, rfl, hb, hspace⟩ := h
  exact ⟨xs ++ ys, b, zs, by rw [List.append_assoc], hb, hspace⟩

/-- The start of the joined text that is there before the addition's key. -/
def joinedFront (existing front : Bytes) : Bytes :=
  if existing.isEmpty then front else existing ++ ascii "; " ++ front

theorem anchorAt_nil : anchorAt [] = none := by decide

theorem anchorAt_first {b : UInt8}
    (hb : ∀ anchor ∈ secretAnchors, toAsciiLowercase b ∉ lowered anchor.1) (t : Bytes) :
    anchorAt (b :: t) = none := (anchorAt_border hb [] t).trans anchorAt_nil

/-- Bytes in and around what the redaction writes that no anchor has. -/
theorem marker_border (b : UInt8) (h : b ∈ ascii "; []*") :
    ∀ anchor ∈ secretAnchors, toAsciiLowercase b ∉ lowered anchor.1 := by
  have hall : ∀ b ∈ ascii "; []*", isAnchorByte (toAsciiLowercase b) = false := by decide
  exact anchor_border (hall b h)

theorem guarded_joinedFront {existing front : Bytes}
    (h : ∀ c r, c :: r <:+ front → anchorAt (c :: r) = none) :
    Guarded (joinedFront existing front) := by
  intro c r hr hanchor
  rw [joinedFront] at hr
  split at hr
  · exact absurd (h c r hr) hanchor
  · rw [List.append_assoc] at hr
    rcases suffix_append hr with hr | ⟨x, xs, -, heq⟩
    · rcases List.suffix_cons_iff.mp hr with heq | hr
      · rw [heq] at hanchor
        exact absurd (anchorAt_first (marker_border 59 (by decide)) _) hanchor
      · rcases List.suffix_cons_iff.mp hr with heq | hr
        · rw [heq] at hanchor
          exact absurd (anchorAt_first (marker_border 32 (by decide)) _) hanchor
        · exact absurd (h c r hr) hanchor
    · rw [heq]
      exact ⟨x :: xs, 59, 32 :: front, rfl, by decide, List.mem_cons_self⟩

theorem redaction_privateKey (n : Nat) : ∃ stars, redaction n redactedPrivateKey =
    91 :: (ascii "REDACTED::PRIVATE KEY" ++ 93 :: stars) ∧ ∀ b ∈ stars, b = 42 :=
  ⟨List.replicate (n - redactedPrivateKey.length) 42, rfl, fun _ hb => (List.mem_replicate.mp hb).2⟩

theorem space_scanKeyBlocks {t : Bytes} (h : 32 ∈ t) : 32 ∈ scanKeyBlocks t := by
  induction (), t using places_induction keyBlockStep with
  | nil => cases h
  | cons _ c r ih =>
    cases hblock : keyBlockAt (c :: r) with
    | none =>
      rw [keyBlockStep_none hblock, List.drop_zero] at ih
      rw [scanKeyBlocks_copy hblock]
      exact (List.mem_cons.mp h).elim (fun hc => hc ▸ List.mem_cons_self)
        fun hr => List.mem_cons_of_mem c (ih hr)
    | some block =>
      rw [scanKeyBlocks_block hblock]
      exact List.mem_append_left _ (List.mem_append_left _ (by decide))

theorem hasGuard_scanKeyBlocks {t : Bytes} (h : HasGuard t) : HasGuard (scanKeyBlocks t) := by
  induction (), t using places_induction keyBlockStep with
  | nil =>
    obtain ⟨xs, b, ys, hnil, -⟩ := h
    simp at hnil
  | cons _ c r ih =>
    cases hblock : keyBlockAt (c :: r) with
    | none =>
      rw [keyBlockStep_none hblock, List.drop_zero] at ih
      rw [scanKeyBlocks_copy hblock]
      obtain ⟨xs, b, ys, hsplit, hb, hspace⟩ := h
      cases xs with
      | nil =>
        obtain ⟨rfl, rfl⟩ := List.cons.inj hsplit
        exact ⟨[], c, scanKeyBlocks r, rfl, hb, space_scanKeyBlocks hspace⟩
      | cons x xs =>
        obtain ⟨-, hr⟩ := List.cons.inj hsplit
        exact (ih ⟨xs, b, ys, hr, hb, hspace⟩).append_left [c]
    | some block =>
      obtain ⟨stars, hstars, -⟩ := redaction_privateKey
        ((c :: r).length - ((afterBlock block.1 block.2).getD []).length)
      rw [scanKeyBlocks_block hblock, hstars]
      exact ⟨[], 91, _, rfl, by decide,
        List.mem_append_left _ (List.mem_append_left _ (by decide))⟩

/-- Up to the first mask the scan leaves the text as it is. -/
theorem scanKeyBlocks_common (t : Bytes) : ∃ xs ys zs, t = xs ++ ys ∧ scanKeyBlocks t = xs ++ zs ∧
    ∀ b ∈ zs.head?, b = 91 := by
  induction (), t using places_induction keyBlockStep with
  | nil => exact ⟨[], [], [], rfl, rfl, by simp⟩
  | cons _ c r ih =>
    cases hblock : keyBlockAt (c :: r) with
    | none =>
      rw [keyBlockStep_none hblock, List.drop_zero] at ih
      obtain ⟨xs, ys, zs, hr, hscan, hzs⟩ := ih
      exact ⟨c :: xs, ys, zs, by rw [hr]; rfl, by rw [scanKeyBlocks_copy hblock, hscan]; rfl, hzs⟩
    | some block =>
      obtain ⟨stars, hstars, -⟩ := redaction_privateKey
        ((c :: r).length - ((afterBlock block.1 block.2).getD []).length)
      refine ⟨[], c :: r, scanKeyBlocks (c :: r), rfl, rfl, fun b hb => ?_⟩
      rw [scanKeyBlocks_block hblock, hstars] at hb
      exact (Option.some.inj hb).symm

theorem anchorAt_append {xs : Bytes} (h : anchorAt xs ≠ none) (ys : Bytes) :
    anchorAt (xs ++ ys) ≠ none := by
  intro hnone
  refine h (List.find?_eq_none.mpr fun anchor ha hstart => ?_)
  exact List.find?_eq_none.mp hnone anchor ha (startsIgnoreAsciiCase_append hstart ys)

theorem anchorAt_scanKeyBlocks {c : UInt8} {r : Bytes}
    (h : anchorAt (c :: scanKeyBlocks r) ≠ none) : anchorAt (c :: r) ≠ none := by
  obtain ⟨xs, ys, zs, hr, hscan, hzs⟩ := scanKeyBlocks_common r
  have hxs : anchorAt (c :: xs) ≠ none := by
    rw [hscan, ← List.cons_append] at h
    cases zs with
    | nil => rwa [List.append_nil] at h
    | cons z zs =>
      rw [hzs z rfl, anchorAt_border (marker_border 91 (by decide))] at h
      exact h
  rw [hr]
  exact anchorAt_append hxs ys

/-- No anchor begins in a marker or in the stars behind it. -/
theorem anchorAt_marker {front stars : Bytes} (hfront : ∀ u ∈ front.tails, anchorAt u = none)
    (hstars : ∀ b ∈ stars, b = 42) {c : UInt8} {r : Bytes} (hr : c :: r <:+ front ++ 93 :: stars)
    (t : Bytes) : anchorAt (c :: r ++ t) = none := by
  rcases suffix_append hr with hr | ⟨x, xs, hxs, heq⟩
  · rcases List.suffix_cons_iff.mp hr with heq | hr
    · rw [heq]
      exact anchorAt_first (marker_border 93 (by decide)) _
    · rw [hstars c (hr.subset List.mem_cons_self)]
      exact anchorAt_first (marker_border 42 (by decide)) _
  · have hborder := anchorAt_border (marker_border 93 (by decide)) (x :: xs) (stars ++ t)
    rw [heq, List.append_assoc]
    exact hborder.trans (hfront _ ((List.mem_tails _ _).mpr hxs))

theorem anchorAt_mask (n : Nat) {c : UInt8} {r : Bytes}
    (hr : c :: r <:+ redaction n redactedPrivateKey) (t : Bytes) :
    anchorAt (c :: r ++ t) = none := by
  obtain ⟨stars, hstars, hstar⟩ := redaction_privateKey n
  rw [hstars, ← List.cons_append] at hr
  exact anchorAt_marker (by decide +kernel) hstar hr t

theorem guarded_scanKeyBlocks {t : Bytes} (h : Guarded t) : Guarded (scanKeyBlocks t) := by
  induction (), t using places_induction keyBlockStep with
  | nil => exact h
  | cons _ c r ih =>
    cases hblock : keyBlockAt (c :: r) with
    | none =>
      rw [keyBlockStep_none hblock, List.drop_zero] at ih
      intro c' r' hr hanchor
      have hscan := scanKeyBlocks_copy hblock
      rw [hscan] at hr
      rcases List.suffix_cons_iff.mp hr with heq | hr
      · rw [heq] at hanchor ⊢
        rw [← hscan]
        exact hasGuard_scanKeyBlocks (h c r List.suffix_rfl (anchorAt_scanKeyBlocks hanchor))
      · exact ih (h.suffix (List.suffix_cons c r)) c' r' hr hanchor
    | some block =>
      rw [keyBlockStep_drop hblock] at ih
      intro c' r' hr hanchor
      rw [scanKeyBlocks_block hblock] at hr
      rcases suffix_append hr with hr | ⟨x, xs, hxs, heq⟩
      · refine ih (h.suffix ?_) c' r' hr hanchor
        rw [← drop_afterBlock hblock]
        exact (List.drop_suffix _ _).trans (List.suffix_cons c r)
      · rw [heq, anchorAt_mask _ hxs] at hanchor
        exact absurd rfl hanchor

end Nigiri.Fixtures
