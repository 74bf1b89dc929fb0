import Mathlib.Data.List.Find
import Nigiri.Diagnostics

/-! What stands between a secret's key and its value, and how far ahead one has to look for it. -/
namespace Nigiri.Fixtures
open Utf8 AsciiCase Rewrite

/-- Where the value behind an anchor starts, when a separator follows the anchor. -/
def valueAfter (cliKey : Bool) (afterAnchor : Bytes) : Option Bytes :=
  let whitespaceStart := dropQuote (dropHexSuffix afterAnchor)
  let cursor := skipSeparatorBlanks whitespaceStart
  if cursor.head?.any isDelimiter then some (dropQuote ((cursor.drop 1).dropWhile isBlank))
  else if cursor.length = whitespaceStart.length then none
  else if cliKey || isNumeric cursor then some (dropQuote (cursor.dropWhile isBlank))
  else none

/-- Bytes a key and its separator can be made of. -/
def isHeaderByte (b : UInt8) : Bool := isAscii b && !isNewline b

/-- Bytes that end a key and its separator wherever they stand. -/
def stoppers : Bytes := ascii "\r\n;["

/-- A part of the text is skipped that only has header bytes, and none behind a stopper. -/
structure Cursor (f : Bytes → Bytes) : Prop where
  skips : ∀ t, ∃ xs, t = xs ++ f t ∧ ∀ x ∈ xs, isHeaderByte x = true
  stops : ∀ b ∈ stoppers, ∀ xs, ∃ ys, ∀ t, f (xs ++ b :: t) = ys ++ b :: t

theorem Cursor.comp {f g : Bytes → Bytes} (hg : Cursor g) (hf : Cursor f) :
    Cursor fun t => g (f t) where
  skips t := by
    obtain ⟨xs, hxs, hx⟩ := hf.skips t
    obtain ⟨ys, hys, hy⟩ := hg.skips (f t)
    refine ⟨xs ++ ys, by rw [List.append_assoc, ← hys, ← hxs], fun b hb => ?_⟩
    exact (List.mem_append.mp hb).elim (hx b) (hy b)
  stops b hb xs := by
    obtain ⟨ys, hys⟩ := hf.stops b hb xs
    obtain ⟨zs, hzs⟩ := hg.stops b hb ys
    exact ⟨zs, fun t => by rw [hys, hzs]⟩

theorem cursor_dropWhile {p : UInt8 → Bool} (hp : ∀ b, p b = true → isHeaderByte b = true)
    (hstop : ∀ b ∈ stoppers, p b = false) : Cursor fun t => t.dropWhile p where
  skips t := ⟨t.takeWhile p, List.takeWhile_append_dropWhile.symm,
    fun b hb => hp b (List.mem_takeWhile_imp hb)⟩
  stops b hb xs := by
    induction xs with
    | nil => exact ⟨[], fun t => by simp [hstop b hb]⟩
    | cons x xs ih =>
      by_cases hx : p x = true
      · obtain ⟨ys, hys⟩ := ih
        exact ⟨ys, fun t => by simpa [hx] using hys t⟩
      · exact ⟨x :: xs, fun t => by simp [hx]⟩

theorem cursor_skipSeparatorBlanks : Cursor skipSeparatorBlanks := by
  refine cursor_dropWhile (fun b hb => ?_) (by decide)
  simp only [isAsciiWhitespace, isNewline, Bool.and_eq_true, Bool.or_eq_true, beq_iff_eq] at hb
  obtain ⟨(((rfl | rfl) | rfl) | rfl) | rfl, hb⟩ := hb <;> first | rfl | cases hb

theorem cursor_dropBlanks : Cursor fun t => t.dropWhile isBlank := by
  refine cursor_dropWhile (fun b hb => ?_) (by decide)
  simp only [isBlank, Bool.or_eq_true, beq_iff_eq] at hb
  obtain rfl | rfl := hb <;> rfl

theorem cursor_dropQuote : Cursor dropQuote where
  skips t := by
    cases t with
    | nil => exact ⟨[], rfl, by simp⟩
    | cons b r =>
      rw [dropQuote]
      split
      · next hb =>
        refine ⟨[b], rfl, List.forall_mem_singleton.mpr ?_⟩
        simp only [isQuote, Bool.or_eq_true, beq_iff_eq] at hb
        obtain rfl | rfl := hb <;> rfl
      · exact ⟨[], rfl, by simp⟩
  stops b hb xs := by
    have hquote : ∀ b ∈ stoppers, isQuote b = false := by decide
    cases xs with
    | nil => exact ⟨[], fun t => by simp [dropQuote, hquote b hb]⟩
    | cons x xs =>
      by_cases hx : isQuote x = true
      · exact ⟨xs, fun t => by simp [dropQuote, hx]⟩
      · exact ⟨x :: xs, fun t => by simp [dropQuote, hx]⟩

theorem hexSuffix_bytes : ∀ suffix ∈ hexSuffixes,
    (∀ b ∈ lowered suffix, isHeaderByte b = true) ∧
      ∀ b ∈ stoppers, toAsciiLowercase b ∉ lowered suffix := by decide

theorem isHeaderByte_lowercase (b : UInt8) :
    isHeaderByte (toAsciiLowercase b) = isHeaderByte b := by
  have h (c : UInt8) (hc : c.toNat < 65) : (toAsciiLowercase b == c) = (b == c) := by
    rw [Bool.eq_iff_iff, beq_iff_eq, beq_iff_eq]
    exact lowercase_eq_iff (.inl hc)
  rw [isHeaderByte, isHeaderByte, isAscii_lowercase, isNewline, isNewline, h 13 (by decide),
    h 10 (by decide)]

theorem headerBytes_of_lowered {as bs : Bytes} (h : lowered as = lowered bs)
    (hbs : ∀ b ∈ lowered bs, isHeaderByte b = true) : ∀ a ∈ as, isHeaderByte a = true := by
  intro a ha
  rw [← isHeaderByte_lowercase]
  exact hbs _ (h ▸ List.mem_map_of_mem ha)

theorem cursor_dropHexSuffix : Cursor dropHexSuffix where
  skips t := by
    rw [dropHexSuffix]
    split
    · next suffix hfind =>
      have hstart : startsIgnoreAsciiCase suffix t = true := by simpa using List.find?_some hfind
      obtain ⟨found, rest, rfl, hfound⟩ := startsIgnoreAsciiCase_iff.mp hstart
      have hlen : found.length = suffix.length := by simpa using congrArg List.length hfound
      refine ⟨found, by rw [← hlen, List.drop_left], ?_⟩
      have hsuffix := hexSuffix_bytes suffix (List.mem_of_find?_eq_some hfind)
      exact headerBytes_of_lowered hfound hsuffix.1
    · exact ⟨[], rfl, by simp⟩
  stops b hb xs := by
    have hfind (t : Bytes) : (hexSuffixes.find? fun s => startsIgnoreAsciiCase s (xs ++ b :: t)) =
        hexSuffixes.find? fun s => startsIgnoreAsciiCase s xs := by
      refine List.find?_congr fun s hs => ?_
      exact inert_of_notMem ((hexSuffix_bytes s hs).2 b hb) t xs
    cases hxs : hexSuffixes.find? fun s => startsIgnoreAsciiCase s xs with
    | none => exact ⟨xs, fun t => by rw [dropHexSuffix, hfind, hxs]⟩
    | some suffix =>
      have hstart : startsIgnoreAsciiCase suffix xs = true := by simpa using List.find?_some hxs
      obtain ⟨found, rest, rfl, hfound⟩ := startsIgnoreAsciiCase_iff.mp hstart
      have hlen : found.length = suffix.length := by simpa using congrArg List.length hfound
      refine ⟨rest, fun t => ?_⟩
      simp only [dropHexSuffix, hfind, hxs]
      rw [← hlen, List.append_assoc, List.drop_left]

theorem isNumeric_stopper {b : UInt8} (hb : b ∈ stoppers) (xs t : Bytes) :
    isNumeric (xs ++ b :: t) = isNumeric (xs ++ [b]) := by
  have hdigit : ∀ b ∈ stoppers, isAsciiDigit b = false := by decide
  unfold isNumeric
  induction xs with
  | nil =>
    cases h : isAsciiWhitespace b <;> simp [h, hdigit b hb]
  | cons x xs ih =>
    cases h : isAsciiWhitespace x
    · simp only [List.cons_append, List.takeWhile_cons, h, Bool.not_false, if_true, List.all_cons,
        ih]
    · simp [h]

/-- A value is sought in the part before a stopper only. -/
theorem valueAfter_stopper {b : UInt8} (hb : b ∈ stoppers) (cliKey : Bool) (xs : Bytes) :
    ∃ o : Option Bytes, ∀ t, valueAfter cliKey (xs ++ b :: t) = o.map (· ++ b :: t) := by
  have hdelim : ∀ b ∈ stoppers, isDelimiter b = false := by decide
  obtain ⟨ys, hys⟩ := (cursor_dropQuote.comp cursor_dropHexSuffix).stops b hb xs
  obtain ⟨zs, hzs⟩ := cursor_skipSeparatorBlanks.stops b hb ys
  have hvalue := cursor_dropQuote.comp cursor_dropBlanks
  simp only [valueAfter, hys, hzs]
  cases hhead : (zs.head?.any isDelimiter)
  · have hnone (t : Bytes) : ((zs ++ b :: t).head?.any isDelimiter) = false := by
      cases zs with
      | nil => exact hdelim b hb
      | cons z zs => exact hhead
    obtain ⟨vs, hvs⟩ := hvalue.stops b hb zs
    refine ⟨if zs.length = ys.length then none
      else if cliKey || isNumeric (zs ++ [b]) then some vs else none, fun t => ?_⟩
    have hlen : (zs ++ b :: t).length = (ys ++ b :: t).length ↔ zs.length = ys.length := by
      simp
    simp only [hnone t, Bool.false_eq_true, if_false, hlen, isNumeric_stopper hb zs t, hvs t]
    split
    · rfl
    · split <;> rfl
  · cases zs with
    | nil => cases hhead
    | cons z zs =>
      obtain ⟨vs, hvs⟩ := hvalue.stops b hb zs
      refine ⟨some vs, fun t => ?_⟩
      have hsome : ((z :: zs ++ b :: t).head?.any isDelimiter) = true := hhead
      rw [if_pos hsome, List.cons_append, List.drop_one, List.tail_cons, hvs t]
      rfl

theorem valueAfter_skips {cliKey : Bool} {t start : Bytes} (h : valueAfter cliKey t = some start) :
    ∃ xs, t = xs ++ start ∧ ∀ x ∈ xs, isHeaderByte x = true := by
  have hfront := cursor_skipSeparatorBlanks.comp (cursor_dropQuote.comp cursor_dropHexSuffix)
  have hback := cursor_dropQuote.comp cursor_dropBlanks
  obtain ⟨xs, hxs, hx⟩ := hfront.skips t
  rw [valueAfter] at h
  generalize skipSeparatorBlanks (dropQuote (dropHexSuffix t)) = cursor at h hxs
  split at h
  · next hdelim =>
    obtain ⟨ys, hys, hy⟩ := hback.skips (cursor.drop 1)
    cases h
    cases cursor with
    | nil => cases hdelim
    | cons d r =>
      have hd : isHeaderByte d = true := by
        have : isDelimiter d = true := hdelim
        simp only [isDelimiter, Bool.or_eq_true, beq_iff_eq] at this
        obtain rfl | rfl := this <;> rfl
      refine ⟨xs ++ d :: ys, by rw [hxs, List.append_assoc, List.cons_append, ← hys]; rfl, ?_⟩
      intro b hb
      rcases List.mem_append.mp hb with hb | hb
      · exact hx b hb
      · exact (List.mem_cons.mp hb).elim (fun e => e ▸ hd) (hy b)
  · split at h
    · cases h
    · split at h
      · obtain ⟨ys, hys, hy⟩ := hback.skips cursor
        cases h
        refine ⟨xs ++ ys, by rw [hxs, List.append_assoc, ← hys], fun b hb => ?_⟩
        exact (List.mem_append.mp hb).elim (hx b) (hy b)
      · cases h

end Nigiri.Fixtures
