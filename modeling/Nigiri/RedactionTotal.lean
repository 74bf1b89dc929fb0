import Nigiri.Redaction

/-! Redaction returns for every text, stays inside it, and never makes it shorter. -/
namespace Nigiri.Fixtures
open Utf8 AsciiCase Rewrite

theorem length_le_redaction (n : Nat) (marker : Bytes) : n ≤ (redaction n marker).length := by
  rw [redaction, List.length_append, List.length_replicate]
  omega

theorem length_le_renderValue (secret : Bytes) : secret.length ≤ (renderValue secret).length := by
  rw [renderValue]
  split
  · exact Nat.le_refl _
  · exact length_le_redaction _ _

theorem length_le_scanKeyBlocks (t : Bytes) : t.length ≤ (scanKeyBlocks t).length := by
  refine length_le_rewrite (fun _ c r => ?_) () t
  cases h : keyBlockAt (c :: r) with
  | none => simp [keyBlockStep, h]
  | some p =>
    obtain ⟨label, body⟩ := p
    have hmask := length_le_redaction
      ((c :: r).length - ((afterBlock label body).getD []).length) redactedPrivateKey
    obtain ⟨found, hsplit, hfound, -⟩ := keyBlockAt_some h
    have hpos : 0 < found.length := by
      have hlen : found.length = beginMarker.length := by simpa using congrArg List.length hfound
      rw [hlen]
      decide
    have hsuffix := (afterBlock_suffix label body).length_le
    have htotal := congrArg List.length hsplit
    simp only [List.length_append, List.length_cons] at htotal hmask
    simp only [keyBlockStep, h, List.length_cons, List.length_take]
    omega

theorem length_le_scanAnchored (cliKey : Bool) (t : Bytes) :
    t.length ≤ (scanAnchored cliKey t).length := by
  refine length_le_rewrite (fun d c r => ?_) cliKey t
  cases h : secretAt d (c :: r) with
  | none =>
    rw [anchoredStep_none h]
    simp
  | some p =>
    obtain ⟨kind, start⟩ := p
    obtain ⟨header, hsplit, -⟩ := secretAt_some h
    have hvalue := length_le_renderValue (valueOf kind start)
    rw [anchoredStep_some h hsplit, (secret_consumed h hsplit).1]
    simp only [List.length_append]
    omega

theorem length_le_replaceAll {pattern replacement : Bytes}
    (h : pattern.length ≤ replacement.length) (hpos : 0 < pattern.length) (t : Bytes) :
    t.length ≤ (replaceAll pattern replacement t).length := by
  refine length_le_rewrite (fun _ c r => ?_) () t
  rw [replaceStep]
  split
  · simp only [List.length_cons, List.length_take]
    omega
  · simp

theorem redactionPatterns_length : ∀ pair ∈ redactionPatterns,
    pair.1.length ≤ pair.2.length ∧ 0 < pair.1.length := by decide

theorem length_le_replacePatterns (t : Bytes) : t.length ≤ (replacePatterns t).length := by
  refine @replacePatterns_keeps (fun t' => t.length ≤ t'.length) t (Nat.le_refl _)
    fun pair hpair t' ht' => ?_
  obtain ⟨hle, hpos⟩ := redactionPatterns_length pair hpair
  exact ht'.trans (length_le_replaceAll hle hpos t')

/-- A match lies inside the text it was found in. -/
theorem position_inside {p : Bytes → Bool} {word text : Bytes} {n : Nat}
    (hp : ∀ t, p t = true → word.length ≤ t.length) (h : position p text = some n) :
    n + word.length ≤ text.length := by
  obtain ⟨xs, u, rfl, rfl, -, hu, -⟩ := position_some h
  have hlen := hp u hu
  rw [List.length_append]
  omega

theorem length_le_of_starts {word text : Bytes} (h : startsIgnoreAsciiCase word text = true) :
    word.length ≤ text.length :=
  of_decide_eq_true (Bool.and_eq_true_iff.mp h).1

/-- Every pass over a text returns text that is no shorter, and what the passes find and step
over lies inside the text it was found in. -/
theorem redact_total_and_never_shrinks (cs : List Char) :
    (∃ output, redact (encode cs) = some output ∧ IsText output ∧
      (encode cs).length ≤ output.length) ∧
    (∃ output, redactAnchoredValues (encode cs) = some output ∧ IsText output ∧
      (encode cs).length ≤ output.length) ∧
    (∃ output, redactPrivateKeyBlocks (encode cs) = some output ∧ IsText output ∧
      (encode cs).length ≤ output.length) ∧
    (∀ text anchor, anchorAt text = some anchor → anchor.1.length ≤ text.length) ∧
    (∀ text suffix,
      (hexSuffixes.find? fun suffix => startsIgnoreAsciiCase suffix text) = some suffix →
      suffix.length ≤ text.length) ∧
    (∀ text needle n, find text needle = some n → n + needle.length ≤ text.length) ∧
    (∀ text needle n, findAsciiCaseInsensitive text needle = some n →
      n + needle.length ≤ text.length) := by
  have htext := isText_encode cs
  refine ⟨⟨_, redact_eq htext, isText_redactedText htext, ?_⟩,
    ⟨_, redactAnchoredValues_eq htext, isText_scanAnchored false htext,
      length_le_scanAnchored false _⟩,
    ⟨_, redactPrivateKeyBlocks_eq htext, isText_scanKeyBlocks htext, length_le_scanKeyBlocks _⟩,
    fun text anchor h => ?_, fun text suffix h => ?_, fun text needle n h => ?_,
    fun text needle n h => ?_⟩
  · calc (encode cs).length ≤ (scanKeyBlocks (encode cs)).length := length_le_scanKeyBlocks _
      _ ≤ (scanAnchored false (scanKeyBlocks (encode cs))).length := length_le_scanAnchored false _
      _ ≤ (redactedText (encode cs)).length := length_le_replacePatterns _
  · have hstart : startsIgnoreAsciiCase anchor.1 text = true := by simpa using List.find?_some h
    exact length_le_of_starts hstart
  · have hstart : startsIgnoreAsciiCase suffix text = true := by simpa using List.find?_some h
    exact length_le_of_starts hstart
  · refine position_inside (fun t ht => ?_) h
    exact (List.isPrefixOf_iff_prefix.mp ht).length_le
  · exact position_inside (fun t => length_le_of_starts) h

end Nigiri.Fixtures
