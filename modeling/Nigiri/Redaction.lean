import Nigiri.KeyBlockScan

/-! On text, redaction never panics: it is the scan for key blocks, the anchored scan and the fixed
replacements in turn, and text comes out again. -/
namespace Nigiri.Fixtures
open Utf8 AsciiCase Rewrite

def redactedText (value : Bytes) : Bytes :=
  replacePatterns (scanAnchored false (scanKeyBlocks value))

theorem isText_replaceAll {pattern replacement t : Bytes} (hne : pattern ≠ [])
    (hpattern : ∀ b ∈ pattern, isAscii b = true) (hreplacement : IsText replacement)
    (h : IsText t) : IsText (replaceAll pattern replacement t) := by
  refine rewrite_isText (fun s b r hb => ?_) (fun s b r hb hr => ?_) () h
  · rw [replaceStep, if_neg]
    intro hp
    obtain ⟨rest, hrest⟩ := List.isPrefixOf_iff_prefix.mp hp
    cases pattern with
    | nil => exact hne rfl
    | cons x xs =>
      have hx := hpattern x List.mem_cons_self
      rw [(List.cons.inj hrest).1, hb] at hx
      cases hx
  · have hbtext : IsText [b] := isText_ascii (List.forall_mem_singleton.mpr hb)
    rw [replaceStep]
    split
    · next hp =>
      obtain ⟨rest, hrest⟩ := List.isPrefixOf_iff_prefix.mp hp
      refine ⟨hreplacement, ?_⟩
      rw [(consumed hrest.symm hne).2]
      exact (hrest ▸ hbtext.append hr : IsText (pattern ++ rest)).drop_ascii hpattern
    · exact ⟨hbtext, hr⟩

theorem redactionPatterns_ascii : ∀ pair ∈ redactionPatterns, pair.1 ≠ [] ∧
    (∀ b ∈ pair.1, isAscii b = true) ∧ ∀ b ∈ pair.2, isAscii b = true := by decide

/-- What replacing each of the patterns keeps, replacing all of them keeps. -/
theorem replacePatterns_keeps {motive : Bytes → Prop} {t : Bytes} (h : motive t)
    (hstep : ∀ pair ∈ redactionPatterns, ∀ t, motive t → motive (replaceAll pair.1 pair.2 t)) :
    motive (replacePatterns t) :=
  List.foldlRecOn redactionPatterns _ h fun t ht pair hpair => hstep pair hpair t ht

theorem isText_replacePatterns {t : Bytes} (h : IsText t) : IsText (replacePatterns t) := by
  refine replacePatterns_keeps h fun pair hpair t ht => ?_
  obtain ⟨hne, hpattern, hreplacement⟩ := redactionPatterns_ascii pair hpair
  exact isText_replaceAll hne hpattern (isText_ascii hreplacement) ht

theorem isText_redactedText {value : Bytes} (h : IsText value) : IsText (redactedText value) :=
  isText_replacePatterns (isText_scanAnchored false (isText_scanKeyBlocks h))

theorem redact_eq {value : Bytes} (h : IsText value) :
    redact value = some (redactedText value) := by
  rw [redact, redactPrivateKeyBlocks_eq h, Option.bind_eq_bind, Option.bind_some,
    redactAnchoredValues_eq (isText_scanKeyBlocks h)]
  rfl

theorem redactedTail_eq {value : Bytes} (h : IsText value) :
    redactedTail value = utf8Tail (redactedText value) maxDiagnosticBytes := by
  rw [redactedTail, redact_eq h]
  rfl

end Nigiri.Fixtures
