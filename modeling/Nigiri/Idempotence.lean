import Nigiri.CoveredReading

/-! Redacting a redacted text again changes nothing, just when a reader of what the first pass has
not covered comes to nothing to cover; for that it must have taken away what made it find a redacted
value or a label as it did. -/
namespace Nigiri.Fixtures
open Utf8 AsciiCase Rewrite Masking

/-- A stretch the anchored scan of a text masks. -/
def AnchoredMask (v hidden rest mask : Bytes) : Prop :=
  ∃ cliKey kind header, Reaches anchoredStep false v cliKey (header ++ (hidden ++ rest)) ∧
    secretAt cliKey (header ++ (hidden ++ rest)) = some (kind, hidden ++ rest) ∧
    hidden = valueOf kind (hidden ++ rest) ∧ hidden ≠ [] ∧ ¬ redactedPrefix <+: hidden ∧
    mask = redaction hidden.length redacted

/-- Who reads of a text what redaction does not cover comes to no private key block, and to no
secret whose value is in sight: neither gone nor covered nor begun as a marker. -/
structure Rereadable (t : Bytes) : Prop where
  labels : NoKeyBlock (sight (coverText t))
  values : Discreet false (coverText t)

/-- A text whose redaction reads as the text does: no key block is opened by the dashes of another
label, no masked value covers such dashes, and what passes for redacted is found and left again. -/
structure Undisturbed (t : Bytes) : Prop where
  labels : ¬ OpensKeyBlock t
  closing : ¬ CoversClosing (AnchoredMask (scanKeyBlocks t)) (scanKeyBlocks t)
  passed : ∀ s u, Reaches shownStep (false, false) (scanKeyBlocks t) s u → PassedAlike s u

variable {hides : Bytes → Bytes → Bytes → Prop} {t v x y : Bytes} {pair : Bytes × Bytes}

theorem masked_scanAnchored (v : Bytes) : Masked (AnchoredMask v) v (scanAnchored false v) := by
  refine @masked_rewrite _ _ (AnchoredMask v) anchoredStep
    (fun s t => Reaches anchoredStep false v s t) (fun s c r hreach => ?_) false v (.here _ _)
  cases hsecret : secretAt s (c :: r) with
  | none =>
    refine ⟨[c], [], [], r, rfl, ?_, ?_, ?_, .inl rfl⟩
    · rw [anchoredStep_none hsecret]
      rfl
    · rw [anchoredStep_none hsecret]
      rfl
    · have hnext := hreach.trans (.later (.here _ _))
      rw [anchoredStep_none hsecret] at hnext
      rw [anchoredStep_none hsecret]
      exact hnext
  | some p =>
    obtain ⟨kind, start⟩ := p
    obtain ⟨header, hsplit, -⟩ := secretAt_some hsecret
    have hvalue := value_split kind start
    have hnext := hreach.trans (.later (.here _ _))
    rw [anchoredStep_some hsecret hsplit] at hnext
    simp only [(secret_consumed hsecret hsplit).2] at hnext
    refine ⟨header, valueOf kind start, renderValue (valueOf kind start),
      start.dropWhile fun b => !terminates kind b, by rw [hvalue, hsplit], ?_, ?_, ?_, ?_⟩
    · rw [anchoredStep_some hsecret hsplit]
    · rw [anchoredStep_some hsecret hsplit]
      exact (secret_consumed hsecret hsplit).2
    · rw [anchoredStep_some hsecret hsplit]
      exact hnext
    · rw [renderValue]
      split
      · exact .inl rfl
      · next hmasked =>
        rw [Bool.or_eq_true, List.isEmpty_iff, List.isPrefixOf_iff_prefix, not_or] at hmasked
        refine .inr ⟨s, kind, header, ?_, ?_, by rw [hvalue], hmasked.1, hmasked.2, rfl⟩
        · rw [hvalue, ← hsplit]
          exact hreach
        · rw [hvalue, ← hsplit]
          exact hsecret

theorem bracketed_anchored (v : Bytes) : Bracketed (AnchoredMask v) where
  covering := fun ⟨_, _, _, _, _, _, hne, _⟩ => hne
  marked := fun ⟨_, _, _, _, _, _, _, _, hmask⟩ => ⟨_, hmask⟩
  plain := by
    rintro hidden rest mask ⟨-, -, -, -, -, -, -, -, rfl⟩ b hb
    have hmarker : ∀ b ∈ redacted, b ≠ 45 ∧ toAsciiUppercase b ≠ 80 := by decide
    rcases List.mem_append.mp hb with hb | hb
    · exact hmarker b hb
    · rw [(List.mem_replicate.mp hb).2]
      decide

theorem bracketed_pattern (hpair : pair ∈ redactionPatterns) :
    Bracketed (Replaces pair.1 pair.2) where
  covering := fun ⟨hhidden, _⟩ => hhidden ▸ (patterns_plain pair hpair).2.2.2.1
  marked := fun ⟨_, hmask⟩ => hmask ▸ mask_bracket hpair
  plain := by
    have hall : ∀ pair ∈ redactionPatterns, ∀ b ∈ pair.2, b ≠ 45 ∧ toAsciiUppercase b ≠ 80 := by
      decide
    rintro hidden rest mask ⟨-, rfl⟩
    exact hall pair hpair

/-- What replaces the patterns opens no key block. -/
theorem noKeyBlock_replacePatterns (h : NoKeyBlock t) : NoKeyBlock (replacePatterns t) := by
  refine replacePatterns_keeps h fun pair hpair t ht => ?_
  obtain ⟨hbytes, -, -, hne, -⟩ := patterns_plain pair hpair
  refine noKeyBlock_masked (bracketed_pattern hpair) ht
    (not_coversClosing (fun ⟨hhidden, _⟩ => ?_) t) (masked_replaceAll hne t)
  subst hhidden
  refine ⟨hne, fun b hb hdash => ?_⟩
  have hplain := (hbytes b (List.mem_append_left _ hb)).1
  rw [hdash] at hplain
  cases hplain

/-- No pattern is brought about by what covers secrets or other patterns. -/
theorem unmatched_masked (hmarker : ∀ {hidden rest mask}, hides hidden rest mask →
    hidden ≠ [] ∧ IsMarker mask) (h : Masked hides x y) (hpair : pair ∈ redactionPatterns)
    (habsent : ¬ pair.1 <:+: x) : ¬ pair.1 <:+: y := by
  obtain ⟨-, hbytes, -, hne, -⟩ := patterns_plain pair hpair
  obtain ⟨a, w, hword⟩ := List.exists_cons_of_ne_nil hne
  have hunmarked : 91 ∉ a :: w := fun hmem => (hbytes 91 (hword ▸ hmem)).2 rfl
  rintro ⟨before, after, hsplit⟩
  rw [hword] at hsplit habsent
  have hlegible : Legible hides 91 a w :=
    ⟨hunmarked, fun hhides => (hmarker hhides).1, fun hhides => (hmarker hhides).2.bracket,
      fun hhides => (hmarker hhides).2.unmatched pair hpair a (by rw [hword]; rfl)⟩
  rw [← hsplit, List.append_assoc] at h
  obtain ⟨front, back, rfl⟩ := h.word hlegible
  exact habsent ⟨front, back, by rw [List.append_assoc]⟩

theorem replaces_marker (hpair : pair ∈ redactionPatterns) {hidden rest mask : Bytes}
    (h : Replaces pair.1 pair.2 hidden rest mask) : hidden ≠ [] ∧ IsMarker mask := by
  obtain ⟨rfl, rfl⟩ := h
  exact ⟨(patterns_plain pair hpair).2.2.2.1, isMarker_pattern hpair⟩

theorem anchoredMask_marker {hidden rest mask : Bytes} (h : AnchoredMask v hidden rest mask) :
    hidden ≠ [] ∧ IsMarker mask := by
  obtain ⟨-, -, -, -, -, -, hne, -, rfl⟩ := h
  exact ⟨hne, isMarker_redaction _⟩

/-- No pattern is left, nor brought about by replacing another. -/
theorem unmatched_replacePatterns (t : Bytes) : Unmatched (replacePatterns t) := by
  have hfirst : ∀ pair ∈ redactionPatterns, ∀ a ∈ pair.1.head?, a ∉ pair.2 := by decide
  have key : ∀ pairs : List (Bytes × Bytes), (∀ pair ∈ pairs, pair ∈ redactionPatterns) →
      ∀ t, ∀ pair ∈ redactionPatterns, pair ∈ pairs ∨ ¬ pair.1 <:+: t →
        ¬ pair.1 <:+: pairs.foldl (fun text pair => replaceAll pair.1 pair.2 text) t := by
    intro pairs
    induction pairs with
    | nil => exact fun _ t pair _ habsent => habsent.resolve_left List.not_mem_nil
    | cons other pairs ih =>
      intro hmem t pair hpair habsent
      have hother := hmem other List.mem_cons_self
      refine ih (fun p hp => hmem p (List.mem_cons_of_mem _ hp)) _ pair hpair ?_
      by_cases hsame : pair = other
      · subst hsame
        obtain ⟨-, hbytes, -, hne, -⟩ := patterns_plain pair hpair
        obtain ⟨a, w, hword⟩ := List.exists_cons_of_ne_nil hne
        obtain ⟨m, hmask⟩ := mask_bracket hpair
        have hunmarked : 91 ∉ a :: w := fun hmem => (hbytes 91 (hword ▸ hmem)).2 rfl
        have ha := hfirst pair hpair a (by rw [hword]; rfl)
        rw [hmask] at ha
        have hgone : ¬ pair.1 <:+: replaceAll pair.1 pair.2 t := by
          rw [hmask, hword]
          exact absent_replaceAll hunmarked ha t
        exact .inr hgone
      · refine habsent.imp (fun hmem => ?_) fun habsent => ?_
        · exact (List.mem_cons.mp hmem).resolve_left hsame
        · exact unmatched_masked (replaces_marker hother)
            (masked_replaceAll (patterns_plain other hother).2.2.2.1 t) hpair habsent
  exact fun pair hpair => key redactionPatterns (fun _ hp => hp) t pair hpair (.inl hpair)

theorem replacePatterns_unmatched (h : Unmatched t) : replacePatterns t = t := by
  refine @replacePatterns_keeps (· = t) t rfl ?_
  rintro pair hpair _ rfl
  exact replaceAll_absent _ (h pair hpair)

/-- Dashes are covered, never put in. -/
theorem dashes_masked (hmask : ∀ {hidden rest mask}, hides hidden rest mask → 45 ∉ mask)
    (h : Masked hides x y) : y.count 45 ≤ x.count 45 := by
  induction h with
  | nil => exact Nat.le_refl _
  | copy b h ih =>
    rw [List.count_cons, List.count_cons]
    omega
  | mask hidden mask hhides h ih =>
    rw [List.count_append, List.count_append, List.count_eq_zero.mpr (hmask hhides)]
    omega

theorem IsMarker.not_mem {marker : Bytes} (h : IsMarker marker) : 45 ∉ marker := fun hmem =>
  h.noDash 45 hmem rfl

theorem dashes_replacePatterns (t : Bytes) : (replacePatterns t).count 45 ≤ t.count 45 := by
  refine @replacePatterns_keeps (fun t' => t'.count 45 ≤ t.count 45) t (Nat.le_refl _)
    fun pair hpair t' ht' => ?_
  exact (dashes_masked (fun h => (replaces_marker hpair h).2.not_mem)
    (masked_replaceAll (patterns_plain pair hpair).2.2.2.1 t')).trans ht'

theorem dashes_scanKeyBlocks (t : Bytes) : (scanKeyBlocks t).count 45 ≤ t.count 45 ∧
    (¬ NoKeyBlock t → (scanKeyBlocks t).count 45 < t.count 45) := by
  induction h : t.length using Nat.strong_induction_on generalizing t with
  | _ n ih =>
    cases t with
    | nil =>
      refine ⟨Nat.le_refl _, fun hblock => absurd (fun c r hr => ?_) hblock⟩
      exact absurd (List.suffix_nil.mp hr) (List.cons_ne_nil c r)
    | cons c r =>
      cases hblock : keyBlockAt (c :: r) with
      | none =>
        obtain ⟨hle, hlt⟩ := ih r.length (by rw [← h]; exact Nat.lt_succ_self _) r rfl
        rw [scanKeyBlocks_copy hblock, List.count_cons, List.count_cons]
        refine ⟨by omega, fun hopens => ?_⟩
        have hrest : ¬ NoKeyBlock r := fun hnone => hopens fun c' r' hr => by
          cases List.suffix_cons_iff.mp hr with
          | inl heq => rw [heq, hblock]
          | inr hr => exact hnone c' r' hr
        have hless := hlt hrest
        omega
      | some block =>
        obtain ⟨label, body⟩ := block
        have hdash : c = 45 := by
          by_contra hc
          rw [keyBlockAt_dash hc] at hblock
          cases hblock
        subst hdash
        obtain ⟨front, hfront⟩ :=
          List.drop_suffix (r.length - ((afterBlock label body).getD []).length) r
        rw [drop_afterBlock hblock] at hfront
        have hshorter : ((afterBlock label body).getD []).length < n := by
          rw [← h, ← hfront, List.length_cons, List.length_append]
          omega
        obtain ⟨hle, -⟩ := ih _ hshorter _ rfl
        have hmask : (redaction ((45 :: r).length - ((afterBlock label body).getD []).length)
            redactedPrivateKey).count 45 = 0 :=
          List.count_eq_zero.mpr fun hmem => redactedPrivateKey_noDash _ 45 hmem rfl
        have hcount : (45 :: r).count 45 =
            front.count 45 + ((afterBlock label body).getD []).count 45 + 1 := by
          rw [List.count_cons, ← hfront, List.count_append]
          rfl
        rw [scanKeyBlocks_block hblock, List.count_append, hmask, hcount]
        exact ⟨by omega, fun _ => by omega⟩

/-- A text without fixed patterns is left by redaction just when each of the scans leaves it. -/
theorem redactedText_fixed_iff (h : Unmatched t) :
    redactedText t = t ↔ NoKeyBlock t ∧ scanAnchored false t = t := by
  constructor
  · intro hsame
    have hblocks : NoKeyBlock t := by
      by_contra hopens
      have hless := (dashes_scanKeyBlocks t).2 hopens
      have hscan := dashes_masked (fun h => (anchoredMask_marker h).2.not_mem)
        (masked_scanAnchored (scanKeyBlocks t))
      have hpatterns := dashes_replacePatterns (scanAnchored false (scanKeyBlocks t))
      rw [redactedText] at hsame
      rw [hsame] at hpatterns
      omega
    rw [redactedText, scanKeyBlocks_noKeyBlock hblocks, replacePatterns_unmatched] at hsame
    · exact ⟨hblocks, hsame⟩
    · exact fun pair hpair => unmatched_masked anchoredMask_marker (masked_scanAnchored t) hpair
        (h pair hpair)
  · rintro ⟨hblocks, hscan⟩
    rw [redactedText, scanKeyBlocks_noKeyBlock hblocks, hscan, replacePatterns_unmatched h]

theorem redactedText_again_iff (t : Bytes) :
    redactedText (redactedText t) = redactedText t ↔ Rereadable t := by
  have hdepicts := depicts_coverText t
  have hunmatched : Unmatched (redactedText t) := unmatched_replacePatterns _
  rw [redactedText_fixed_iff hunmatched, hdepicts.noKeyBlock_iff, hdepicts.behind.scan_iff]
  exact ⟨fun ⟨hlabels, hvalues⟩ => ⟨hlabels, hvalues⟩, fun h => ⟨h.labels, h.values⟩⟩

/-- Each of the passes leaves what all of them have made of an undisturbed text. -/
theorem Undisturbed.rereadable (h : Undisturbed t) : Rereadable t := by
  have hblocks : NoKeyBlock (redactedText t) := noKeyBlock_replacePatterns
    (noKeyBlock_masked (bracketed_anchored _) (noKeyBlock_scanKeyBlocks h.labels) h.closing
      (masked_scanAnchored _))
  have hstable : Stable false (redactedText t) := stable_replacePatterns
    (stable_scan (false, false) (scanKeyBlocks t) h.passed fun hd => hd)
  refine (redactedText_again_iff t).mp ?_
  exact (redactedText_fixed_iff (unmatched_replacePatterns _)).mpr ⟨hblocks, hstable.scan⟩

/-- A text without dashes and brackets is not disturbed. -/
theorem undisturbed_plain (hdash : 45 ∉ t) (hbracket : 91 ∉ t) : Undisturbed t := by
  have hmarker (found : Bytes) (hfound : lowered found = lowered beginMarker)
      (hsubset : ∀ b ∈ found, b ∈ t) : False := by
    have hmem : 45 ∈ lowered found := by
      rw [hfound]
      decide
    exact hdash (hsubset 45 ((mem_lowered (.inl (by decide))).mp hmem))
  have hplain : NoKeyBlock t := fun c r hr => by
    refine keyBlockAt_eq_none (Bool.eq_false_iff.mpr fun hbegin => ?_)
    obtain ⟨found, rest, hsplit, hfound⟩ := startsIgnoreAsciiCase_iff.mp hbegin
    exact hmarker found hfound fun b hb => hr.subset (hsplit ▸ List.mem_append_left _ hb)
  have hscan := scanKeyBlocks_noKeyBlock hplain
  refine ⟨?_, ?_, ?_⟩
  · rintro ⟨u, hreach, found, label, body, -, -, -, -, rfl, hlabelled, -⟩
    exact hmarker found hlabelled.marker fun b hb =>
      hreach.suffix.subset (List.mem_append_left _ hb)
  · rintro ⟨found, label, body, hidden, rest, mask, hlabelled, hsuffix, -⟩
    rw [hscan] at hsuffix
    exact hmarker found hlabelled.marker fun b hb => hsuffix.subset (List.mem_append_left _ hb)
  · rw [hscan]
    intro s u hreach kind start hsecret hmarked
    obtain ⟨header, rfl, -⟩ := secretAt_some hsecret
    have hmem : 91 ∈ valueOf kind start := hmarked.subset List.mem_cons_self
    have hstart : 91 ∈ start := (List.takeWhile_prefix _).subset hmem
    exact absurd (hreach.suffix.subset (List.mem_append_right _ hstart)) hbracket

theorem redact_twice : redact (ascii "macaroon=a-b mnemonic [REDACTED foo macaroon=secret") =
      some (ascii "macaroon=[REDACTED] mnemonic [REDACTED foo macaroon=secret") ∧
    redact (ascii "macaroon=[REDACTED] mnemonic [REDACTED foo macaroon=secret") ≠
      some (ascii "macaroon=[REDACTED] mnemonic [REDACTED foo macaroon=secret") := by
  decide +kernel

end Nigiri.Fixtures
