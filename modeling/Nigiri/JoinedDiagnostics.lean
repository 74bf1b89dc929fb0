import Nigiri.AddedSecret

/-! Joining redacted diagnostics with an addition that assigns a secret. The joined text is scanned
as a whole: a line value that was redacted before and reaches the addition passes for redacted. -/
namespace Nigiri.Fixtures
open Utf8 AsciiCase Rewrite
variable {kind : SecretValueKind} {anchor : Bytes}

/-- The joined text scanned up to the addition ends in a line value that was redacted before, and
not in a private key block. -/
def Reopens (existing front : Bytes) : Prop :=
  ¬ EndsInKeyBlock (joinedFront existing front) ∧
    EndsInMarkedLine (scanKeyBlocks (joinedFront existing front))

theorem joinDiagnostics_eq (existing front addition : Bytes) :
    joinDiagnostics existing (front ++ addition) =
      redactedTail (joinedFront existing front ++ addition) := by
  rw [joinDiagnostics, joinedFront]
  split
  · rfl
  · rw [List.append_assoc (existing ++ ascii "; ")]

theorem markerless_assigned (h : IsAnchor kind anchor) {secret : Bytes}
    (hsecret : IsSecret kind secret) : Markerless (assigned anchor secret) := by
  have hmarkerless := markerless_key (assignmentKey h) hsecret
  rw [assignmentKey_bytes] at hmarkerless
  exact hmarkerless

/-- The scans of the joined text tell equally long secrets not apart, unless a line reopens. -/
theorem redactedText_hides (hmem : (anchor, kind) ∈ secretAnchors) {existing front : Bytes}
    (hfront : ∀ c r, c :: r <:+ front → anchorAt (c :: r) = none)
    (hclosed : ¬ Reopens existing front) {secret₁ secret₂ : Bytes} (h₁ : IsSecret kind secret₁)
    (h₂ : IsSecret kind secret₂) (hlength : secret₁.length = secret₂.length) :
    redactedText (joinedFront existing front ++ assigned anchor secret₁) =
      redactedText (joinedFront existing front ++ assigned anchor secret₂) := by
  have hanchor : IsAnchor kind anchor := ⟨_, hmem, rfl, rfl⟩
  have hmarkerless₁ := markerless_assigned hanchor h₁
  have hmarkerless₂ := markerless_assigned hanchor h₂
  rw [redactedText, redactedText]
  by_cases hblock : EndsInKeyBlock (joinedFront existing front)
  · obtain ⟨u, label, body, hreach, hkey, hopen⟩ := hblock
    have hlen : (assigned anchor secret₁).length = (assigned anchor secret₂).length := by
      rw [assigned, assigned, List.length_append, List.length_append, List.length_cons,
        List.length_cons, hlength]
    rw [scanKeyBlocks_reaches hmarkerless₁ hmarkerless₂ hlen hreach hkey hopen]
  · rw [scanKeyBlocks_append hmarkerless₁ hblock, scanKeyBlocks_append hmarkerless₂ hblock]
    have hscan := scan_hidesAddition hmem false
      (guarded_scanKeyBlocks (guarded_joinedFront hfront))
      (fun d u hreach hmarked => hclosed ⟨hblock, d, u, hreach, hmarked⟩)
      secret₁ secret₂ h₁ h₂ hlength
    rw [hscan]

theorem replacePatterns_last {b : UInt8} (hb : b ∉ ascii "3=1") (t : Bytes) :
    ∃ t', replacePatterns (t ++ [b]) = t' ++ [b] := by
  have hlast : ∀ pair ∈ redactionPatterns, ∃ a ∈ ascii "3=1", pair.1.getLast? = some a := by
    decide
  refine @replacePatterns_keeps (fun t => ∃ t', t = t' ++ [b]) _ ⟨t, rfl⟩ ?_
  rintro pair hmem _ ⟨t, rfl⟩
  obtain ⟨a, ha, hpair⟩ := hlast pair hmem
  have hne : a ≠ b := fun hab => hb (hab ▸ ha)
  exact replaceAll_concat pair.1 pair.2 hpair hne t

theorem dropWhile_concat {p : UInt8 → Bool} {b : UInt8} (hb : p b = false) (t : Bytes) :
    ∃ t', (t ++ [b]).dropWhile p = t' ++ [b] := by
  rw [List.dropWhile_append]
  split
  · exact ⟨[], by simp [hb]⟩
  · exact ⟨_, rfl⟩

theorem isCharBoundary_dropWhile (t : Bytes) :
    isCharBoundary (t.dropWhile isContinuation) = true := by
  cases ht : t.dropWhile isContinuation with
  | nil => rfl
  | cons x xs =>
    have hne : t.dropWhile isContinuation ≠ [] := by simp [ht]
    have hhead := List.head_dropWhile_not isContinuation hne
    simp only [ht, List.head_cons] at hhead
    simp [isCharBoundary, hhead]

theorem utf8Tail_isSome (t : Bytes) (maximumBytes : Nat) :
    ∃ output, utf8Tail t maximumBytes = some output := by
  rw [utf8Tail]
  split
  · exact ⟨t, rfl⟩
  · rw [slice, isCharBoundary_dropWhile]
    exact ⟨_, rfl⟩

/-- A bounded tail keeps the last byte. -/
theorem utf8Tail_last {b : UInt8} (hb : isContinuation b = false) (t : Bytes) {maximumBytes : Nat}
    (hmaximum : 0 < maximumBytes) : ∃ t', utf8Tail (t ++ [b]) maximumBytes = some (t' ++ [b]) := by
  rw [utf8Tail]
  split
  · exact ⟨t, rfl⟩
  · next hlong =>
    have hdrop : (t ++ [b]).drop ((t ++ [b]).length - maximumBytes) =
        t.drop ((t ++ [b]).length - maximumBytes) ++ [b] := by
      refine List.drop_append_of_le_length ?_
      rw [List.length_append, List.length_singleton]
      omega
    obtain ⟨t', ht'⟩ := dropWhile_concat hb (t.drop ((t ++ [b]).length - maximumBytes))
    refine ⟨t', ?_⟩
    rw [hdrop, slice, isCharBoundary_dropWhile, ht']
    simp [isCharBoundary]

theorem isSecret_letter {b : UInt8} (hb : b ∈ ascii "ab") : IsSecret kind [b] := by
  have hterm : ∀ b ∈ ascii "ab", ∀ k ∈ [SecretValueKind.token, .line], terminates k b = false := by
    decide
  have hplain : ∀ b ∈ ascii "ab", isDash b = false ∧ isBlank b = false ∧ isQuote b = false ∧
      redactedPrefix.isPrefixOf [b] = false := by decide
  obtain ⟨hdash, hblank, hquote, hmarker⟩ := hplain b hb
  refine ⟨List.cons_ne_nil b [], ?_, by simpa using hdash, ?_, hmarker⟩
  · rw [List.forall_mem_singleton]
    exact hterm b hb kind (by cases kind <;> simp)
  · simpa using ⟨hblank, hquote⟩

/-- When a line reopens, the joined diagnostics end as the added secret does. -/
theorem joinDiagnostics_leaks (hmem : (anchor, kind) ∈ secretAnchors) {existing front : Bytes}
    (hfront : ∀ c r, c :: r <:+ front → anchorAt (c :: r) = none)
    (hreopens : Reopens existing front) {b : UInt8} (hb : b ∈ ascii "ab")
    (htext : IsText (joinedFront existing front ++ assigned anchor [b])) :
    ∃ t, joinDiagnostics existing (front ++ assigned anchor [b]) = some (t ++ [b]) := by
  have hsecret : IsSecret kind [b] := isSecret_letter hb
  have hbyte : ∀ b ∈ ascii "ab", b ∉ ascii "3=1" ∧ isContinuation b = false := by decide
  obtain ⟨hblock, d, u, hreach, hmarked⟩ := hreopens
  obtain ⟨text, hscan⟩ := scan_leaksAddition hmem hreach hmarked
    (guarded_scanKeyBlocks (guarded_joinedFront hfront))
  have hlast : text ++ assigned anchor [b] = (text ++ (anchor ++ [61])) ++ [b] := by
    rw [assigned]
    simp only [List.append_assoc]
    rfl
  obtain ⟨t, ht⟩ := replacePatterns_last (hbyte b hb).1 (text ++ (anchor ++ [61]))
  rw [joinDiagnostics_eq, redactedTail_eq htext, redactedText,
    scanKeyBlocks_append (markerless_assigned ⟨_, hmem, rfl, rfl⟩ hsecret) hblock,
    hscan [b] hsecret, hlast, ht]
  exact utf8Tail_last (hbyte b hb).2 t (by decide)

/-- Joined diagnostics hide every secret that is added to redacted text, exactly when no line value
that was redacted in it reaches the addition. -/
theorem join_hides_addition_iff (hmem : (anchor, kind) ∈ secretAnchors) {x front : Bytes}
    (hx : IsText x) (hfrontText : IsText front)
    (hfront : ∀ c r, c :: r <:+ front → anchorAt (c :: r) = none) :
    ∃ existing, redact x = some existing ∧
      ((∀ secret₁ secret₂, IsText secret₁ → IsText secret₂ → IsSecret kind secret₁ →
          IsSecret kind secret₂ → secret₁.length = secret₂.length →
        ∃ output, joinDiagnostics existing (front ++ assigned anchor secret₁) = some output ∧
          joinDiagnostics existing (front ++ assigned anchor secret₂) = some output) ↔
        ¬ Reopens existing front) := by
  refine ⟨redactedText x, redact_eq hx, ?_⟩
  have hexisting : IsText (redactedText x) := isText_redactedText hx
  generalize redactedText x = existing at hexisting
  have htext (secret : Bytes) (h : IsText secret) :
      IsText (joinedFront existing front ++ assigned anchor secret) := by
    have hanchor : IsText anchor := isText_ascii fun b hb => by
      have hheader := (anchor_bytes _ hmem).2.1 b (by rw [anchors_lowercase _ hmem]; exact hb)
      exact (Bool.and_eq_true_iff.mp hheader).1
    have hequals : IsText [61] := isText_ascii (by decide)
    have hjoined : IsText (joinedFront existing front) := by
      rw [joinedFront]
      split
      · exact hfrontText
      · exact (hexisting.append (isText_ascii (by decide))).append hfrontText
    exact hjoined.append (hanchor.append (hequals.append h))
  constructor
  · intro h hreopens
    obtain ⟨output, ha, hb⟩ :=
      h [97] [98] (isText_ascii (by decide)) (isText_ascii (by decide))
      (isSecret_letter (by decide)) (isSecret_letter (by decide)) rfl
    obtain ⟨t, ht⟩ := joinDiagnostics_leaks hmem hfront hreopens (b := 97) (by decide)
      (htext _ (isText_ascii (by decide)))
    obtain ⟨t', ht'⟩ := joinDiagnostics_leaks hmem hfront hreopens (b := 98) (by decide)
      (htext _ (isText_ascii (by decide)))
    have hsame := (ht.symm.trans ha).trans (hb.symm.trans ht')
    have hlast := congrArg List.getLast? (Option.some.inj hsame)
    rw [List.getLast?_concat, List.getLast?_concat] at hlast
    cases hlast
  · intro hclosed secret₁ secret₂ htext₁ htext₂ h₁ h₂ hlength
    rw [joinDiagnostics_eq, joinDiagnostics_eq, redactedTail_eq (htext _ htext₁),
      redactedTail_eq (htext _ htext₂), redactedText_hides hmem hfront hclosed h₁ h₂ hlength]
    obtain ⟨output, houtput⟩ := utf8Tail_isSome
      (redactedText (joinedFront existing front ++ assigned anchor secret₂)) maxDiagnosticBytes
    exact ⟨output, houtput, houtput⟩

theorem join_hides_addition_iff_started : ∃ existing, redact (ascii "lnd started") = some existing ∧
    ((∀ secret₁ secret₂, IsText secret₁ → IsText secret₂ → IsSecret .token secret₁ →
        IsSecret .token secret₂ → secret₁.length = secret₂.length →
      ∃ output, joinDiagnostics existing (ascii "args: --" ++ assigned (ascii "rpcpass") secret₁) =
          some output ∧
        joinDiagnostics existing (ascii "args: --" ++ assigned (ascii "rpcpass") secret₂) =
          some output) ↔
      ¬ Reopens existing (ascii "args: --")) := by
  refine join_hides_addition_iff (by decide) (isText_ascii (by decide))
    (isText_ascii (by decide)) fun c r hr => ?_
  have hall : ∀ t ∈ (ascii "args: --").tails, anchorAt t = none := by decide +kernel
  exact hall (c :: r) ((List.mem_tails _ _).mpr hr)

/-- Behind a redacted mnemonic the joined diagnostics disclose an added password. -/
theorem join_discloses_addition : ¬ ∀ (kind : SecretValueKind)
    (anchor x front secret₁ secret₂ : Bytes),
    (anchor, kind) ∈ secretAnchors → IsText x → IsText front →
    (∀ c r, c :: r <:+ front → anchorAt (c :: r) = none) → IsText secret₁ → IsText secret₂ →
    IsSecret kind secret₁ → IsSecret kind secret₂ → secret₁.length = secret₂.length →
    ∃ existing, redact x = some existing ∧
      joinDiagnostics existing (front ++ assigned anchor secret₁) =
        joinDiagnostics existing (front ++ assigned anchor secret₂) := by
  intro h
  have hhunter : IsSecret .token (ascii "hunter2") := by constructor <;> decide
  have hletmein : IsSecret .token (ascii "letmein") := by constructor <;> decide
  obtain ⟨existing, hredact, hsame⟩ := h .token (ascii "rpcpassword") (ascii "mnemonic=abandon") []
    (ascii "hunter2") (ascii "letmein") (by decide) (isText_ascii (by decide))
    isText_nil (fun c r hr => absurd (List.suffix_nil.mp hr) (List.cons_ne_nil c r))
    (isText_ascii (by decide)) (isText_ascii (by decide)) hhunter hletmein
    (by decide)
  have hruns : redact (ascii "mnemonic=abandon") = some (ascii "mnemonic=[REDACTED]") ∧
      joinDiagnostics (ascii "mnemonic=[REDACTED]")
          ([] ++ assigned (ascii "rpcpassword") (ascii "hunter2")) ≠
        joinDiagnostics (ascii "mnemonic=[REDACTED]")
          ([] ++ assigned (ascii "rpcpassword") (ascii "letmein")) := by decide +kernel
  rw [hruns.1] at hredact
  obtain rfl := Option.some.inj hredact
  exact hruns.2 hsame

end Nigiri.Fixtures
