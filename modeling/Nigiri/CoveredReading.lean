import Nigiri.CoveredCells
import Nigiri.StandingMarkers

/-! What redaction makes of a text is what the reader sees of it when every private key block reads
as its marker, and the secrets and the fixed patterns are covered. -/
namespace Nigiri.Fixtures
open Utf8 AsciiCase Rewrite Masking

def patternStep (pattern : Bytes) : Step Cell Unit := fun _ c r =>
  if pattern.isPrefixOf (sight (c :: r)) then
    ⟨cover ((c :: r).take pattern.length), pattern.length - 1, ()⟩
  else ⟨[c], 0, ()⟩

def coverPattern (pattern : Bytes) (cs : List Cell) : List Cell :=
  rewrite (patternStep pattern) () cs

def coverPatterns (cs : List Cell) : List Cell :=
  redactionPatterns.foldl (fun cs pair => coverPattern pair.1 cs) cs

/-- A private key block is not covered but reads as its marker: in a label that still says private
key, and as a value that says redacted. -/
def markStep : Step Cell Unit := fun _ c r =>
  match keyBlockAt (sight (c :: r)) with
  | none => ⟨[c], 0, ()⟩
  | some (label, body) =>
    let blockEnd := (afterBlock label body).getD []
    ⟨uncovered (redaction ((c :: r).length - blockEnd.length) redactedPrivateKey),
      r.length - blockEnd.length, ()⟩

def markKeyBlocks (cs : List Cell) : List Cell := rewrite markStep () cs

/-- The text as its reader has it: the private key blocks marked, the values of the secrets and the
fixed patterns covered. -/
def coverText (t : Bytes) : List Cell := coverPatterns (coverSecrets (markKeyBlocks (uncovered t)))

/-- One bracket or more stand for a marker. -/
def Brackets (hidden _ mask : Bytes) : Prop :=
  hidden ≠ [] ∧ (∀ b ∈ hidden, b = 91) ∧ IsMarker mask

/-- A marker is read as brackets. -/
def Markers (hidden _ mask : Bytes) : Prop :=
  IsMarker hidden ∧ ∃ m, mask = 91 :: m ∧ ∀ b ∈ m, b = 91

variable {cliKey d : Bool} {kind : SecretValueKind} {cs hidden : List Cell} {t marker w : Bytes}
  {pair : Bytes × Bytes}

theorem isMarker_redaction (n : Nat) : IsMarker (redaction n redacted) := by
  obtain ⟨stars, hmarker, hstars⟩ := redaction_redacted n
  have hcapital : ∀ b ∈ redactedPrefix ++ [93], toAsciiUppercase b ≠ 80 := by decide
  have hfirst : ∀ pair ∈ redactionPatterns, ∀ b ∈ pair.1.head?, b ∉ redactedPrefix ++ [93, 42] := by
    decide
  rw [hmarker]
  refine ⟨⟨redacted_plain hstars, fun c r hr more => redacted_anchors hstars hr more⟩,
    List.prefix_append _ _, ⟨93, by simp, by decide⟩, fun b hb => ?_, fun pair hpair a ha hb => ?_⟩
  · rw [← List.singleton_append, ← List.append_assoc] at hb
    cases List.mem_append.mp hb with
    | inl hb => exact hcapital b hb
    | inr hb =>
      rw [hstars b hb]
      decide
  · refine hfirst pair hpair a ha ?_
    cases List.mem_append.mp hb with
    | inl hb => exact List.mem_append_left _ hb
    | inr hb =>
      refine List.mem_append_right _ ?_
      cases List.mem_cons.mp hb with
      | inl hb => exact hb ▸ List.mem_cons_self
      | inr hb => exact hstars a hb ▸ List.mem_cons_of_mem _ List.mem_cons_self

theorem isMarker_pattern (hpair : pair ∈ redactionPatterns) : IsMarker pair.2 := by
  have hall : ∀ pair ∈ redactionPatterns, redactedPrefix.isPrefixOf pair.2 = true ∧
      (∃ b ∈ pair.2, terminates .token b = true) ∧
      (∀ b ∈ pair.2, isDash b = false ∧ isNewline b = false) ∧
      (∀ b ∈ pair.2, toAsciiUppercase b ≠ 80) ∧
      ∀ other ∈ redactionPatterns, ∀ b ∈ other.1.head?, b ∉ pair.2 := by decide
  obtain ⟨hmarked, hbounded, hplain, hcapital, hfirst⟩ := hall pair hpair
  exact ⟨⟨hplain, fun c r hr more => anchorAt_within hpair (.inr hr) more⟩,
    List.isPrefixOf_iff_prefix.mp hmarked, hbounded, hcapital, hfirst⟩

theorem markKeyBlocks_uncovered (t : Bytes) :
    markKeyBlocks (uncovered t) = uncovered (scanKeyBlocks t) := by
  induction (), t using places_induction keyBlockStep with
  | nil => rfl
  | cons s c r ih =>
    have hsight : sight (uncovered (c :: r)) = c :: r := sight_uncovered (c :: r)
    have hcons : uncovered (c :: r) = (c, false) :: uncovered r := rfl
    have hdrop (n : Nat) : (uncovered r).drop n = uncovered (r.drop n) := List.map_drop.symm
    rw [hcons] at hsight ⊢
    rw [markKeyBlocks, scanKeyBlocks, rewrite_cons, rewrite_cons, markStep, keyBlockStep, hsight]
    rw [keyBlockStep] at ih
    cases hblock : keyBlockAt (c :: r) with
    | none =>
      rw [hblock] at ih
      exact congrArg _ ih
    | some block =>
      obtain ⟨label, body⟩ := block
      rw [hblock] at ih
      simp only [List.length_cons, uncovered_length, hdrop, uncovered_append] at ih ⊢
      exact congrArg _ ih

theorem cover_covered (cs : List Cell) : ∀ c ∈ cover cs, c.2 = true := by
  intro c hc
  obtain ⟨c, -, rfl⟩ := List.mem_map.mp hc
  rfl

theorem readValue_uncovered (kind : SecretValueKind) (t : Bytes) :
    readValue kind (uncovered t) = uncovered (valueOf kind t) ∧
      (uncovered t).dropWhile (fun c => !endsRead kind c) =
        uncovered (t.dropWhile fun b => !terminates kind b) := by
  induction t with
  | nil => exact ⟨rfl, rfl⟩
  | cons b t ih =>
    have hcons : uncovered (b :: t) = (b, false) :: uncovered t := rfl
    rw [hcons, readValue, valueOf, List.takeWhile_cons, List.takeWhile_cons, List.dropWhile_cons,
      List.dropWhile_cons, endsRead_shown]
    by_cases hb : (!terminates kind b) = true
    · rw [if_pos hb, if_pos hb, if_pos hb, if_pos hb]
      exact ⟨congrArg _ ih.1, ih.2⟩
    · rw [if_neg hb, if_neg hb, if_neg hb, if_neg hb]
      exact ⟨rfl, rfl⟩

theorem leaves_uncovered (kind : SecretValueKind) (t : Bytes) : leaves kind (uncovered t) =
    ((valueOf kind t).isEmpty || redactedPrefix.isPrefixOf (valueOf kind t)) :=
  (depicts_uncovered t).leaves kind

/-- What the scan makes of a text is what its reader sees when it has covered the secrets. -/
theorem depicts_read (d : Bool) (t : Bytes) :
    Depicts (rewrite readStep d (uncovered t)) (scanAnchored d t) := by
  induction d, t using places_induction anchoredStep with
  | nil => exact .nil
  | cons d c r ih =>
    have hcons : uncovered (c :: r) = (c, false) :: uncovered r := rfl
    cases hsecret : secretAt d (c :: r) with
    | none =>
      have hread : secretAt d (sight (uncovered (c :: r))) = none := by
        rw [sight_uncovered, hsecret]
      rw [anchoredStep_none hsecret, List.drop_zero] at ih
      rw [hcons] at hread ⊢
      rw [scan_copy hsecret, rewrite_cons, readStep_none hread, List.drop_zero]
      exact .shown c ih
    | some p =>
      obtain ⟨kind, start⟩ := p
      obtain ⟨header, hsplit, hheader, -⟩ := secretAt_some hsecret
      rw [anchoredStep_some hsecret hsplit] at ih
      simp only [(secret_consumed hsecret hsplit).2] at ih
      obtain ⟨hvalue, hrest⟩ := readValue_uncovered kind start
      have hcells : (c, false) :: uncovered r = uncovered header ++ uncovered start := by
        rw [← hcons, hsplit, uncovered_append]
      have hread : secretAt d (sight ((c, false) :: uncovered r)) =
          some (kind, sight (uncovered start)) := by
        rw [← hcons, sight_uncovered, sight_uncovered, hsecret]
      have hconsumed : (c, false) :: uncovered r =
          uncovered header ++ readValue kind (uncovered start) ++
            (uncovered start).dropWhile fun c => !endsRead kind c := by
        rw [List.append_assoc, readValue_split, hcells]
      have hne : uncovered header ++ readValue kind (uncovered start) ≠ [] :=
        List.append_ne_nil_of_left_ne_nil (fun hnil => hheader (List.map_eq_nil_iff.mp hnil)) _
      rw [hsplit] at hsecret
      rw [hcons, rewrite_cons, readStep_some hcells hread, hsplit, scan_secret hsecret]
      simp only [(consumed hconsumed hne).2]
      rw [hrest, hvalue, leaves_uncovered, sight_append, sight_uncovered, sight_uncovered,
        List.append_assoc, List.append_assoc]
      refine Depicts.append_left ?_ header
      by_cases hkept : ((valueOf kind start).isEmpty ||
          redactedPrefix.isPrefixOf (valueOf kind start)) = true
      · rw [if_pos hkept, (renderValue_iff _).mpr hkept]
        exact ih.append_left _
      · rw [if_neg hkept, renderValue, if_neg hkept]
        refine .covered (fun hnil => hkept ?_) (cover_covered _) (isMarker_redaction _) ih
        rw [List.isEmpty_iff.mpr (List.map_eq_nil_iff.mp (List.map_eq_nil_iff.mp hnil))]
        rfl

theorem coverPattern_cons {c : Cell} {r : List Cell} (h : ¬ w <+: sight (c :: r)) :
    coverPattern w (c :: r) = c :: coverPattern w r := by
  have hstep (s : Unit) : patternStep w s c r = ⟨[c], 0, ()⟩ := by
    rw [patternStep, if_neg (mt List.isPrefixOf_iff_prefix.mp h)]
  rw [coverPattern, rewrite_cons, hstep]
  rfl

theorem coverPattern_found (hw : w ≠ []) (cs : List Cell) :
    coverPattern w (uncovered w ++ cs) = cover (uncovered w) ++ coverPattern w cs := by
  have hne : uncovered w ≠ [] := fun hnil => hw (List.map_eq_nil_iff.mp hnil)
  have hsight : w <+: sight (uncovered w ++ cs) := by
    rw [sight_append, sight_uncovered]
    exact List.prefix_append _ _
  have htake : (uncovered w ++ cs).take w.length = uncovered w := by
    rw [← uncovered_length, List.take_left]
  cases hcells : uncovered w ++ cs with
  | nil => exact absurd (List.append_eq_nil_iff.mp hcells).1 hne
  | cons c r =>
    rw [hcells] at hsight htake
    have hstep (s : Unit) :
        patternStep w s c r = ⟨cover (uncovered w), w.length - 1, ()⟩ := by
      rw [patternStep, if_pos (List.isPrefixOf_iff_prefix.mpr hsight), htake]
    have hdrop := (consumed hcells.symm hne).2
    rw [uncovered_length] at hdrop
    rw [coverPattern, rewrite_cons, hstep]
    simp only [hdrop]
    rfl

theorem coverPattern_covered (hw : w ≠ []) (hbracket : 91 ∉ w)
    (hcovered : ∀ c ∈ hidden, c.2 = true) (cs : List Cell) :
    coverPattern w (hidden ++ cs) = hidden ++ coverPattern w cs := by
  induction hidden with
  | nil => rfl
  | cons c r ih =>
    obtain ⟨hc, hr⟩ := List.forall_mem_cons.mp hcovered
    have hunread : ¬ w <+: sight (c :: (r ++ cs)) := by
      intro hstart
      obtain ⟨a, w, rfl⟩ := List.exists_cons_of_ne_nil hw
      have hsight : sight (c :: (r ++ cs)) = 91 :: sight (r ++ cs) := by
        rw [sight, List.map_cons, hc]
        rfl
      rw [hsight] at hstart
      exact hbracket ((List.cons_prefix_cons.mp hstart).1 ▸ List.mem_cons_self)
    rw [List.cons_append, coverPattern_cons hunread, ih hr]
    rfl

theorem Depicts.coverPattern (hpair : pair ∈ redactionPatterns) (h : Depicts cs t) :
    Depicts (coverPattern pair.1 cs) (replaceAll pair.1 pair.2 t) := by
  obtain ⟨-, hbytes, -, hne, -⟩ := patterns_plain pair hpair
  have hbracket : 91 ∉ pair.1 := fun hmem => (hbytes 91 hmem).2 rfl
  induction hn : cs.length using Nat.strong_induction_on generalizing cs t with
  | _ n ih =>
    cases h with
    | nil => exact .nil
    | @shown b cs t h =>
      have hall : Depicts ((b, false) :: cs) (b :: t) := .shown b h
      by_cases hp : pair.1 <+: b :: t
      · obtain ⟨cs', t', hcells, htext, hrest⟩ := hall.beginning hbracket (.inl hp)
        rw [hcells, htext, coverPattern_found hne, replaceAll_found _ hne]
        have hpos := List.length_pos_iff.mpr hne
        rw [hcells, List.length_append, uncovered_length] at hn
        refine .covered ?_ (cover_covered _) (isMarker_pattern hpair)
          (ih cs'.length (by omega) hrest rfl)
        exact fun hnil => hne (List.map_eq_nil_iff.mp (List.map_eq_nil_iff.mp hnil))
      · have hunread : ¬ pair.1 <+: sight ((b, false) :: cs) := by
          intro hstart
          obtain ⟨-, t', -, htext, -⟩ := hall.beginning hbracket (.inr hstart)
          exact hp (htext ▸ List.prefix_append _ _)
        rw [coverPattern_cons hunread, replaceAll_cons _ hp]
        exact .shown b (ih cs.length (by rw [← hn]; exact Nat.lt_succ_self _) h rfl)
    | @covered hidden marker hne' hcovered hmarker cs t h =>
      have hcopy : replaceAll pair.1 pair.2 (marker ++ t) =
          marker ++ replaceAll pair.1 pair.2 t := by
        refine replaceAll_copy _ marker t fun c r hr hstart => ?_
        obtain ⟨a, w, hword⟩ := List.exists_cons_of_ne_nil hne
        rw [hword] at hstart
        have hc := (List.cons_prefix_cons.mp hstart).1
        refine hmarker.unmatched pair hpair a (by rw [hword]; rfl) ?_
        exact hc ▸ hr.subset List.mem_cons_self
      have hpos := List.length_pos_iff.mpr hne'
      rw [List.length_append] at hn
      rw [coverPattern_covered hne hbracket hcovered, hcopy]
      exact .covered hne' hcovered hmarker (ih cs.length (by omega) h rfl)

/-- What redaction makes of a text is what is seen of it when it is covered. -/
theorem depicts_coverText (t : Bytes) : Depicts (coverText t) (redactedText t) := by
  have key : ∀ pairs : List (Bytes × Bytes), (∀ pair ∈ pairs, pair ∈ redactionPatterns) →
      ∀ cs t, Depicts cs t → Depicts (pairs.foldl (fun cs pair => coverPattern pair.1 cs) cs)
        (pairs.foldl (fun text pair => replaceAll pair.1 pair.2 text) t) := by
    intro pairs
    induction pairs with
    | nil => exact fun _ _ _ h => h
    | cons pair pairs ih =>
      intro hmem cs t h
      exact ih (fun p hp => hmem p (List.mem_cons_of_mem _ hp)) _ _
        (h.coverPattern (hmem pair List.mem_cons_self))
  rw [coverText, markKeyBlocks_uncovered]
  exact key redactionPatterns (fun _ hp => hp) _ _ (depicts_read false (scanKeyBlocks t))

theorem IsMarker.ne_nil (h : IsMarker marker) : marker ≠ [] := by
  obtain ⟨m, rfl⟩ := h.bracket
  exact List.cons_ne_nil 91 m

theorem IsMarker.noDash (h : IsMarker marker) : ∀ b ∈ marker, b ≠ 45 := by
  intro b hb hdash
  have hplain := (h.plain b hb).1
  rw [hdash] at hplain
  cases hplain

theorem bracketed_brackets : Bracketed Brackets where
  covering := fun ⟨hne, _⟩ => hne
  marked := fun ⟨_, _, hmarker⟩ => hmarker.bracket
  plain := fun ⟨_, _, hmarker⟩ b hb => ⟨hmarker.noDash b hb, hmarker.capital b hb⟩

theorem bracketed_markers : Bracketed Markers where
  covering := fun ⟨hmarker, _⟩ => hmarker.ne_nil
  marked := fun ⟨_, m, hmask, _⟩ => ⟨m, hmask⟩
  plain := by
    rintro hidden rest mask ⟨-, m, rfl, hm⟩ b hb
    have hbracket : b = 91 := by
      cases List.mem_cons.mp hb with
      | inl hb => exact hb
      | inr hb => exact hm b hb
    rw [hbracket]
    decide

theorem Depicts.masked (h : Depicts cs t) : Masked Brackets (sight cs) t := by
  induction h with
  | nil => exact .nil
  | shown b h ih => exact .copy b ih
  | @covered hidden marker hne hcovered hmarker cs t h ih =>
    rw [sight_append]
    refine .mask (sight hidden) marker ⟨fun hnil => hne ?_, sight_covered hcovered, hmarker⟩ ih
    exact List.map_eq_nil_iff.mp hnil

theorem Depicts.unmasked (h : Depicts cs t) : Masked Markers t (sight cs) := by
  induction h with
  | nil => exact .nil
  | shown b h ih => exact .copy b ih
  | @covered hidden marker hne hcovered hmarker cs t h ih =>
    obtain ⟨b, r, rfl, hr⟩ := covered_cons hne hcovered
    rw [sight_append]
    exact .mask marker (91 :: sight r) ⟨hmarker, _, rfl, sight_covered hr⟩ ih

/-- The same key blocks are read in what a text shows and in what depicts it. -/
theorem Depicts.noKeyBlock_iff (h : Depicts cs t) : NoKeyBlock t ↔ NoKeyBlock (sight cs) := by
  constructor
  · intro hnone
    refine noKeyBlock_masked bracketed_markers hnone (not_coversClosing ?_ t) h.unmasked
    exact fun ⟨hmarker, _⟩ => ⟨hmarker.ne_nil, hmarker.noDash⟩
  · intro hnone
    refine noKeyBlock_masked bracketed_brackets hnone (not_coversClosing ?_ _) h.masked
    rintro hidden rest mask ⟨hne, hbrackets, -⟩
    refine ⟨hne, fun b hb => ?_⟩
    rw [hbrackets b hb]
    decide

end Nigiri.Fixtures
