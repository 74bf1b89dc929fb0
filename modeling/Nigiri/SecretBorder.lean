import Nigiri.AddedSecret

/-! What stands between a key and its value is read alike whatever the value is exchanged for, as
long as that does not begin like a separator, or begins as the value did. -/
namespace Nigiri.Fixtures
open Utf8 AsciiCase Rewrite

/-- Bytes that stand between a key and its value. -/
def isGapByte (b : UInt8) : Bool :=
  isQuote b || isDelimiter b || (isAsciiWhitespace b && !isNewline b)

/-- The same with those of a suffix of the key. -/
def isSeamByte (b : UInt8) : Bool := isGapByte b || (ascii "_-.hex").contains (toAsciiLowercase b)

/-- No separator starts the text. -/
def Plain (t : Bytes) : Prop := ∀ b ∈ t.head?, isGapByte b = false

/-- What may stand in a value's place. -/
def Alike (t t' : Bytes) : Prop := Plain t' ∨ t'.head? = t.head?

/-- What is skipped of a text does not depend on what stands behind it. -/
def Local (f : Bytes → Bytes) : Prop :=
  ∀ {xs ys t t' : Bytes}, f (xs ++ t) = ys ++ t → Alike t t' → f (xs ++ t') = ys ++ t'

/-- Only such bytes are skipped. -/
def Skips (q : UInt8 → Bool) (f : Bytes → Bytes) : Prop :=
  ∀ t, ∃ xs, t = xs ++ f t ∧ ∀ b ∈ xs, q b = true

variable {xs ys t t' start : Bytes} {cliKey d : Bool} {kind : SecretValueKind}

theorem gapByte_cases {b : UInt8} (h : isGapByte b = true) : b ∈ ascii "'\"=: \t" ++ [12] := by
  simp only [isGapByte, isQuote, isDelimiter, isAsciiWhitespace, isNewline, Bool.or_eq_true,
    Bool.and_eq_true, beq_iff_eq] at h
  rcases h with ((rfl | rfl) | rfl | rfl) | ⟨(((rfl | rfl) | rfl) | rfl) | rfl, h⟩ <;>
    first | decide | cases h

theorem gapByte_border {b : UInt8} (h : isGapByte b = true) :
    (∀ anchor ∈ secretAnchors, toAsciiLowercase b ∉ lowered anchor.1) ∧
      ∀ s ∈ hexSuffixes, toAsciiLowercase b ∉ lowered s := by
  have hanchor : ∀ b ∈ ascii "'\"=: \t" ++ [12], isAnchorByte (toAsciiLowercase b) = false := by
    decide
  have hhex : ∀ b ∈ ascii "'\"=: \t" ++ [12], ∀ s ∈ hexSuffixes,
      toAsciiLowercase b ∉ lowered s := by decide
  exact ⟨anchor_border (hanchor b (gapByte_cases h)), hhex b (gapByte_cases h)⟩

/-- A text starting in brackets is plain. -/
theorem plain_bracket (t : Bytes) : Plain (91 :: t) := by
  intro b hb
  cases hb
  decide

theorem skips_dropWhile {p q : UInt8 → Bool} (hp : ∀ b, p b = true → q b = true) :
    Skips q fun t => t.dropWhile p := fun t =>
  ⟨t.takeWhile p, List.takeWhile_append_dropWhile.symm,
    fun b hb => hp b (List.mem_takeWhile_imp hb)⟩

theorem skips_dropQuote : Skips isGapByte dropQuote := by
  intro t
  cases t with
  | nil => exact ⟨[], rfl, by simp⟩
  | cons b r =>
    by_cases hb : isQuote b = true
    · refine ⟨[b], by rw [dropQuote, if_pos hb]; rfl, List.forall_mem_singleton.mpr ?_⟩
      rw [isGapByte, hb, Bool.true_or, Bool.true_or]
    · exact ⟨[], by rw [dropQuote, if_neg hb]; rfl, by simp⟩

theorem isBlank_gap {b : UInt8} (h : isBlank b = true) : isGapByte b = true := by
  rw [isGapByte, (isBlank_plain h).1, Bool.or_true]

theorem isSeparatorBlank_gap {b : UInt8} (h : (isAsciiWhitespace b && !isNewline b) = true) :
    isGapByte b = true := by
  rw [isGapByte, h, Bool.or_true]

theorem isDelimiter_gap {b : UInt8} (h : isDelimiter b = true) : isGapByte b = true := by
  rw [isGapByte, h, Bool.or_true, Bool.true_or]

theorem local_dropWhile {p : UInt8 → Bool} (hp : ∀ b, p b = true → isGapByte b = true) :
    Local fun t => t.dropWhile p := by
  intro xs ys t t' h halike
  simp only at h ⊢
  induction xs with
  | nil =>
    rw [List.nil_append] at h
    have hys : ys = [] := by
      have hlength := (List.dropWhile_suffix p (l := t)).length_le
      rw [h, List.length_append] at hlength
      exact List.length_eq_zero_iff.mp (by omega)
    rw [hys, List.nil_append] at h ⊢
    have hhead : ∀ b ∈ t'.head?, p b = false := by
      intro b hb
      rcases halike with hplain | hsame
      · refine Bool.eq_false_iff.mpr fun hpb => ?_
        have hgap := hp b hpb
        rw [hplain b hb] at hgap
        cases hgap
      · rw [hsame] at hb
        cases t with
        | nil => cases hb
        | cons c r =>
          cases hb
          refine Bool.eq_false_iff.mpr fun hpb => ?_
          have hlength := (List.dropWhile_suffix p (l := r)).length_le
          rw [List.dropWhile_cons_of_pos hpb] at h
          rw [h, List.length_cons] at hlength
          omega
    exact @dropWhile_append_head p [] t' (by simp) hhead
  | cons x xs ih =>
    by_cases hx : p x = true
    · rw [List.cons_append, List.dropWhile_cons_of_pos hx] at h ⊢
      exact ih h
    · rw [List.cons_append, List.dropWhile_cons_of_neg hx] at h ⊢
      have hys : x :: xs = ys := List.append_cancel_right h
      rw [← hys]
      rfl

theorem dropQuote_cons (x : UInt8) (xs t : Bytes) :
    dropQuote (x :: xs ++ t) = dropQuote (x :: xs) ++ t := by
  rw [List.cons_append, dropQuote, dropQuote]
  split <;> rfl

theorem local_dropQuote : Local dropQuote := by
  intro xs ys t t' h halike
  cases xs with
  | nil =>
    rw [List.nil_append] at h ⊢
    have hys : ys = [] := by
      obtain ⟨zs, hzs, -⟩ := skips_dropQuote t
      have hlength := congrArg List.length hzs
      rw [h, List.length_append, List.length_append] at hlength
      exact List.length_eq_zero_iff.mp (by omega)
    rw [hys, List.nil_append] at h ⊢
    refine dropQuote_head fun b hb => Bool.eq_false_iff.mpr fun hquote => ?_
    rcases halike with hplain | hsame
    · have hgap := hplain b hb
      rw [isGapByte, hquote, Bool.true_or, Bool.true_or] at hgap
      cases hgap
    · rw [hsame] at hb
      cases t with
      | nil => cases hb
      | cons c r =>
        cases hb
        rw [dropQuote, if_pos hquote] at h
        have hlength := congrArg List.length h
        rw [List.length_cons] at hlength
        omega
  | cons x xs =>
    rw [dropQuote_cons] at h ⊢
    rw [List.append_cancel_right h]

/-- A suffix of the key is found in front of a gap, whatever stands behind the gap. -/
theorem dropHexSuffix_gap (h : dropHexSuffix (xs ++ t) = ys ++ t) {b : UInt8}
    (hb : ys.head? = some b) (hgap : isGapByte b = true) (t' : Bytes) :
    dropHexSuffix (xs ++ t') = ys ++ t' := by
  have hlength : ∀ s ∈ hexSuffixes, s.length = 4 := by decide
  cases hfind : hexSuffixes.find? fun s => startsIgnoreAsciiCase s (xs ++ t) with
  | none =>
    rw [dropHexSuffix, hfind] at h
    obtain rfl := List.append_cancel_right h
    cases xs with
    | nil => cases hb
    | cons x xs =>
      cases hb
      have hnone : (hexSuffixes.find? fun s => startsIgnoreAsciiCase s (b :: xs ++ t')) = none := by
        refine List.find?_eq_none.mpr fun s hs hstart => ?_
        have hempty : startsIgnoreAsciiCase s [] = true := by
          rw [← inert_of_notMem ((gapByte_border hgap).2 s hs) (xs ++ t') []]
          exact hstart
        have hnil : ∀ s ∈ hexSuffixes, startsIgnoreAsciiCase s [] = false := by decide
        rw [hnil s hs] at hempty
        cases hempty
      rw [dropHexSuffix, hnone]
  | some suffix =>
    have hmem := List.mem_of_find?_eq_some hfind
    have hstart : startsIgnoreAsciiCase suffix (xs ++ t) = true := by
      simpa using List.find?_some hfind
    obtain ⟨found, rest, hsplit, hfound⟩ := startsIgnoreAsciiCase_iff.mp hstart
    have hlen : found.length = suffix.length := by simpa using congrArg List.length hfound
    rw [dropHexSuffix, hfind, hsplit] at h
    simp only [← hlen, List.drop_left] at h
    rw [h, ← List.append_assoc] at hsplit
    obtain rfl := List.append_cancel_right hsplit
    have hsame (more : Bytes) :
        (hexSuffixes.find? fun s => startsIgnoreAsciiCase s (found ++ ys ++ more)) =
          hexSuffixes.find? fun s => startsIgnoreAsciiCase s found := by
      refine List.find?_congr fun s hs => ?_
      rw [List.append_assoc, Bool.eq_iff_iff]
      refine ⟨fun hs' => startsIgnoreAsciiCase_of_length hs' ?_,
        fun hs' => startsIgnoreAsciiCase_append hs' _⟩
      rw [hlength s hs, hlen, hlength suffix hmem]
    rw [hsame] at hfind
    rw [dropHexSuffix, hsame, hfind]
    simp only
    rw [← hlen, List.append_assoc, List.drop_left]

/-- A value is only sought behind a gap. -/
theorem valueAfter_gap (h : valueAfter cliKey t ≠ none) :
    ∃ b r, dropHexSuffix t = b :: r ∧ isGapByte b = true := by
  rw [valueAfter] at h
  cases hafter : dropHexSuffix t with
  | nil =>
    rw [hafter] at h
    exact absurd rfl h
  | cons b r =>
    refine ⟨b, r, rfl, ?_⟩
    by_contra hgap
    rw [isGapByte, Bool.not_eq_true, Bool.or_eq_false_iff, Bool.or_eq_false_iff] at hgap
    have hquote : dropQuote (b :: r) = b :: r := dropQuote_head fun x hx => by
      cases hx
      exact hgap.1.1
    have hblank : skipSeparatorBlanks (b :: r) = b :: r := by
      refine @dropWhile_append_head _ [] _ (by simp) fun x hx => ?_
      cases hx
      exact hgap.2
    rw [hafter] at h
    simp [hquote, hblank, hgap.1.2] at h

/-- Where a command line has its key, every value is found that is found elsewhere. -/
theorem valueAfter_cli (t : Bytes) (d : Bool) :
    valueAfter d t = none ∨ valueAfter d t = valueAfter true t := by
  cases d with
  | true => exact .inr rfl
  | false =>
    simp only [valueAfter, Bool.true_or, Bool.false_or, if_true]
    split
    · exact .inr rfl
    · split
      · exact .inr rfl
      · split
        · exact .inr rfl
        · exact .inl rfl

theorem valueAfter_true (h : valueAfter cliKey t = some start) :
    valueAfter true t = some start := by
  rcases valueAfter_cli t cliKey with hnone | hsame
  · rw [hnone] at h
    cases h
  · rw [← hsame, h]

theorem Local.comp {f g : Bytes → Bytes} {q : UInt8 → Bool} (hf : Local f) (hg : Local g)
    (hskips : Skips q g) : Local fun t => g (f t) := by
  intro xs ys t t' h halike
  simp only at h ⊢
  obtain ⟨zs, hzs, -⟩ := hskips (f (xs ++ t))
  rw [h, ← List.append_assoc] at hzs
  rw [hf hzs halike]
  rw [hzs] at h
  exact hg h halike

theorem Skips.comp {f g : Bytes → Bytes} {q : UInt8 → Bool} (hf : Skips q f) (hg : Skips q g) :
    Skips q fun t => g (f t) := by
  intro t
  obtain ⟨xs, hxs, hx⟩ := hf t
  obtain ⟨ys, hys, hy⟩ := hg (f t)
  refine ⟨xs ++ ys, by rw [List.append_assoc, ← hys, ← hxs], fun b hb => ?_⟩
  exact (List.mem_append.mp hb).elim (hx b) (hy b)

/-- Blanks and a quote in front of a value. -/
def dropOpening (t : Bytes) : Bytes := dropQuote (t.dropWhile isBlank)

theorem skips_dropOpening : Skips isGapByte dropOpening :=
  @Skips.comp (fun t => t.dropWhile isBlank) dropQuote isGapByte
    (skips_dropWhile fun _ => isBlank_gap) skips_dropQuote

theorem local_dropOpening : Local dropOpening :=
  @Local.comp (fun t => t.dropWhile isBlank) dropQuote isGapByte
    (local_dropWhile fun _ => isBlank_gap) local_dropQuote skips_dropQuote

theorem skips_skipSeparatorBlanks : Skips isGapByte skipSeparatorBlanks :=
  skips_dropWhile fun _ => isSeparatorBlank_gap

theorem local_skipSeparatorBlanks : Local skipSeparatorBlanks :=
  local_dropWhile fun _ => isSeparatorBlank_gap

/-- How a value is found: a delimiter stands at the cursor, or blanks in front of it. -/
theorem valueAfter_cases (h : valueAfter cliKey t = some start) :
    ∃ ws cs : Bytes, dropQuote (dropHexSuffix t) = ws ∧ skipSeparatorBlanks ws = cs ∧
      ((∃ c r, cs = c :: r ∧ isDelimiter c = true ∧ dropOpening r = start) ∨
        (cs.head?.any isDelimiter = false ∧ cs.length ≠ ws.length ∧ dropOpening cs = start ∧
          (cliKey || isNumeric cs) = true)) := by
  refine ⟨_, _, rfl, rfl, ?_⟩
  rw [valueAfter] at h
  generalize dropQuote (dropHexSuffix t) = ws at h ⊢
  generalize skipSeparatorBlanks ws = cs at h ⊢
  split at h
  · next hdelim =>
    cases cs with
    | nil => cases hdelim
    | cons c r => exact .inl ⟨c, r, rfl, hdelim, Option.some.inj h⟩
  · next hdelim =>
    split at h
    · cases h
    · next hlength =>
      split at h
      · next hstructured =>
        exact .inr ⟨Bool.not_eq_true _ ▸ hdelim, hlength, Option.some.inj h, hstructured⟩
      · cases h

theorem valueAfter_delimiter {ws : Bytes} {c : UInt8} {r : Bytes}
    (hws : dropQuote (dropHexSuffix t) = ws) (hcs : skipSeparatorBlanks ws = c :: r)
    (hc : isDelimiter c = true) (cliKey : Bool) :
    valueAfter cliKey t = some (dropOpening r) := by
  rw [valueAfter]
  simp only [hws, hcs, List.head?_cons, Option.any_some, hc, if_true]
  rfl

theorem valueAfter_blanks {ws cs : Bytes} (hws : dropQuote (dropHexSuffix t) = ws)
    (hcs : skipSeparatorBlanks ws = cs) (hhead : cs.head?.any isDelimiter = false)
    (hlength : cs.length ≠ ws.length) (hstructured : (cliKey || isNumeric cs) = true) :
    valueAfter cliKey t = some (dropOpening cs) := by
  rw [valueAfter]
  simp only [hws, hcs, hhead, hlength, hstructured, if_false, if_true, Bool.false_eq_true]
  rfl

/-- The gap in front of a value. -/
theorem valueAfter_seam (h : valueAfter cliKey t = some start) :
    ∃ seam, t = seam ++ start ∧ (∀ b ∈ seam, isSeamByte b = true) ∧
      ∃ b ∈ seam, isGapByte b = true := by
  obtain ⟨b, r, hafter, hgap⟩ := valueAfter_gap (by rw [h]; exact Option.some_ne_none _)
  obtain ⟨ws, cs, hws, hcs, hcases⟩ := valueAfter_cases h
  obtain ⟨as, has, ha⟩ := skips_dropQuote (dropHexSuffix t)
  obtain ⟨bs, hbs, hb⟩ := skips_skipSeparatorBlanks ws
  rw [hws] at has
  rw [hcs] at hbs
  obtain ⟨ds, hds, hd, hne⟩ : ∃ ds, ws = ds ++ start ∧ (∀ b ∈ ds, isGapByte b = true) ∧
      ds ≠ [] := by
    rcases hcases with ⟨c, r, rfl, hc, hstart⟩ | ⟨-, hlength, hstart, -⟩
    · obtain ⟨es, hes, he⟩ := skips_dropOpening r
      rw [hstart] at hes
      refine ⟨bs ++ c :: es, by rw [hbs, hes, List.append_assoc]; rfl, fun b hmem => ?_, by simp⟩
      rcases List.mem_append.mp hmem with hmem | hmem
      · exact hb b hmem
      · exact (List.mem_cons.mp hmem).elim (fun e => e ▸ isDelimiter_gap hc) (he b)
    · obtain ⟨es, hes, he⟩ := skips_dropOpening cs
      rw [hstart] at hes
      refine ⟨bs ++ es, by rw [hbs, hes, List.append_assoc], fun b hmem => ?_, fun hnil => ?_⟩
      · exact (List.mem_append.mp hmem).elim (hb b) (he b)
      · rw [(List.append_eq_nil_iff.mp hnil).1, List.nil_append] at hbs
        exact hlength (by rw [← hbs])
  have hseam : ∀ b ∈ as ++ ds, isGapByte b = true := fun b hmem =>
    (List.mem_append.mp hmem).elim (ha b) (hd b)
  rw [hds, ← List.append_assoc] at has
  obtain ⟨x, hx⟩ := List.exists_mem_of_ne_nil _ (List.append_ne_nil_of_right_ne_nil as hne)
  -- what is left is the suffix of the key
  obtain ⟨hex, hhex, hbytes⟩ : ∃ hex, t = hex ++ dropHexSuffix t ∧
      ∀ b ∈ hex, isSeamByte b = true := by
    rw [dropHexSuffix]
    split
    · next suffix hfind =>
      have hstart : startsIgnoreAsciiCase suffix t = true := by simpa using List.find?_some hfind
      obtain ⟨found, rest, rfl, hfound⟩ := startsIgnoreAsciiCase_iff.mp hstart
      have hlen : found.length = suffix.length := by simpa using congrArg List.length hfound
      refine ⟨found, by rw [← hlen, List.drop_left], fun b hmem => ?_⟩
      have hletters : ∀ s ∈ hexSuffixes, ∀ b ∈ lowered s, b ∈ ascii "_-.hex" := by decide
      have hfoundMem : toAsciiLowercase b ∈ lowered found := List.mem_map_of_mem hmem
      have hletter := hletters suffix (List.mem_of_find?_eq_some hfind) _ (hfound ▸ hfoundMem)
      rw [isSeamByte, List.contains_iff_mem.mpr hletter, Bool.or_true]
    · exact ⟨[], rfl, by simp⟩
  refine ⟨hex ++ (as ++ ds), ?_, fun b hmem => ?_, x, List.mem_append_right _ hx, hseam x hx⟩
  · rw [List.append_assoc, ← has, ← hhex]
  · rcases List.mem_append.mp hmem with hmem | hmem
    · exact hbytes b hmem
    · rw [isSeamByte, hseam b hmem, Bool.true_or]

/-- Behind the same separator a value of the same look is found where a command line has its key. -/
theorem valueAfter_exchange (h : valueAfter cliKey (xs ++ t) = some t) (halike : Alike t t') :
    valueAfter true (xs ++ t') = some t' := by
  obtain ⟨b, r, hafter, hgap⟩ := valueAfter_gap (by rw [h]; exact Option.some_ne_none _)
  obtain ⟨ws, cs, hws, hcs, hcases⟩ := valueAfter_cases h
  obtain ⟨as, has, -⟩ := skips_dropQuote (dropHexSuffix (xs ++ t))
  obtain ⟨bs, hbs, -⟩ := skips_skipSeparatorBlanks ws
  rw [hws] at has
  rw [hcs] at hbs
  obtain ⟨zs, rfl, hne⟩ : ∃ zs, cs = zs ++ t ∧ bs ++ zs ≠ [] := by
    rcases hcases with ⟨c, r, rfl, -, hstart⟩ | ⟨-, hlength, hstart, -⟩
    · obtain ⟨es, hes, -⟩ := skips_dropOpening r
      rw [hstart] at hes
      exact ⟨c :: es, by rw [hes]; rfl, by simp⟩
    · obtain ⟨es, hes, -⟩ := skips_dropOpening cs
      rw [hstart] at hes
      refine ⟨es, hes, fun hnil => hlength ?_⟩
      rw [(List.append_eq_nil_iff.mp hnil).1, List.nil_append] at hbs
      rw [← hbs]
  rw [hbs, ← List.append_assoc, ← List.append_assoc] at has
  rw [hbs, ← List.append_assoc] at hws hcs
  have hhead : (as ++ bs ++ zs).head? = some b := by
    have hne' : as ++ bs ++ zs ≠ [] := by
      rw [List.append_assoc]
      exact List.append_ne_nil_of_right_ne_nil as hne
    obtain ⟨x, y, hxy⟩ := List.exists_cons_of_ne_nil hne'
    rw [hafter, hxy] at has
    rw [hxy, (List.cons.inj has).1]
    rfl
  have hhex := dropHexSuffix_gap has hhead hgap t'
  rw [has] at hws
  have hws' := local_dropQuote hws halike
  have hcs' := local_skipSeparatorBlanks hcs halike
  rw [← hhex] at hws'
  rcases hcases with ⟨c, r, hcursor, hc, hstart⟩ | ⟨hdelim, hlength, hstart, -⟩
  · cases zs with
    | nil =>
      -- the value would be a separator
      obtain ⟨es, hes, -⟩ := skips_dropOpening r
      have hlen := congrArg List.length hes
      rw [hstart] at hlen
      rw [List.nil_append] at hcursor
      rw [hcursor, List.length_append, List.length_cons] at hlen
      omega
    | cons x zs =>
      obtain ⟨rfl, rfl⟩ := List.cons.inj hcursor
      have hopening := @local_dropOpening zs [] t t' hstart halike
      exact (valueAfter_delimiter hws' hcs' hc true).trans (congrArg some hopening)
  · have hopening := @local_dropOpening zs [] t t' hstart halike
    rw [valueAfter_blanks hws' hcs' ?_ ?_ rfl, hopening]
    · rfl
    · cases zs with
      | cons x zs => exact hdelim
      | nil =>
        rcases halike with hplain | hsame
        · cases t' with
          | nil => rfl
          | cons y r' =>
            refine Bool.eq_false_iff.mpr fun hy => ?_
            have hgap' := isDelimiter_gap (b := y) hy
            rw [hplain y rfl] at hgap'
            cases hgap'
        · rw [List.nil_append, hsame]
          exact hdelim
    · intro hlen
      refine hlength ?_
      rw [List.length_append, List.length_append, Nat.add_right_cancel_iff] at hlen
      rw [hbs, ← List.append_assoc, List.length_append, List.length_append, hlen]

theorem isNumeric_bracket {t : Bytes} (h : isNumeric (xs ++ 91 :: t) = true) (t' : Bytes) :
    isNumeric (xs ++ t') = true := by
  rw [isNumeric] at h ⊢
  induction xs with
  | nil => cases h
  | cons x xs ih =>
    cases hx : isAsciiWhitespace x with
    | true => simp [hx]
    | false =>
      simp only [List.cons_append, List.takeWhile_cons, hx, Bool.not_false, if_true, List.all_cons,
        Bool.and_eq_true] at h ⊢
      exact ⟨h.1, ih h.2⟩

/-- What is found in front of a bracket is found in front of anything else. -/
theorem valueAfter_bracket {t : Bytes} (h : valueAfter cliKey (xs ++ 91 :: t) ≠ none)
    (t' : Bytes) : valueAfter cliKey (xs ++ t') ≠ none := by
  have hstop : (91 : UInt8) ∈ stoppers := by decide
  obtain ⟨b, r, hafter, hgap⟩ := valueAfter_gap h
  obtain ⟨start, hstart⟩ := Option.ne_none_iff_exists'.mp h
  obtain ⟨ws, cs, hws, hcs, hcases⟩ := valueAfter_cases hstart
  obtain ⟨as, has⟩ := cursor_dropHexSuffix.stops 91 hstop xs
  obtain ⟨x, ys, rfl⟩ : ∃ x ys, as = x :: ys := by
    cases as with
    | nil =>
      rw [has] at hafter
      rw [← (List.cons.inj hafter).1] at hgap
      cases hgap
    | cons x ys => exact ⟨x, ys, rfl⟩
  have hx : isGapByte x = true := by
    rw [has] at hafter
    rw [(List.cons.inj hafter).1]
    exact hgap
  have hhex := dropHexSuffix_gap (has t) rfl hx t'
  rw [has, dropQuote_cons] at hws
  have hws' : dropQuote (dropHexSuffix (xs ++ t')) = dropQuote (x :: ys) ++ t' := by
    rw [hhex, dropQuote_cons]
  generalize dropQuote (x :: ys) = bs at hws hws'
  cases hskip : skipSeparatorBlanks bs with
  | nil =>
    have hblanks (u : Bytes) : skipSeparatorBlanks (bs ++ u) = skipSeparatorBlanks u := by
      rw [skipSeparatorBlanks, List.dropWhile_append, ← skipSeparatorBlanks, hskip]
      rfl
    subst hws
    rw [hblanks] at hcs
    obtain rfl : (91 :: t : Bytes) = cs := hcs
    obtain ⟨c, r, hcursor, hc, -⟩ | ⟨-, hlength, -, hstructured⟩ := hcases
    · rw [← (List.cons.inj hcursor).1] at hc
      cases hc
    · have hcli : cliKey = true := by
        cases cliKey with
        | true => rfl
        | false => cases hstructured
      have hskipped : (skipSeparatorBlanks t').length ≤ t'.length :=
        (List.dropWhile_suffix _).length_le
      have hshorter : (skipSeparatorBlanks t').length ≠ (bs ++ t').length := by
        rw [List.length_append] at hlength ⊢
        omega
      rw [← hblanks] at hshorter
      cases hhead : (skipSeparatorBlanks (bs ++ t')).head?.any isDelimiter with
      | true =>
        cases hcursor : skipSeparatorBlanks (bs ++ t') with
        | nil =>
          rw [hcursor] at hhead
          cases hhead
        | cons c r =>
          rw [hcursor] at hhead
          rw [valueAfter_delimiter hws' hcursor hhead]
          exact Option.some_ne_none _
      | false =>
        rw [valueAfter_blanks hws' rfl hhead hshorter (by rw [hcli]; rfl)]
        exact Option.some_ne_none _
  | cons y zs =>
    have hblanks (u : Bytes) : skipSeparatorBlanks (bs ++ u) = y :: zs ++ u := by
      rw [skipSeparatorBlanks, List.dropWhile_append, ← skipSeparatorBlanks, hskip]
      rfl
    subst hws
    rw [hblanks] at hcs
    obtain rfl := hcs
    obtain ⟨c, r, hcursor, hc, -⟩ | ⟨hhead, hlength, -, hstructured⟩ := hcases
    · obtain ⟨rfl, -⟩ := List.cons.inj hcursor
      rw [valueAfter_delimiter hws' (hblanks t') hc]
      exact Option.some_ne_none _
    · have hlength' : (y :: zs ++ t').length ≠ (bs ++ t').length := by
        rw [List.length_append, List.length_append] at hlength ⊢
        omega
      have hstructured' : (cliKey || isNumeric (y :: zs ++ t')) = true := by
        cases cliKey with
        | true => rfl
        | false => exact isNumeric_bracket hstructured t'
      rw [valueAfter_blanks hws' (hblanks t') hhead hlength' hstructured']
      exact Option.some_ne_none _

end Nigiri.Fixtures
