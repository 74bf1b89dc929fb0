import Nigiri.CoveredText

/-! Texts that the anchored scan leaves as they are, and when what it makes of a text is one. -/
namespace Nigiri.Fixtures
open Utf8 AsciiCase Rewrite

/-- None of the fixed patterns occurs in the text. -/
def Unmatched (t : Bytes) : Prop := ∀ pair ∈ redactionPatterns, ¬ pair.1 <:+: t

/-- A value that is gone or redacted, up to what ends it. -/
structure ShownValue (kind : SecretValueKind) (secret rest : Bytes) : Prop where
  shown : secret = [] ∨ redactedPrefix <+: secret
  unterminated : ∀ b ∈ secret, terminates kind b = false
  ends : EndsValue kind rest
  unmatched : kind = .token → Unmatched secret

/-- A text in which every value the scan comes to is gone or redacted. -/
inductive Stable : Bool → Bytes → Prop where
  | nil (cliKey : Bool) : Stable cliKey []
  | copy {cliKey : Bool} {b : UInt8} {t : Bytes} (hnone : secretAt cliKey (b :: t) = none)
    (h : Stable (lineDash cliKey b) t) : Stable cliKey (b :: t)
  | value {cliKey : Bool} {kind : SecretValueKind} {header secret rest : Bytes}
    (hsecret : secretAt cliKey (header ++ (secret ++ rest)) = some (kind, secret ++ rest))
    (hvalue : ShownValue kind secret rest)
    (h : Stable ((header ++ secret).foldl lineDash cliKey) rest) :
    Stable cliKey (header ++ (secret ++ rest))

/-- The scan together with whether what it has emitted of the line has a dash. -/
def shownStep : Step UInt8 (Bool × Bool) := fun s c r =>
  let piece := anchoredStep s.1 c r
  ⟨piece.emitted, piece.extra, (piece.next, piece.emitted.foldl lineDash s.2)⟩

/-- A redacted value that the scan passes over is found again by what is left of its line, and the
fixed patterns do not cut it. -/
def PassedAlike (s : Bool × Bool) (t : Bytes) : Prop :=
  ∀ kind start, secretAt s.1 t = some (kind, start) → redactedPrefix <+: valueOf kind start →
    secretAt s.2 t = some (kind, start) ∧ (kind = .token → Unmatched (valueOf kind start))

variable {cliKey d : Bool} {kind : SecretValueKind} {header secret start rest t : Bytes}

theorem ShownValue.render (h : ShownValue kind secret rest) : renderValue secret = secret := by
  rw [renderValue, if_pos]
  rcases h.shown with rfl | hmarked
  · rfl
  · rw [List.isPrefixOf_iff_prefix.mpr hmarked, Bool.or_true]

theorem Stable.scan (h : Stable cliKey t) : scanAnchored cliKey t = t := by
  induction h with
  | nil => rfl
  | copy hnone h ih => rw [scan_copy hnone, ih]
  | value hsecret hvalue h ih =>
    obtain ⟨hvalueOf, hrest⟩ := valueOf_secret hvalue.unterminated hvalue.ends
    rw [scan_secret hsecret, hvalueOf, hrest, ih, hvalue.render, List.append_assoc]

theorem secretAt_noAnchor (h : anchorAt t = none) : secretAt cliKey t = none := by
  rw [secretAt, h]
  rfl

theorem stable_copies {xs : Bytes}
    (h : ∀ c r, c :: r <:+ xs → anchorAt (c :: r ++ t) = none)
    (hstable : Stable (xs.foldl lineDash cliKey) t) : Stable cliKey (xs ++ t) := by
  induction xs generalizing cliKey with
  | nil => exact hstable
  | cons c r ih =>
    have hnone : secretAt cliKey (c :: r ++ t) = none := secretAt_noAnchor (h c r List.suffix_rfl)
    exact .copy hnone (ih (fun c' r' hr => h c' r' (hr.trans (List.suffix_cons c r))) hstable)

/-- Behind a stretch in which no anchor begins the text is stable too. -/
theorem Stable.behind {xs : Bytes} (hstable : Stable cliKey (xs ++ t))
    (h : ∀ c r, c :: r <:+ xs → anchorAt (c :: r ++ t) = none) :
    Stable (xs.foldl lineDash cliKey) t := by
  induction xs generalizing cliKey with
  | nil => exact hstable
  | cons c r ih =>
    have hnone : secretAt cliKey (c :: r ++ t) = none := secretAt_noAnchor (h c r List.suffix_rfl)
    generalize hu : c :: r ++ t = u at hstable hnone
    cases hstable with
    | nil => cases hu
    | copy hcopy hrest =>
      obtain ⟨rfl, rfl⟩ := List.cons.inj hu
      exact ih hrest fun c' r' hr => h c' r' (hr.trans (List.suffix_cons c r))
    | value hsecret =>
      rw [hnone] at hsecret
      cases hsecret

/-- However much of a key is read as one, its value is the same, and stable if it is. -/
theorem stable_header (h : secretAt cliKey (header ++ start) = some (kind, start))
    (halike : Alike start (secret ++ rest)) (hvalue : ShownValue kind secret rest)
    (hbehind : Stable ((header ++ secret).foldl lineDash d) rest)
    (hcopied : Stable (header.foldl lineDash d) (secret ++ rest)) :
    Stable d (header ++ (secret ++ rest)) := by
  have key : ∀ u d, u <:+ header → Stable ((u ++ secret).foldl lineDash d) rest →
      Stable (u.foldl lineDash d) (secret ++ rest) → Stable d (u ++ (secret ++ rest)) := by
    intro u
    induction u with
    | nil => exact fun _ _ _ hcopied => hcopied
    | cons c r ih =>
      intro d hu hbehind hcopied
      cases hinner : secretAt d (c :: r ++ (secret ++ rest)) with
      | none => exact .copy hinner (ih _ ((List.suffix_cons c r).trans hu) hbehind hcopied)
      | some p =>
        obtain ⟨other, start'⟩ := p
        obtain ⟨rfl, rfl⟩ := secretAt_within h halike hu hinner
        exact .value hinner hvalue hbehind
  exact key header d List.suffix_rfl hbehind hcopied

/-- A value in brackets may be exchanged for another one. -/
theorem secretAt_bracket {t : Bytes}
    (h : secretAt cliKey (header ++ 91 :: t) = some (kind, 91 :: t)) (t' : Bytes) :
    secretAt cliKey (header ++ 91 :: t') = some (kind, 91 :: t') := by
  have hstop : (91 : UInt8) ∈ stoppers := by decide
  obtain ⟨o, ho⟩ := secretAt_stopper hstop cliKey header
  rw [ho] at h ⊢
  obtain ⟨p, rfl, hp⟩ := Option.map_eq_some_iff.mp h
  obtain ⟨hkind, hstart⟩ := Prod.mk.inj hp
  have hstart : p.2 ++ 91 :: t = [] ++ 91 :: t := hstart
  have hnil := List.append_cancel_right hstart
  rw [Option.map_some, hkind, hnil]
  rfl

theorem terminator_border (kind : SecretValueKind) (b : UInt8) (hb : terminates kind b = true) :
    ∀ anchor ∈ secretAnchors, toAsciiLowercase b ∉ lowered anchor.1 := by
  have hall : ∀ b ∈ tokenValueTerminators, isAnchorByte (toAsciiLowercase b) = false := by decide
  refine anchor_border ?_
  cases kind with
  | token => exact hall b (List.contains_iff_mem.mp hb)
  | line =>
    simp only [terminates, isNewline, Bool.or_eq_true, beq_iff_eq] at hb
    rcases hb with rfl | rfl
    · exact hall 13 (by decide)
    · exact hall 10 (by decide)

/-- What ends a value is left as it is. -/
theorem scan_head (h : EndsValue kind t) (cliKey : Bool) :
    (scanAnchored cliKey t).head? = t.head? := by
  cases t with
  | nil => rfl
  | cons b r =>
    have hnone : secretAt cliKey (b :: r) = none :=
      secretAt_noAnchor (anchorAt_first (terminator_border kind b (h b rfl)) r)
    rw [scan_copy hnone]
    rfl

theorem endsValue_dropWhile (kind : SecretValueKind) (start : Bytes) :
    EndsValue kind (start.dropWhile fun b => !terminates kind b) := by
  intro b hb
  have hfalse := List.head?_dropWhile_not (fun b => !terminates kind b) start
  rw [Option.mem_def.mp hb] at hfalse
  simpa using hfalse

theorem EndsValue.congr {t' : Bytes} (h : EndsValue kind t) (hhead : t'.head? = t.head?) :
    EndsValue kind t' := by
  intro b hb
  exact h b (hhead ▸ hb)

theorem foldl_lineDash_mono (h : d = true → cliKey = true) (xs : Bytes) :
    xs.foldl lineDash d = true → xs.foldl lineDash cliKey = true := by
  induction xs generalizing d cliKey with
  | nil => exact h
  | cons x xs ih =>
    refine ih fun hx => ?_
    rw [lineDash, Bool.and_eq_true, Bool.or_eq_true] at hx ⊢
    exact ⟨hx.1, hx.2.imp_left h⟩

theorem foldl_lineDash_line {xs : Bytes} (h : ∀ b ∈ xs, isNewline b = false) :
    xs.foldl lineDash true = true := by
  induction xs with
  | nil => rfl
  | cons x xs ih =>
    obtain ⟨hx, hxs⟩ := List.forall_mem_cons.mp h
    rw [List.foldl_cons, lineDash, hx]
    exact ih hxs

/-- A redacted value, with its marker cut where a token ends. -/
theorem redaction_redacted (n : Nat) : ∃ stars, redaction n redacted =
    redactedPrefix ++ 93 :: stars ∧ ∀ b ∈ stars, b = 42 :=
  ⟨List.replicate (n - redacted.length) 42, rfl, fun _ hb => (List.mem_replicate.mp hb).2⟩

theorem redacted_anchors {stars : Bytes} (hstars : ∀ b ∈ stars, b = 42) {c : UInt8} {r : Bytes}
    (hr : c :: r <:+ redactedPrefix ++ 93 :: stars) (t : Bytes) :
    anchorAt (c :: r ++ t) = none := anchorAt_marker (by decide +kernel) hstars hr t

theorem redacted_plain {stars : Bytes} (hstars : ∀ b ∈ stars, b = 42) :
    ∀ b ∈ redactedPrefix ++ 93 :: stars, isDash b = false ∧ isNewline b = false := by
  have hmarker : ∀ b ∈ redactedPrefix ++ [93], isDash b = false ∧ isNewline b = false := by decide
  intro b hb
  rw [← List.singleton_append, ← List.append_assoc] at hb
  rcases List.mem_append.mp hb with hb | hb
  · exact hmarker b hb
  · rw [hstars b hb]
    decide

/-- In front of a mask the scanned text agrees with the text. -/
theorem covert_scan (cliKey : Bool) (t : Bytes) : Covert t (scanAnchored cliKey t) := by
  induction cliKey, t using places_induction anchoredStep with
  | nil => exact .refl []
  | cons cliKey c r ih =>
    cases hsecret : secretAt cliKey (c :: r) with
    | none =>
      rw [anchoredStep_none hsecret] at ih
      rw [scan_copy hsecret]
      exact ih.append_left [c]
    | some p =>
      obtain ⟨kind, start⟩ := p
      obtain ⟨header, hsplit, -⟩ := secretAt_some hsecret
      rw [anchoredStep_some hsecret hsplit] at ih
      simp only [(secret_consumed hsecret hsplit).2] at ih
      rw [hsplit] at hsecret ⊢
      rw [scan_secret hsecret]
      have hvalue := value_split kind start
      by_cases hkept : renderValue (valueOf kind start) = valueOf kind start
      · have hcovert := ih.append_left (header ++ valueOf kind start)
        rw [List.append_assoc, hvalue] at hcovert
        rw [hkept]
        exact hcovert
      · obtain ⟨found, seam, rfl, -, -, -, -, g, hg, hgap⟩ := secretAt_header hsecret
        obtain ⟨front, back, rfl⟩ := List.append_of_mem hg
        have hmasked : ∃ t, renderValue (valueOf kind start) = 91 :: t := by
          rw [renderValue] at hkept ⊢
          split at hkept
          · exact absurd rfl hkept
          · next hempty => exact ⟨_, by rw [if_neg hempty]; rfl⟩
        obtain ⟨t, ht⟩ := hmasked
        refine .inr ⟨_, start, t ++ _, rfl, by rw [ht, List.append_assoc]; rfl, fun xs => ?_⟩
        have hborder := (gapByte_border hgap).1
        have hshape (u : Bytes) : xs ++ (found ++ (front ++ g :: back) ++ u) =
            (xs ++ found ++ front) ++ g :: (back ++ u) := by
          simp only [List.append_assoc, List.cons_append]
        have hend := hshape []
        rw [List.append_nil] at hend
        rw [hshape, hend, anchorAt_border hborder, anchorAt_border hborder]

theorem renderValue_cases (secret : Bytes) : renderValue secret = secret ∧
      (secret = [] ∨ redactedPrefix <+: secret) ∨
    ∃ stars, renderValue secret = redactedPrefix ++ 93 :: stars ∧ ∀ b ∈ stars, b = 42 := by
  rw [renderValue]
  split
  · next h =>
    refine .inl ⟨rfl, ?_⟩
    rw [Bool.or_eq_true, List.isEmpty_iff, List.isPrefixOf_iff_prefix] at h
    exact h
  · exact .inr (redaction_redacted secret.length)

theorem valueOf_line (kind : SecretValueKind) (start : Bytes) :
    ∀ b ∈ valueOf kind start, terminates kind b = false := by
  intro b hb
  simpa using List.mem_takeWhile_imp hb

/-- What the line has shown of a dash, it has. -/
theorem foldl_renderValue (h : d = true → cliKey = true) (header start : Bytes)
    (kind : SecretValueKind)
    (hshown : (header ++ renderValue (valueOf kind start)).foldl lineDash d = true) :
    (header ++ valueOf kind start).foldl lineDash cliKey = true := by
  rcases renderValue_cases (valueOf kind start) with ⟨hsame, -⟩ | ⟨stars, hmask, hstars⟩
  · rw [hsame] at hshown
    exact foldl_lineDash_mono h _ hshown
  · rw [hmask, List.foldl_append, foldl_lineDash_plain (redacted_plain hstars)] at hshown
    rw [List.foldl_append, foldl_lineDash_mono h header hshown]
    refine foldl_lineDash_line fun b hb => Bool.eq_false_iff.mpr fun hnewline => ?_
    have hterm := isNewline_terminates hnewline kind
    rw [valueOf_line kind start b hb] at hterm
    cases hterm

/-- Behind the key of a masked value the text is stable. -/
theorem stable_masked {stars : Bytes} (hstars : ∀ b ∈ stars, b = 42)
    (h : secretAt cliKey (header ++ start) = some (kind, start)) (hends : EndsValue kind rest)
    (hbehind : Stable (header.foldl lineDash d) rest) :
    Stable d (header ++ (redactedPrefix ++ 93 :: stars) ++ rest) := by
  have hfold {xs : Bytes} (hxs : xs <+: redactedPrefix ++ 93 :: stars) (e : Bool) :
      xs.foldl lineDash e = e :=
    foldl_lineDash_plain (fun b hb => redacted_plain hstars b (hxs.subset hb)) e
  have hcopied : Stable (header.foldl lineDash d) (redactedPrefix ++ 93 :: stars ++ rest) := by
    refine stable_copies (fun c r hr => redacted_anchors hstars hr rest) ?_
    rw [hfold List.prefix_rfl]
    exact hbehind
  rw [List.append_assoc]
  cases kind with
  | line =>
    refine stable_header h (.inl (plain_bracket _)) ⟨.inr (List.prefix_append _ _), ?_, hends, ?_⟩
      ?_ hcopied
    · exact fun b hb => (redacted_plain hstars b hb).2
    · intro hkind
      cases hkind
    · rw [List.foldl_append, hfold List.prefix_rfl]
      exact hbehind
  | token =>
    -- the bracket ends the token, and the stars are copied
    rw [List.append_assoc] at hcopied ⊢
    have hunmatched : Unmatched redactedPrefix := by
      have hall : ∀ pair ∈ redactionPatterns, redactedPrefix.length < pair.1.length ∨
          97 ∈ pair.1 := by decide
      intro pair hpair hwithin
      rcases hall pair hpair with hlong | hmem
      · exact absurd hwithin.length_le (by omega)
      · exact absurd (hwithin.subset hmem) (by decide)
    refine stable_header h (.inl (plain_bracket _)) ⟨.inr List.prefix_rfl, ?_, ?_,
      fun _ => hunmatched⟩ ?_ hcopied
    · decide
    · intro b hb
      cases hb
      decide
    · rw [List.foldl_append, hfold (List.prefix_append _ _)]
      have hrest : ∀ c r, c :: r <:+ 93 :: stars → anchorAt (c :: r ++ rest) = none :=
        fun c r hr => redacted_anchors hstars (hr.trans (List.suffix_append _ _)) rest
      refine @stable_copies _ rest (93 :: stars) hrest ?_
      rw [foldl_lineDash_plain fun b hb => redacted_plain hstars b (List.mem_append_right _ hb)]
      exact hbehind

/-- When every value passed over is found again, the scan of what it makes of a text is over. -/
theorem stable_scan (s : Bool × Bool) (t : Bytes)
    (hpassed : ∀ s' t', Reaches shownStep s t s' t' → PassedAlike s' t')
    (hshown : s.2 = true → s.1 = true) : Stable s.2 (scanAnchored s.1 t) := by
  induction s, t using places_induction shownStep with
  | nil => exact .nil _
  | cons s c r ih =>
    have hrest := ih fun s' t' hreach => hpassed s' t' (.later hreach)
    cases hsecret : secretAt s.1 (c :: r) with
    | none =>
      simp only [shownStep, anchoredStep_none hsecret, List.drop_zero] at hrest
      have hcovert := (covert_scan s.1 (c :: r)).secretAt hshown hsecret
      rw [scan_copy hsecret] at hcovert ⊢
      exact .copy hcovert (hrest (foldl_lineDash_mono hshown [c]))
    | some p =>
      obtain ⟨kind, start⟩ := p
      obtain ⟨header, hsplit, -⟩ := secretAt_some hsecret
      have hpassed := hpassed s (c :: r) (.here _ _) kind start hsecret
      simp only [shownStep, anchoredStep_some hsecret hsplit,
        (secret_consumed hsecret hsplit).2] at hrest
      have hbehind := hrest (foldl_renderValue hshown header start kind)
      have hends := endsValue_dropWhile kind start
      have hvalue := value_split kind start
      rw [hsplit] at hsecret hpassed ⊢
      rw [scan_secret hsecret]
      have hhead := scan_head hends ((header ++ valueOf kind start).foldl lineDash s.1)
      have hends' := hends.congr hhead
      generalize scanAnchored ((header ++ valueOf kind start).foldl lineDash s.1)
        (start.dropWhile fun b => !terminates kind b) = scanned at hbehind hhead hends' ⊢
      rcases renderValue_cases (valueOf kind start) with ⟨hsame, hkept⟩ | ⟨stars, hmask, hstars⟩
      · rw [hsame] at hbehind ⊢
        rcases hkept with hnil | hmarked
        · rw [hnil, List.append_nil] at hbehind ⊢
          rw [hnil, List.nil_append] at hvalue
          rw [hvalue] at hhead
          refine @stable_header s.1 s.2 kind header [] start scanned hsecret (.inr hhead)
            ⟨.inl rfl, by simp, hends', fun _ => ?_⟩ ?_ hbehind
          · have hall : ∀ pair ∈ redactionPatterns, pair.1 ≠ [] := by decide
            exact fun pair hpair hwithin => hall pair hpair (List.infix_nil.mp hwithin)
          · rw [List.append_nil]
            exact hbehind
        · obtain ⟨hagain, hunmatched⟩ := hpassed hmarked
          obtain ⟨more, hmore⟩ := hmarked
          rw [List.append_assoc]
          refine .value ?_ ⟨.inr ⟨more, hmore⟩, valueOf_line kind start, hends', hunmatched⟩ hbehind
          rw [← hvalue, ← hmore] at hagain
          rw [← hmore]
          exact secretAt_bracket hagain _
      · rw [hmask] at hbehind ⊢
        rw [List.foldl_append, foldl_lineDash_plain (redacted_plain hstars)] at hbehind
        exact stable_masked hstars hsecret hends' hbehind

end Nigiri.Fixtures
