import Nigiri.Masking
import Nigiri.StableText

/-! The fixed replacements keep what the scans before them have made: they leave every key and every
token as it is, and put no dashes anywhere. -/
namespace Nigiri.Fixtures
open Utf8 AsciiCase Rewrite Masking

variable {cliKey d : Bool} {kind : SecretValueKind} {header start t : Bytes} {pair : Bytes × Bytes}

/-- No anchor ends in a pattern or the other way round, and none begins in a pattern or its mask. -/
theorem patterns_apart : ∀ pair ∈ redactionPatterns, ∀ entry ∈ secretAnchors,
    (∀ tail ∈ entry.1.tails, tail ≠ [] →
      tail.isPrefixOf (lowered pair.1) = false ∧ (lowered pair.1).isPrefixOf tail = false) ∧
    ∀ u ∈ pair.1.tails ++ pair.2.tails, u ≠ [] →
      entry.1.isPrefixOf (lowered u) = false ∧ (lowered u).isPrefixOf entry.1 = false := by
  decide +kernel

theorem patterns_plain : ∀ pair ∈ redactionPatterns,
    (∀ b ∈ pair.1 ++ pair.2, isDash b = false ∧ isNewline b = false) ∧
    (∀ b ∈ pair.1, tokenValueTerminators.contains b = false ∧ b ≠ 91) ∧
    (∀ b ∈ pair.1.head?, isSeamByte b = false ∧ b ∉ redactedPrefix) ∧
    pair.1 ≠ [] ∧ pair.2.head? = some 91 := by
  decide

theorem pattern_terminates (hpair : pair ∈ redactionPatterns) (kind : SecretValueKind) {b : UInt8}
    (hb : b ∈ pair.1) : terminates kind b = false := by
  have hplain := patterns_plain pair hpair
  cases kind with
  | token => exact (hplain.2.1 b hb).1
  | line => exact (hplain.1 b (List.mem_append_left _ hb)).2

/-- A word that ends in no part of what follows is not completed by it. -/
theorem inert_of_clash {word first : Bytes} (h : ∀ tail, tail <:+ lowered word → tail ≠ [] →
    ¬ tail <+: lowered first ∧ ¬ lowered first <+: tail) (more : Bytes) :
    Inert word (first ++ more) := by
  refine inert_of_length fun text hstart => ?_
  by_contra hlength
  rw [startsIgnoreAsciiCase_iff_lowered, lowered_append] at hstart
  have htext : lowered text <+: lowered word := by
    refine List.prefix_of_prefix_length_le (List.prefix_append _ _) hstart ?_
    rw [lowered_length, lowered_length]
    omega
  obtain ⟨tail, htail⟩ := htext
  have hne : tail ≠ [] := fun hnil => by
    have hlen := congrArg List.length htail
    rw [hnil, List.append_nil, lowered_length, lowered_length] at hlen
    omega
  obtain ⟨hshort, hlong⟩ := h tail ⟨lowered text, htail⟩ hne
  rw [← htail, List.prefix_append_right_inj, lowered_append] at hstart
  exact (List.prefix_or_prefix_of_prefix hstart (List.prefix_append _ _)).elim hshort hlong

theorem anchorAt_pattern (hpair : pair ∈ redactionPatterns) (xs t : Bytes) :
    anchorAt (xs ++ (pair.1 ++ t)) = anchorAt xs := by
  refine List.find?_congr fun entry hentry => inert_of_clash (fun tail htail hne => ?_) t xs
  rw [anchors_lowercase entry hentry] at htail
  obtain ⟨hshort, hlong⟩ :=
    (patterns_apart pair hpair entry hentry).1 tail ((List.mem_tails _ _).mpr htail) hne
  exact ⟨fun h => Bool.eq_false_iff.mp hshort (List.isPrefixOf_iff_prefix.mpr h),
    fun h => Bool.eq_false_iff.mp hlong (List.isPrefixOf_iff_prefix.mpr h)⟩

/-- No anchor begins in a pattern or in its mask. -/
theorem anchorAt_within (hpair : pair ∈ redactionPatterns) {c : UInt8} {r : Bytes}
    (hr : c :: r <:+ pair.1 ∨ c :: r <:+ pair.2) (t : Bytes) :
    anchorAt (c :: r ++ t) = none := by
  refine List.find?_eq_none.mpr fun entry hentry => ?_
  have hmem : c :: r ∈ pair.1.tails ++ pair.2.tails :=
    List.mem_append.mpr (hr.imp (List.mem_tails _ _).mpr (List.mem_tails _ _).mpr)
  obtain ⟨hlong, hshort⟩ :=
    (patterns_apart pair hpair entry hentry).2 _ hmem (List.cons_ne_nil c r)
  rw [startsIgnoreAsciiCase_clash]
  · exact Bool.false_ne_true
  · rw [anchors_lowercase entry hentry]
    exact fun h => Bool.eq_false_iff.mp hlong (List.isPrefixOf_iff_prefix.mpr h)
  · rw [anchors_lowercase entry hentry]
    exact fun h => Bool.eq_false_iff.mp hshort (List.isPrefixOf_iff_prefix.mpr h)

/-- No pattern begins in the key of a secret. -/
theorem pattern_header (hpair : pair ∈ redactionPatterns)
    (h : secretAt cliKey (header ++ start) = some (kind, start)) {c : UInt8} {r : Bytes}
    (hr : c :: r <:+ header) (t : Bytes) : ¬ pair.1 <+: c :: r ++ t := by
  obtain ⟨found, seam, rfl, hmem, -, -, hseam, -⟩ := secretAt_header h
  obtain ⟨-, -, hfirst, hne, -⟩ := patterns_plain pair hpair
  intro hstart
  rcases suffix_append hr with hr | ⟨x, xs, hx, heq⟩
  · obtain ⟨p, ps, hp⟩ := List.exists_cons_of_ne_nil hne
    obtain ⟨rest, hrest⟩ := hstart
    rw [hp] at hrest
    have hc := hseam c (hr.subset List.mem_cons_self)
    rw [← (List.cons.inj hrest).1, (hfirst p (by rw [hp]; rfl)).1] at hc
    cases hc
  · rw [heq, List.append_assoc] at hstart
    obtain ⟨front, hfront⟩ := hx
    have htail : lowered (x :: xs) ∈ (lowered found).tails :=
      (List.mem_tails _ _).mpr ⟨lowered front, by rw [← lowered_append, hfront]⟩
    obtain ⟨hshort, hlong⟩ :=
      (patterns_apart pair hpair _ hmem).1 _ htail (by simp [lowered])
    have hlowered : lowered pair.1 <+: lowered (x :: xs) ++ lowered (seam ++ t) := by
      obtain ⟨rest, hrest⟩ := hstart
      exact ⟨lowered rest, by rw [← lowered_append, ← lowered_append, hrest]⟩
    rcases List.prefix_or_prefix_of_prefix hlowered (List.prefix_append _ _) with hp | hp
    · exact Bool.eq_false_iff.mp hlong (List.isPrefixOf_iff_prefix.mpr hp)
    · exact Bool.eq_false_iff.mp hshort (List.isPrefixOf_iff_prefix.mpr hp)

theorem mask_bracket (hpair : pair ∈ redactionPatterns) : ∃ m, pair.2 = 91 :: m := by
  obtain ⟨-, -, -, -, hhead⟩ := patterns_plain pair hpair
  cases hmask : pair.2 with
  | nil =>
    rw [hmask] at hhead
    cases hhead
  | cons b m =>
    rw [hmask] at hhead
    exact ⟨m, by rw [Option.some.inj hhead]⟩

/-- A text whose patterns are replaced, by the pieces that are copied or replaced. -/
theorem replaceAll_induction {pattern : Bytes} (hne : pattern ≠ []) {motive : Bytes → Prop}
    (nil : motive [])
    (found : ∀ t, motive t → motive (pattern ++ t))
    (copy : ∀ c r, ¬ pattern <+: c :: r → motive r → motive (c :: r)) (t : Bytes) : motive t := by
  induction h : t.length using Nat.strong_induction_on generalizing t with
  | _ n ih =>
    cases t with
    | nil => exact nil
    | cons c r =>
      by_cases hp : pattern <+: c :: r
      · obtain ⟨rest, hrest⟩ := hp
        have hshorter : rest.length < n := by
          have hpos := List.length_pos_iff.mpr hne
          rw [← h, ← hrest, List.length_append]
          omega
        exact hrest ▸ found rest (ih _ hshorter rest rfl)
      · exact copy c r hp (ih _ (by rw [← h]; exact Nat.lt_succ_self _) r rfl)

theorem covert_replaceAll (hpair : pair ∈ redactionPatterns) (t : Bytes) :
    Covert t (replaceAll pair.1 pair.2 t) := by
  obtain ⟨-, -, -, hne, -⟩ := patterns_plain pair hpair
  induction t using replaceAll_induction hne with
  | nil => exact .refl []
  | found t ih =>
    obtain ⟨m, hm⟩ := mask_bracket hpair
    rw [replaceAll_found _ hne]
    refine .inr ⟨[], pair.1 ++ t, m ++ replaceAll pair.1 pair.2 t, rfl, ?_, fun xs => ?_⟩
    · rw [hm]
      rfl
    · rw [anchorAt_pattern hpair, List.append_nil]
  | copy c r hp ih =>
    rw [replaceAll_cons _ hp]
    exact ih.append_left [c]

theorem foldl_replaceAll (hpair : pair ∈ redactionPatterns) (t : Bytes) (d : Bool) :
    (replaceAll pair.1 pair.2 t).foldl lineDash d = t.foldl lineDash d := by
  obtain ⟨hbytes, -, -, hne, -⟩ := patterns_plain pair hpair
  induction t using replaceAll_induction hne generalizing d with
  | nil => rfl
  | found t ih =>
    rw [replaceAll_found _ hne, List.foldl_append, List.foldl_append, ih,
      foldl_lineDash_plain fun b hb => hbytes b (List.mem_append_right _ hb),
      foldl_lineDash_plain fun b hb => hbytes b (List.mem_append_left _ hb)]
  | copy c r hp ih => rw [replaceAll_cons _ hp, List.foldl_cons, ih, List.foldl_cons]

/-- What ends no value is put in by no replacement. -/
theorem unterminated_replaceAll (hpair : pair ∈ redactionPatterns)
    (h : ∀ b ∈ t, isNewline b = false) :
    ∀ b ∈ replaceAll pair.1 pair.2 t, isNewline b = false := by
  obtain ⟨hbytes, -, -, hne, -⟩ := patterns_plain pair hpair
  induction t using replaceAll_induction hne with
  | nil => exact h
  | found t ih =>
    intro b hb
    rw [replaceAll_found _ hne] at hb
    rcases List.mem_append.mp hb with hb | hb
    · exact (hbytes b (List.mem_append_right _ hb)).2
    · exact ih (fun b hb => h b (List.mem_append_right _ hb)) b hb
  | copy c r hp ih =>
    intro b hb
    rw [replaceAll_cons _ hp] at hb
    rcases List.mem_cons.mp hb with rfl | hb
    · exact h b List.mem_cons_self
    · exact ih (fun b hb => h b (List.mem_cons_of_mem c hb)) b hb

/-- Where a value ends no pattern lies across. -/
theorem pattern_border (hpair : pair ∈ redactionPatterns) {secret rest : Bytes}
    (hends : EndsValue kind rest) (h : pair.1 <+: secret ++ rest) : pair.1 <+: secret := by
  cases rest with
  | nil => rwa [List.append_nil] at h
  | cons b r =>
    by_cases hlength : pair.1.length ≤ secret.length
    · exact List.prefix_of_prefix_length_le h (List.prefix_append _ _) hlength
    · have hlong : secret ++ [b] <+: pair.1 := by
        refine List.prefix_of_prefix_length_le ⟨r, by simp⟩ h ?_
        rw [List.length_append, List.length_singleton]
        omega
      have hterm := pattern_terminates hpair kind
        (hlong.subset (List.mem_append_right _ List.mem_cons_self))
      rw [hends b rfl] at hterm
      cases hterm

theorem replaceAll_head (hpair : pair ∈ redactionPatterns) {rest : Bytes}
    (hends : EndsValue kind rest) : (replaceAll pair.1 pair.2 rest).head? = rest.head? := by
  obtain ⟨-, -, -, hne, -⟩ := patterns_plain pair hpair
  cases rest with
  | nil => rfl
  | cons b r =>
    rw [replaceAll_cons]
    · rfl
    · exact fun h => hne (List.prefix_nil.mp (@pattern_border _ pair hpair [] _ hends h))

/-- A replacement in a stable text leaves it stable. -/
theorem stable_replaceAll (hpair : pair ∈ redactionPatterns) (h : Stable d t) :
    Stable d (replaceAll pair.1 pair.2 t) := by
  obtain ⟨hbytes, -, hfirst, hne, -⟩ := patterns_plain pair hpair
  induction hn : t.length using Nat.strong_induction_on generalizing d t with
  | _ n ih =>
    cases h with
    | nil => exact .nil d
    | @copy _ b t hnone h =>
      by_cases hp : pair.1 <+: b :: t
      · obtain ⟨rest, hrest⟩ := hp
        have hshorter : rest.length < n := by
          have hpos := List.length_pos_iff.mpr hne
          rw [← hn, ← hrest, List.length_append]
          omega
        have hall : Stable d (pair.1 ++ rest) := hrest ▸ .copy hnone h
        have hbehind := hall.behind fun c r hr => anchorAt_within hpair (.inl hr) rest
        rw [foldl_lineDash_plain fun b hb => hbytes b (List.mem_append_left _ hb)] at hbehind
        rw [← hrest, replaceAll_found _ hne]
        refine stable_copies (fun c r hr => anchorAt_within hpair (.inr hr) _) ?_
        rw [foldl_lineDash_plain fun b hb => hbytes b (List.mem_append_right _ hb)]
        exact ih _ hshorter hbehind rfl
      · have hcovert := (covert_replaceAll hpair (b :: t)).secretAt (fun hd => hd) hnone
        rw [replaceAll_cons _ hp] at hcovert ⊢
        exact .copy hcovert (ih _ (by rw [← hn]; exact Nat.lt_succ_self _) h rfl)
    | @value _ kind header secret rest hsecret hvalue h =>
      have hshorter : rest.length < n := by
        obtain ⟨header', hsplit, hne', -⟩ := secretAt_some hsecret
        have hpos := List.length_pos_iff.mpr (List.append_cancel_right hsplit ▸ hne')
        rw [← hn, List.length_append, List.length_append]
        omega
      have hbehind := ih _ hshorter h rfl
      have hborder : replaceAll pair.1 pair.2 (secret ++ rest) =
          replaceAll pair.1 pair.2 secret ++ replaceAll pair.1 pair.2 rest :=
        replaceAll_append _ secret rest fun c r _ hp => pattern_border hpair hvalue.ends hp
      have hhead := replaceAll_head hpair hvalue.ends
      have hends := hvalue.ends.congr hhead
      rw [replaceAll_copy _ header (secret ++ rest) fun c r hr => pattern_header hpair hsecret hr _,
        hborder]
      rcases hvalue.shown with hnil | hmarked
      · subst hnil
        rw [List.append_nil] at hbehind
        refine @stable_header _ _ _ _ [] _ _ hsecret (.inr hhead)
          ⟨.inl rfl, by simp, hends, hvalue.unmatched⟩ ?_ hbehind
        rw [List.append_nil]
        exact hbehind
      · obtain ⟨more, rfl⟩ := hmarked
        have hmarker : replaceAll pair.1 pair.2 (redactedPrefix ++ more) =
            redactedPrefix ++ replaceAll pair.1 pair.2 more := by
          refine replaceAll_copy _ _ _ fun c r hr hp => ?_
          obtain ⟨p, ps, hp'⟩ := List.exists_cons_of_ne_nil hne
          obtain ⟨rest', hrest⟩ := hp
          rw [hp'] at hrest
          have hmem := hr.subset List.mem_cons_self
          rw [← (List.cons.inj hrest).1] at hmem
          exact (hfirst p (by rw [hp']; rfl)).2 hmem
        have hunterminated : ∀ b ∈ replaceAll pair.1 pair.2 (redactedPrefix ++ more),
            terminates kind b = false := by
          cases hkind : kind with
          | token =>
            rw [replaceAll_absent _ (hvalue.unmatched hkind pair hpair), ← hkind]
            exact hvalue.unterminated
          | line =>
            have hline := hvalue.unterminated
            rw [hkind] at hline
            exact unterminated_replaceAll hpair hline
        have hfold : (header ++ replaceAll pair.1 pair.2 (redactedPrefix ++ more)).foldl
            lineDash d = (header ++ (redactedPrefix ++ more)).foldl lineDash d := by
          rw [List.foldl_append, foldl_replaceAll hpair, ← List.foldl_append]
        refine .value ?_ ⟨.inr ⟨_, hmarker.symm⟩, hunterminated, hends, fun hkind => ?_⟩
          (hfold ▸ hbehind)
        · rw [hmarker]
          exact secretAt_bracket hsecret _
        · rw [replaceAll_absent _ (hvalue.unmatched hkind pair hpair)]
          exact hvalue.unmatched hkind

theorem stable_replacePatterns (h : Stable d t) : Stable d (replacePatterns t) :=
  replacePatterns_keeps h fun _ hpair _ ht => stable_replaceAll hpair ht

end Nigiri.Fixtures
