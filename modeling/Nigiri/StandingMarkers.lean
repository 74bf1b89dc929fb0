import Nigiri.GuardedText
import Nigiri.Masking

/-! Markers that redaction leaves standing. As long as no mask covers the dashes that close the
label of one, nothing reads as a private key block that did not before. -/
namespace Nigiri.Fixtures
open Utf8 AsciiCase Rewrite Masking

def NoKeyBlock (t : Bytes) : Prop := ∀ c r, c :: r <:+ t → keyBlockAt (c :: r) = none

/-- A marker and its label, up to the first dashes behind it. -/
structure Labelled (found label body : Bytes) : Prop where
  marker : lowered found = lowered beginMarker
  first : ∀ c r, c :: r <:+ label → dashes.isPrefixOf (c :: r ++ (dashes ++ body)) = false

/-- A covered stretch of the text reaches into the dashes that close a label. -/
def CoversClosing (hides : Bytes → Bytes → Bytes → Prop) (t : Bytes) : Prop :=
  ∃ found label body hidden rest mask, Labelled found label body ∧
    found ++ (label ++ (dashes ++ body)) <:+ t ∧ hides hidden rest mask ∧
    hidden ++ rest <:+ label ++ (dashes ++ body) ∧ body.length < (hidden ++ rest).length ∧
    rest.length < (dashes ++ body).length

/-- Masks in brackets, without dashes and without the first letter of `PRIVATE KEY`. -/
structure Bracketed (hides : Bytes → Bytes → Bytes → Prop) : Prop where
  covering : ∀ {hidden rest mask}, hides hidden rest mask → hidden ≠ []
  marked : ∀ {hidden rest mask}, hides hidden rest mask → ∃ m, mask = 91 :: m
  plain : ∀ {hidden rest mask}, hides hidden rest mask →
    ∀ b ∈ mask, b ≠ 45 ∧ toAsciiUppercase b ≠ 80

variable {hides : Bytes → Bytes → Bytes → Prop} {t x y found label body : Bytes}

theorem NoKeyBlock.suffix {u : Bytes} (h : NoKeyBlock t) (hu : u <:+ t) : keyBlockAt u = none := by
  cases u with
  | nil => decide
  | cons c r => exact h c r hu

theorem scanKeyBlocks_noKeyBlock (h : NoKeyBlock t) : scanKeyBlocks t = t := by
  have hscan := scanKeyBlocks_skip t [] fun c r hr => by
    rw [List.append_nil]
    exact h c r hr
  rw [List.append_nil] at hscan
  rw [hscan]
  exact List.append_nil t

theorem Bracketed.legible (h : Bracketed hides) {a : UInt8} {w : Bytes} (hw : 91 ∉ a :: w)
    (ha : a = 45 ∨ toAsciiUppercase a = 80) : Legible hides 91 a w where
  unmarked := hw
  covering := h.covering
  marked := h.marked
  outside := fun hhides hmem => ha.elim (h.plain hhides a hmem).1 (h.plain hhides a hmem).2

theorem keyBlockAt_dash {c : UInt8} {r : Bytes} (hc : c ≠ 45) : keyBlockAt (c :: r) = none := by
  refine keyBlockAt_eq_none (Bool.eq_false_iff.mpr fun hbegin => hc ?_)
  obtain ⟨rest, hrest⟩ := List.isPrefixOf_iff_prefix.mp (starts_dashes hbegin)
  exact (List.cons.inj hrest).1.symm

/-- The dashes found behind a marker are those that close its label. -/
theorem Labelled.find (h : Labelled found label body) :
    find (label ++ (dashes ++ body)) dashes = some label.length := by
  have hskip := position_skip label (dashes ++ body) h.first
  have hstart : dashes.isPrefixOf (dashes ++ body) = true :=
    List.isPrefixOf_iff_prefix.mpr (List.prefix_append _ _)
  have hfront := position_front (List.append_ne_nil_of_left_ne_nil (by decide) body) hstart
  rw [Fixtures.find, hskip, hfront, Option.map_some, Nat.zero_add]

theorem Labelled.unique {label' body' : Bytes} (h : Labelled found label body)
    (h' : Labelled found label' body')
    (heq : label ++ (dashes ++ body) = label' ++ (dashes ++ body')) : label = label' := by
  have hlength := h.find
  rw [heq, h'.find] at hlength
  exact (List.append_inj heq (Option.some.inj hlength).symm).1

theorem Labelled.keyBlockAt (h : Labelled found label body) :
    keyBlockAt (found ++ (label ++ (dashes ++ body))) =
      if isPrivateKeyLabel label then some (label, body) else none := by
  rw [keyBlockAt_begin h.marker, h.find, Option.bind_some, List.take_left, List.drop_left,
    List.drop_left]

theorem keyBlockAt_labelled {t : Bytes} (h : keyBlockAt t = some (label, body)) :
    ∃ found, t = found ++ (label ++ (dashes ++ body)) ∧ Labelled found label body ∧
      isPrivateKeyLabel label = true := by
  obtain ⟨found, hsplit, hfound, hprivate, hfirst⟩ := keyBlockAt_some h
  exact ⟨found, hsplit, ⟨hfound, hfirst⟩, hprivate⟩

theorem marker_unmarked (h : lowered found = lowered beginMarker) : 91 ∉ found := by
  intro hmem
  have hlowered : toAsciiLowercase 91 ∈ lowered beginMarker := h ▸ List.mem_map_of_mem hmem
  exact absurd hlowered (by decide)

theorem dashes_unmarked : (91 : UInt8) ∉ (45 : UInt8) :: ascii "----" := by decide

/-- Words of a covered label are words of the label. -/
theorem Bracketed.privateLabel (h : Bracketed hides) {label label' : Bytes}
    (hmasked : Masked hides label label') (hprivate : isPrivateKeyLabel label' = true) :
    isPrivateKeyLabel label = true := by
  obtain ⟨front, word, back, rfl, hword⟩ := isPrivateKeyLabel_iff.mp hprivate
  cases word with
  | nil => cases hword
  | cons a w =>
    have hupper : toAsciiUppercase a = 80 := (List.cons.inj hword).1
    have hunmarked : 91 ∉ a :: w := by
      intro hmem
      have hmapped : toAsciiUppercase 91 ∈ ascii "PRIVATE KEY" :=
        hword ▸ List.mem_map_of_mem hmem
      exact absurd hmapped (by decide)
    obtain ⟨front', back', rfl⟩ := hmasked.word (h.legible hunmarked (.inr hupper))
    exact isPrivateKeyLabel_iff.mpr ⟨front', a :: w, back', rfl, hword⟩

/-- A covered stretch without dashes reaches into no dashes. -/
theorem not_coversClosing (h : ∀ {hidden rest mask}, hides hidden rest mask →
    hidden ≠ [] ∧ ∀ b ∈ hidden, b ≠ 45) (t : Bytes) : ¬ CoversClosing hides t := by
  rintro ⟨found, label, body, hidden, rest, mask, -, -, hhides, hsuffix, hlong, hshort⟩
  obtain ⟨hne, hdash⟩ := h hhides
  obtain ⟨x, xs, rfl⟩ := List.exists_cons_of_ne_nil hne
  have hdashes : ∀ b ∈ dashes, b = 45 := by decide
  rcases suffix_append hsuffix with hsuffix | ⟨y, ys, -, heq⟩
  · rcases suffix_append hsuffix with hsuffix | ⟨y, ys, hys, heq⟩
    · have hlength : (x :: xs ++ rest).length ≤ body.length := hsuffix.length_le
      omega
    · obtain ⟨rfl, -⟩ := List.cons.inj heq
      exact hdash x List.mem_cons_self (hdashes x (hys.subset List.mem_cons_self))
  · -- the stretch begins in the label and ends behind the first dash
    have hbegin : y :: ys ++ [45] <+: x :: xs := by
      have hwhole : y :: ys ++ [45] <+: x :: xs ++ rest := ⟨ascii "----" ++ body, by
        rw [List.append_assoc]
        exact heq.symm⟩
      refine List.prefix_of_prefix_length_le hwhole (List.prefix_append _ _) ?_
      have hlength : (x :: xs ++ rest).length = (y :: ys ++ (dashes ++ body)).length :=
        congrArg List.length heq
      simp only [List.length_append, List.length_cons, List.length_nil] at hlength hshort ⊢
      omega
    exact hdash 45 (hbegin.subset (List.mem_append_right _ List.mem_cons_self)) rfl

/-- A covering that spares the dashes behind labels makes no key block. -/
theorem noKeyBlock_masked (h : Bracketed hides) (hx : NoKeyBlock x)
    (hclosing : ¬ CoversClosing hides x) (hmasked : Masked hides x y) : NoKeyBlock y := by
  intro c r hr
  rw [← Option.not_isSome_iff_eq_none, Option.isSome_iff_exists]
  rintro ⟨⟨label', body'⟩, hblock⟩
  obtain ⟨found, hsplit, hlabelled', hprivate⟩ := keyBlockAt_labelled hblock
  have hc : c = 45 := by
    by_contra hc
    rw [keyBlockAt_dash hc] at hblock
    cases hblock
  obtain ⟨x', hx', hmasked'⟩ := hmasked.suffix hr fun hhides hmem =>
    (h.plain hhides c hmem).1 hc
  rw [hsplit] at hmasked'
  obtain ⟨u, rfl, hlabel⟩ := hmasked'.beginning h.marked (marker_unmarked hlabelled'.marker)
  have hlegible := h.legible dashes_unmarked (.inl rfl)
  obtain ⟨front, back, hdashes⟩ := hlabel.word hlegible
  cases hfind : find u dashes with
  | none =>
    have hnone := position_none hfind 45 (ascii "----" ++ back) ⟨front, hdashes.symm⟩
    exact absurd (List.isPrefixOf_iff_prefix.mpr (List.prefix_append dashes back))
      (Bool.eq_false_iff.mp hnone)
  | some n =>
    obtain ⟨label, body, rfl, -, hfirst⟩ := find_dashes hfind
    have hlabelled : Labelled found label body := ⟨hlabelled'.marker, hfirst⟩
    obtain ⟨before, after, heq, hbefore, hfirst'⟩ := Masked.first hlegible hlabel
      (fun c r hr hstart => by
        exact absurd (List.isPrefixOf_iff_prefix.mpr hstart)
          (Bool.eq_false_iff.mp (hfirst c r hr)))
      fun hhides hsuffix hlong => by
        by_contra hshort
        exact hclosing ⟨found, label, body, _, _, _, hlabelled, hx', hhides, hsuffix, hlong,
          Nat.lt_of_not_le hshort⟩
    have hbefore' : Labelled found before after := by
      refine ⟨hlabelled'.marker, fun c r hr => Bool.eq_false_iff.mpr fun hstart => ?_⟩
      exact hfirst' c r hr (List.isPrefixOf_iff_prefix.mp hstart)
    obtain rfl := hlabelled'.unique hbefore' heq
    have hloosely : Bracketed (Loosely hides) :=
      ⟨fun ⟨_, hh⟩ => h.covering hh, fun ⟨_, hh⟩ => h.marked hh, fun ⟨_, hh⟩ => h.plain hh⟩
    have hkey := hlabelled.keyBlockAt
    rw [hloosely.privateLabel hbefore hprivate, if_pos rfl] at hkey
    rw [hx.suffix hx'] at hkey
    cases hkey

/-- A marker whose closing dashes open a private key block, behind which more dashes stand. -/
def OpensBehind (u : Bytes) : Prop :=
  ∃ found label body front back keyLabel keyBody, u = found ++ (label ++ (dashes ++ body)) ∧
    Labelled found label body ∧ isPrivateKeyLabel label = false ∧ dashes = front ++ back ∧
    back ≠ [] ∧ keyBlockAt (back ++ body) = some (keyLabel, keyBody) ∧
    Fixtures.find (scanKeyBlocks ((afterBlock keyLabel keyBody).getD [])) dashes ≠ none

def OpensKeyBlock (t : Bytes) : Prop :=
  ∃ u, Reaches keyBlockStep () t () u ∧ OpensBehind u

theorem redactedPrivateKey_noDash (n : Nat) : ∀ b ∈ redaction n redactedPrivateKey, b ≠ 45 := by
  intro b hb
  have hmarker : ∀ b ∈ redactedPrivateKey, b ≠ 45 := by decide
  rcases List.mem_append.mp hb with hb | hb
  · exact hmarker b hb
  · rw [(List.mem_replicate.mp hb).2]
    decide

/-- An unmarked beginning of what the scan makes of a text is copied from it. -/
theorem scanKeyBlocks_beginning {u z : Bytes} (hu : 91 ∉ u) (h : scanKeyBlocks t = u ++ z) :
    ∃ t', t = u ++ t' ∧ scanKeyBlocks t' = z := by
  induction u generalizing t with
  | nil => exact ⟨t, rfl, h⟩
  | cons b u ih =>
    obtain ⟨hb, hrest⟩ := not_or.mp (mt List.mem_cons.mpr hu)
    cases t with
    | nil => cases h
    | cons c r =>
      cases hblock : keyBlockAt (c :: r) with
      | none =>
        rw [scanKeyBlocks_copy hblock] at h
        obtain ⟨rfl, hscan⟩ := List.cons.inj h
        obtain ⟨t', rfl, ht'⟩ := ih hrest hscan
        exact ⟨t', rfl, ht'⟩
      | some block =>
        rw [scanKeyBlocks_block hblock] at h
        exact absurd (List.cons.inj h).1 hb

/-- The first key block that the dashes in front of a text open. -/
theorem firstKeyBlock (xs body : Bytes) :
    (∀ c r, c :: r <:+ xs → keyBlockAt (c :: r ++ body) = none) ∨
      ∃ front back block, xs = front ++ back ∧ back ≠ [] ∧
        keyBlockAt (back ++ body) = some block ∧
        ∀ c r, c :: r <:+ front → keyBlockAt (c :: r ++ (back ++ body)) = none := by
  cases hfind : position (fun z => (keyBlockAt (z ++ body)).isSome) xs with
  | none =>
    refine .inl fun c r hr => Option.not_isSome_iff_eq_none.mp ?_
    exact Bool.eq_false_iff.mp (position_none hfind c r hr)
  | some n =>
    obtain ⟨front, back, rfl, -, hne, hback, hbefore⟩ := position_some hfind
    obtain ⟨block, hblock⟩ := Option.isSome_iff_exists.mp hback
    refine .inr ⟨front, back, block, rfl, hne, hblock, fun c r hr => ?_⟩
    have hnone := Bool.eq_false_iff.mp (hbefore c r hr)
    rw [List.append_assoc] at hnone
    exact Option.not_isSome_iff_eq_none.mp hnone

/-- The dashes behind a label are the first whatever they are followed by. -/
theorem Labelled.behind (h : Labelled found label body) (body' : Bytes) :
    Labelled found label body' := by
  refine ⟨h.marker, fun c r hr => ?_⟩
  have hlength : dashes.length ≤ (c :: r ++ dashes).length := by
    rw [List.length_append]
    omega
  have hfirst := h.first c r hr
  rw [← List.append_assoc, isPrefixOf_append_of_length hlength] at hfirst ⊢
  exact hfirst

/-- Dashes in a text with a mask in it stand behind the mask when none stand in front of it. -/
theorem dashes_behind {xs mask z rest : Bytes} (hmask : ∃ m, mask = 91 :: m)
    (hdash : ∀ b ∈ mask, b ≠ 45) (hfront : ∀ c r, c :: r <:+ xs → ¬ dashes <+: c :: r)
    (h : dashes ++ rest <:+ xs ++ (mask ++ z)) : dashes ++ rest <:+ z := by
  obtain ⟨m, rfl⟩ := hmask
  rcases suffix_append h with hlater | ⟨c, r, hr, heq⟩
  · rcases suffix_append hlater with hz | ⟨c, r, hr, heq⟩
    · exact hz
    · obtain ⟨rfl, -⟩ := List.cons.inj heq
      exact absurd rfl (hdash 45 (hr.subset List.mem_cons_self))
  · have hdashes : dashes <+: c :: r ++ (91 :: m ++ z) := ⟨rest, heq⟩
    by_cases hlong : dashes.length ≤ (c :: r).length
    · exact absurd (List.prefix_of_prefix_length_le hdashes (List.prefix_append _ _) hlong)
        (hfront c r hr)
    · -- then the mask would begin among the dashes
      have hshort : c :: r ++ [91] <+: dashes := by
        refine List.prefix_of_prefix_length_le ⟨m ++ z, by simp⟩ hdashes ?_
        rw [List.length_append, List.length_singleton]
        omega
      exact absurd (hshort.subset (List.mem_append_right _ List.mem_cons_self)) (by decide)

/-- A marker that the scan leaves standing is no key block behind it either. -/
theorem keyBlockAt_scanned {c : UInt8} {r : Bytes} (hnone : keyBlockAt (c :: r) = none)
    (hopens : ¬ OpensBehind (c :: r)) : keyBlockAt (c :: scanKeyBlocks r) = none := by
  rw [← Option.not_isSome_iff_eq_none, Option.isSome_iff_exists]
  rintro ⟨⟨label', body'⟩, hblock⟩
  obtain ⟨found, hsplit, hlabelled', hprivate⟩ := keyBlockAt_labelled hblock
  rw [← scanKeyBlocks_copy hnone] at hsplit
  obtain ⟨x, hx, hscan⟩ := scanKeyBlocks_beginning (marker_unmarked hlabelled'.marker) hsplit
  cases hfind : find x dashes with
  | none =>
    have hplain : NoKeyBlock x := fun c r hr => by
      refine keyBlockAt_eq_none (Bool.eq_false_iff.mpr fun hbegin => ?_)
      exact absurd (starts_dashes hbegin) (Bool.eq_false_iff.mp (position_none hfind c r hr))
    rw [scanKeyBlocks_noKeyBlock hplain] at hscan
    rw [hscan, hlabelled'.find] at hfind
    cases hfind
  | some n =>
    obtain ⟨label, body, rfl, -, hfirst⟩ := find_dashes hfind
    have hlabelled : Labelled found label body := ⟨hlabelled'.marker, hfirst⟩
    have hpublic : isPrivateKeyLabel label = false := by
      have hkey := hlabelled.keyBlockAt
      rw [← hx, hnone] at hkey
      exact Bool.eq_false_iff.mpr fun hp => by
        rw [hp, if_pos rfl] at hkey
        cases hkey
    have hlabel : label ++ scanKeyBlocks (dashes ++ body) = label' ++ (dashes ++ body') := by
      rw [hx, scanKeyBlocks_label hlabelled.marker hlabelled.first (hx ▸ hnone),
        List.append_assoc] at hsplit
      exact List.append_cancel_left hsplit
    rcases firstKeyBlock dashes body with hspared | ⟨front, back, ⟨keyLabel, keyBody⟩, hdashes,
      hback, hopened, hbefore⟩
    · -- the label stays closed where it was
      rw [scanKeyBlocks_skip dashes body hspared] at hlabel
      rw [(hlabelled.behind _).unique hlabelled' hlabel, hprivate] at hpublic
      cases hpublic
    · have hnone : Fixtures.find (scanKeyBlocks ((afterBlock keyLabel keyBody).getD [])) dashes =
          none := by
        by_contra hmore
        exact hopens ⟨found, label, body, front, back, keyLabel, keyBody, hx, hlabelled, hpublic,
          hdashes, hback, hopened, hmore⟩
      obtain ⟨n, hmasked⟩ : ∃ n, scanKeyBlocks (dashes ++ body) =
          front ++ (redaction n redactedPrivateKey ++
            scanKeyBlocks ((afterBlock keyLabel keyBody).getD [])) := by
        rw [hdashes, List.append_assoc, scanKeyBlocks_skip front (back ++ body) hbefore,
          scanKeyBlocks_block hopened]
        exact ⟨_, rfl⟩
      rw [hmasked, ← List.append_assoc] at hlabel
      have hbehind := dashes_behind ⟨_, rfl⟩ (redactedPrivateKey_noDash _) (fun c r hr hstart => ?_)
        ⟨label', hlabel.symm⟩
      · have hno := position_none hnone 45 (ascii "----" ++ body') hbehind
        exact absurd (List.isPrefixOf_iff_prefix.mpr (List.prefix_append dashes body'))
          (Bool.eq_false_iff.mp hno)
      · rcases suffix_append hr with hr | ⟨c', zs, hzs, heq⟩
        · have hlength := congrArg List.length hdashes
          have hpos := List.length_pos_iff.mpr hback
          have hle := hstart.length_le.trans hr.length_le
          rw [List.length_append] at hlength
          omega
        · refine absurd (List.isPrefixOf_iff_prefix.mpr ?_)
            (Bool.eq_false_iff.mp (hfirst c' zs hzs))
          have hplace : c' :: zs ++ (dashes ++ body) = c :: r ++ (back ++ body) := by
            rw [heq, hdashes]
            simp only [List.append_assoc]
          rw [hplace]
          exact hstart.trans (List.prefix_append _ _)

/-- Masking the key blocks of a text leaves none, unless a mask opens a label again. -/
theorem noKeyBlock_scanKeyBlocks (hopens : ¬ OpensKeyBlock t) : NoKeyBlock (scanKeyBlocks t) := by
  have key : ∀ s u, Reaches keyBlockStep () t s u → NoKeyBlock (rewrite keyBlockStep s u) := by
    intro s u hreach
    induction s, u using places_induction keyBlockStep with
    | nil => exact fun c r hr => absurd hr (by simp)
    | cons s c r ih =>
      have hnext := ih (hreach.trans (.later (.here _ _)))
      cases hblock : keyBlockAt (c :: r) with
      | none =>
        rw [keyBlockStep_none hblock, List.drop_zero] at hnext
        change NoKeyBlock (scanKeyBlocks (c :: r))
        rw [scanKeyBlocks_copy hblock]
        intro c' r' hr
        rcases List.suffix_cons_iff.mp hr with heq | hr
        · rw [heq]
          exact keyBlockAt_scanned hblock fun hbehind => hopens ⟨_, hreach, hbehind⟩
        · exact hnext c' r' hr
      | some block =>
        rw [keyBlockStep_drop hblock] at hnext
        change NoKeyBlock (scanKeyBlocks (c :: r))
        rw [scanKeyBlocks_block hblock]
        intro c' r' hr
        rcases suffix_append hr with hr | ⟨x, zs, hzs, heq⟩
        · exact hnext c' r' hr
        · rw [heq]
          exact keyBlockAt_dash (redactedPrivateKey_noDash _ x (hzs.subset List.mem_cons_self))
  exact key () t (.here () t)

end Nigiri.Fixtures
