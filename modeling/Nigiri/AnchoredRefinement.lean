import Nigiri.AnchoredScan

/-! On text, the code's loop over positions and slices performs the anchored scan and never
panics. -/
namespace Nigiri.Fixtures
open Utf8 AsciiCase Rewrite

/-- The code's view of the line before a position is the state of the scan there. -/
theorem rtakeWhile_dash (before : Bytes) :
    (before.rtakeWhile fun b => !isNewline b).any isDash = before.foldl lineDash false := by
  induction before using List.reverseRecOn with
  | nil => rfl
  | append_singleton xs x ih =>
    rw [List.rtakeWhile_concat, List.foldl_append, List.foldl_cons, List.foldl_nil, lineDash, ← ih]
    cases isNewline x <;> simp

theorem slice_of_isText {xs t : Bytes} (h : IsText (xs ++ t)) (ht : IsText t) :
    slice (xs ++ t) t = some xs := by
  rw [slice, h.isCharBoundary, ht.isCharBoundary, List.length_append, Nat.add_sub_cancel,
    List.take_left]
  rfl

theorem isText_of_headerBytes {xs t : Bytes} (hxs : ∀ b ∈ xs, isHeaderByte b = true)
    (h : IsText (xs ++ t)) : IsText t :=
  h.drop_ascii fun b hb => (Bool.and_eq_true_iff.mp (hxs b hb)).1

theorem isText_dropWhile {kind : SecretValueKind} {t : Bytes} (h : IsText t) :
    IsText (t.dropWhile fun b => !terminates kind b) ∧ IsText (valueOf kind t) := by
  have hascii (b : UInt8) (hb : terminates kind b = true) : isAscii b = true := by
    cases kind with
    | token =>
      have hall : ∀ b ∈ tokenValueTerminators, isAscii b = true := by decide
      exact hall b (List.contains_iff_mem.mp hb)
    | line =>
      simp only [terminates, isNewline, Bool.or_eq_true, beq_iff_eq] at hb
      obtain rfl | rfl := hb <;> rfl
  have hsplit := value_split kind t
  cases hrest : t.dropWhile fun b => !terminates kind b with
  | nil =>
    rw [hrest, List.append_nil] at hsplit
    exact ⟨isText_nil, hsplit.symm ▸ h⟩
  | cons b r =>
    have hb : terminates kind b = true := by
      have hne : (t.dropWhile fun b => !terminates kind b) ≠ [] := by simp [hrest]
      simpa [hrest] using List.head_dropWhile_not (fun b => !terminates kind b) hne
    rw [hrest] at hsplit
    rw [← hsplit] at h
    obtain ⟨hvalue, hr⟩ := IsText.split (hascii b hb) h
    refine ⟨?_, hvalue⟩
    exact (isText_ascii (List.forall_mem_singleton.mpr (hascii b hb))).append hr

theorem isText_redaction (n : Nat) {marker : Bytes} (h : ∀ b ∈ marker, isAscii b = true) :
    IsText (redaction n marker) := by
  refine isText_ascii fun b hb => ?_
  rcases List.mem_append.mp hb with hb | hb
  · exact h b hb
  · obtain ⟨-, rfl⟩ := List.mem_replicate.mp hb
    rfl

theorem isText_renderValue {secret : Bytes} (h : IsText secret) : IsText (renderValue secret) := by
  rw [renderValue]
  split
  · exact h
  · exact isText_redaction _ (by decide)

theorem secretAt_nonAscii {cliKey : Bool} {b : UInt8} {r : Bytes} (h : isAscii b = false) :
    secretAt cliKey (b :: r) = none := by
  cases hs : secretAt cliKey (b :: r) with
  | none => rfl
  | some p =>
    obtain ⟨header, hsplit, hne, hbytes⟩ := secretAt_some hs
    obtain ⟨x, xs, rfl⟩ := List.exists_cons_of_ne_nil hne
    obtain ⟨rfl, -⟩ := List.cons.inj hsplit
    have hb := hbytes b List.mem_cons_self
    rw [isHeaderByte, h] at hb
    cases hb

theorem asciiStep_anchored : AsciiStep anchoredStep := by
  intro cliKey b r hb
  rw [anchoredStep_none (secretAt_nonAscii hb), lineDash]
  have hn : isNewline b = false := by
    cases hn : isNewline b with
    | false => rfl
    | true =>
      simp only [isNewline, Bool.or_eq_true, beq_iff_eq] at hn
      obtain rfl | rfl := hn <;> cases hb
  have hd : isDash b = false := by
    cases hd : isDash b with
    | false => rfl
    | true =>
      obtain rfl := beq_iff_eq.mp hd
      cases hb
  rw [hn, hd, Bool.or_false, Bool.not_false, Bool.true_and]

theorem isText_scanAnchored (cliKey : Bool) {t : Bytes} (h : IsText t) :
    IsText (scanAnchored cliKey t) := by
  refine rewrite_isText asciiStep_anchored (fun d b r hb hr => ?_) cliKey h
  have hbr : IsText (b :: r) := (isText_ascii (List.forall_mem_singleton.mpr hb)).append hr
  cases hs : secretAt d (b :: r) with
  | none =>
    rw [anchoredStep_none hs]
    exact ⟨isText_ascii (List.forall_mem_singleton.mpr hb), hr⟩
  | some p =>
    obtain ⟨kind, start⟩ := p
    obtain ⟨header, hsplit, hne, hbytes⟩ := secretAt_some hs
    have hstart : IsText start := isText_of_headerBytes hbytes (hsplit ▸ hbr)
    obtain ⟨hrest, hvalue⟩ := isText_dropWhile hstart
    rw [anchoredStep_some hs hsplit]
    refine ⟨(isText_ascii fun b hb => ?_).append (isText_renderValue hvalue), ?_⟩
    · exact (Bool.and_eq_true_iff.mp (hbytes b hb)).1
    · rw [(secret_consumed hs hsplit).2]
      exact hrest

theorem spaceFormIsStructured_eq {before index cursor : Bytes} (hbefore : IsText before)
    (hindex : IsText index) (hcursor : IsText cursor) :
    spaceFormIsStructured (before ++ index) index cursor =
      some (before.foldl lineDash false || isNumeric cursor) := by
  have hrest : slice cursor [] = some cursor := by
    simpa using @slice_of_isText cursor [] (by simpa using hcursor) isText_nil
  rw [spaceFormIsStructured, slice_of_isText (hbefore.append hindex) hindex, hrest,
    ← rtakeWhile_dash]
  rfl

theorem valueStart_eq {before index afterAnchor : Bytes} (hbefore : IsText before)
    (hindex : IsText index) (hafter : IsText afterAnchor) :
    valueStart (before ++ index) index afterAnchor =
      some (valueAfter (before.foldl lineDash false) afterAnchor) := by
  have hskip := cursor_skipSeparatorBlanks.comp (cursor_dropQuote.comp cursor_dropHexSuffix)
  obtain ⟨xs, hxs, hbytes⟩ := hskip.skips afterAnchor
  have hcursor : IsText (skipSeparatorBlanks (dropQuote (dropHexSuffix afterAnchor))) :=
    isText_of_headerBytes hbytes (hxs ▸ hafter)
  rw [valueStart, valueAfter]
  generalize skipSeparatorBlanks (dropQuote (dropHexSuffix afterAnchor)) = cursor at hcursor
  simp only [spaceFormIsStructured_eq hbefore hindex hcursor]
  split
  · rfl
  · split
    · rfl
    · generalize (before.foldl lineDash false || isNumeric cursor) = structured
      cases structured <;> rfl

/-- A character copied by the code is copied by the scan. -/
theorem scan_character {cliKey : Bool} {b : UInt8} {r : Bytes} (h : IsText (b :: r))
    (hnone : secretAt cliKey (b :: r) = none) :
    ∃ character rest, b :: r = character ++ rest ∧ character ≠ [] ∧
      nextChar (b :: r) = some (character, rest) ∧ IsText character ∧ IsText rest ∧
      scanAnchored cliKey (b :: r) =
        character ++ scanAnchored (character.foldl lineDash cliKey) rest := by
  rcases h.head with ⟨hb, hr⟩ | ⟨xs, t, heq, hne, hascii, hxs, ht, hnext⟩
  · exact ⟨[b], r, rfl, List.cons_ne_nil b [], nextChar_ascii hb r,
      isText_ascii (List.forall_mem_singleton.mpr hb), hr, scan_copy hnone⟩
  · refine ⟨xs, t, heq, hne, hnext, hxs, ht, ?_⟩
    rw [heq, scanAnchored, rewrite_copy tracks_anchored]
    · rfl
    · intro d c r hsuffix
      rw [asciiStep_anchored d c _ (hascii c (hsuffix.subset List.mem_cons_self))]
      exact ⟨rfl, rfl⟩

theorem redactAnchoredFrom_eq (fuel : Nat) (before index output : Bytes)
    (hbefore : IsText before) (hindex : IsText index) (hfuel : index.length ≤ fuel) :
    redactAnchoredFrom (before ++ index) fuel index output =
      some (output ++ scanAnchored (before.foldl lineDash false) index) := by
  induction fuel generalizing before index output with
  | zero =>
    rw [List.length_eq_zero_iff.mp (Nat.le_zero.mp hfuel)]
    simp [redactAnchoredFrom, scanAnchored]
  | succ fuel ih =>
    have next (piece rest emitted : Bytes) (hsplit : index = piece ++ rest) (hne : piece ≠ [])
        (hpiece : IsText piece) (hrest : IsText rest) :
        redactAnchoredFrom (before ++ index) fuel rest (output ++ emitted) =
          some (output ++ (emitted ++
            scanAnchored (piece.foldl lineDash (before.foldl lineDash false)) rest)) := by
      have hlen : 0 < piece.length := List.length_pos_iff.mpr hne
      rw [hsplit, List.length_append] at hfuel
      rw [hsplit, ← List.append_assoc, ih _ _ _ (hbefore.append hpiece) hrest (by omega),
        List.foldl_append, List.append_assoc]
    cases index with
    | nil => simp [redactAnchoredFrom, scanAnchored]
    | cons b r =>
      have copy (hnone : secretAt (before.foldl lineDash false) (b :: r) = none) :
          ((nextChar (b :: r)).bind fun p =>
            redactAnchoredFrom (before ++ b :: r) fuel p.2 (output ++ p.1)) =
          some (output ++ scanAnchored (before.foldl lineDash false) (b :: r)) := by
        obtain ⟨character, rest, hsplit, hne, hnext, hchar, hrest, hscan⟩ :=
          scan_character hindex hnone
        rw [hnext, hscan]
        exact next character rest character hsplit hne hchar hrest
      rw [redactAnchoredFrom.eq_3 _ _ _ _ (List.cons_ne_nil b r)]
      cases hanchor : anchorAt (b :: r) with
      | none =>
        refine copy ?_
        rw [secretAt, hanchor]
        rfl
      | some anchor =>
        obtain ⟨hmem, found, rest, hfound, hlowered⟩ := anchorAt_some hanchor
        have hlen : found.length = anchor.1.length := by
          simpa using congrArg List.length hlowered
        have hafter : (b :: r).drop anchor.1.length = rest := by
          rw [hfound, ← hlen, List.drop_left]
        have hrest : IsText rest :=
          isText_of_headerBytes (headerBytes_of_lowered hlowered (anchor_bytes anchor hmem).2.1)
            (hfound ▸ hindex)
        simp only [hafter, valueStart_eq hbefore hindex hrest]
        cases hvalue : valueAfter (before.foldl lineDash false) rest with
        | none =>
          refine copy ?_
          rw [secretAt, hanchor, Option.bind_some, hafter, hvalue]
          rfl
        | some start =>
          have hsecret : secretAt (before.foldl lineDash false) (b :: r) =
              some (anchor.2, start) := by
            rw [secretAt, hanchor, Option.bind_some, hafter, hvalue]
            rfl
          obtain ⟨header, hsplit, hne, hbytes⟩ := secretAt_some hsecret
          have hstart : IsText start := isText_of_headerBytes hbytes (hsplit ▸ hindex)
          have hheader : IsText header :=
            isText_ascii fun b hb => (Bool.and_eq_true_iff.mp (hbytes b hb)).1
          obtain ⟨hstop, hvalueText⟩ := @isText_dropWhile anchor.2 start hstart
          have hvalueSplit := value_split anchor.2 start
          have hscan := @scan_secret (before.foldl lineDash false) anchor.2 header start
            (hsplit ▸ hsecret)
          rw [← hsplit] at hscan
          generalize valueOf anchor.2 start = secret at hvalueText hvalueSplit hscan
          rw [hscan]
          simp only [Option.bind_eq_bind, Option.bind_some]
          generalize (start.dropWhile fun b => !terminates anchor.2 b) = stop
            at hstop hvalueSplit
          subst hvalueSplit
          have hheaderSlice : slice (b :: r) (secret ++ stop) = some header := by
            rw [hsplit] at hindex ⊢
            exact slice_of_isText hindex hstart
          split
          · -- nothing stands between the separator and what ends the value
            next hempty =>
            have hnil : secret = [] := by
              rw [List.length_append] at hempty
              exact List.length_eq_zero_iff.mp (by omega)
            subst hnil
            rw [List.nil_append] at hsplit hheaderSlice
            rw [hheaderSlice, Option.bind_some, List.append_nil, renderValue]
            simpa using next header stop header hsplit hne hheader hstop
          · next hnonempty =>
            have hsecretNe : secret.isEmpty = false := by
              cases secret with
              | nil => exact absurd rfl hnonempty
              | cons => rfl
            have hlength : (secret ++ stop).length - stop.length = secret.length := by
              rw [List.length_append]
              omega
            rw [hheaderSlice, Option.bind_some, slice_of_isText hstart hstop, Option.bind_some,
              hlength, renderValue, hsecretNe, Bool.false_or, List.append_assoc output]
            exact next (header ++ secret) stop _ (by rw [hsplit, List.append_assoc])
              (List.append_ne_nil_of_left_ne_nil hne _) (hheader.append hvalueText) hstop

theorem redactAnchoredValues_eq {value : Bytes} (h : IsText value) :
    redactAnchoredValues value = some (scanAnchored false value) := by
  rw [redactAnchoredValues]
  simpa using redactAnchoredFrom_eq value.length [] value [] isText_nil h le_rfl

end Nigiri.Fixtures
