import Nigiri.AnchoredRefinement

/-! Each line of a text is redacted by itself: for the anchored scan a newline is like the end of
the text. -/
namespace Nigiri.Fixtures
open Utf8 AsciiCase Rewrite

/-- What is skipped at the front of a line does not depend on the lines behind it. -/
def LineLocal (f : Bytes → Bytes) : Prop := ∀ xs t, f (xs ++ 10 :: t) = f xs ++ 10 :: t

theorem LineLocal.comp {f g : Bytes → Bytes} (hg : LineLocal g) (hf : LineLocal f) :
    LineLocal fun t => g (f t) := by
  intro xs t
  simp only [hf xs t, hg (f xs) t]

theorem lineLocal_dropWhile {p : UInt8 → Bool} (hp : p 10 = false) :
    LineLocal fun t => t.dropWhile p := by
  intro xs t
  induction xs with
  | nil => simp [hp]
  | cons x xs ih =>
    by_cases hx : p x = true
    · simpa [hx] using ih
    · simp [hx]

theorem lineLocal_dropQuote : LineLocal dropQuote := by
  intro xs t
  cases xs with
  | nil => rfl
  | cons x xs =>
    by_cases hx : isQuote x = true
    · simp [dropQuote, hx]
    · simp [dropQuote, hx]

theorem lineLocal_dropHexSuffix : LineLocal dropHexSuffix := by
  intro xs t
  have hfind : (hexSuffixes.find? fun s => startsIgnoreAsciiCase s (xs ++ 10 :: t)) =
      hexSuffixes.find? fun s => startsIgnoreAsciiCase s xs := by
    refine List.find?_congr fun s hs => ?_
    exact inert_of_notMem ((hexSuffix_bytes s hs).2 10 (by decide)) t xs
  cases hxs : hexSuffixes.find? fun s => startsIgnoreAsciiCase s xs with
  | none => simp only [dropHexSuffix, hfind, hxs]
  | some suffix =>
    have hstart : startsIgnoreAsciiCase suffix xs = true := by simpa using List.find?_some hxs
    have hle : suffix.length ≤ xs.length := of_decide_eq_true (Bool.and_eq_true_iff.mp hstart).1
    simp only [dropHexSuffix, hfind, hxs]
    rw [List.drop_append_of_le_length hle]

theorem isNumeric_newline (xs t : Bytes) : isNumeric (xs ++ 10 :: t) = isNumeric xs := by
  unfold isNumeric
  induction xs with
  | nil => simp [isAsciiWhitespace]
  | cons x xs ih =>
    cases hx : isAsciiWhitespace x
    · simp only [List.cons_append, List.takeWhile_cons, hx, Bool.not_false, if_true, List.all_cons,
        ih]
    · simp [hx]

/-- Where a value starts on a line is decided on that line. -/
theorem valueAfter_newline (cliKey : Bool) (xs t : Bytes) :
    valueAfter cliKey (xs ++ 10 :: t) = (valueAfter cliKey xs).map (· ++ 10 :: t) := by
  have hfront := lineLocal_dropQuote.comp lineLocal_dropHexSuffix
  have hblanks : LineLocal skipSeparatorBlanks := lineLocal_dropWhile (by decide)
  have hvalue : LineLocal fun t => dropQuote (t.dropWhile isBlank) :=
    lineLocal_dropQuote.comp (lineLocal_dropWhile (by decide))
  simp only [valueAfter, hfront xs t, hblanks _ t]
  generalize dropQuote (dropHexSuffix xs) = ys
  generalize skipSeparatorBlanks ys = zs
  have hhead : ((zs ++ 10 :: t).head?.any isDelimiter) = zs.head?.any isDelimiter := by
    cases zs <;> rfl
  have hlen : (zs ++ 10 :: t).length = (ys ++ 10 :: t).length ↔ zs.length = ys.length := by simp
  simp only [hhead, hlen, isNumeric_newline, hvalue zs t]
  split
  next hdelim =>
    cases zs with
    | nil => cases hdelim
    | cons z zs =>
      have hbehind := hvalue zs t
      simp only [List.cons_append, List.drop_one, List.tail_cons, Option.map_some] at hbehind ⊢
      rw [hbehind]
  next =>
    split
    next => rfl
    next =>
      split
      next => rfl
      next => rfl

/-- Whether a secret starts on a line is decided on that line. -/
theorem secretAt_newline (cliKey : Bool) (xs t : Bytes) :
    secretAt cliKey (xs ++ 10 :: t) =
      (secretAt cliKey xs).map fun p => (p.1, p.2 ++ 10 :: t) := by
  have hanchor : anchorAt (xs ++ 10 :: t) = anchorAt xs := anchorAt_stopper (by decide) xs t
  rw [secretAt, secretAt, hanchor]
  cases hxs : anchorAt xs with
  | none => rfl
  | some anchor =>
    obtain ⟨-, found, rest, rfl, hfound⟩ := anchorAt_some hxs
    have hlen : found.length = anchor.1.length := by simpa using congrArg List.length hfound
    rw [Option.bind_some, Option.bind_some, ← hlen, List.append_assoc, List.drop_left,
      List.drop_left, valueAfter_newline, Option.map_map, Option.map_map]
    rfl

theorem terminates_newline (kind : SecretValueKind) : terminates kind 10 = true := by
  cases kind <;> decide

/-- The scan begins anew behind a newline, wherever it stood before. -/
theorem scanAnchored_newline (cliKey : Bool) (xs t : Bytes) :
    scanAnchored cliKey (xs ++ 10 :: t) = scanAnchored cliKey xs ++ 10 :: scanAnchored false t := by
  induction hn : xs.length using Nat.strong_induction_on generalizing cliKey xs with
  | _ n ih =>
    cases hsecret : secretAt cliKey xs with
    | none =>
      have hlong := secretAt_newline cliKey xs t
      rw [hsecret, Option.map_none] at hlong
      cases xs with
      | nil => exact scan_copy hlong
      | cons c r =>
        rw [List.cons_append] at hlong ⊢
        rw [scan_copy hlong, scan_copy hsecret,
          ih r.length (by rw [← hn, List.length_cons]; omega) _ r rfl]
        rfl
    | some p =>
      obtain ⟨kind, start⟩ := p
      obtain ⟨header, rfl, hne, -⟩ := secretAt_some hsecret
      have hlong := secretAt_newline cliKey (header ++ start) t
      rw [hsecret, Option.map_some, List.append_assoc] at hlong
      have hrest : LineLocal fun t => t.dropWhile fun b => !terminates kind b :=
        lineLocal_dropWhile (by rw [terminates_newline]; rfl)
      have hshort : (start.dropWhile fun b => !terminates kind b).length < n := by
        have hsuffix :=
          (List.dropWhile_suffix (p := fun b => !terminates kind b) (l := start)).length_le
        have hpos : 0 < header.length := List.length_pos_iff.mpr hne
        rw [← hn, List.length_append]
        omega
      rw [List.append_assoc, scan_secret hlong, scan_secret hsecret,
        valueOf_terminated (terminates_newline kind)]
      simp only [hrest start t]
      rw [ih _ hshort _ _ rfl]
      simp only [List.append_assoc]

/-- Lines that are put together again. -/
def joinLines (lines : List Bytes) : Bytes := List.intercalate [10] lines

theorem joinLines_cons {line line' : Bytes} {lines : List Bytes} :
    joinLines (line :: line' :: lines) = line ++ 10 :: joinLines (line' :: lines) := by
  simp [joinLines, List.intercalate]

theorem scanAnchored_joinLines (lines : List Bytes) :
    scanAnchored false (joinLines lines) = joinLines (lines.map (scanAnchored false)) := by
  induction lines with
  | nil => rfl
  | cons line lines ih =>
    cases lines with
    | nil => simp [joinLines, List.intercalate]
    | cons line' lines =>
      rw [joinLines_cons, scanAnchored_newline, ih]
      simp only [List.map_cons, joinLines_cons]

theorem isText_joinLines {lines : List Bytes} (h : ∀ line ∈ lines, IsText line) :
    IsText (joinLines lines) := by
  induction lines with
  | nil => exact isText_nil
  | cons line lines ih =>
    obtain ⟨hline, hlines⟩ := List.forall_mem_cons.mp h
    cases lines with
    | nil => simpa [joinLines, List.intercalate] using hline
    | cons line' lines =>
      rw [joinLines_cons, ← List.singleton_append]
      exact hline.append ((isText_ascii (by decide)).append (ih hlines))

/-- Two texts that a newline joins are redacted apart, and so are the lines of any text. -/
theorem redact_anchored_values_line_local :
    (∀ a b : List Char, ∃ redactedA redactedB,
      redactAnchoredValues (encode a) = some redactedA ∧
      redactAnchoredValues (encode b) = some redactedB ∧
      redactAnchoredValues (encode (a ++ '\n' :: b)) = some (redactedA ++ 10 :: redactedB)) ∧
    ∀ lines : List (List Char), ∃ redactedLines,
      lines.mapM (fun line => redactAnchoredValues (encode line)) = some redactedLines ∧
      redactAnchoredValues (joinLines (lines.map encode)) = some (joinLines redactedLines) := by
  refine ⟨fun a b => ?_, fun lines => ?_⟩
  · refine ⟨_, _, redactAnchoredValues_eq (isText_encode a),
      redactAnchoredValues_eq (isText_encode b), ?_⟩
    have hjoined : encode (a ++ '\n' :: b) = encode a ++ 10 :: encode b := by
      rw [encode_append, encode_cons]
      rfl
    rw [redactAnchoredValues_eq (isText_encode _), hjoined, scanAnchored_newline]
  · have hlines : ∀ line ∈ lines.map encode, IsText line := by
      intro line hline
      obtain ⟨cs, -, rfl⟩ := List.mem_map.mp hline
      exact isText_encode cs
    refine ⟨(lines.map encode).map (scanAnchored false), ?_, ?_⟩
    · clear hlines
      induction lines with
      | nil => rfl
      | cons line lines ih =>
        rw [List.mapM_cons, ih, redactAnchoredValues_eq (isText_encode line)]
        rfl
    · rw [redactAnchoredValues_eq (isText_joinLines hlines), scanAnchored_joinLines]

end Nigiri.Fixtures
