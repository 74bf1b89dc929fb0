import Nigiri.SecretHeader

/-! The anchored scan as a rewriting of bytes whose state is whether the line has a dash so far. -/
namespace Nigiri.Fixtures
open Utf8 AsciiCase Rewrite

/-- The kind of the secret whose key starts a text, and the text from its value on. -/
def secretAt (cliKey : Bool) (text : Bytes) : Option (SecretValueKind × Bytes) :=
  (anchorAt text).bind fun anchor =>
    (valueAfter cliKey (text.drop anchor.1.length)).map fun start => (anchor.2, start)

def valueOf (kind : SecretValueKind) (start : Bytes) : Bytes :=
  start.takeWhile fun b => !terminates kind b

def renderValue (secret : Bytes) : Bytes :=
  if secret.isEmpty || redactedPrefix.isPrefixOf secret then secret
  else redaction secret.length redacted

/-- Whether the line has a dash so far. -/
def lineDash (cliKey : Bool) (b : UInt8) : Bool := !isNewline b && (cliKey || isDash b)

def anchoredStep : Step UInt8 Bool := fun cliKey c r =>
  match secretAt cliKey (c :: r) with
  | none => ⟨[c], 0, lineDash cliKey c⟩
  | some (kind, start) =>
    let header := (c :: r).take ((c :: r).length - start.length)
    let secret := valueOf kind start
    ⟨header ++ renderValue secret, (header ++ secret).length - 1,
      (header ++ secret).foldl lineDash cliKey⟩

def scanAnchored (cliKey : Bool) (text : Bytes) : Bytes := rewrite anchoredStep cliKey text

/-- Bytes the anchors are spelled with. -/
def isAnchorByte (b : UInt8) : Bool := (ascii "acdehilmnoprstw_-.").contains b

theorem anchors_spelled : ∀ anchor ∈ secretAnchors, anchor.1 ≠ [] ∧ lowered anchor.1 = anchor.1 ∧
    ∀ b ∈ anchor.1, isAnchorByte b = true := by decide +kernel

theorem anchors_lowercase (entry : Bytes × SecretValueKind) (h : entry ∈ secretAnchors) :
    lowered entry.1 = entry.1 := (anchors_spelled entry h).2.1

theorem anchor_border {b : UInt8} (hb : isAnchorByte (toAsciiLowercase b) = false) :
    ∀ anchor ∈ secretAnchors, toAsciiLowercase b ∉ lowered anchor.1 := by
  intro anchor hanchor hmem
  obtain ⟨-, hlower, hspelled⟩ := anchors_spelled anchor hanchor
  rw [hlower] at hmem
  rw [hspelled _ hmem] at hb
  cases hb

theorem anchor_bytes (anchor : Bytes × SecretValueKind) (h : anchor ∈ secretAnchors) :
    anchor.1 ≠ [] ∧ (∀ b ∈ lowered anchor.1, isHeaderByte b = true) ∧
      ∀ b ∈ stoppers, toAsciiLowercase b ∉ lowered anchor.1 := by
  have hheader : ∀ b ∈ ascii "acdehilmnoprstw_-.", isHeaderByte b = true := by decide
  have hstop : ∀ b ∈ stoppers, isAnchorByte (toAsciiLowercase b) = false := by decide
  obtain ⟨hne, hlower, hspelled⟩ := anchors_spelled anchor h
  refine ⟨hne, fun b hb => ?_, fun b hb => anchor_border (hstop b hb) anchor h⟩
  rw [hlower] at hb
  exact hheader b (List.contains_iff_mem.mp (hspelled b hb))

theorem anchorAt_some {t : Bytes} {anchor : Bytes × SecretValueKind}
    (h : anchorAt t = some anchor) : anchor ∈ secretAnchors ∧
      ∃ found rest, t = found ++ rest ∧ lowered found = lowered anchor.1 := by
  have hstart : startsIgnoreAsciiCase anchor.1 t = true := by simpa using List.find?_some h
  exact ⟨List.mem_of_find?_eq_some h, startsIgnoreAsciiCase_iff.mp hstart⟩

/-- A byte that no anchor has ends the text in which anchors are sought. -/
theorem anchorAt_border {b : UInt8}
    (hb : ∀ anchor ∈ secretAnchors, toAsciiLowercase b ∉ lowered anchor.1) (xs t : Bytes) :
    anchorAt (xs ++ b :: t) = anchorAt xs :=
  List.find?_congr fun anchor ha => inert_of_notMem (hb anchor ha) t xs

theorem anchorAt_stopper {b : UInt8} (hb : b ∈ stoppers) (xs t : Bytes) :
    anchorAt (xs ++ b :: t) = anchorAt xs :=
  anchorAt_border (fun anchor ha => (anchor_bytes anchor ha).2.2 b hb) xs t

theorem anchorAt_lowered {xs ys : Bytes} (h : lowered xs = lowered ys) :
    anchorAt xs = anchorAt ys := by
  refine List.find?_congr fun anchor _ => ?_
  rw [Bool.eq_iff_iff, startsIgnoreAsciiCase_iff_lowered, startsIgnoreAsciiCase_iff_lowered, h]

theorem secretAt_some {cliKey : Bool} {t start : Bytes} {kind : SecretValueKind}
    (h : secretAt cliKey t = some (kind, start)) :
    ∃ header, t = header ++ start ∧ header ≠ [] ∧ ∀ b ∈ header, isHeaderByte b = true := by
  obtain ⟨anchor, hanchor, h⟩ := Option.bind_eq_some_iff.mp h
  obtain ⟨start', hstart, hpair⟩ := Option.map_eq_some_iff.mp h
  cases hpair
  obtain ⟨hmem, found, rest, rfl, hfound⟩ := anchorAt_some hanchor
  obtain ⟨hne, hbytes, -⟩ := anchor_bytes anchor hmem
  have hlen : found.length = anchor.1.length := by simpa using congrArg List.length hfound
  rw [← hlen, List.drop_left] at hstart
  obtain ⟨xs, rfl, hxs⟩ := valueAfter_skips hstart
  refine ⟨found ++ xs, by rw [List.append_assoc], ?_, fun b hb => ?_⟩
  · intro hnil
    rw [(List.append_eq_nil_iff.mp hnil).1] at hlen
    exact hne (List.length_eq_zero_iff.mp hlen.symm)
  · exact (List.mem_append.mp hb).elim (headerBytes_of_lowered hfound hbytes b) (hxs b)

/-- What a text is up to a stopper decides whether a secret starts it, and where its value does. -/
theorem secretAt_stopper {b : UInt8} (hb : b ∈ stoppers) (cliKey : Bool) (xs : Bytes) :
    ∃ o : Option (SecretValueKind × Bytes), ∀ t,
      secretAt cliKey (xs ++ b :: t) = o.map fun p => (p.1, p.2 ++ b :: t) := by
  cases hxs : anchorAt xs with
  | none =>
    exact ⟨none, fun t => by rw [secretAt, anchorAt_stopper hb, hxs]; rfl⟩
  | some anchor =>
    obtain ⟨-, found, rest, rfl, hfound⟩ := anchorAt_some hxs
    have hlen : found.length = anchor.1.length := by simpa using congrArg List.length hfound
    obtain ⟨o, ho⟩ := valueAfter_stopper hb cliKey rest
    refine ⟨o.map fun start => (anchor.2, start), fun t => ?_⟩
    rw [secretAt, anchorAt_stopper hb, hxs, Option.bind_some, ← hlen, List.append_assoc,
      List.drop_left, ho]
    cases o <;> rfl

theorem anchoredStep_none {cliKey : Bool} {c : UInt8} {r : Bytes}
    (h : secretAt cliKey (c :: r) = none) :
    anchoredStep cliKey c r = ⟨[c], 0, lineDash cliKey c⟩ := by
  rw [anchoredStep, h]

theorem anchoredStep_some {cliKey : Bool} {c : UInt8} {r header start : Bytes}
    {kind : SecretValueKind} (h : secretAt cliKey (c :: r) = some (kind, start))
    (hsplit : c :: r = header ++ start) :
    anchoredStep cliKey c r = ⟨header ++ renderValue (valueOf kind start),
      (header ++ valueOf kind start).length - 1,
      (header ++ valueOf kind start).foldl lineDash cliKey⟩ := by
  have hheader : (c :: r).take ((c :: r).length - start.length) = header := by
    rw [hsplit, List.length_append, Nat.add_sub_cancel, List.take_left]
  rw [anchoredStep, h]
  simp only [hheader]

theorem value_split (kind : SecretValueKind) (start : Bytes) :
    valueOf kind start ++ start.dropWhile (fun b => !terminates kind b) = start :=
  List.takeWhile_append_dropWhile

theorem valueOf_terminated {kind : SecretValueKind} {b : UInt8} (hb : terminates kind b = true)
    (xs t : Bytes) : valueOf kind (xs ++ b :: t) = valueOf kind xs := by
  rw [valueOf, valueOf]
  induction xs with
  | nil => simp [hb]
  | cons x xs ih =>
    rw [List.cons_append, List.takeWhile_cons, List.takeWhile_cons, ih]

/-- The parts of a text that a secret starts: its key, its value, and what is behind them. -/
theorem secret_consumed {cliKey : Bool} {c : UInt8} {r header start : Bytes}
    {kind : SecretValueKind} (h : secretAt cliKey (c :: r) = some (kind, start))
    (hsplit : c :: r = header ++ start) :
    c :: r.take ((header ++ valueOf kind start).length - 1) = header ++ valueOf kind start ∧
      r.drop ((header ++ valueOf kind start).length - 1) =
        start.dropWhile fun b => !terminates kind b := by
  obtain ⟨header', hsplit', hne, -⟩ := secretAt_some h
  rw [List.append_cancel_right (hsplit.symm.trans hsplit')]
  refine consumed ?_ (List.append_ne_nil_of_left_ne_nil hne _)
  rw [List.append_assoc, value_split, hsplit']

theorem tracks_anchored : Tracks anchoredStep lineDash := by
  intro cliKey c r
  cases h : secretAt cliKey (c :: r) with
  | none => rw [anchoredStep_none h]; rfl
  | some p =>
    obtain ⟨kind, start⟩ := p
    obtain ⟨header, hsplit, -⟩ := secretAt_some h
    rw [anchoredStep_some h hsplit, (secret_consumed h hsplit).1]

@[simp] theorem scan_nil (cliKey : Bool) : scanAnchored cliKey [] = [] := rfl

theorem scan_copy {cliKey : Bool} {c : UInt8} {r : Bytes} (h : secretAt cliKey (c :: r) = none) :
    scanAnchored cliKey (c :: r) = c :: scanAnchored (lineDash cliKey c) r := by
  rw [scanAnchored, rewrite_cons, anchoredStep_none h]
  rfl

/-- A secret is replaced as a whole, and the scan goes on behind its value. -/
theorem scan_secret {cliKey : Bool} {kind : SecretValueKind} {header start : Bytes}
    (h : secretAt cliKey (header ++ start) = some (kind, start)) :
    scanAnchored cliKey (header ++ start) = header ++ renderValue (valueOf kind start) ++
      scanAnchored ((header ++ valueOf kind start).foldl lineDash cliKey)
        (start.dropWhile fun b => !terminates kind b) := by
  cases ht : header ++ start with
  | nil =>
    rw [ht] at h
    cases h
  | cons c r =>
    rw [ht] at h
    rw [scanAnchored, rewrite_cons, anchoredStep_some h ht.symm]
    simp only [(secret_consumed h ht.symm).2]
    rfl

/-- Lines are scanned apart from each other. -/
theorem scan_newline {b : UInt8} (hb : isNewline b = true) (cliKey : Bool) (xs t : Bytes) :
    scanAnchored cliKey (xs ++ b :: t) =
      scanAnchored cliKey (xs ++ [b]) ++ scanAnchored false t := by
  have hstop : b ∈ stoppers := by
    simp only [isNewline, Bool.or_eq_true, beq_iff_eq] at hb
    obtain rfl | rfl := hb <;> decide
  have hfold : (xs ++ [b]).foldl lineDash cliKey = false := by
    rw [List.foldl_append, List.foldl_cons, List.foldl_nil, lineDash, hb]
    rfl
  rw [← List.singleton_append, ← List.append_assoc, scanAnchored,
    rewrite_append tracks_anchored, hfold]
  · rfl
  intro cliKey c r hsuffix
  obtain ⟨ys, hys, -⟩ := (List.suffix_concat_iff.mp hsuffix).resolve_left (List.cons_ne_nil c r)
  obtain ⟨o, ho⟩ := secretAt_stopper hstop cliKey ys
  have hmore : c :: (r ++ t) = ys ++ b :: t := by
    rw [← List.cons_append, hys, List.append_assoc, List.singleton_append]
  have hlong := ho t
  have hshort := ho []
  rw [← hmore] at hlong
  rw [← hys] at hshort
  cases o with
  | none =>
    rw [anchoredStep_none hlong, anchoredStep_none hshort]
    exact ⟨rfl, Nat.zero_le _⟩
  | some p =>
    obtain ⟨kind, start⟩ := p
    have hkind : terminates kind b = true := by
      simp only [isNewline, Bool.or_eq_true, beq_iff_eq] at hb
      obtain rfl | rfl := hb <;> cases kind <;> decide
    obtain ⟨header, hsplit, hne, -⟩ := secretAt_some hshort
    have hsplit' : c :: (r ++ t) = header ++ (start ++ b :: t) := by
      rw [← List.cons_append, hsplit]
      simp
    rw [anchoredStep_some hlong hsplit', anchoredStep_some hshort hsplit,
      valueOf_terminated hkind, valueOf_terminated hkind]
    refine ⟨rfl, ?_⟩
    have hvalue : (valueOf kind start).length ≤ start.length :=
      (List.takeWhile_prefix _).length_le
    have hlen := congrArg List.length hsplit
    simp only [List.length_append, List.length_cons, List.length_nil] at hlen ⊢
    omega

end Nigiri.Fixtures
