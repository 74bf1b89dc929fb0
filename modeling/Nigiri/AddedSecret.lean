import Nigiri.GuardedText

/-! The anchored scan over a text to which an assignment of a secret is added: the text alone
decides whether the addition is redacted, is swallowed by an open value, or passes for redacted. -/
namespace Nigiri.Fixtures
open Utf8 AsciiCase Rewrite

/-- A text whose first key has a redacted line value that reaches the end of the text. -/
def IsMarkedOpen (cliKey : Bool) (t : Bytes) : Prop :=
  ∃ start, secretAt cliKey t = some (.line, start) ∧ redactedPrefix <+: start ∧
    ∀ b ∈ start, isNewline b = false

/-- The anchored scan comes to such a place. -/
def EndsInMarkedLine (t : Bytes) : Prop :=
  ∃ cliKey u, Reaches anchoredStep false t cliKey u ∧ IsMarkedOpen cliKey u

theorem anchors_same_kind : ∀ entry ∈ secretAnchors, ∀ other ∈ secretAnchors,
    other.1 <:+ entry.1 → other.2 = entry.2 := by decide +kernel

/-- Text that no separator starts, whatever follows. -/
def isProse (t : Bytes) : Bool :=
  4 ≤ t.length && (hexSuffixes.all fun s => !startsIgnoreAsciiCase s t) &&
    !t.head?.any fun b => isQuote b || isAsciiWhitespace b || isDelimiter b

/-- An anchor that ends inside another one has no value there. -/
theorem anchors_overlap : ∀ entry ∈ secretAnchors, ∀ overlap ∈ entry.1.tails, overlap ≠ [] →
    overlap ≠ entry.1 → ∀ other ∈ secretAnchors, overlap.isPrefixOf other.1 = true →
      overlap ≠ other.1 → isProse (other.1.drop overlap.length) = true := by decide +kernel

theorem valueAfter_prose {t : Bytes} (h : isProse t = true) (cliKey : Bool) (more : Bytes) :
    valueAfter cliKey (t ++ more) = none := by
  rw [isProse, Bool.and_eq_true, Bool.and_eq_true, decide_eq_true_iff] at h
  obtain ⟨⟨hlen, hhex⟩, hhead⟩ := h
  have hsuffix : dropHexSuffix (t ++ more) = t ++ more := by
    have hlength : ∀ s ∈ hexSuffixes, s.length = 4 := by decide
    have hnone : (hexSuffixes.find? fun s => startsIgnoreAsciiCase s (t ++ more)) = none := by
      refine List.find?_eq_none.mpr fun s hs hstart => ?_
      have hshort := startsIgnoreAsciiCase_of_length hstart (by rw [hlength s hs]; exact hlen)
      have hno := List.all_eq_true.mp hhex s hs
      rw [hshort] at hno
      cases hno
    rw [dropHexSuffix, hnone]
  cases t with
  | nil => simp at hlen
  | cons b r =>
    have hb : isQuote b = false ∧ isAsciiWhitespace b = false ∧ isDelimiter b = false := by
      simpa [Bool.or_eq_false_iff, and_assoc] using hhead
    have hquote : dropQuote (b :: r ++ more) = b :: r ++ more :=
      dropQuote_head fun x hx => by
        cases hx
        exact hb.1
    have hblank : skipSeparatorBlanks (b :: r ++ more) = b :: r ++ more := by
      refine @dropWhile_append_head _ [] _ (by simp) fun x hx => ?_
      cases hx
      rw [hb.2.1]
      rfl
    rw [valueAfter]
    simp only [hsuffix, hquote, hblank]
    simp [hb.2.2]

variable {kind : SecretValueKind} {anchor : Bytes}

/-- The key an addition has, and its spelling with what stands before it. -/
theorem assignmentKey_bytes (h : IsAnchor kind anchor) (t : Bytes) :
    (assignmentKey h).bytes ++ t = anchor ++ 61 :: t := by
  simp [SecretKey.bytes, SecretKey.separator, assignmentKey]

/-- Across the border to the addition there is no key, or a longer spelling of the addition's. -/
theorem secretAt_border (hmem : (anchor, kind) ∈ secretAnchors) {c : UInt8} {r : Bytes}
    (hnone : anchorAt (c :: r) = none) :
    IsAnchor kind (c :: r ++ anchor) ∨
      ∀ cliKey t, secretAt cliKey (c :: r ++ (anchor ++ 61 :: t)) = none := by
  have hequals := @anchor_border 61 (by decide)
  have hborder (t : Bytes) :
      anchorAt (c :: r ++ (anchor ++ 61 :: t)) = anchorAt (c :: r ++ anchor) := by
    rw [← List.append_assoc, anchorAt_border hequals]
  cases hanchor : anchorAt (c :: r ++ anchor) with
  | none => exact .inr fun cliKey t => by rw [secretAt, hborder, hanchor]; rfl
  | some entry =>
    obtain ⟨hentry, found, rest, hsplit, hfound⟩ := anchorAt_some hanchor
    have hinside (back : Bytes) (h : c :: r = found ++ back) : False := by
      have hstart : startsIgnoreAsciiCase entry.1 (c :: r) = true :=
        startsIgnoreAsciiCase_iff.mpr ⟨found, back, h, hfound⟩
      exact List.find?_eq_none.mp hnone entry hentry hstart
    rcases List.append_eq_append_iff.mp hsplit with ⟨as, hfound', has⟩ | ⟨as, hcr, -⟩
    · cases rest with
      | nil =>
        rw [List.append_nil] at has
        subst has
        rw [hfound', lowered_append, anchors_lowercase _ hmem, anchors_lowercase _ hentry] at hfound
        have hkind := anchors_same_kind entry hentry _ hmem ⟨lowered (c :: r), hfound⟩
        exact .inl ⟨entry, hentry, hkind.symm, by
          rw [lowered_append, anchors_lowercase _ hmem, anchors_lowercase _ hentry, hfound]⟩
      | cons x rest =>
        right
        intro cliKey t
        have hlower := anchors_lowercase _ hmem
        simp only [has, lowered_append] at hlower
        obtain ⟨has', -⟩ := List.append_inj hlower (lowered_length as)
        rw [anchors_lowercase _ hentry] at hfound
        have hlen : found.length = entry.1.length := by
          rw [← hfound, lowered_length]
        rw [hfound', lowered_append, has'] at hfound
        have hne : as ≠ [] := fun hnil => hinside [] (by rw [hfound', hnil]; simp)
        have hproper : as ≠ entry.1 := fun heq => by
          rw [hfound', ← heq, List.length_append, List.length_cons] at hlen
          omega
        have hprose := anchors_overlap entry hentry as
          ((List.mem_tails _ _).mpr ⟨lowered (c :: r), hfound⟩) hne hproper _ hmem
          (List.isPrefixOf_iff_prefix.mpr ⟨x :: rest, has.symm⟩)
          (fun heq => by simp [heq] at has)
        simp only [has, List.drop_left] at hprose
        have hvalue := valueAfter_prose hprose cliKey (61 :: t)
        have hdrop : (c :: r ++ (anchor ++ 61 :: t)).drop entry.1.length =
            x :: rest ++ 61 :: t := by
          rw [← hlen, hfound', has, ← List.append_assoc, ← List.append_assoc,
            List.append_assoc _ _ (61 :: t), List.drop_left]
        rw [secretAt, hborder, hanchor, Option.bind_some, hdrop, hvalue]
        rfl
    · exact (hinside as hcr).elim

/-- What is added: an anchor to which a secret is assigned. -/
def assigned (anchor secret : Bytes) : Bytes := anchor ++ 61 :: secret

/-- The scan of a text and an addition tells equally long secrets not apart. -/
def HidesAddition (kind : SecretValueKind) (anchor : Bytes) (cliKey : Bool) (t : Bytes) : Prop :=
  ∀ secret₁ secret₂, IsSecret kind secret₁ → IsSecret kind secret₂ →
    secret₁.length = secret₂.length →
      scanAnchored cliKey (t ++ assigned anchor secret₁) =
        scanAnchored cliKey (t ++ assigned anchor secret₂)

theorem isMarkedOpen_nil (cliKey : Bool) : ¬ IsMarkedOpen cliKey [] := by
  rintro ⟨start, hsecret, -⟩
  rw [secretAt, anchorAt_nil] at hsecret
  cases hsecret

theorem IsMarkedOpen.hasGuard {cliKey : Bool} {t : Bytes} (h : IsMarkedOpen cliKey t)
    (hguard : Guarded t) : HasGuard t := by
  cases t with
  | nil => exact absurd h (isMarkedOpen_nil cliKey)
  | cons c r =>
    obtain ⟨start, hsecret, -⟩ := h
    refine hguard c r List.suffix_rfl fun hnone => ?_
    rw [secretAt, hnone] at hsecret
    cases hsecret

theorem scan_assigned (h : IsAnchor kind anchor) (cliKey : Bool) {secret : Bytes}
    (hsecret : IsSecret kind secret) : scanAnchored cliKey (assigned anchor secret) =
      anchor ++ 61 :: redaction secret.length redacted := by
  have hscan := @scan_key kind (assignmentKey h) cliKey secret [] hsecret (by simp [EndsValue])
  rw [List.append_nil, assignmentKey_bytes, assignmentKey_bytes, scan_nil, List.append_nil] at hscan
  exact hscan

theorem assigned_noNewline (h : IsAnchor kind anchor) {secret : Bytes}
    (hsecret : IsSecret kind secret) : ∀ b ∈ assigned anchor secret, isNewline b = false := by
  obtain ⟨entry, hentry, -, hlowered⟩ := h
  intro b hb
  rcases List.mem_append.mp hb with hb | hb
  · have hheader := headerBytes_of_lowered hlowered (anchor_bytes entry hentry).2.1 b hb
    rw [isHeaderByte, Bool.and_eq_true, Bool.not_eq_true'] at hheader
    exact hheader.2
  · rcases List.mem_cons.mp hb with rfl | hb
    · rfl
    · refine Bool.eq_false_iff.mpr fun hn => ?_
      have hends := isNewline_terminates hn kind
      exact Bool.false_ne_true ((hsecret.unterminated b hb).symm.trans hends)

/-- In front of a guard the key of a secret and the start of its value are found at once. -/
theorem secretAt_guarded {t : Bytes} (h : HasGuard t) (cliKey : Bool) :
    (∀ more, secretAt cliKey (t ++ more) =
      (secretAt cliKey t).map fun p => (p.1, p.2 ++ more)) ∧
    ∀ kind start, secretAt cliKey t = some (kind, start) → 32 ∈ start := by
  obtain ⟨xs, b, ys, rfl, hb, hspace⟩ := h
  have hstop : b ∈ stoppers := by
    have hall : ∀ b ∈ ascii ";[", b ∈ stoppers := by decide
    exact hall b hb
  obtain ⟨o, ho⟩ := secretAt_stopper hstop cliKey xs
  refine ⟨fun more => ?_, fun kind start hsecret => ?_⟩
  · rw [List.append_assoc, List.cons_append, ho, ho, Option.map_map]
    congr 1
    funext p
    rw [Function.comp_apply, List.append_assoc, List.cons_append]
  · rw [ho] at hsecret
    obtain ⟨p, -, hp⟩ := Option.map_eq_some_iff.mp hsecret
    cases hp
    exact List.mem_append_right _ (List.mem_cons_of_mem _ hspace)

theorem value_append {start : Bytes} (h : ∃ b ∈ start, terminates kind b = true) (more : Bytes) :
    valueOf kind (start ++ more) = valueOf kind start ∧
      (start ++ more).dropWhile (fun b => !terminates kind b) =
        start.dropWhile (fun b => !terminates kind b) ++ more := by
  have hrest : (start ++ more).dropWhile (fun b => !terminates kind b) =
      start.dropWhile (fun b => !terminates kind b) ++ more := by
    obtain ⟨b, hb, hterm⟩ := h
    rw [List.dropWhile_append, if_neg]
    intro hempty
    have hall := List.dropWhile_eq_nil_iff.mp (List.isEmpty_iff.mp hempty) b hb
    rw [hterm] at hall
    cases hall
  refine ⟨?_, hrest⟩
  have hlong := value_split kind (start ++ more)
  have hshort := value_split kind start
  rw [hrest, ← List.append_assoc] at hlong
  exact List.append_cancel_right ((List.append_cancel_right hlong).trans hshort.symm)

/-- An open line value swallows the addition, and is then a marker or not as it was before. -/
theorem scan_openLine {cliKey : Bool} {t start : Bytes} (hguard : HasGuard t)
    (hsecret : secretAt cliKey t = some (.line, start)) (hopen : ∀ b ∈ start, isNewline b = false)
    {more : Bytes} (hmore : ∀ b ∈ more, isNewline b = false) :
    ∃ header, t = header ++ start ∧ scanAnchored cliKey (t ++ more) =
      if redactedPrefix.isPrefixOf start then t ++ more
      else header ++ redaction (start.length + more.length) redacted := by
  obtain ⟨hadded, hspaces⟩ := secretAt_guarded hguard cliKey
  have hspace := hspaces .line start hsecret
  have hlong := hadded more
  rw [hsecret] at hlong
  obtain ⟨header, rfl, -⟩ := secretAt_some hsecret
  refine ⟨header, rfl, ?_⟩
  have hplain : ∀ b ∈ start ++ more, terminates .line b = false := fun b hb =>
    (List.mem_append.mp hb).elim (hopen b) (hmore b)
  obtain ⟨hvalue, hrest⟩ := @valueOf_secret .line (start ++ more) [] hplain (by simp [EndsValue])
  rw [List.append_nil] at hvalue hrest
  have hempty : (start ++ more).isEmpty = false := by
    cases start with
    | nil => cases hspace
    | cons => rfl
  have hmarker : redactedPrefix.isPrefixOf (start ++ more) = redactedPrefix.isPrefixOf start := by
    rw [Bool.eq_iff_iff, List.isPrefixOf_iff_prefix, List.isPrefixOf_iff_prefix]
    refine ⟨fun hstarts => ?_, fun hstarts => hstarts.trans (List.prefix_append _ _)⟩
    rcases List.prefix_or_prefix_of_prefix hstarts (List.prefix_append start more) with h | h
    · exact h
    · -- the marker has no space
      have hnone : 32 ∉ redactedPrefix := by decide
      exact absurd (h.subset hspace) hnone
  rw [List.append_assoc] at hlong ⊢
  rw [scan_secret hlong, hvalue, hrest, renderValue, hempty, hmarker, Bool.false_or]
  rw [scan_nil, List.append_nil]
  split
  · rfl
  · rw [List.length_append]

/-- One step in front of an addition: it is the step without it, or it hides the addition and no
marked line is left open, or such a line is open here. -/
theorem addition_step (hmem : (anchor, kind) ∈ secretAnchors) {cliKey : Bool} {c : UInt8}
    {r : Bytes} (hguard : Guarded (c :: r)) :
    (∀ secret, scanAnchored cliKey (c :: r ++ assigned anchor secret) =
      (anchoredStep cliKey c r).emitted ++ scanAnchored (anchoredStep cliKey c r).next
        (r.drop (anchoredStep cliKey c r).extra ++ assigned anchor secret)) ∨
    (HidesAddition kind anchor cliKey (c :: r) ∧
      ∀ d u, Reaches anchoredStep (anchoredStep cliKey c r).next
        (r.drop (anchoredStep cliKey c r).extra) d u → ¬ IsMarkedOpen d u) ∨
    IsMarkedOpen cliKey (c :: r) := by
  have hanchorKey : IsAnchor kind anchor := ⟨_, hmem, rfl, rfl⟩
  cases hanchor : anchorAt (c :: r) with
  | none =>
    have hhere : secretAt cliKey (c :: r) = none := by
      rw [secretAt, hanchor]
      rfl
    rw [anchoredStep_none hhere]
    rcases secretAt_border hmem hanchor with hkey | hnone
    · -- the text ends with the start of a longer spelling of the anchor
      refine .inr (.inl ⟨fun secret₁ secret₂ h₁ h₂ hlength => ?_, fun d u hreach hmarked => ?_⟩)
      · have hsplit (secret : Bytes) : c :: r ++ assigned anchor secret =
            assigned (c :: r ++ anchor) secret := by
          rw [assigned, assigned, List.append_assoc]
        rw [hsplit, hsplit, scan_assigned hkey cliKey h₁, scan_assigned hkey cliKey h₂, hlength]
      · obtain ⟨entry, hentry, -, hlowered⟩ := hkey
        have hu : u <:+ r := hreach.suffix
        obtain ⟨xs, b, ys, hguarded, hb, -⟩ :=
          hmarked.hasGuard (hguard.suffix (hu.trans (List.suffix_cons c r)))
        have hmem : toAsciiLowercase b ∈ lowered entry.1 := by
          rw [← hlowered, lowered_append]
          refine List.mem_append_left _ (List.mem_map_of_mem (List.mem_cons_of_mem c ?_))
          exact hu.subset (hguarded ▸ List.mem_append_right _ List.mem_cons_self)
        have hall : ∀ b ∈ ascii ";[", b ∈ stoppers := by decide
        exact (anchor_bytes entry hentry).2.2 b (hall b hb) hmem
    · refine .inl fun secret => ?_
      have hcopy : scanAnchored cliKey (c :: (r ++ assigned anchor secret)) =
          c :: scanAnchored (lineDash cliKey c) (r ++ assigned anchor secret) :=
        scan_copy (hnone cliKey secret)
      exact hcopy
  | some entry =>
    have hguarded : HasGuard (c :: r) :=
      hguard c r List.suffix_rfl (by rw [hanchor]; exact Option.some_ne_none entry)
    obtain ⟨hadded, hspaces⟩ := secretAt_guarded hguarded cliKey
    cases hhere : secretAt cliKey (c :: r) with
    | none =>
      refine .inl fun secret => ?_
      have hlong := hadded (assigned anchor secret)
      rw [hhere] at hlong
      rw [anchoredStep_none hhere]
      have hcopy : scanAnchored cliKey (c :: (r ++ assigned anchor secret)) =
          c :: scanAnchored (lineDash cliKey c) (r ++ assigned anchor secret) := scan_copy hlong
      exact hcopy
    | some p =>
      obtain ⟨other, start⟩ := p
      obtain ⟨header, hsplit, -⟩ := secretAt_some hhere
      rw [anchoredStep_some hhere hsplit]
      simp only [(secret_consumed hhere hsplit).2]
      by_cases hterm : ∃ b ∈ start, terminates other b = true
      · refine .inl fun secret => ?_
        obtain ⟨hvalue, hrest⟩ := value_append hterm (assigned anchor secret)
        have hlong := hadded (assigned anchor secret)
        rw [hhere, hsplit, List.append_assoc] at hlong
        rw [hsplit, List.append_assoc, scan_secret hlong, hvalue, hrest]
      · have hopen : ∀ b ∈ start, terminates other b = false := fun b hb =>
          Bool.eq_false_iff.mpr fun h => hterm ⟨b, hb, h⟩
        have hline : other = .line := by
          cases other with
          | line => rfl
          | token =>
            have hspace := hopen 32 (hspaces .token start hhere)
            cases hspace
        subst hline
        cases hmarker : redactedPrefix.isPrefixOf start with
        | true =>
          exact .inr (.inr ⟨start, hhere, List.isPrefixOf_iff_prefix.mp hmarker, hopen⟩)
        | false =>
          refine .inr (.inl ⟨fun secret₁ secret₂ h₁ h₂ hlength => ?_, fun d u hreach => ?_⟩)
          · obtain ⟨header₁, hheader₁, hscan₁⟩ := scan_openLine hguarded hhere hopen
              (assigned_noNewline hanchorKey h₁)
            obtain ⟨header₂, hheader₂, hscan₂⟩ := scan_openLine hguarded hhere hopen
              (assigned_noNewline hanchorKey h₂)
            have hsame : header₁ = header₂ :=
              List.append_cancel_right (hheader₁.symm.trans hheader₂)
            have hlen : (assigned anchor secret₁).length = (assigned anchor secret₂).length := by
              rw [assigned, assigned, List.length_append, List.length_append, List.length_cons,
                List.length_cons, hlength]
            rw [hscan₁, hscan₂, hmarker, hsame, hlen]
            rfl
          · have hnil : start.dropWhile (fun b => !terminates .line b) = [] :=
              List.dropWhile_eq_nil_iff.mpr fun b hb => by rw [hopen b hb]; rfl
            rw [hnil] at hreach
            rw [List.suffix_nil.mp hreach.suffix]
            exact isMarkedOpen_nil d

theorem scan_hidesAddition (hmem : (anchor, kind) ∈ secretAnchors) (cliKey : Bool) {t : Bytes}
    (hguard : Guarded t)
    (hmarked : ∀ d u, Reaches anchoredStep cliKey t d u → ¬ IsMarkedOpen d u) :
    HidesAddition kind anchor cliKey t := by
  induction cliKey, t using places_induction anchoredStep with
  | nil cliKey =>
    intro secret₁ secret₂ h₁ h₂ hlength
    have hanchor : IsAnchor kind anchor := ⟨_, hmem, rfl, rfl⟩
    rw [List.nil_append, List.nil_append, scan_assigned hanchor cliKey h₁,
      scan_assigned hanchor cliKey h₂, hlength]
  | cons cliKey c r ih =>
    rcases addition_step hmem hguard with hstep | ⟨hhides, -⟩ | hopen
    · intro secret₁ secret₂ h₁ h₂ hlength
      have hrest := ih
        (hguard.suffix ((List.drop_suffix _ _).trans (List.suffix_cons c r)))
        (fun d u hreach => hmarked d u (.later hreach)) secret₁ secret₂ h₁ h₂ hlength
      rw [hstep, hstep, hrest]
    · exact hhides
    · exact absurd hopen (hmarked cliKey (c :: r) (.here _ _))

/-- From a marked line left open the addition is copied, secret and all. -/
theorem scan_leaksAddition (hmem : (anchor, kind) ∈ secretAnchors) {cliKey d : Bool} {t u : Bytes}
    (hreach : Reaches anchoredStep cliKey t d u) (hmarked : IsMarkedOpen d u)
    (hguard : Guarded t) : ∃ front, ∀ secret, IsSecret kind secret →
      scanAnchored cliKey (t ++ assigned anchor secret) = front ++ assigned anchor secret := by
  have hhere {d : Bool} {u : Bytes} (hopen : IsMarkedOpen d u) (hguard : Guarded u) :
      ∀ secret, IsSecret kind secret →
        scanAnchored d (u ++ assigned anchor secret) = u ++ assigned anchor secret := by
    intro secret hsecret
    have hguarded := hopen.hasGuard hguard
    obtain ⟨start, hstart, hmarker, hline⟩ := hopen
    obtain ⟨header, -, hscan⟩ := scan_openLine hguarded hstart hline
      (assigned_noNewline ⟨_, hmem, rfl, rfl⟩ hsecret)
    rw [hscan, if_pos (List.isPrefixOf_iff_prefix.mpr hmarker)]
  induction hreach with
  | here d u => exact ⟨u, hhere hmarked hguard⟩
  | @later cliKey c r d u hreach ih =>
    rcases addition_step hmem hguard with hstep | ⟨-, hclosed⟩ | hopen
    · obtain ⟨front, hfront⟩ :=
        ih hmarked (hguard.suffix ((List.drop_suffix _ _).trans (List.suffix_cons c r)))
      exact ⟨_ ++ front, fun secret hsecret => by
        rw [hstep, hfront secret hsecret, List.append_assoc]⟩
    · exact absurd hmarked (hclosed d u hreach)
    · exact ⟨c :: r, hhere hopen hguard⟩

end Nigiri.Fixtures
