import Nigiri.Redaction

/-! Keys in front of secrets in every form with a delimiter, and the secrets that stand behind
them: the scan replaces such a secret whole, by as many bytes as it has. -/
namespace Nigiri.Fixtures
open Utf8 AsciiCase Rewrite

/-- Some letter case of an anchor for secrets of a kind. -/
def IsAnchor (kind : SecretValueKind) (anchor : Bytes) : Prop :=
  ∃ entry ∈ secretAnchors, entry.2 = kind ∧ lowered anchor = lowered entry.1

def optionalQuote : List Bytes := [[], [39], [34]]

/-- The text from an anchor to its value. -/
structure SecretKey (kind : SecretValueKind) where
  anchor : Bytes
  hexSuffix : Bytes
  quote : Bytes
  blanks : Bytes
  delimiter : UInt8
  moreBlanks : Bytes
  valueQuote : Bytes
  anchored : IsAnchor kind anchor
  suffixed : hexSuffix ∈ [] :: hexSuffixes
  quoted : quote ∈ optionalQuote
  blank : ∀ b ∈ blanks, isBlank b = true
  delimits : isDelimiter delimiter = true
  moreBlank : ∀ b ∈ moreBlanks, isBlank b = true
  valueQuoted : valueQuote ∈ optionalQuote

def SecretKey.separator {kind : SecretValueKind} (key : SecretKey kind) : Bytes :=
  key.quote ++ (key.blanks ++ key.delimiter :: (key.moreBlanks ++ key.valueQuote))

def SecretKey.bytes {kind : SecretValueKind} (key : SecretKey kind) : Bytes :=
  key.anchor ++ (key.hexSuffix ++ key.separator)

/-- An anchor assigned to without blanks or quotes. -/
def assignmentKey {kind : SecretValueKind} {anchor : Bytes} (h : IsAnchor kind anchor) :
    SecretKey kind where
  anchor := anchor
  hexSuffix := []
  quote := []
  blanks := []
  delimiter := 61
  moreBlanks := []
  valueQuote := []
  anchored := h
  suffixed := List.mem_cons_self
  quoted := List.mem_cons_self
  blank := by simp
  delimits := rfl
  moreBlank := by simp
  valueQuoted := List.mem_cons_self

/-- A value that its separator and its terminator do not cut, that hides no line of a command, and
that is not taken for a marker. -/
structure IsSecret (kind : SecretValueKind) (secret : Bytes) : Prop where
  nonempty : secret ≠ []
  unterminated : ∀ b ∈ secret, terminates kind b = false
  noDash : ∀ b ∈ secret, isDash b = false
  plainStart : ∀ b ∈ secret.head?, isBlank b = false ∧ isQuote b = false
  unmarked : redactedPrefix.isPrefixOf secret = false

/-- Empty, or starting with what ends a value. -/
def EndsValue (kind : SecretValueKind) (t : Bytes) : Prop :=
  ∀ b ∈ t.head?, terminates kind b = true

instance (kind : SecretValueKind) (t : Bytes) : Decidable (EndsValue kind t) :=
  inferInstanceAs (Decidable (∀ b ∈ t.head?, terminates kind b = true))

theorem dropWhile_append_head {p : UInt8 → Bool} {xs t : Bytes} (hxs : ∀ b ∈ xs, p b = true)
    (ht : ∀ b ∈ t.head?, p b = false) : (xs ++ t).dropWhile p = t := by
  rw [List.dropWhile_append_of_pos hxs]
  cases t with
  | nil => rfl
  | cons b r => exact List.dropWhile_cons_of_neg (by simp [ht b rfl])

theorem dropQuote_head {t : Bytes} (h : ∀ b ∈ t.head?, isQuote b = false) : dropQuote t = t := by
  cases t with
  | nil => rfl
  | cons b r => rw [dropQuote, h b rfl, if_neg Bool.false_ne_true]

theorem dropQuote_optional {quote t : Bytes} (hquote : quote ∈ optionalQuote)
    (h : ∀ b ∈ t.head?, isQuote b = false) : dropQuote (quote ++ t) = t := by
  simp only [optionalQuote, List.mem_cons, List.not_mem_nil, or_false] at hquote
  rcases hquote with rfl | rfl | rfl
  · exact dropQuote_head h
  · rfl
  · rfl

/-- Bytes that separate a key from its value. -/
def isSeparatorByte (b : UInt8) : Bool := isQuote b || isBlank b || isDelimiter b

theorem separatorByte_cases {b : UInt8} (h : isSeparatorByte b = true) :
    b ∈ ascii "'\"\t =:" := by
  simp only [isSeparatorByte, isQuote, isBlank, isDelimiter, Bool.or_eq_true, beq_iff_eq] at h
  obtain ((rfl | rfl) | rfl | rfl) | rfl | rfl := h <;> decide

theorem separator_border {b : UInt8} (h : isSeparatorByte b = true) :
    ∀ anchor ∈ secretAnchors, toAsciiLowercase b ∉ lowered anchor.1 := by
  have hall : ∀ b ∈ ascii "'\"\t =:", isAnchorByte (toAsciiLowercase b) = false := by decide
  exact anchor_border (hall b (separatorByte_cases h))

/-- The longest anchor is found first, and no suffix or separator makes it longer. -/
theorem anchorAt_key {kind : SecretValueKind} {anchor hexSuffix t : Bytes}
    (hanchor : IsAnchor kind anchor) (hsuffix : hexSuffix ∈ [] :: hexSuffixes)
    (ht : ∃ b r, t = b :: r ∧ isSeparatorByte b = true) :
    ∃ entry, entry.2 = kind ∧ entry.1.length = anchor.length ∧
      anchorAt (anchor ++ (hexSuffix ++ t)) = some entry := by
  have hfirst : ∀ entry ∈ secretAnchors, ∀ suffix ∈ [] :: hexSuffixes,
      anchorAt (entry.1 ++ suffix.dropLast) = some entry := by decide +kernel
  have hlast : ∀ suffix ∈ hexSuffixes, suffix = suffix.dropLast ++ [120] := by decide
  have hnone := @anchor_border 120 (by decide)
  obtain ⟨entry, hentry, hkind, hlowered⟩ := hanchor
  obtain ⟨b, r, rfl, hb⟩ := ht
  refine ⟨entry, hkind, by simpa using congrArg List.length hlowered.symm, ?_⟩
  have hsame : anchorAt (anchor ++ hexSuffix.dropLast) = some entry := by
    rw [← hfirst entry hentry hexSuffix hsuffix]
    exact anchorAt_lowered (by rw [lowered_append, lowered_append, hlowered])
  rcases List.mem_cons.mp hsuffix with rfl | hsuffix
  · rw [List.nil_append, anchorAt_border (separator_border hb)]
    simpa using hsame
  · rw [hlast hexSuffix hsuffix, List.append_assoc, ← List.append_assoc, List.singleton_append,
      anchorAt_border hnone, hsame]

theorem dropHexSuffix_key {hexSuffix t : Bytes} (hsuffix : hexSuffix ∈ [] :: hexSuffixes)
    (ht : ∃ b r, t = b :: r ∧ isSeparatorByte b = true) : dropHexSuffix (hexSuffix ++ t) = t := by
  have hfind : (hexSuffixes.find? fun s => startsIgnoreAsciiCase s (hexSuffix ++ t)) =
      hexSuffixes.find? fun s => startsIgnoreAsciiCase s hexSuffix := by
    have hall : ∀ b ∈ ascii "'\"\t =:", ∀ s ∈ hexSuffixes, toAsciiLowercase b ∉ lowered s := by
      decide
    obtain ⟨b, r, rfl, hb⟩ := ht
    exact List.find?_congr fun s hs =>
      inert_of_notMem (hall b (separatorByte_cases hb) s hs) r hexSuffix
  rw [dropHexSuffix, hfind]
  rcases List.mem_cons.mp hsuffix with rfl | hsuffix
  · rfl
  · have hself : ∀ suffix ∈ hexSuffixes,
        (hexSuffixes.find? fun s => startsIgnoreAsciiCase s suffix) = some suffix := by decide
    rw [hself hexSuffix hsuffix]
    exact List.drop_left

variable {kind : SecretValueKind}

theorem SecretKey.separator_head (key : SecretKey kind) (t : Bytes) :
    ∃ b r, key.separator ++ t = b :: r ∧ isSeparatorByte b = true := by
  have hdelim : isSeparatorByte key.delimiter = true := by
    rw [isSeparatorByte, key.delimits, Bool.or_true]
  have hblanks : ∃ b r, key.blanks ++ key.delimiter :: (key.moreBlanks ++ key.valueQuote) = b :: r ∧
      isSeparatorByte b = true := by
    cases hb : key.blanks with
    | nil => exact ⟨_, _, rfl, hdelim⟩
    | cons b r =>
      have hblank := key.blank b (hb ▸ List.mem_cons_self)
      exact ⟨b, _, rfl, by rw [isSeparatorByte, hblank, Bool.or_true, Bool.true_or]⟩
  have hquote := key.quoted
  simp only [optionalQuote, List.mem_cons, List.not_mem_nil, or_false] at hquote
  rw [separator]
  rcases hquote with h | h | h
  · obtain ⟨b, r, heq, hb⟩ := hblanks
    exact ⟨b, r ++ t, by rw [h, List.nil_append, heq]; rfl, hb⟩
  · exact ⟨39, _, by rw [h]; rfl, rfl⟩
  · exact ⟨34, _, by rw [h]; rfl, rfl⟩

theorem isBlank_plain {b : UInt8} (h : isBlank b = true) :
    (isAsciiWhitespace b && !isNewline b) = true ∧ isQuote b = false ∧ isDash b = false ∧
      isNewline b = false := by
  simp only [isBlank, Bool.or_eq_true, beq_iff_eq] at h
  obtain rfl | rfl := h <;> decide

theorem isDelimiter_plain {b : UInt8} (h : isDelimiter b = true) :
    isAsciiWhitespace b = false ∧ isQuote b = false ∧ isDash b = false ∧ isNewline b = false := by
  simp only [isDelimiter, Bool.or_eq_true, beq_iff_eq] at h
  obtain rfl | rfl := h <;> decide

theorem isQuote_plain {b : UInt8} (h : isQuote b = true) :
    isBlank b = false ∧ isDash b = false ∧ isNewline b = false := by
  simp only [isQuote, Bool.or_eq_true, beq_iff_eq] at h
  obtain rfl | rfl := h <;> decide

theorem optionalQuote_isQuote {quote : Bytes} (h : quote ∈ optionalQuote) :
    ∀ b ∈ quote, isQuote b = true := by
  have hall : ∀ quote ∈ optionalQuote, ∀ b ∈ quote, isQuote b = true := by decide
  exact hall quote h

theorem valueAfter_key (key : SecretKey kind) (cliKey : Bool) {value : Bytes}
    (h : ∀ b ∈ value.head?, isBlank b = false ∧ isQuote b = false) :
    valueAfter cliKey (key.hexSuffix ++ (key.separator ++ value)) = some value := by
  have hwhitespaceStart : dropQuote (dropHexSuffix (key.hexSuffix ++ (key.separator ++ value))) =
      key.blanks ++ key.delimiter :: (key.moreBlanks ++ (key.valueQuote ++ value)) := by
    rw [dropHexSuffix_key key.suffixed (key.separator_head value), SecretKey.separator,
      List.append_assoc, dropQuote_optional key.quoted]
    · simp only [List.append_assoc, List.cons_append]
    · cases hb : key.blanks with
      | nil => simp [isDelimiter_plain key.delimits]
      | cons b r => simp [isBlank_plain (key.blank b (hb ▸ List.mem_cons_self))]
  have hcursor : skipSeparatorBlanks
      (key.blanks ++ key.delimiter :: (key.moreBlanks ++ (key.valueQuote ++ value))) =
      key.delimiter :: (key.moreBlanks ++ (key.valueQuote ++ value)) :=
    dropWhile_append_head (fun b hb => (isBlank_plain (key.blank b hb)).1)
      (by simp [isDelimiter_plain key.delimits])
  have hvalue : dropQuote ((key.moreBlanks ++ (key.valueQuote ++ value)).dropWhile isBlank) =
      value := by
    rw [dropWhile_append_head key.moreBlank]
    · exact dropQuote_optional key.valueQuoted fun b hb => (h b hb).2
    · cases hq : key.valueQuote with
      | nil => exact fun b hb => (h b hb).1
      | cons q r =>
        have hquote := optionalQuote_isQuote key.valueQuoted q (hq ▸ List.mem_cons_self)
        simp [isQuote_plain hquote]
  rw [valueAfter, hwhitespaceStart]
  simp only [hcursor, List.head?_cons, Option.any_some, key.delimits, if_true, List.drop_one,
    List.tail_cons, hvalue]

theorem secretAt_key (key : SecretKey kind) (cliKey : Bool) {value : Bytes}
    (h : ∀ b ∈ value.head?, isBlank b = false ∧ isQuote b = false) :
    secretAt cliKey (key.bytes ++ value) = some (kind, value) := by
  obtain ⟨entry, hkind, hlen, hanchor⟩ :=
    anchorAt_key key.anchored key.suffixed (key.separator_head value)
  rw [SecretKey.bytes, List.append_assoc, List.append_assoc, secretAt, hanchor, Option.bind_some,
    hlen, List.drop_left, valueAfter_key key cliKey h, hkind]
  rfl

theorem valueOf_secret {secret t : Bytes} (h : ∀ b ∈ secret, terminates kind b = false)
    (ht : EndsValue kind t) : valueOf kind (secret ++ t) = secret ∧
      (secret ++ t).dropWhile (fun b => !terminates kind b) = t := by
  have hall : ∀ b ∈ secret, (!terminates kind b) = true := fun b hb => by rw [h b hb]; rfl
  have hrest := dropWhile_append_head hall (t := t) fun b hb => by rw [ht b hb]; rfl
  refine ⟨?_, hrest⟩
  have hsplit := value_split kind (secret ++ t)
  rw [hrest] at hsplit
  exact List.append_cancel_right hsplit

theorem foldl_lineDash_plain {xs : Bytes} (h : ∀ b ∈ xs, isDash b = false ∧ isNewline b = false)
    (cliKey : Bool) : xs.foldl lineDash cliKey = cliKey := by
  induction xs with
  | nil => rfl
  | cons x xs ih =>
    obtain ⟨hx, hxs⟩ := List.forall_mem_cons.mp h
    rw [List.foldl_cons, lineDash, hx.1, hx.2, Bool.or_false, Bool.not_false, Bool.true_and,
      ih hxs]

theorem isNewline_terminates {b : UInt8} (h : isNewline b = true) (kind : SecretValueKind) :
    terminates kind b = true := by
  simp only [isNewline, Bool.or_eq_true, beq_iff_eq] at h
  obtain rfl | rfl := h <;> cases kind <;> decide

/-- Nothing of a secret behind its key is left but its length. -/
theorem scan_key (key : SecretKey kind) (cliKey : Bool) {secret t : Bytes}
    (h : IsSecret kind secret) (ht : EndsValue kind t) :
    scanAnchored cliKey (key.bytes ++ (secret ++ t)) =
      key.bytes ++ redaction secret.length redacted ++
        scanAnchored (key.bytes.foldl lineDash cliKey) t := by
  have hhead : ∀ b ∈ (secret ++ t).head?, isBlank b = false ∧ isQuote b = false := by
    obtain ⟨x, xs, rfl⟩ := List.exists_cons_of_ne_nil h.nonempty
    exact h.plainStart
  have hempty : secret.isEmpty = false := by
    cases secret with
    | nil => exact absurd rfl h.nonempty
    | cons => rfl
  have hplain : ∀ b ∈ secret, isDash b = false ∧ isNewline b = false := by
    refine fun b hb => ⟨h.noDash b hb, Bool.eq_false_iff.mpr fun hn => ?_⟩
    exact Bool.false_ne_true ((h.unterminated b hb).symm.trans (isNewline_terminates hn kind))
  obtain ⟨hvalue, hrest⟩ := valueOf_secret h.unterminated ht
  rw [scan_secret (secretAt_key key cliKey hhead), hvalue, hrest, renderValue, hempty,
    h.unmarked, List.foldl_append, foldl_lineDash_plain hplain]
  rfl

end Nigiri.Fixtures
