import Mathlib.Data.List.Chain
import Nigiri.SecretKey

/-! Redaction does not disclose an anchored secret: what it makes of a text depends on the secret
through its length only. -/
namespace Nigiri.Fixtures
open Utf8 AsciiCase Rewrite
variable {kind : SecretValueKind}

def notBothDashes (a b : UInt8) : Prop := a = 45 → b ≠ 45

instance : DecidableRel notBothDashes := fun a b => inferInstanceAs (Decidable (a = 45 → b ≠ 45))

theorem isChain_noDash {xs : Bytes} (h : ∀ b ∈ xs, isDash b = false) :
    xs.IsChain notBothDashes := by
  induction xs with
  | nil => exact .nil
  | cons x xs ih =>
    obtain ⟨hx, hxs⟩ := List.forall_mem_cons.mp h
    refine List.isChain_cons.mpr ⟨fun y _ hdash => ?_, ih hxs⟩
    rw [hdash] at hx
    cases hx

theorem anchor_dashes : ∀ entry ∈ secretAnchors, ∀ suffix ∈ [] :: hexSuffixes,
    (lowered (entry.1 ++ suffix)).IsChain notBothDashes ∧
      ∀ b ∈ (lowered (entry.1 ++ suffix)).getLast?, b ≠ 45 := by decide +kernel

theorem anchor_head : ∀ entry ∈ secretAnchors, ∀ b ∈ (lowered entry.1).head?,
    b ∉ lowered beginMarker := by decide +kernel

theorem separator_noDash (key : SecretKey kind) : ∀ b ∈ key.separator, isDash b = false := by
  intro b hb
  simp only [SecretKey.separator, List.mem_append, List.mem_cons] at hb
  rcases hb with hb | hb | rfl | hb | hb
  · exact (isQuote_plain (optionalQuote_isQuote key.quoted b hb)).2.1
  · exact (isBlank_plain (key.blank b hb)).2.2.1
  · exact (isDelimiter_plain key.delimits).2.2.1
  · exact (isBlank_plain (key.moreBlank b hb)).2.2.1
  · exact (isQuote_plain (optionalQuote_isQuote key.valueQuoted b hb)).2.1

/-- Dashes in a key stand alone. -/
theorem key_chain (key : SecretKey kind) {secret : Bytes}
    (h : ∀ b ∈ secret, isDash b = false) : (key.bytes ++ secret).IsChain notBothDashes := by
  obtain ⟨entry, hentry, -, hlowered⟩ := key.anchored
  obtain ⟨hchain, hlast⟩ := anchor_dashes entry hentry key.hexSuffix key.suffixed
  have hsame : lowered (key.anchor ++ key.hexSuffix) = lowered (entry.1 ++ key.hexSuffix) := by
    rw [lowered_append, lowered_append, hlowered]
  have hdash (b : UInt8) : toAsciiLowercase b = 45 ↔ b = 45 := lowercase_eq_iff (.inl (by decide))
  have hfront : (key.anchor ++ key.hexSuffix).IsChain notBothDashes := by
    rw [← hsame] at hchain
    refine List.isChain_of_isChain_map toAsciiLowercase (fun a b hab ha hb => ?_) hchain
    exact hab ((hdash a).mpr ha) ((hdash b).mpr hb)
  have hback : (key.separator ++ secret).IsChain notBothDashes := by
    refine isChain_noDash fun b hb => ?_
    exact (List.mem_append.mp hb).elim (separator_noDash key b) (h b)
  have hsplit : key.bytes ++ secret =
      (key.anchor ++ key.hexSuffix) ++ (key.separator ++ secret) := by
    rw [SecretKey.bytes]
    simp only [List.append_assoc]
  rw [hsplit]
  refine hfront.append hback fun x hx y _ hxdash => ?_
  refine absurd ((hdash x).mpr hxdash) (hlast _ ?_)
  rw [← hsame, lowered, List.getLast?_map, Option.mem_def.mp hx]
  rfl

theorem key_head (key : SecretKey kind) :
    ∃ b r, key.bytes = b :: r ∧ toAsciiLowercase b ∉ lowered beginMarker := by
  obtain ⟨entry, hentry, -, hlowered⟩ := key.anchored
  have hhead := anchor_head entry hentry
  rw [← hlowered] at hhead
  cases hanchor : key.anchor with
  | nil =>
    rw [hanchor] at hlowered
    have hlen : entry.1.length = 0 := by simpa using congrArg List.length hlowered.symm
    exact absurd (List.length_eq_zero_iff.mp hlen) (anchor_bytes entry hentry).1
  | cons b r =>
    rw [hanchor] at hhead
    exact ⟨b, _, by rw [SecretKey.bytes, hanchor]; rfl, hhead _ rfl⟩

/-- Neither a key nor a secret starts a marker, whatever follows. -/
theorem noMarker_key (key : SecretKey kind) {secret : Bytes} (h : IsSecret kind secret) (t : Bytes)
    {c : UInt8} {r : Bytes} (hr : c :: r <:+ key.bytes ++ secret) :
    startsIgnoreAsciiCase beginMarker (c :: r ++ t) = false := by
  rw [Bool.eq_false_iff]
  intro hbegin
  obtain ⟨rest, hrest⟩ := List.isPrefixOf_iff_prefix.mp (starts_dashes hbegin)
  have hchain := (key_chain key h.noDash).suffix hr
  obtain ⟨hc, hrest⟩ := List.cons.inj hrest
  cases r with
  | nil =>
    -- the secret would end in a dash
    have hlast : (key.bytes ++ secret).getLast? = some c := by
      obtain ⟨front, hfront⟩ := hr
      rw [← hfront, List.getLast?_concat]
    rw [List.getLast?_append_of_ne_nil _ h.nonempty] at hlast
    have hdash := h.noDash c (List.mem_of_getLast? hlast)
    rw [← hc] at hdash
    cases hdash
  | cons c' r =>
    obtain ⟨hc', -⟩ := List.cons.inj hrest
    exact (List.isChain_cons_cons.mp hchain).1 hc.symm hc'.symm

/-- A text without markers gets none from what cannot complete one. -/
theorem noMarker_inert {xs t : Bytes} (hxs : findAsciiCaseInsensitive xs beginMarker = none)
    (ht : Inert beginMarker t) {c : UInt8} {r : Bytes} (hr : c :: r <:+ xs) :
    startsIgnoreAsciiCase beginMarker (c :: r ++ t) = false := by
  rw [ht]
  exact position_none hxs c r hr

/-- Empty, or ending with a line break. -/
def EndsLine (t : Bytes) : Prop := ∀ b ∈ t.getLast?, isNewline b = true

instance (t : Bytes) : Decidable (EndsLine t) :=
  inferInstanceAs (Decidable (∀ b ∈ t.getLast?, isNewline b = true))

theorem endsLine_cases {t : Bytes} (h : EndsLine t) :
    t = [] ∨ ∃ line b, t = line ++ [b] ∧ isNewline b = true := by
  rcases List.eq_nil_or_concat t with rfl | ⟨line, b, rfl⟩
  · exact .inl rfl
  · rw [List.concat_eq_append] at h ⊢
    exact .inr ⟨line, b, rfl, h b List.getLast?_concat⟩

theorem newline_beginMarker {b : UInt8} (h : isNewline b = true) :
    toAsciiLowercase b ∉ lowered beginMarker := by
  simp only [isNewline, Bool.or_eq_true, beq_iff_eq] at h
  obtain rfl | rfl := h <;> decide

theorem noMarker_lines {xs : Bytes} (hxs : findAsciiCaseInsensitive xs beginMarker = none)
    (hlines : EndsLine xs) (t : Bytes) {c : UInt8} {r : Bytes} (hr : c :: r <:+ xs) :
    startsIgnoreAsciiCase beginMarker (c :: r ++ t) = false := by
  have hnone := position_none hxs c r hr
  rcases endsLine_cases hlines with rfl | ⟨line, b, rfl, hb⟩
  · exact absurd (List.suffix_nil.mp hr) (List.cons_ne_nil c r)
  obtain ⟨ys, hys, -⟩ := (List.suffix_concat_iff.mp hr).resolve_left (List.cons_ne_nil c r)
  rw [hys] at hnone ⊢
  rw [List.append_assoc, List.singleton_append, inert_of_notMem (newline_beginMarker hb) t,
    ← inert_of_notMem (newline_beginMarker hb) [], hnone]

/-- The scan for key blocks leaves the text up to the end of a secret as it is. -/
theorem scanKeyBlocks_key (key : SecretKey kind) {before lineStart secret after : Bytes}
    (hlines : EndsLine before) (hbefore : findAsciiCaseInsensitive before beginMarker = none)
    (hlineStart : findAsciiCaseInsensitive lineStart beginMarker = none)
    (h : IsSecret kind secret) :
    scanKeyBlocks (before ++ (lineStart ++ (key.bytes ++ secret ++ after))) =
      before ++ (lineStart ++ (key.bytes ++ secret ++ scanKeyBlocks after)) := by
  have hinert : Inert beginMarker (key.bytes ++ secret ++ after) := by
    obtain ⟨b, r, heq, hb⟩ := key_head key
    rw [heq]
    exact inert_of_notMem hb _
  rw [scanKeyBlocks_skip before, scanKeyBlocks_skip lineStart,
    scanKeyBlocks_skip (key.bytes ++ secret)]
  · exact fun c r hr => keyBlockAt_eq_none (noMarker_key key h after hr)
  · exact fun c r hr => keyBlockAt_eq_none (noMarker_inert hlineStart hinert hr)
  · exact fun c r hr => keyBlockAt_eq_none (noMarker_lines hbefore hlines _ hr)

theorem endsValue_scanKeyBlocks {t : Bytes} (h : EndsValue kind t) :
    EndsValue kind (scanKeyBlocks t) := by
  cases t with
  | nil => exact h
  | cons b r =>
    have hb := h b rfl
    have hnone : keyBlockAt (b :: r) = none := by
      refine keyBlockAt_eq_none (Bool.eq_false_iff.mpr fun hbegin => ?_)
      obtain ⟨rest, hrest⟩ := List.isPrefixOf_iff_prefix.mp (starts_dashes hbegin)
      rw [← (List.cons.inj hrest).1] at hb
      cases kind <;> cases hb
    rw [scanKeyBlocks_copy hnone]
    exact h

/-- What is behind a key's delimiter makes no anchor in front of it. -/
theorem anchorAt_bytes (key : SecretKey kind) (xs t : Bytes) :
    anchorAt (xs ++ (key.bytes ++ t)) = anchorAt (xs ++ key.bytes) := by
  have hdelim : isSeparatorByte key.delimiter = true := by
    rw [isSeparatorByte, key.delimits, Bool.or_true]
  have hsplit (u : Bytes) : xs ++ (key.bytes ++ u) =
      (xs ++ (key.anchor ++ (key.hexSuffix ++ (key.quote ++ key.blanks)))) ++
        key.delimiter :: (key.moreBlanks ++ (key.valueQuote ++ u)) := by
    simp only [SecretKey.bytes, SecretKey.separator, List.append_assoc, List.cons_append]
  have hbytes := hsplit []
  rw [List.append_nil] at hbytes
  rw [hsplit, hbytes, anchorAt_border (separator_border hdelim),
    anchorAt_border (separator_border hdelim)]

/-- The text in front of a key is copied when no anchor starts in it. -/
theorem scan_lineStart (key : SecretKey kind) {lineStart t : Bytes} (cliKey : Bool)
    (h : ∀ c r, c :: r <:+ lineStart → anchorAt (c :: r ++ key.bytes) = none) :
    scanAnchored cliKey (lineStart ++ (key.bytes ++ t)) =
      lineStart ++ scanAnchored (lineStart.foldl lineDash cliKey) (key.bytes ++ t) := by
  rw [scanAnchored, rewrite_copy tracks_anchored]
  · rfl
  intro d c r hr
  have hnone : anchorAt (c :: (r ++ (key.bytes ++ t))) = none := by
    rw [← List.cons_append, anchorAt_bytes, h c r hr]
  rw [anchoredStep_none (by rw [secretAt, hnone]; rfl)]
  exact ⟨rfl, rfl⟩

theorem redactedText_key (key : SecretKey kind) {before lineStart secret after : Bytes}
    (hlines : EndsLine before)
    (hfirst : ∀ c r, c :: r <:+ lineStart → anchorAt (c :: r ++ key.bytes) = none)
    (hbefore : findAsciiCaseInsensitive before beginMarker = none)
    (hlineStart : findAsciiCaseInsensitive lineStart beginMarker = none)
    (hafter : EndsValue kind after) (h : IsSecret kind secret) :
    redactedText (before ++ (lineStart ++ (key.bytes ++ secret ++ after))) =
      replacePatterns (scanAnchored false before ++
        (lineStart ++ (key.bytes ++ redaction secret.length redacted ++
          scanAnchored (key.bytes.foldl lineDash (lineStart.foldl lineDash false))
            (scanKeyBlocks after)))) := by
  rw [redactedText, scanKeyBlocks_key key hlines hbefore hlineStart h]
  have hline : scanAnchored false (lineStart ++ (key.bytes ++ secret ++ scanKeyBlocks after)) =
      lineStart ++ (key.bytes ++ redaction secret.length redacted ++
        scanAnchored (key.bytes.foldl lineDash (lineStart.foldl lineDash false))
          (scanKeyBlocks after)) := by
    rw [List.append_assoc, scan_lineStart key false hfirst,
      scan_key key _ h (endsValue_scanKeyBlocks hafter)]
  rcases endsLine_cases hlines with rfl | ⟨line, b, rfl, hb⟩
  · rw [List.nil_append, hline]
    rfl
  · rw [List.append_assoc, List.singleton_append, scan_newline hb, hline]

/-- What redaction makes of a text is the same for every anchored secret of the same length. -/
theorem redact_hides_anchored_secret (key : SecretKey kind)
    {before lineStart secret₁ secret₂ after : Bytes} (hlines : EndsLine before)
    (hfirst : ∀ c r, c :: r <:+ lineStart → anchorAt (c :: r ++ key.bytes) = none)
    (hbefore : findAsciiCaseInsensitive before beginMarker = none)
    (hlineStart : findAsciiCaseInsensitive lineStart beginMarker = none)
    (hafter : EndsValue kind after) (h₁ : IsSecret kind secret₁) (h₂ : IsSecret kind secret₂)
    (hlength : secret₁.length = secret₂.length)
    (htext₁ : IsText (before ++ (lineStart ++ (key.bytes ++ secret₁ ++ after))))
    (htext₂ : IsText (before ++ (lineStart ++ (key.bytes ++ secret₂ ++ after)))) :
    ∃ output, redact (before ++ (lineStart ++ (key.bytes ++ secret₁ ++ after))) = some output ∧
      redact (before ++ (lineStart ++ (key.bytes ++ secret₂ ++ after))) = some output := by
  refine ⟨_, redact_eq htext₁, ?_⟩
  rw [redact_eq htext₂, redactedText_key key hlines hfirst hbefore hlineStart hafter h₁,
    redactedText_key key hlines hfirst hbefore hlineStart hafter h₂, hlength]

/-- The quoted JSON form of a seed, in mixed case and behind a line of its own. -/
def quotedSeedKey : SecretKey .line where
  anchor := ascii "Cipher_SEED"
  hexSuffix := ascii "_hex"
  quote := [34]
  blanks := ascii " "
  delimiter := 58
  moreBlanks := ascii "\t "
  valueQuote := [34]
  anchored := ⟨(ascii "cipher_seed", .line), by decide, rfl, by decide⟩
  suffixed := by decide
  quoted := by decide
  blank := by decide
  delimits := rfl
  moreBlank := by decide
  valueQuoted := by decide

theorem redact_hides_anchored_secret_seed : ∃ output,
    redact (ascii "started\n" ++ (ascii "lnd - \"" ++
      (quotedSeedKey.bytes ++ ascii "able army" ++ ascii "\r\n-----BEGIN "))) = some output ∧
    redact (ascii "started\n" ++ (ascii "lnd - \"" ++
      (quotedSeedKey.bytes ++ ascii "zone zoo!" ++ ascii "\r\n-----BEGIN "))) = some output := by
  refine redact_hides_anchored_secret quotedSeedKey (by decide) (fun c r hr => ?_)
    (by decide) (by decide) (by decide) ?_ ?_ (by decide)
    (isText_ascii (by decide)) (isText_ascii (by decide))
  · have hall : ∀ t ∈ (ascii "lnd - \"").tails, t ≠ [] →
        anchorAt (t ++ quotedSeedKey.bytes) = none := by decide +kernel
    exact hall (c :: r) ((List.mem_tails _ _).mpr hr) (List.cons_ne_nil c r)
  · constructor <;> decide
  · constructor <;> decide

end Nigiri.Fixtures
