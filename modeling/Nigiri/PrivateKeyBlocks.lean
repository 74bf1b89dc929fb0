import Nigiri.AnchoredSecrets

/-! Redaction does not disclose the body of a private key block, complete or cut off, whatever
blocks stand before it. -/
namespace Nigiri.Fixtures
open Utf8 AsciiCase Rewrite

/-- Every marker has the dashes behind its label on its own line. -/
def MarkersClosed (t : Bytes) : Prop :=
  ∀ found rest, found ++ rest <:+ t → lowered found = lowered beginMarker →
    ∃ label more, rest = label ++ (dashes ++ more) ∧ ∀ b ∈ label, isNewline b = false

structure IsKeyLabel (label : Bytes) : Prop where
  oneLine : ∀ b ∈ label, isNewline b = false
  noDash : ∀ b ∈ label, isDash b = false
  isPrivate : ∃ front word back, label = front ++ (word ++ back) ∧
    lowered word = lowered (ascii "PRIVATE KEY")

structure IsKeyBody (body : Bytes) : Prop where
  startsLine : ∃ b r, body = b :: r ∧ isNewline b = true
  endsLine : EndsLine body
  noDash : ∀ b ∈ body, isDash b = false

def beginLine (label : Bytes) : Bytes := beginMarker ++ (label ++ dashes)

/-- A private label has the words in some letter case. -/
theorem isPrivateKeyLabel_iff {label : Bytes} : isPrivateKeyLabel label = true ↔
    ∃ front word back, label = front ++ (word ++ back) ∧
      word.map toAsciiUppercase = ascii "PRIVATE KEY" := by
  rw [isPrivateKeyLabel, find, Option.isSome_iff_exists]
  constructor
  · rintro ⟨n, hn⟩
    obtain ⟨xs, u, hsplit, -, -, hu, -⟩ := position_some hn
    obtain ⟨rest, rfl⟩ := List.isPrefixOf_iff_prefix.mp hu
    obtain ⟨front, tail, rfl, -, htail⟩ := List.map_eq_append_iff.mp hsplit
    obtain ⟨word, back, rfl, hword, -⟩ := List.map_eq_append_iff.mp htail
    exact ⟨front, word, back, rfl, hword⟩
  · rintro ⟨front, word, back, rfl, hupper⟩
    cases hfind : position (ascii "PRIVATE KEY").isPrefixOf
        ((front ++ (word ++ back)).map toAsciiUppercase) with
    | some n => exact ⟨n, rfl⟩
    | none =>
      rw [List.map_append, List.map_append, hupper] at hfind
      have hnone := position_none hfind 80 (ascii "RIVATE KEY" ++ back.map toAsciiUppercase)
        (List.suffix_append _ _)
      have hstarts : (ascii "PRIVATE KEY").isPrefixOf
          (80 :: (ascii "RIVATE KEY" ++ back.map toAsciiUppercase)) = true :=
        List.isPrefixOf_iff_prefix.mpr (List.prefix_append (ascii "PRIVATE KEY") _)
      rw [hstarts] at hnone
      cases hnone

theorem isPrivateKeyLabel_of_word {front word back : Bytes}
    (h : lowered word = lowered (ascii "PRIVATE KEY")) :
    isPrivateKeyLabel (front ++ (word ++ back)) = true := by
  refine isPrivateKeyLabel_iff.mpr ⟨front, word, back, rfl, ?_⟩
  have hword : (lowered word).map toAsciiUppercase = word.map toAsciiUppercase := by
    rw [lowered, List.map_map]
    exact List.map_congr_left fun b _ => uppercase_lowercase b
  rw [← hword, h]
  decide

theorem isPrefixOf_append_of_length {word text more : Bytes} (h : word.length ≤ text.length) :
    word.isPrefixOf (text ++ more) = word.isPrefixOf text := by
  rw [Bool.eq_iff_iff, List.isPrefixOf_iff_prefix, List.isPrefixOf_iff_prefix]
  exact ⟨fun hp => List.prefix_of_prefix_length_le hp (List.prefix_append _ _) h,
    fun hp => hp.trans (List.prefix_append _ _)⟩

/-- A marker's label is known once its dashes are, whatever follows them. -/
theorem keyBlockAt_label {found label body : Bytes} (hfound : lowered found = lowered beginMarker)
    (hlabel : ∀ c r, c :: r <:+ label → dashes.isPrefixOf (c :: r ++ (dashes ++ body)) = false)
    (more : Bytes) : keyBlockAt (found ++ (label ++ (dashes ++ (body ++ more)))) =
      if isPrivateKeyLabel label then some (label, body ++ more) else none := by
  have hfind : find (label ++ (dashes ++ (body ++ more))) dashes = some label.length := by
    have hfront : position dashes.isPrefixOf (dashes ++ (body ++ more)) = some 0 :=
      position_front (List.cons_ne_nil _ _)
        (List.isPrefixOf_iff_prefix.mpr (List.prefix_append _ _))
    rw [find, position_skip, hfront]
    · simp
    · intro c r hr
      have hshort : dashes.length ≤ (c :: r ++ dashes).length := by
        rw [List.length_append]
        omega
      have hbefore := hlabel c r hr
      rw [← List.append_assoc, isPrefixOf_append_of_length hshort] at hbefore ⊢
      exact hbefore
  rw [keyBlockAt_begin hfound, hfind, Option.bind_some, List.take_left, List.drop_left,
    List.drop_left]

theorem afterBlock_skip {label : Bytes} (xs t : Bytes)
    (h : ∀ c r, c :: r <:+ xs → startsIgnoreAsciiCase (endMarker label) (c :: r ++ t) = false) :
    afterBlock label (xs ++ t) = afterBlock label t := by
  rw [afterBlock, afterBlock, findAsciiCaseInsensitive, findAsciiCaseInsensitive,
    position_skip xs t h, Option.map_map]
  congr 1
  funext n
  rw [Function.comp_apply, Nat.add_right_comm, Nat.add_comm (n + _), ← List.drop_drop,
    List.drop_left]

theorem endMarker_dash {label : Bytes} {c : UInt8} (hc : isDash c = false) (r : Bytes) :
    startsIgnoreAsciiCase (endMarker label) (c :: r) = false := by
  refine Bool.eq_false_iff.mpr fun h => ?_
  rw [startsIgnoreAsciiCase_iff_lowered] at h
  obtain ⟨hhead, -⟩ := List.cons_prefix_cons.mp h
  have hdash : c = 45 := (lowercase_eq_iff (.inl (by decide))).mp hhead.symm
  rw [hdash] at hc
  cases hc

/-- What begins otherwise than every end marker does. -/
theorem endMarker_clash {label text : Bytes}
    (h : ¬ lowered (ascii "-----E") <+: lowered text)
    (h' : ¬ lowered text <+: lowered (ascii "-----E")) (more : Bytes) :
    startsIgnoreAsciiCase (endMarker label) (text ++ more) = false := by
  have hsplit : endMarker label = ascii "-----E" ++ (ascii "ND " ++ (label ++ dashes)) := by
    rw [endMarker, List.append_assoc]
    rfl
  rw [hsplit]
  exact startsIgnoreAsciiCase_front (startsIgnoreAsciiCase_clash h h' more)

variable {label body tail : Bytes}

theorem keyBlockAt_beginLine (h : IsKeyLabel label) (more : Bytes) :
    keyBlockAt (beginLine label ++ more) = some (label, more) := by
  obtain ⟨front, word, back, hlabel, hword⟩ := h.isPrivate
  have hprivate : isPrivateKeyLabel label = true := hlabel ▸ isPrivateKeyLabel_of_word hword
  have hbefore (c : UInt8) (r : Bytes) (hr : c :: r <:+ label) :
      dashes.isPrefixOf (c :: r ++ (dashes ++ [])) = false := by
    refine Bool.eq_false_iff.mpr fun hp => ?_
    obtain ⟨rest, hrest⟩ := List.isPrefixOf_iff_prefix.mp hp
    have hdash := h.noDash c (hr.subset List.mem_cons_self)
    rw [← (List.cons.inj hrest).1] at hdash
    cases hdash
  have hlabel := keyBlockAt_label rfl hbefore more
  rw [hprivate, if_pos rfl, List.nil_append] at hlabel
  rw [beginLine, List.append_assoc, List.append_assoc]
  exact hlabel

/-- No end marker starts in a body. -/
theorem afterBlock_body (other : Bytes) (h : IsKeyBody body) :
    afterBlock other (body ++ tail) = afterBlock other tail :=
  afterBlock_skip body tail fun c r hr =>
    endMarker_dash (h.noDash c (hr.subset List.mem_cons_self)) (r ++ tail)

/-- No end marker starts in the first line of a block, nor at its dashes. -/
theorem afterBlock_beginLine (other : Bytes) (hlabel : IsKeyLabel label) (hbody : IsKeyBody body) :
    afterBlock other (beginLine label ++ (body ++ tail)) = afterBlock other tail := by
  have hbegin : ∀ s ∈ beginMarker.tails, s ≠ [] → ¬ lowered (ascii "-----E") <+: lowered s ∧
      ¬ lowered s <+: lowered (ascii "-----E") := by decide
  have hdashes : ∀ s ∈ dashes.tails, ∀ b ∈ ascii "\r\n", s ≠ [] →
      ¬ lowered (ascii "-----E") <+: lowered (s ++ [b]) ∧
      ¬ lowered (s ++ [b]) <+: lowered (ascii "-----E") := by decide
  obtain ⟨b, r, hb, hnewline⟩ := hbody.startsLine
  have hb' : b ∈ ascii "\r\n" := by
    simp only [isNewline, Bool.or_eq_true, beq_iff_eq] at hnewline
    obtain rfl | rfl := hnewline <;> decide
  rw [beginLine, List.append_assoc, List.append_assoc, afterBlock_skip beginMarker,
    afterBlock_skip label, afterBlock_skip dashes, afterBlock_body other hbody]
  · intro c r' hr
    obtain ⟨h, h'⟩ := hdashes _ ((List.mem_tails _ _).mpr hr) b hb' (List.cons_ne_nil c r')
    have hclash := @endMarker_clash other _ h h' (r ++ tail)
    rw [hb]
    simpa using hclash
  · exact fun c r' hr => endMarker_dash (hlabel.noDash c (hr.subset List.mem_cons_self)) _
  · intro c r' hr
    obtain ⟨h, h'⟩ := hbegin _ ((List.mem_tails _ _).mpr hr) (List.cons_ne_nil c r')
    exact endMarker_clash h h' _

theorem EndsLine.suffix {t u : Bytes} (h : EndsLine t) (hu : u <:+ t) : EndsLine u := by
  obtain ⟨front, rfl⟩ := hu
  intro b hb
  refine h b ?_
  rw [Option.mem_def, List.getLast?_append_of_ne_nil _ fun hnil => ?_]
  · exact hb
  · rw [hnil] at hb
    cases hb

theorem MarkersClosed.suffix {t u : Bytes} (h : MarkersClosed t) (hu : u <:+ t) :
    MarkersClosed u := fun found rest hr => h found rest (hr.trans hu)

/-- Whether a block starts whole lines, and its label, do not depend on what follows them. -/
theorem keyBlockAt_lines {c : UInt8} {r : Bytes} (hlines : EndsLine (c :: r))
    (hmarkers : MarkersClosed (c :: r)) :
    (∀ more, keyBlockAt (c :: r ++ more) = none) ∨
      ∃ label body, body <:+ r ∧ (∀ b ∈ label, isNewline b = false) ∧
        ∀ more, keyBlockAt (c :: r ++ more) = some (label, body ++ more) := by
  have hinert (more : Bytes) : startsIgnoreAsciiCase beginMarker (c :: r ++ more) =
      startsIgnoreAsciiCase beginMarker (c :: r) := by
    rcases endsLine_cases hlines with hnil | ⟨line, b, hline, hb⟩
    · cases hnil
    · rw [hline, List.append_assoc, List.singleton_append,
        inert_of_notMem (newline_beginMarker hb), inert_of_notMem (newline_beginMarker hb)]
  cases hbegin : startsIgnoreAsciiCase beginMarker (c :: r) with
  | false => exact .inl fun more => keyBlockAt_eq_none ((hinert more).trans hbegin)
  | true =>
    obtain ⟨found, rest, hsplit, hfound⟩ := startsIgnoreAsciiCase_iff.mp hbegin
    obtain ⟨line, after, hrest, hline⟩ := hmarkers found rest (hsplit ▸ List.suffix_rfl) hfound
    cases hdashes : find rest dashes with
    | none =>
      have hnone := position_none hdashes 45 (ascii "----" ++ after) ⟨line, hrest.symm⟩
      have hstarts : dashes.isPrefixOf (45 :: (ascii "----" ++ after)) = true :=
        List.isPrefixOf_iff_prefix.mpr (List.prefix_append dashes after)
      rw [hstarts] at hnone
      cases hnone
    | some n =>
      obtain ⟨label, body, hlabelRest, -, hlabel⟩ := find_dashes hdashes
      have honeLine : label <+: line := by
        rcases List.append_eq_append_iff.mp (hlabelRest.symm.trans hrest) with
          ⟨as, hline', -⟩ | ⟨as, hlabel', hafter⟩
        · exact ⟨as, hline'.symm⟩
        · cases as with
          | nil => exact ⟨[], by rw [hlabel', List.append_nil, List.append_nil]⟩
          | cons a as =>
            have hbefore := hlabel a as ⟨line, hlabel'.symm⟩
            rw [← hafter, List.isPrefixOf_iff_prefix.mpr (List.prefix_append _ _)] at hbefore
            cases hbefore
      have hall (more : Bytes) := keyBlockAt_label hfound hlabel more
      have hmore (more : Bytes) :
          c :: r ++ more = found ++ (label ++ (dashes ++ (body ++ more))) := by
        rw [hsplit, hlabelRest]
        simp only [List.append_assoc]
      cases hprivate : isPrivateKeyLabel label with
      | false => exact .inl fun more => by rw [hmore, hall, hprivate]; rfl
      | true =>
        refine .inr ⟨label, body, ?_, fun b hb => hline b (honeLine.subset hb), fun more => by
          rw [hmore, hall, hprivate]
          rfl⟩
        cases found with
        | nil => cases hfound
        | cons x xs =>
          obtain ⟨-, hr⟩ := List.cons.inj hsplit
          refine ⟨xs ++ (label ++ dashes), ?_⟩
          rw [hr, hlabelRest]
          simp only [List.append_assoc]
          rfl

/-- A block that starts in whole lines ends in them, or where it would end without them. -/
theorem afterBlock_lines {other t : Bytes} (hlines : EndsLine t)
    (honeLine : ∀ b ∈ other, isNewline b = false) :
    (∃ u, u <:+ t ∧ ∀ more, afterBlock other (t ++ more) = some (u ++ more)) ∨
      ∀ more, afterBlock other (t ++ more) = afterBlock other more := by
  have hnotMem {b : UInt8} (hb : isNewline b = true) :
      toAsciiLowercase b ∉ lowered (endMarker other) := by
    have hsmall : b.toNat < 65 ∧ b ∉ ascii "-----END " ∧ b ∉ dashes := by
      simp only [isNewline, Bool.or_eq_true, beq_iff_eq] at hb
      obtain rfl | rfl := hb <;> decide
    rw [(lowercase_eq_iff (.inl hsmall.1)).mpr rfl, mem_lowered (.inl hsmall.1), endMarker]
    simp only [List.mem_append, not_or]
    refine ⟨⟨hsmall.2.1, fun hmem => ?_⟩, hsmall.2.2⟩
    rw [honeLine b hmem] at hb
    cases hb
  have hinert (more : Bytes) (c : UInt8) (r : Bytes) (hr : c :: r <:+ t) :
      startsIgnoreAsciiCase (endMarker other) (c :: r ++ more) =
        startsIgnoreAsciiCase (endMarker other) (c :: r) := by
    rcases endsLine_cases (hlines.suffix hr) with hnil | ⟨line, b, hline, hb⟩
    · cases hnil
    · rw [hline, List.append_assoc, List.singleton_append,
        inert_of_notMem (hnotMem hb), inert_of_notMem (hnotMem hb)]
  cases hposition : findAsciiCaseInsensitive t (endMarker other) with
  | none =>
    refine .inr fun more => afterBlock_skip t more fun c r hr => ?_
    rw [hinert more c r hr]
    exact position_none hposition c r hr
  | some n =>
    have hlength := position_length hposition
    refine .inl ⟨t.drop (n + (endMarker other).length), List.drop_suffix _ _, fun more => ?_⟩
    rw [findAsciiCaseInsensitive] at hposition
    rw [afterBlock, findAsciiCaseInsensitive, position_append t more (hinert more), hposition,
      Option.some_or, Option.map_some, List.drop_append_of_le_length hlength]

/-- The scan of whole lines and a key block behind them does not depend on the body of that
block. -/
theorem scanKeyBlocks_body {body₁ body₂ : Bytes} (hlabel : IsKeyLabel label)
    (h₁ : IsKeyBody body₁) (h₂ : IsKeyBody body₂) (hlength : body₁.length = body₂.length)
    (before : Bytes) (hlines : EndsLine before) (hmarkers : MarkersClosed before) :
    scanKeyBlocks (before ++ (beginLine label ++ (body₁ ++ tail))) =
      scanKeyBlocks (before ++ (beginLine label ++ (body₂ ++ tail))) := by
  have hblock : (beginLine label ++ (body₁ ++ tail)).length =
      (beginLine label ++ (body₂ ++ tail)).length := by
    simp only [List.length_append, hlength]
  induction hn : before.length using Nat.strong_induction_on generalizing before with
  | _ n ih =>
    cases before with
    | nil =>
      rw [List.nil_append, List.nil_append, scanKeyBlocks_block (keyBlockAt_beginLine hlabel _),
        scanKeyBlocks_block (keyBlockAt_beginLine hlabel _), afterBlock_body label h₁,
        afterBlock_body label h₂, hblock]
    | cons c r =>
      have next (u : Bytes) (hu : u <:+ c :: r) (hshort : u.length < n) :=
        ih u.length hshort u (hlines.suffix hu) (hmarkers.suffix hu) rfl
      rcases keyBlockAt_lines hlines hmarkers with hnone | ⟨other, body, hbody, honeLine, hother⟩
      · have hcopy (more : Bytes) :
            scanKeyBlocks (c :: r ++ more) = c :: scanKeyBlocks (r ++ more) :=
          scanKeyBlocks_copy (hnone more)
        rw [hcopy, hcopy, next r (List.suffix_cons c r) (by simp [← hn])]
      · rw [scanKeyBlocks_block (hother _), scanKeyBlocks_block (hother _)]
        have htotal : (c :: r ++ (beginLine label ++ (body₁ ++ tail))).length =
            (c :: r ++ (beginLine label ++ (body₂ ++ tail))).length := by
          simp only [List.length_append, hlength]
        have hbody' : body <:+ c :: r := hbody.trans (List.suffix_cons c r)
        rcases afterBlock_lines (hlines.suffix hbody') honeLine with ⟨u, hu, hafter⟩ | hafter
        · -- the earlier block ends in front of this one
          have hleft : (u ++ (beginLine label ++ (body₁ ++ tail))).length =
              (u ++ (beginLine label ++ (body₂ ++ tail))).length := by
            simp only [List.length_append, hlength]
          have hshort : u.length < n := by
            have hle := (hu.trans hbody).length_le
            rw [← hn, List.length_cons]
            omega
          rw [hafter, hafter, htotal, Option.getD_some, Option.getD_some, hleft,
            next u (hu.trans hbody') hshort]
        · -- the earlier block goes on into or behind this one
          rw [hafter, hafter, htotal, afterBlock_beginLine other hlabel h₁,
            afterBlock_beginLine other hlabel h₂]

/-- What redaction makes of a text is the same for every body of a private key block, be the end
marker there or not. -/
theorem redact_hides_key_body {before body₁ body₂ after : Bytes} (hlines : EndsLine before)
    (hmarkers : MarkersClosed before) (hlabel : IsKeyLabel label) (h₁ : IsKeyBody body₁)
    (h₂ : IsKeyBody body₂) (hlength : body₁.length = body₂.length)
    (htext₁ : IsText (before ++ (beginLine label ++ (body₁ ++ (endMarker label ++ after)))))
    (htext₂ : IsText (before ++ (beginLine label ++ (body₂ ++ (endMarker label ++ after))))) :
    (∃ output,
      redact (before ++ (beginLine label ++ (body₁ ++ (endMarker label ++ after)))) =
        some output ∧
      redact (before ++ (beginLine label ++ (body₂ ++ (endMarker label ++ after)))) =
        some output) ∧
    ∃ output, redact (before ++ (beginLine label ++ body₁)) = some output ∧
      redact (before ++ (beginLine label ++ body₂)) = some output := by
  have same (tail : Bytes) (htext₁ : IsText (before ++ (beginLine label ++ (body₁ ++ tail))))
      (htext₂ : IsText (before ++ (beginLine label ++ (body₂ ++ tail)))) :
      ∃ output, redact (before ++ (beginLine label ++ (body₁ ++ tail))) = some output ∧
        redact (before ++ (beginLine label ++ (body₂ ++ tail))) = some output := by
    refine ⟨_, redact_eq htext₁, ?_⟩
    rw [redact_eq htext₂, redactedText, redactedText,
      scanKeyBlocks_body hlabel h₁ h₂ hlength before hlines hmarkers]
  have cut (body : Bytes)
      (h : IsText (before ++ (beginLine label ++ (body ++ (endMarker label ++ after))))) :
      IsText (before ++ (beginLine label ++ (body ++ []))) := by
    have hsplit : before ++ (beginLine label ++ (body ++ (endMarker label ++ after))) =
        (before ++ (beginLine label ++ body)) ++
          (dashes ++ (ascii "END " ++ (label ++ (dashes ++ after)))) := by
      have hend : endMarker label = dashes ++ (ascii "END " ++ (label ++ dashes)) := by
        rw [endMarker, List.append_assoc]
        rfl
      rw [hend]
      simp only [List.append_assoc]
    rw [hsplit] at h
    rw [List.append_nil]
    exact (isText_dashes h).1
  refine ⟨same _ htext₁ htext₂, ?_⟩
  simpa using same [] (cut body₁ htext₁) (cut body₂ htext₂)

/-- A certificate and an unterminated key in front, and words in the body that anchors have. -/
theorem redact_hides_key_body_rsa :
    (∃ output,
      redact (ascii "-----BEGIN CERTIFICATE-----\n-----begin ec private key-----\n=\n" ++
        (beginLine (ascii "RSA Private Key") ++ (ascii "\nmacaroon=1\n" ++
          (endMarker (ascii "RSA Private Key") ++ ascii "\nready")))) = some output ∧
      redact (ascii "-----BEGIN CERTIFICATE-----\n-----begin ec private key-----\n=\n" ++
        (beginLine (ascii "RSA Private Key") ++ (ascii "\nmnemonic 1\n" ++
          (endMarker (ascii "RSA Private Key") ++ ascii "\nready")))) = some output) ∧
    ∃ output,
      redact (ascii "-----BEGIN CERTIFICATE-----\n-----begin ec private key-----\n=\n" ++
        (beginLine (ascii "RSA Private Key") ++ ascii "\nmacaroon=1\n")) = some output ∧
      redact (ascii "-----BEGIN CERTIFICATE-----\n-----begin ec private key-----\n=\n" ++
        (beginLine (ascii "RSA Private Key") ++ ascii "\nmnemonic 1\n")) = some output := by
  have hlabel : IsKeyLabel (ascii "RSA Private Key") :=
    ⟨by decide, by decide, ascii "RSA ", ascii "Private Key", [],
      by decide, by decide⟩
  refine redact_hides_key_body (by decide +kernel) ?_ hlabel ?_ ?_ (by decide)
    (isText_ascii (by decide +kernel)) (isText_ascii (by decide +kernel))
  · have hall :
        ∀ u ∈ (ascii "-----BEGIN CERTIFICATE-----\n-----begin ec private key-----\n=\n").tails,
        startsIgnoreAsciiCase beginMarker u = true → ∃ n ∈ List.range 20,
          dashes.isPrefixOf ((u.drop beginMarker.length).drop n) = true ∧
          ∀ b ∈ (u.drop beginMarker.length).take n, isNewline b = false := by decide +kernel
    intro found rest hsuffix hfound
    have hlen : found.length = beginMarker.length := by simpa using congrArg List.length hfound
    obtain ⟨n, -, hdashes, hline⟩ := hall (found ++ rest) ((List.mem_tails _ _).mpr hsuffix)
      (startsIgnoreAsciiCase_iff.mpr ⟨found, rest, rfl, hfound⟩)
    rw [← hlen, List.drop_left] at hdashes hline
    obtain ⟨more, hmore⟩ := List.isPrefixOf_iff_prefix.mp hdashes
    exact ⟨rest.take n, more, by rw [hmore, List.take_append_drop], hline⟩
  · exact ⟨⟨10, ascii "macaroon=1\n", by decide, rfl⟩, by decide, by decide⟩
  · exact ⟨⟨10, ascii "mnemonic 1\n", by decide, rfl⟩, by decide, by decide⟩

end Nigiri.Fixtures
