import Nigiri.FixedPatterns
import Nigiri.RedactionTotal

/-! A text whose bytes are covered or not, and a reader who sees of a covered byte only that it is
covered. What redaction makes of a text is read as such a reader reads the text. -/
namespace Nigiri.Fixtures
open Utf8 AsciiCase Rewrite

/-- A byte, and whether it is covered. -/
abbrev Cell := UInt8 × Bool

def uncovered (t : Bytes) : List Cell := t.map (·, false)

def cover (cs : List Cell) : List Cell := cs.map fun c => (c.1, true)

/-- What a reader sees of a text: of a covered byte no more than a bracket. -/
def sight (cs : List Cell) : Bytes := cs.map fun c => if c.2 then 91 else c.1

/-- A token also ends where something is covered. -/
def endsRead : SecretValueKind → Cell → Bool
  | .token => fun c => c.2 || terminates .token c.1
  | .line => fun c => !c.2 && isNewline c.1

def readValue (kind : SecretValueKind) (cs : List Cell) : List Cell :=
  cs.takeWhile fun c => !endsRead kind c

/-- A value is left as it is when there is none, or when it is covered or begins as a marker. -/
def leaves (kind : SecretValueKind) (cs : List Cell) : Bool :=
  cs.head?.any Prod.snd || (valueOf kind (sight cs)).isEmpty ||
    redactedPrefix.isPrefixOf (valueOf kind (sight cs))

/-- The reader covers the value of each secret in sight, unless it leaves it. -/
def readStep : Step Cell Bool := fun cliKey c r =>
  match secretAt cliKey (sight (c :: r)) with
  | none => ⟨[c], 0, (sight [c]).foldl lineDash cliKey⟩
  | some (kind, start) =>
    let header := (c :: r).take ((c :: r).length - start.length)
    let value := readValue kind ((c :: r).drop header.length)
    ⟨header ++ (if leaves kind ((c :: r).drop header.length) then value else cover value),
      (header ++ value).length - 1, (sight (header ++ value)).foldl lineDash cliKey⟩

def coverSecrets (cs : List Cell) : List Cell := rewrite readStep false cs

/-- Nothing is read in the text, whatever stands behind it. -/
structure Unread (t : Bytes) : Prop where
  plain : ∀ b ∈ t, isDash b = false ∧ isNewline b = false
  unanchored : ∀ c r, c :: r <:+ t → ∀ more, anchorAt (c :: r ++ more) = none

/-- A marker of redaction: it begins and ends as one, and nothing is read in it. -/
structure IsMarker (marker : Bytes) : Prop extends Unread marker where
  marked : redactedPrefix <+: marker
  bounded : ∃ b ∈ marker, terminates .token b = true
  capital : ∀ b ∈ marker, toAsciiUppercase b ≠ 80
  unmatched : ∀ pair ∈ redactionPatterns, ∀ b ∈ pair.1.head?, b ∉ marker

/-- A text is what a reader sees of another one, with markers for what is covered. -/
inductive Depicts : List Cell → Bytes → Prop where
  | nil : Depicts [] []
  | shown (b : UInt8) {cs : List Cell} {t : Bytes} (h : Depicts cs t) :
    Depicts ((b, false) :: cs) (b :: t)
  | covered {hidden : List Cell} {marker : Bytes} (hne : hidden ≠ [])
    (hcovered : ∀ c ∈ hidden, c.2 = true) (hmarker : IsMarker marker) {cs : List Cell} {t : Bytes}
    (h : Depicts cs t) : Depicts (hidden ++ cs) (marker ++ t)

/-- The same with some of the last marker still in front. -/
inductive Behind : List Cell → Bytes → Prop where
  | intro {hidden cs : List Cell} {faded t : Bytes} (hcovered : ∀ c ∈ hidden, c.2 = true)
    (hfaded : Unread faded) (h : Depicts cs t) : Behind (hidden ++ cs) (faded ++ t)

/-- The value of a secret that the reader comes to is one it leaves. -/
def PassesBy (cliKey : Bool) (cs : List Cell) : Prop :=
  ∀ kind header value, cs = header ++ value →
    secretAt cliKey (sight cs) = some (kind, sight value) → leaves kind value = true

/-- The reader comes to no secret that it would cover. -/
def Discreet (cliKey : Bool) (cs : List Cell) : Prop :=
  ∀ d cs', Reaches readStep cliKey cs d cs' → PassesBy d cs'

variable {cliKey d : Bool} {kind : SecretValueKind} {cs hidden : List Cell} {t marker w : Bytes}

@[simp] theorem sight_append (cs cs' : List Cell) : sight (cs ++ cs') = sight cs ++ sight cs' :=
  List.map_append

@[simp] theorem sight_uncovered (t : Bytes) : sight (uncovered t) = t := by
  rw [sight, uncovered, List.map_map]
  exact List.map_id t

@[simp] theorem sight_length (cs : List Cell) : (sight cs).length = cs.length := List.length_map _

@[simp] theorem uncovered_length (t : Bytes) : (uncovered t).length = t.length :=
  List.length_map _

theorem uncovered_append (t t' : Bytes) : uncovered (t ++ t') = uncovered t ++ uncovered t' :=
  List.map_append

theorem sight_covered (hcovered : ∀ c ∈ hidden, c.2 = true) : ∀ b ∈ sight hidden, b = 91 := by
  intro b hb
  obtain ⟨c, hc, rfl⟩ := List.mem_map.mp hb
  rw [hcovered c hc]
  rfl

theorem IsMarker.bracket (h : IsMarker marker) : ∃ m, marker = 91 :: m := by
  obtain ⟨m, rfl⟩ := h.marked
  exact ⟨_, rfl⟩

theorem Depicts.append_left (h : Depicts cs t) (xs : Bytes) :
    Depicts (uncovered xs ++ cs) (xs ++ t) := by
  induction xs with
  | nil => exact h
  | cons b xs ih => exact .shown b ih

theorem depicts_uncovered (t : Bytes) : Depicts (uncovered t) t := by
  have h := Depicts.append_left .nil t
  rwa [List.append_nil, List.append_nil] at h

theorem covered_cons (hne : hidden ≠ []) (hcovered : ∀ c ∈ hidden, c.2 = true) :
    ∃ b r, hidden = (b, true) :: r ∧ ∀ c ∈ r, c.2 = true := by
  cases hidden with
  | nil => exact absurd rfl hne
  | cons c r =>
    obtain ⟨hc, hr⟩ := List.forall_mem_cons.mp hcovered
    exact ⟨c.1, r, by rw [← hc], hr⟩

/-- What stands in front of the first marker is read in both. -/
theorem Depicts.front (h : Depicts cs t) : cs = uncovered t ∨
    ∃ xs hidden marker cs' t', cs = uncovered xs ++ (hidden ++ cs') ∧ t = xs ++ (marker ++ t') ∧
      hidden ≠ [] ∧ (∀ c ∈ hidden, c.2 = true) ∧ IsMarker marker ∧ Depicts cs' t' := by
  induction h with
  | nil => exact .inl rfl
  | @shown b cs t h ih =>
    obtain rfl | ⟨xs, hidden, marker, cs', t', rfl, rfl, hhidden⟩ := ih
    · exact .inl rfl
    · exact .inr ⟨b :: xs, hidden, marker, cs', t', rfl, rfl, hhidden⟩
  | @covered hidden marker hne hcovered hmarker cs t h ih =>
    exact .inr ⟨[], hidden, marker, cs, t, rfl, rfl, hne, hcovered, hmarker, h⟩

/-- A word without a bracket is read in both or in none. -/
theorem Depicts.beginning (h : Depicts cs t) (hw : 91 ∉ w) (hstart : w <+: t ∨ w <+: sight cs) :
    ∃ cs' t', cs = uncovered w ++ cs' ∧ t = w ++ t' ∧ Depicts cs' t' := by
  induction w generalizing cs t with
  | nil => exact ⟨cs, t, rfl, rfl, h⟩
  | cons b w ih =>
    obtain ⟨hb, hw⟩ := not_or.mp (mt List.mem_cons.mpr hw)
    cases h with
    | nil =>
      cases hstart with
      | inl hstart => exact absurd (List.prefix_nil.mp hstart) (List.cons_ne_nil b w)
      | inr hstart => exact absurd (List.prefix_nil.mp hstart) (List.cons_ne_nil b w)
    | @shown c cs t h =>
      have hsplit : b = c ∧ (w <+: t ∨ w <+: sight cs) := by
        cases hstart with
        | inl hstart =>
          obtain ⟨hbc, hrest⟩ := List.cons_prefix_cons.mp hstart
          exact ⟨hbc, .inl hrest⟩
        | inr hstart =>
          obtain ⟨hbc, hrest⟩ := List.cons_prefix_cons.mp hstart
          exact ⟨hbc, .inr hrest⟩
      obtain ⟨rfl, hrest⟩ := hsplit
      obtain ⟨cs', t', rfl, rfl, hdepicts⟩ := ih h hw hrest
      exact ⟨cs', t', rfl, rfl, hdepicts⟩
    | @covered hidden marker hne hcovered hmarker cs t h =>
      obtain ⟨m, rfl⟩ := hmarker.bracket
      obtain ⟨c, r, rfl, -⟩ := covered_cons hne hcovered
      cases hstart with
      | inl hstart => exact absurd (List.cons_prefix_cons.mp hstart).1.symm hb
      | inr hstart => exact absurd (List.cons_prefix_cons.mp hstart).1.symm hb

/-- The same secrets are found in what a text shows and in what depicts it. -/
theorem Depicts.secretAt (h : Depicts cs t) (cliKey : Bool) :
    (secretAt cliKey (sight cs) = none ∧ secretAt cliKey t = none) ∨
    ∃ kind header ss start, cs = uncovered header ++ ss ∧ t = header ++ start ∧ header ≠ [] ∧
      Depicts ss start ∧ secretAt cliKey (sight cs) = some (kind, sight ss) ∧
      secretAt cliKey t = some (kind, start) := by
  obtain rfl | ⟨xs, hidden, marker, cs', t', rfl, rfl, hne, hcovered, hmarker, hrest⟩ := h.front
  · rw [sight_uncovered]
    cases hsecret : Fixtures.secretAt cliKey t with
    | none => exact .inl ⟨rfl, rfl⟩
    | some p =>
      obtain ⟨kind, start⟩ := p
      obtain ⟨header, rfl, hheader, -⟩ := secretAt_some hsecret
      exact .inr ⟨kind, header, uncovered start, start, uncovered_append _ _, rfl, hheader,
        depicts_uncovered start, by rw [sight_uncovered], rfl⟩
  · have hstop : (91 : UInt8) ∈ stoppers := by decide
    obtain ⟨o, ho⟩ := secretAt_stopper hstop cliKey xs
    obtain ⟨m, rfl⟩ := hmarker.bracket
    obtain ⟨b, r, rfl, hr⟩ := covered_cons hne hcovered
    have hsight (xs : Bytes) : sight (uncovered xs ++ ((b, true) :: r ++ cs')) =
        xs ++ 91 :: sight (r ++ cs') := by
      rw [sight_append, sight_uncovered]
      rfl
    have ht := ho (m ++ t')
    have hs := ho (sight (r ++ cs'))
    rw [← hsight] at hs
    rw [hs, List.cons_append, ht]
    cases o with
    | none => exact .inl ⟨rfl, rfl⟩
    | some p =>
      obtain ⟨kind, ys⟩ := p
      obtain ⟨header, hsplit, hheader, -⟩ := secretAt_some ht
      have hxs : xs = header ++ ys := by
        rw [← List.append_assoc] at hsplit
        exact List.append_cancel_right hsplit
      subst hxs
      refine .inr ⟨kind, header, uncovered ys ++ ((b, true) :: r ++ cs'), ys ++ 91 :: (m ++ t'),
        ?_, ?_, hheader, (Depicts.covered hne hcovered hmarker hrest).append_left ys, ?_, rfl⟩
      · rw [uncovered_append, List.append_assoc]
      · rw [List.append_assoc]
      · rw [hsight]
        rfl

theorem unread_nil : Unread [] :=
  ⟨fun _ hb => (by cases hb), fun _ _ hr => absurd (List.suffix_nil.mp hr) (List.cons_ne_nil _ _)⟩

theorem Unread.suffix {t' : Bytes} (h : Unread t) (hsuffix : t' <:+ t) : Unread t' :=
  ⟨fun b hb => h.plain b (hsuffix.subset hb),
    fun c r hr => h.unanchored c r (hr.trans hsuffix)⟩

theorem Depicts.behind (h : Depicts cs t) : Behind cs t :=
  @Behind.intro [] cs [] t (List.forall_mem_nil _) unread_nil h

theorem valueOf_append {xs : Bytes} (h : ∀ b ∈ xs, terminates kind b = false) (t : Bytes) :
    valueOf kind (xs ++ t) = xs ++ valueOf kind t :=
  List.takeWhile_append_of_pos fun b hb => by rw [h b hb]; rfl

theorem prefix_valueOf (hw : ∀ b ∈ w, terminates kind b = false) :
    w <+: valueOf kind t ↔ w <+: t := by
  constructor
  · exact fun h => h.trans (List.takeWhile_prefix _)
  · rintro ⟨more, rfl⟩
    rw [valueOf_append hw]
    exact List.prefix_append _ _

theorem redactedPrefix_unterminated (kind : SecretValueKind) :
    ∀ b ∈ redactedPrefix, terminates kind b = false := by
  cases kind <;> decide

theorem renderValue_iff (secret : Bytes) :
    renderValue secret = secret ↔ (secret.isEmpty || redactedPrefix.isPrefixOf secret) = true := by
  rw [renderValue]
  split
  · next h => exact ⟨fun _ => h, fun _ => rfl⟩
  · next h =>
    refine ⟨fun hsame => absurd ?_ h, fun hkept => absurd hkept h⟩
    have hmarked : redactedPrefix.isPrefixOf (redaction secret.length redacted) = true :=
      List.isPrefixOf_iff_prefix.mpr ⟨_, rfl⟩
    rw [hsame] at hmarked
    rw [hmarked, Bool.or_true]

/-- The reader leaves a value just when the scan does. -/
theorem Depicts.leaves (h : Depicts cs t) (kind : SecretValueKind) :
    leaves kind cs = ((valueOf kind t).isEmpty || redactedPrefix.isPrefixOf (valueOf kind t)) := by
  have hmarker := redactedPrefix_unterminated kind
  cases h with
  | nil => rfl
  | @shown b cs t h =>
    have hempty : (valueOf kind (b :: sight cs)).isEmpty = (valueOf kind (b :: t)).isEmpty := by
      rw [valueOf, valueOf, List.takeWhile_cons, List.takeWhile_cons]
      by_cases hb : (!terminates kind b) = true <;> simp [hb]
    have hprefix : redactedPrefix <+: b :: sight cs ↔ redactedPrefix <+: b :: t := by
      have hword : 91 ∉ ascii "REDACTED" := by decide
      constructor
      · intro hstart
        obtain ⟨hb, hrest⟩ := List.cons_prefix_cons.mp hstart
        obtain ⟨-, t', -, rfl, -⟩ := h.beginning hword (.inr hrest)
        exact List.cons_prefix_cons.mpr ⟨hb, List.prefix_append _ _⟩
      · intro hstart
        obtain ⟨hb, hrest⟩ := List.cons_prefix_cons.mp hstart
        obtain ⟨cs', -, rfl, -, -⟩ := h.beginning hword (.inl hrest)
        rw [sight_append, sight_uncovered]
        exact List.cons_prefix_cons.mpr ⟨hb, List.prefix_append _ _⟩
    have hmarked : redactedPrefix.isPrefixOf (valueOf kind (b :: sight cs)) =
        redactedPrefix.isPrefixOf (valueOf kind (b :: t)) := by
      rw [Bool.eq_iff_iff, List.isPrefixOf_iff_prefix, List.isPrefixOf_iff_prefix,
        prefix_valueOf hmarker, prefix_valueOf hmarker]
      exact hprefix
    have hsight : sight ((b, false) :: cs) = b :: sight cs := rfl
    rw [Fixtures.leaves, hsight, hempty, hmarked]
    rfl
  | @covered hidden marker hne hcovered hm cs t h =>
    obtain ⟨b, r, rfl, -⟩ := covered_cons hne hcovered
    have hmarked : redactedPrefix.isPrefixOf (valueOf kind (marker ++ t)) = true :=
      List.isPrefixOf_iff_prefix.mpr
        ((prefix_valueOf hmarker).mpr (hm.marked.trans (List.prefix_append _ _)))
    rw [hmarked, Bool.or_true]
    rfl

theorem endsRead_shown (kind : SecretValueKind) (b : UInt8) :
    endsRead kind (b, false) = terminates kind b := by
  cases kind <;> rfl

/-- Behind the value of a secret the text still is what the reader sees. -/
theorem Depicts.value (h : Depicts cs t) (kind : SecretValueKind) (d : Bool) :
    Behind (cs.dropWhile fun c => !endsRead kind c) (t.dropWhile fun b => !terminates kind b) ∧
      (sight (readValue kind cs)).foldl lineDash d = (valueOf kind t).foldl lineDash d := by
  induction h generalizing d with
  | nil => exact ⟨Depicts.nil.behind, rfl⟩
  | @shown b cs t h ih =>
    have hend := endsRead_shown kind b
    rw [readValue, valueOf, List.dropWhile_cons, List.dropWhile_cons, List.takeWhile_cons,
      List.takeWhile_cons, hend]
    by_cases hb : (!terminates kind b) = true
    · rw [if_pos hb, if_pos hb, if_pos hb, if_pos hb]
      exact ih (lineDash d b)
    · rw [if_neg hb, if_neg hb, if_neg hb, if_neg hb]
      exact ⟨(Depicts.shown b h).behind, rfl⟩
  | @covered hidden marker hne hcovered hm cs t h ih =>
    cases kind with
    | token =>
      obtain ⟨b, r, rfl, -⟩ := covered_cons hne hcovered
      obtain ⟨e, he, hend⟩ := hm.bounded
      have hstops : (marker.dropWhile fun b => !terminates .token b).isEmpty = false := by
        rw [List.isEmpty_eq_false_iff, Ne, List.dropWhile_eq_nil_iff]
        intro hall
        have hgoes := hall e he
        rw [hend] at hgoes
        cases hgoes
      have hvalue : valueOf .token (marker ++ t) = valueOf .token marker := by
        obtain ⟨front, back, rfl⟩ := List.append_of_mem he
        rw [List.append_assoc, List.cons_append, valueOf_terminated hend,
          valueOf_terminated hend]
      have hplain : ∀ b ∈ valueOf .token marker, isDash b = false ∧ isNewline b = false :=
        fun b hb => hm.plain b ((List.takeWhile_prefix _).subset hb)
      have hrest : (marker ++ t).dropWhile (fun b => !terminates .token b) =
          marker.dropWhile (fun b => !terminates .token b) ++ t := by
        rw [List.dropWhile_append, hstops]
        rfl
      rw [hrest, hvalue, foldl_lineDash_plain hplain]
      refine ⟨?_, rfl⟩
      exact .intro hcovered (hm.toUnread.suffix (List.dropWhile_suffix _)) h
    | line =>
      have hpass : ∀ c ∈ hidden, (!endsRead .line c) = true := by
        intro c hc
        simp [endsRead, hcovered c hc]
      have hgoes : ∀ b ∈ marker, (!terminates .line b) = true := by
        intro b hb
        simp [terminates, hm.plain b hb]
      have hhidden : (sight hidden).foldl lineDash d = d := by
        refine foldl_lineDash_plain (fun b hb => ?_) d
        rw [sight_covered hcovered b hb]
        decide
      rw [readValue, valueOf, List.dropWhile_append_of_pos hpass,
        List.dropWhile_append_of_pos hgoes, List.takeWhile_append_of_pos hpass,
        List.takeWhile_append_of_pos hgoes, sight_append, List.foldl_append, List.foldl_append,
        hhidden, foldl_lineDash_plain hm.plain]
      exact ih d

theorem scan_unread (h : Unread w) (t : Bytes) (d : Bool) :
    scanAnchored d (w ++ t) = w ++ scanAnchored d t := by
  rw [scanAnchored, rewrite_copy tracks_anchored, foldl_lineDash_plain h.plain]
  · rfl
  · intro s c r hr
    have hnone : secretAt s (c :: (r ++ t)) = none := secretAt_noAnchor (h.unanchored c r hr t)
    rw [anchoredStep_none hnone]
    exact ⟨rfl, rfl⟩

theorem secretAt_covered (b : UInt8) (cs : List Cell) :
    secretAt d (sight ((b, true) :: cs)) = none :=
  secretAt_noAnchor (anchorAt_first (marker_border 91 (by decide)) (sight cs))

theorem readStep_none {c : Cell} {r : List Cell} (h : secretAt d (sight (c :: r)) = none) :
    readStep d c r = ⟨[c], 0, (sight [c]).foldl lineDash d⟩ := by
  rw [readStep, h]

theorem readStep_some {c : Cell} {r header value : List Cell} (hsplit : c :: r = header ++ value)
    (h : secretAt d (sight (c :: r)) = some (kind, sight value)) :
    readStep d c r = ⟨header ++ (if leaves kind value then readValue kind value
        else cover (readValue kind value)), (header ++ readValue kind value).length - 1,
      (sight (header ++ readValue kind value)).foldl lineDash d⟩ := by
  have hheader : (c :: r).take ((c :: r).length - (sight value).length) = header := by
    rw [hsplit, List.length_append, sight_length, Nat.add_sub_cancel, List.take_left]
  have hvalue : (c :: r).drop header.length = value := by rw [hsplit, List.drop_left]
  rw [readStep, h]
  simp only [hheader, hvalue]

theorem readValue_split (kind : SecretValueKind) (cs : List Cell) :
    readValue kind cs ++ cs.dropWhile (fun c => !endsRead kind c) = cs :=
  List.takeWhile_append_dropWhile

theorem discreet_cons {c : Cell} {r : List Cell} : Discreet d (c :: r) ↔
    PassesBy d (c :: r) ∧ Discreet (readStep d c r).next (r.drop (readStep d c r).extra) := by
  constructor
  · exact fun h => ⟨h d _ (.here _ _), fun d' cs' hreach => h d' cs' (.later hreach)⟩
  · rintro ⟨hhere, hlater⟩ d' cs' hreach
    cases hreach with
    | here => exact hhere
    | later hreach => exact hlater d' cs' hreach

theorem passesBy_none (h : secretAt d (sight cs) = none) : PassesBy d cs := by
  intro kind header value _ hsecret
  rw [h] at hsecret
  cases hsecret

theorem discreet_nil : Discreet d [] := by
  intro d' cs' hreach
  cases hreach with
  | here => exact passesBy_none rfl

/-- What is covered is passed by. -/
theorem discreet_covered (hcovered : ∀ c ∈ hidden, c.2 = true) :
    Discreet d (hidden ++ cs) ↔ Discreet d cs := by
  induction hidden with
  | nil => exact Iff.rfl
  | cons c r ih =>
    obtain ⟨hc, hr⟩ := List.forall_mem_cons.mp hcovered
    obtain ⟨b, covered⟩ := c
    have hc : covered = true := hc
    subst hc
    have hnone : secretAt d (sight ((b, true) :: (r ++ cs))) = none := secretAt_covered b _
    have hbracket : [91].foldl lineDash d = d := foldl_lineDash_plain (by decide) d
    have hdash : (sight [((b, true) : Cell)]).foldl lineDash d = d := hbracket
    rw [List.cons_append, discreet_cons, readStep_none hnone, List.drop_zero, hdash, ih hr]
    exact and_iff_right (passesBy_none hnone)

/-- A secret in sight is settled just when its value is left. -/
theorem discreet_secret {header value : List Cell} (hheader : header ≠ [])
    (h : secretAt d (sight (header ++ value)) = some (kind, sight value)) :
    Discreet d (header ++ value) ↔ leaves kind value = true ∧
      Discreet ((sight (header ++ readValue kind value)).foldl lineDash d)
        (value.dropWhile fun c => !endsRead kind c) := by
  cases hcells : header ++ value with
  | nil => exact absurd (List.append_eq_nil_iff.mp hcells).1 hheader
  | cons c r =>
    rw [hcells] at h
    have hconsumed : c :: r = header ++ readValue kind value ++
        value.dropWhile fun c => !endsRead kind c := by
      rw [List.append_assoc, readValue_split, hcells]
    have hdrop : r.drop ((header ++ readValue kind value).length - 1) =
        value.dropWhile fun c => !endsRead kind c :=
      (consumed hconsumed (List.append_ne_nil_of_left_ne_nil hheader _)).2
    rw [discreet_cons, readStep_some hcells.symm h]
    simp only [hdrop]
    refine and_congr_left fun _ => ⟨fun hpasses => hpasses kind header value hcells.symm h, ?_⟩
    intro hleaves kind' header' value' hsplit hsecret
    obtain ⟨rfl, hsight⟩ := Prod.mk.inj (Option.some.inj (h.symm.trans hsecret))
    have hlength := congrArg List.length hsight
    rw [sight_length, sight_length] at hlength
    obtain ⟨-, rfl⟩ := List.append_inj' (hcells.trans hsplit) hlength
    exact hleaves

/-- The scan leaves a text just when it leaves the value of each secret. -/
theorem scan_secret_iff {header start : Bytes}
    (h : secretAt d (header ++ start) = some (kind, start)) :
    scanAnchored d (header ++ start) = header ++ start ↔
      ((valueOf kind start).isEmpty || redactedPrefix.isPrefixOf (valueOf kind start)) = true ∧
      scanAnchored ((header ++ valueOf kind start).foldl lineDash d)
        (start.dropWhile fun b => !terminates kind b) =
          start.dropWhile fun b => !terminates kind b := by
  rw [← renderValue_iff, scan_secret h]
  have hsplit : header ++ start = header ++ valueOf kind start ++
      start.dropWhile fun b => !terminates kind b := by
    rw [List.append_assoc, value_split]
  constructor
  · intro hsame
    have hvalue := length_le_renderValue (valueOf kind start)
    have hrest := length_le_scanAnchored ((header ++ valueOf kind start).foldl lineDash d)
      (start.dropWhile fun b => !terminates kind b)
    rw [hsplit] at hsame
    have hlength := congrArg List.length hsame
    simp only [List.length_append] at hlength
    obtain ⟨hfront, hback⟩ := List.append_inj hsame (by simp only [List.length_append]; omega)
    exact ⟨List.append_cancel_left hfront, hback⟩
  · rintro ⟨hvalue, hrest⟩
    rw [hvalue, hrest]
    exact hsplit.symm

theorem scan_copy_iff {c : UInt8} {r : Bytes} (h : secretAt d (c :: r) = none) :
    scanAnchored d (c :: r) = c :: r ↔ scanAnchored (lineDash d c) r = r := by
  rw [scan_copy h, List.cons_inj_right]

/-- The scan leaves a text just when its reader comes to nothing to cover. -/
theorem Behind.scan_iff (h : Behind cs t) (d : Bool) : scanAnchored d t = t ↔ Discreet d cs := by
  induction hn : cs.length using Nat.strong_induction_on generalizing d cs t with
  | _ n ih =>
    obtain @⟨hidden, cs, faded, t, hcovered, hfaded, h⟩ := h
    rw [discreet_covered hcovered, scan_unread hfaded, List.append_right_inj]
    have hlength : cs.length ≤ n := by
      rw [← hn, List.length_append]
      omega
    cases h with
    | nil => exact iff_of_true rfl discreet_nil
    | @covered hidden marker hne hcovered hmarker cs t h =>
      have hpos := List.length_pos_iff.mpr hne
      rw [discreet_covered hcovered, scan_unread hmarker.toUnread, List.append_right_inj]
      refine ih cs.length ?_ h.behind d rfl
      rw [List.length_append] at hlength
      omega
    | @shown b cs t h =>
      have hall : Depicts ((b, false) :: cs) (b :: t) := .shown b h
      obtain ⟨hnone, hscan⟩ | ⟨kind, header, value, start, hcells, htext, hheader, hdepicts,
        hread, hscan⟩ := hall.secretAt d
      · have hstep : (sight [((b, false) : Cell)]).foldl lineDash d = lineDash d b := rfl
        rw [scan_copy_iff hscan, discreet_cons, readStep_none hnone, List.drop_zero, hstep]
        rw [List.length_cons] at hlength
        refine (ih cs.length (by omega) h.behind _ rfl).trans ?_
        exact (and_iff_right (passesBy_none hnone)).symm
      · rw [hcells] at hread
        rw [htext] at hscan
        have hcellsHeader : uncovered header ≠ [] := fun hnil =>
          hheader (List.map_eq_nil_iff.mp hnil)
        obtain ⟨hbehind, hfold⟩ := hdepicts.value kind (header.foldl lineDash d)
        rw [hcells, htext, scan_secret_iff hscan, discreet_secret hcellsHeader hread,
          hdepicts.leaves, sight_append, sight_uncovered, List.foldl_append, List.foldl_append,
          hfold]
        refine and_congr_right fun _ => ih _ ?_ hbehind _ rfl
        have hdrop :=
          (List.dropWhile_suffix (p := fun c => !endsRead kind c) (l := value)).length_le
        have hpos := List.length_pos_iff.mpr hcellsHeader
        rw [hcells, List.length_append] at hlength
        omega

end Nigiri.Fixtures
