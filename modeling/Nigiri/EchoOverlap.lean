import Mathlib.Data.List.Perm.Subperm
import Nigiri.SensitiveRemoval

/-! A whole value echoed between two texts: what is removed of it, and what the value's leading
characters repeated before it leave behind. -/
namespace Nigiri.Core
open Masking

section Unique
variable {value anchor text before rest : List Char}

/-- There is one first match. -/
theorem first_unique {x y x' y' : List Char} (heq : x ++ y = x' ++ y') (hy : anchor <+: y)
    (hy' : anchor <+: y') (hx : ∀ c r, c :: r <:+ x → ¬ anchor <+: c :: r ++ y)
    (hx' : ∀ c r, c :: r <:+ x' → ¬ anchor <+: c :: r ++ y') : x = x' := by
  obtain ⟨as, hlater, hread⟩ | ⟨as, hlater, hread⟩ := List.append_eq_append_iff.mp heq
  · cases as with
    | nil => rw [hlater, List.append_nil]
    | cons a as => exact absurd (hread ▸ hy) (hx' a as ⟨x, hlater.symm⟩)
  · cases as with
    | nil => rw [hlater, List.append_nil]
    | cons a as => exact absurd (hread ▸ hy') (hx a as ⟨x', hlater.symm⟩)

theorem anchor_within {before echo rest : List Char} (h : anchor <+: echo) :
    anchor <:+: before ++ (echo ++ rest) :=
  (h.trans (List.prefix_append echo rest)).isInfix.trans (List.suffix_append before _).isInfix

theorem Redaction.unique {r r' : List Char} (h : Redaction value anchor text r)
    (h' : Redaction value anchor text r') : r = r' := by
  induction h generalizing r' with
  | done text habsent =>
    generalize htext : text = text' at h'
    cases h' with
    | done => rfl
    | round before echo rest result hfirst hecho hanchor =>
      exact absurd (htext ▸ anchor_within hanchor) habsent
  | round before echo rest result hfirst hecho hanchor h ih =>
    generalize htext : before ++ (echo ++ rest) = text' at h'
    cases h' with
    | done _ habsent => exact absurd (htext ▸ anchor_within hanchor) habsent
    | round before' echo' rest' result' hfirst' hecho' hanchor' h' =>
      obtain rfl := first_unique htext (hanchor.trans (List.prefix_append echo rest))
        (hanchor'.trans (List.prefix_append echo' rest')) hfirst hfirst'
      have hread := List.append_cancel_left htext
      have hsame : echo = echo' := by rw [← hecho, ← hecho', hread]
      subst hsame
      obtain rfl := List.append_cancel_left hread
      rw [ih h']

theorem redactValue_eq (ha : anchorOf value = some anchor) (hne : value ≠ [])
    {result : List Char} (h : Redaction value anchor text result) :
    redactSensitive text [value] = some result := by
  obtain ⟨anchor', result', ha', hresult, hredaction⟩ := @redactValue_some value text hne
  rw [ha] at ha'
  cases ha'
  have hfilter : [value].filter (· ≠ []) = [value] := by simp [hne]
  rw [redactSensitive, hfilter, List.foldlM_cons, hresult, h.unique hredaction]
  rfl

end Unique

/-- The anchor is met early, within a text and itself behind it. -/
def FalseStart (anchor before : List Char) : Prop :=
  ∃ start, start ≠ [] ∧ start <:+ before ∧ anchor <+: start ++ anchor

section Whole
variable {value anchor before after : List Char}

theorem prefix_within {start a x y : List Char} (h : a <+: start ++ (x ++ y))
    (hlength : a.length ≤ (start ++ x).length) : a <+: start ++ x :=
  List.prefix_of_prefix_length_le h
    ⟨y, List.append_assoc start x y⟩ hlength

/-- Without a false start exactly the echo is removed. -/
theorem whole_echo (ha : anchorOf value = some anchor) (hne : value ≠ [])
    (hafter : ¬ anchor <:+: after) (hstart : ¬ FalseStart anchor before) :
    redactSensitive (before ++ (value ++ after)) [value] =
      some (before ++ (redactedMark ++ after)) := by
  apply redactValue_eq ha hne
  obtain ⟨tail, rfl⟩ := anchorOf_starts ha
  refine .round before (anchor ++ tail) after after ?_ ?_ (List.prefix_append anchor tail)
    (.done after hafter)
  · intro c r hsuffix hmatch
    rw [List.append_assoc] at hmatch
    exact hstart ⟨c :: r, List.cons_ne_nil c r, hsuffix,
      prefix_within hmatch (by rw [List.length_append]; omega)⟩
  · have hshared := shared_append (anchor ++ tail) [] after
    rw [List.append_nil] at hshared
    rw [hshared]
    exact List.append_nil _

/-- The first match in a text and the anchor behind it, when it is a false start. -/
theorem falseStart_first (hbefore : ¬ anchor <:+: before) (hstart : FalseStart anchor before) :
    ∃ front a back, before ++ anchor = front ++ (anchor ++ a :: back) ∧
      (∀ c r, c :: r <:+ front → ¬ anchor <+: c :: r ++ (anchor ++ a :: back)) ∧
      a :: back <:+ anchor ∧ (a :: back).length < anchor.length := by
  cases hfind : find anchor (before ++ anchor) with
  | none => exact absurd (List.suffix_append before anchor).isInfix (find_none hfind)
  | some offset =>
    obtain ⟨front, back, hsplit, _, hfirst⟩ := find_some hfind
    cases back with
    | nil =>
      rw [List.append_nil] at hsplit
      obtain rfl := List.append_cancel_right hsplit
      obtain ⟨start, hne, hsuffix, hmatch⟩ := hstart
      cases start with
      | nil => exact absurd rfl hne
      | cons c r =>
        rw [List.append_nil] at hfirst
        exact absurd hmatch (hfirst c r hsuffix)
    | cons a back =>
      refine ⟨front, a, back, hsplit, hfirst, ?_⟩
      rw [← List.append_assoc] at hsplit
      obtain ⟨as, hfront, hanchor⟩ | ⟨as, hwhole, _⟩ := List.append_eq_append_iff.mp hsplit
      · refine ⟨⟨as, hanchor.symm⟩, ?_⟩
        cases as with
        | nil =>
          rw [List.append_nil] at hfront
          exact absurd ⟨front, [], by rw [hfront, List.append_nil]⟩ hbefore
        | cons b bs =>
          have hlength := congrArg List.length hanchor
          rw [List.length_append, List.length_cons] at hlength
          omega
      · exact absurd ⟨front, as, hwhole.symm⟩ hbefore

/-- After a false start only the anchor is removed, and what the value has behind it is left. -/
theorem false_start_leaks (hbefore : ¬ anchor <:+: before) (hstart : FalseStart anchor before) :
    ∃ front back, ∀ d tail after, anchorOf (anchor ++ d :: tail) = some anchor → d ∉ anchor →
      ¬ anchor <:+: tail ++ after →
      redactSensitive (before ++ ((anchor ++ d :: tail) ++ after)) [anchor ++ d :: tail] =
        some (front ++ (redactedMark ++ (back ++ d :: (tail ++ after)))) := by
  obtain ⟨front, a, back, hsplit, hfirst, hsuffix, hshort⟩ := falseStart_first hbefore hstart
  refine ⟨front, a :: back, ?_⟩
  intro d tail after ha hd hclear
  apply redactValue_eq ha (by simp)
  have htext : before ++ ((anchor ++ d :: tail) ++ after) =
      front ++ (anchor ++ (a :: back ++ d :: (tail ++ after))) := by
    have hwhole := congrArg (· ++ d :: (tail ++ after)) hsplit
    simpa using hwhole
  rw [htext]
  refine .round front anchor _ _ ?_ ?_ List.prefix_rfl (.done _ ?_)
  · intro c r hcr hmatch
    rw [← List.append_assoc anchor] at hmatch
    exact hfirst c r hcr (prefix_within hmatch (by simp only [List.length_append]; omega))
  · have hshared := shared_append anchor (d :: tail) (a :: back ++ d :: (tail ++ after))
    have hne : d ≠ a := fun heq => hd (heq ▸ hsuffix.subset List.mem_cons_self)
    rw [hshared, List.cons_append, shared, if_neg hne, List.append_nil]
  · intro hinfix
    obtain hback | hrest := infix_around hinfix hd
    · have hle := hback.length_le
      omega
    · exact hclear hrest

end Whole
section Fresh

/-- Fourteen characters of each width. -/
def candidates (width : Nat) : List Char :=
  let first := if width = 1 then 0x61 else if width = 2 then 0x100
    else if width = 3 then 0x1000 else 0x10000
  (List.range 14).map fun i => Char.ofNat (first + i)

theorem candidates_width {width : Nat} (h : width = 1 ∨ width = 2 ∨ width = 3 ∨ width = 4) :
    (candidates width).Nodup ∧ (candidates width).length = 14 ∧
      ∀ c ∈ candidates width, c.utf8Size = width := by
  have hall : (candidates width).Nodup ∧ (candidates width).length = 14 ∧
      (candidates width).all (fun c => c.utf8Size == width) = true := by
    obtain rfl | rfl | rfl | rfl := h
    · decide
    · decide
    · decide
    · decide
  exact ⟨hall.1, hall.2.1, fun c hc => by simpa using List.all_eq_true.mp hall.2.2 c hc⟩

/-- Of more candidates than a text has letters, two are not in it. -/
theorem two_fresh {letters text : List Char} (hnodup : letters.Nodup)
    (hlength : text.length + 2 ≤ letters.length) :
    ∃ c ∈ letters, ∃ d ∈ letters, c ≠ d ∧ c ∉ text ∧ d ∉ text := by
  have hin : (letters.filter (· ∈ text)).length ≤ text.length := by
    apply List.Subperm.length_le
    apply List.subperm_of_subset (hnodup.filter _)
    intro c hc
    exact of_decide_eq_true (List.mem_filter.mp hc).2
  have hsum := @List.length_eq_length_filter_add _ letters (· ∈ text)
  have hout : (letters.filter fun c => !decide (c ∈ text)).Nodup := hnodup.filter _
  cases hfresh : letters.filter fun c => !decide (c ∈ text) with
  | nil =>
    rw [hfresh] at hsum
    simp only [List.length_nil] at hsum
    omega
  | cons c rest =>
    cases rest with
    | nil =>
      rw [hfresh] at hsum
      simp only [List.length_cons, List.length_nil] at hsum
      omega
    | cons d rest =>
      have hmem : ∀ e ∈ c :: d :: rest, e ∈ letters ∧ e ∉ text := by
        intro e he
        rw [← hfresh] at he
        simpa using List.mem_filter.mp he
      rw [hfresh] at hout
      have hne : c ≠ d := fun heq => (List.nodup_cons.mp hout).1 (heq ▸ List.mem_cons_self)
      have hc := hmem c List.mem_cons_self
      have hd := hmem d (List.mem_cons_of_mem c List.mem_cons_self)
      exact ⟨c, hc.1, d, hd.1, hne, hc.2, hd.2⟩

theorem byteLength_replicate {c : Char} (hc : c.utf8Size = 1) (n : Nat) :
    byteLength (List.replicate n c) = n := by
  induction n with
  | zero => rfl
  | succ n ih =>
    rw [List.replicate_succ, byteLength_cons, ih, hc]
    omega

theorem absent_replicate {c : Char} {anchor after : List Char} (hc : c ∉ anchor)
    (hafter : ¬ anchor <:+: after) (n : Nat) : ¬ anchor <:+: List.replicate n c ++ after := by
  induction n with
  | zero => exact hafter
  | succ n ih =>
    intro hinfix
    rw [List.replicate_succ] at hinfix
    obtain hempty | hrest := @infix_around _ anchor [] _ c hinfix hc
    · rw [List.infix_nil.mp hempty] at hafter
      exact hafter List.nil_infix
    · exact ih hrest

end Fresh

section Leaks
variable {before value anchor after : List Char}

/-- Whatever a value has behind its anchor, an echo of the whole of it gives the same text. -/
def LeavesNothing (before value anchor after : List Char) : Prop :=
  ∀ other, byteLength other = byteLength value → anchorOf other = some anchor →
    redactSensitive (before ++ (other ++ after)) [other] =
      redactSensitive (before ++ (value ++ after)) [value]

/-- A short value is its own anchor. -/
theorem short_leavesNothing (ha : anchorOf value = some anchor)
    (hshort : byteLength value ≤ SENSITIVE_ANCHOR_BYTES) :
    LeavesNothing before value anchor after := by
  have whole : ∀ other, byteLength other ≤ SENSITIVE_ANCHOR_BYTES →
      anchorOf other = some anchor → anchor = other := by
    intro other hother hanchor
    obtain ⟨_, heq⟩ | ⟨d, t, rfl, _, hlong⟩ := anchorOf_iff.mp hanchor
    · exact heq
    · rw [byteLength_append, byteLength_cons] at hother
      omega
  intro other hlength hother
  rw [← whole other (by omega) hother, ← whole value hshort ha]

/-- Two values that differ behind the anchor alone, as long as a given one. -/
theorem two_continuations {d : Char} {t : List Char}
    (ha : anchorOf (anchor ++ d :: t) = some anchor)
    (hlong : SENSITIVE_ANCHOR_BYTES < byteLength (anchor ++ d :: t)) :
    ∃ c₁ c₂ tail, c₁ ≠ c₂ ∧ ∀ c, c = c₁ ∨ c = c₂ → c ∉ anchor ∧
      byteLength (anchor ++ c :: tail) = byteLength (anchor ++ d :: t) ∧
      anchorOf (anchor ++ c :: tail) = some anchor ∧
      ∀ after, ¬ anchor <:+: after → ¬ anchor <:+: tail ++ after := by
  have hfits : byteLength anchor ≤ SENSITIVE_ANCHOR_BYTES ∧
      SENSITIVE_ANCHOR_BYTES < byteLength anchor + d.utf8Size := by
    obtain ⟨hshort, _⟩ | ⟨d', t', heq, hle, hlt⟩ := anchorOf_iff.mp ha
    · omega
    · obtain ⟨rfl, _⟩ := List.cons.inj (List.append_cancel_left heq)
      exact ⟨hle, hlt⟩
  have hroom : anchor.length + 2 ≤ 14 :=
    Nat.add_le_add_right ((length_le_byteLength anchor).trans hfits.1) 2
  obtain ⟨hnodup, hcount, hwidth⟩ := candidates_width d.utf8Size_eq
  obtain ⟨c₁, hc₁, c₂, hc₂, hne, hfresh₁, hfresh₂⟩ := two_fresh hnodup (hcount.symm ▸ hroom)
  obtain ⟨hnodup', hcount', hwidth'⟩ := @candidates_width 1 (.inl rfl)
  obtain ⟨x, hx, _, _, _, hfresh, _⟩ := two_fresh hnodup' (hcount'.symm ▸ hroom)
  refine ⟨c₁, c₂, List.replicate (byteLength t) x, hne, ?_⟩
  intro c hc
  have hcd : c ∉ anchor ∧ c.utf8Size = d.utf8Size := by
    obtain rfl | rfl := hc
    · exact ⟨hfresh₁, hwidth c hc₁⟩
    · exact ⟨hfresh₂, hwidth c hc₂⟩
  refine ⟨hcd.1, ?_, ?_, fun after hafter => absent_replicate hfresh hafter _⟩
  · rw [byteLength_append, byteLength_append, byteLength_cons, byteLength_cons, hcd.2,
      byteLength_replicate (hwidth' x hx)]
  · exact anchorOf_iff.mpr (.inr ⟨c, _, rfl, hfits.1, by rw [hcd.2]; exact hfits.2⟩)

/-- A false start gives away what follows the anchor. -/
theorem falseStart_leaks (ha : anchorOf value = some anchor) (hbefore : ¬ anchor <:+: before)
    (hafter : ¬ anchor <:+: after) (hlong : SENSITIVE_ANCHOR_BYTES < byteLength value)
    (hstart : FalseStart anchor before) : ¬ LeavesNothing before value anchor after := by
  intro hnothing
  obtain ⟨hshort, _⟩ | ⟨d, t, rfl, _, _⟩ := anchorOf_iff.mp ha
  · omega
  · obtain ⟨front, back, hleft⟩ := false_start_leaks hbefore hstart
    obtain ⟨c₁, c₂, tail, hne, hvalues⟩ := two_continuations ha hlong
    obtain ⟨hfresh₁, hlength₁, ha₁, hclear₁⟩ := hvalues c₁ (.inl rfl)
    obtain ⟨hfresh₂, hlength₂, ha₂, hclear₂⟩ := hvalues c₂ (.inr rfl)
    have hsame := (hnothing _ hlength₁ ha₁).trans (hnothing _ hlength₂ ha₂).symm
    rw [hleft c₁ tail after ha₁ hfresh₁ (hclear₁ after hafter),
      hleft c₂ tail after ha₂ hfresh₂ (hclear₂ after hafter), Option.some.injEq] at hsame
    have hbehind := List.append_cancel_left (List.append_cancel_left
      (List.append_cancel_left hsame))
    exact hne (List.cons.inj hbehind).1

end Leaks

/-- A complete echo leaves no fragment of a value longer than its anchor unless the anchor has a
false start in the text before. -/
theorem complete_echo (before value anchor after : List Char) (ha : anchorOf value = some anchor)
    (hbefore : ¬ anchor <:+: before) (hafter : ¬ anchor <:+: after) :
    LeavesNothing before value anchor after ↔
      byteLength value ≤ SENSITIVE_ANCHOR_BYTES ∨ ¬ FalseStart anchor before := by
  have hanchor : anchor ≠ [] := fun hnil => hbefore (hnil ▸ List.nil_infix)
  constructor
  · intro hnothing
    by_cases hlong : byteLength value ≤ SENSITIVE_ANCHOR_BYTES
    · exact .inl hlong
    · exact .inr fun hstart =>
        falseStart_leaks ha hbefore hafter (Nat.lt_of_not_le hlong) hstart hnothing
  · intro h
    obtain hshort | hclear := h
    · exact short_leavesNothing ha hshort
    · have nonempty : ∀ other, anchorOf other = some anchor → other ≠ [] := by
        rintro _ hother rfl
        exact hanchor (List.prefix_nil.mp (anchorOf_starts hother))
      intro other hlength hother
      rw [whole_echo hother (nonempty other hother) hafter hclear,
        whole_echo ha (nonempty value ha) hafter hclear]

theorem complete_echo_of_transaction : LeavesNothing "transaction refused: ".toList
    "0200000001a1b2c3d4".toList "0200000001a1".toList ", try again".toList := by
  have ha : anchorOf "0200000001a1b2c3d4".toList = some "0200000001a1".toList :=
    anchorOf_iff.mpr (.inr ⟨'b', "2c3d4".toList, by decide⟩)
  apply (complete_echo _ _ _ _ ha (by decide) (by decide)).mpr
  right
  intro h
  obtain ⟨start, hne, hsuffix, hprefix⟩ := h
  cases start with
  | nil => exact hne rfl
  | cons c r =>
    obtain rfl := (List.cons_prefix_cons.mp hprefix).1
    exact absurd (hsuffix.subset List.mem_cons_self) (by decide)

/-- A digit before the echo of a transaction that begins with twelve of it moves the match, and
the transaction is left but for its first eleven digits. -/
theorem repeated_digit_leaks : ¬ ∀ before after value other anchor : List Char,
    byteLength value = byteLength other → anchorOf value = some anchor →
    anchorOf other = some anchor → ¬ anchor <:+: before → ¬ anchor <:+: after →
    redactSensitive (before ++ (value ++ after)) [value] =
      redactSensitive (before ++ (other ++ after)) [other] := by
  intro h
  have hsame := h "a".toList [] "aaaaaaaaaaaa1234".toList "aaaaaaaaaaaa5678".toList
    "aaaaaaaaaaaa".toList (by decide)
    (anchorOf_iff.mpr (.inr ⟨'1', "234".toList, by decide⟩))
    (anchorOf_iff.mpr (.inr ⟨'5', "678".toList, by decide⟩)) (by decide) (by decide)
  have hleft : redactSensitive "aaaaaaaaaaaaa1234".toList ["aaaaaaaaaaaa1234".toList] =
      some "[redacted]a1234".toList := by decide
  have hright : redactSensitive "aaaaaaaaaaaaa5678".toList ["aaaaaaaaaaaa5678".toList] =
      some "[redacted]a5678".toList := by decide
  have hdiffer := (hleft.symm.trans hsame).trans hright
  exact absurd hdiffer (by decide)

end Nigiri.Core
