import Nigiri.SensitiveText

/-! What is left of sensitive values in a text from which they are removed one after another. -/
namespace Nigiri.Core
open Masking

/-- A stretch that is removed: it begins with the anchor of a value and agrees with the value. -/
def Echo (sensitive : List (List Char)) (hidden : List Char) : Prop :=
  ∃ value ∈ sensitive, ∃ anchor, anchorOf value = some anchor ∧ anchor <+: hidden ∧
    hidden <+: value

/-- The values whose removal leaves nothing of them: they have no brackets, and the mark does not
spell their anchors. -/
def Removable (value : List Char) : Prop :=
  '[' ∉ value ∧ ']' ∉ value ∧
    ∀ anchor, anchorOf value = some anchor → ¬ anchor <:+: "redacted".toList

abbrev RedactedEchoes (sensitive : List (List Char)) : List Char → List Char → Prop :=
  Masked (Covers (Echo sensitive) ('[' :: ("redacted".toList ++ [']'])))

section One
variable {value anchor text result : List Char} {sensitive : List (List Char)}

theorem Removable.plain_anchor (h : Removable value) (ha : anchorOf value = some anchor) :
    Plain '[' ']' "redacted".toList anchor where
  no_opening hmem := h.1 ((anchorOf_starts ha).subset hmem)
  no_closing hmem := h.2.1 ((anchorOf_starts ha).subset hmem)
  outside := h.2.2 anchor ha

theorem Removable.plain_echo (h : ∀ value ∈ sensitive, Removable value) {hidden : List Char}
    (hecho : Echo sensitive hidden) : Plain '[' ']' "redacted".toList hidden := by
  obtain ⟨value, hvalue, anchor, ha, hanchor, hhidden⟩ := hecho
  have hremovable := h value hvalue
  refine ⟨fun hmem => hremovable.1 (hhidden.subset hmem),
    fun hmem => hremovable.2.1 (hhidden.subset hmem), fun hwithin => ?_⟩
  exact hremovable.2.2 anchor ha (hanchor.isInfix.trans hwithin)

/-- What is removed are echoes, and everything else stays in its order. -/
theorem Redaction.masked (h : Redaction value anchor text result)
    (ha : anchorOf value = some anchor) (hvalue : value ∈ sensitive) :
    RedactedEchoes sensitive text result := by
  induction h with
  | done text => exact Masked.refl text
  | round before echo rest result hfirst hecho hanchor h ih =>
    apply Masked.append_left before
    refine .mask echo redactedMark ⟨⟨value, hvalue, anchor, ha, hanchor, ?_⟩, rfl⟩ ih
    rw [← hecho]
    exact shared_prefix_left value _

/-- No anchor is left of a value that was removed. -/
theorem Redaction.absent (h : Redaction value anchor text result)
    (ha : Plain '[' ']' "redacted".toList anchor) : ¬ anchor <:+: result := by
  induction h with
  | done text habsent => exact habsent
  | round before echo rest result hfirst hecho hanchor h ih =>
    intro hinfix
    have hmark : redactedMark = '[' :: ("redacted".toList ++ [']']) := rfl
    rw [hmark] at hinfix
    obtain hbefore | hresult := ha.around hinfix
    · obtain ⟨front, back, hbefore⟩ := hbefore
      have hsuffix : anchor ++ back <:+ before := ⟨front, by rw [← hbefore, List.append_assoc]⟩
      cases anchor with
      | nil => exact ha.outside List.nil_infix
      | cons a as =>
        apply hfirst a (as ++ back) hsuffix
        rw [← List.cons_append, List.append_assoc]
        exact List.prefix_append (a :: as) _
    · exact ih hresult

end One
/-- Removing a value removes its anchor, echoes of it alone, and never panics. -/
theorem redactValue_some {value text : List Char} (hne : value ≠ []) :
    ∃ anchor result, anchorOf value = some anchor ∧ redactValue text value = some result ∧
      Redaction value anchor text result := by
  obtain ⟨anchor, ha⟩ := anchorOf_total value
  obtain ⟨result, hresult, hredaction⟩ := @redactFrom_some value anchor (anchorOf_nonempty ha hne)
    (anchorOf_starts ha) (text.length + 1) [] text (Nat.lt_succ_self _)
  refine ⟨anchor, result, ha, ?_, hredaction⟩
  rw [redactValue, ha]
  exact hresult

/-- Removing values one after another: what one removal clears, no later one brings back. -/
theorem fold_removes {sensitive values : List (List Char)}
    (hremovable : ∀ value ∈ sensitive, Removable value)
    (hvalues : ∀ value ∈ values, value ∈ sensitive ∧ value ≠ []) (text : List Char) :
    ∃ result, values.foldlM redactValue text = some result ∧
      RedactedEchoes sensitive text result ∧
      ∀ value ∈ values, ∀ anchor, anchorOf value = some anchor → ¬ anchor <:+: result := by
  induction values generalizing text with
  | nil => exact ⟨text, rfl, Masked.refl text, fun _ hmem => absurd hmem List.not_mem_nil⟩
  | cons value values ih =>
    obtain ⟨hvalue, hvalues⟩ := List.forall_mem_cons.mp hvalues
    obtain ⟨anchor, removed, ha, hremoved, hredaction⟩ := @redactValue_some value text hvalue.2
    obtain ⟨result, hresult, hmasked, habsent⟩ := ih hvalues removed
    have hplain := (hremovable value hvalue.1).plain_anchor ha
    refine ⟨result, ?_, ?_, ?_⟩
    · rw [List.foldlM_cons, hremoved]
      exact hresult
    · exact Masked.trans (by decide) (fun _ hecho => Removable.plain_echo hremovable hecho)
        (hredaction.masked ha hvalue.1) hmasked
    · intro other hother anchor' ha'
      obtain rfl | hother := List.mem_cons.mp hother
      · rw [ha] at ha'
        cases ha'
        exact fun hinfix => hredaction.absent hplain (hmasked.visible hplain hinfix)
      · exact habsent other hother anchor' ha'

theorem redact_sensitive_removes (text : List Char) (sensitive : List (List Char))
    (hsensitive : ∀ value ∈ sensitive, value ≠ [] → Removable value) :
    ∃ result, redactSensitive text sensitive = some result ∧
      (∀ value ∈ sensitive, value ≠ [] → ∀ anchor, anchorOf value = some anchor →
        ¬ anchor <:+: result) ∧
      RedactedEchoes (sensitive.filter (· ≠ [])) text result := by
  have hnonempty : ∀ value ∈ sensitive.filter (· ≠ []), value ∈ sensitive ∧ value ≠ [] := by
    intro value hvalue
    obtain ⟨hmem, hne⟩ := List.mem_filter.mp hvalue
    exact ⟨hmem, by simpa using hne⟩
  obtain ⟨result, hresult, hmasked, habsent⟩ := @fold_removes (sensitive.filter (· ≠ []))
    (sensitive.filter (· ≠ []))
    (fun value hvalue => hsensitive value (hnonempty value hvalue).1 (hnonempty value hvalue).2)
    (fun value hvalue => ⟨hvalue, (hnonempty value hvalue).2⟩) text
  refine ⟨result, hresult, ?_, hmasked⟩
  intro value hvalue hne
  exact habsent value (List.mem_filter.mpr ⟨hvalue, by simpa using hne⟩)

theorem redact_sensitive_removes_overlapping :
    let text := "wallet 秘密の認証文字 rejected: 秘密の認証 0.001 and 秘密の認".toList
    let sensitive := ["秘密の認証文字".toList, [], "秘密の認証".toList, "0.001".toList]
    (∀ value ∈ sensitive, value ≠ [] → Removable value) ∧
      ∃ result, redactSensitive text sensitive = some result ∧
        (∀ value ∈ sensitive, value ≠ [] → ∀ anchor, anchorOf value = some anchor →
          ¬ anchor <:+: result) ∧
        RedactedEchoes (sensitive.filter (· ≠ [])) text result := by
  intro text sensitive
  have hshort : anchorOf "秘密の認証文字".toList = some "秘密の認".toList :=
    anchorOf_iff.mpr (.inr ⟨'証', "文字".toList, by decide⟩)
  have hlong : anchorOf "秘密の認証".toList = some "秘密の認".toList :=
    anchorOf_iff.mpr (.inr ⟨'証', [], by decide⟩)
  have hamount : anchorOf "0.001".toList = some "0.001".toList :=
    anchorOf_iff.mpr (.inl (by decide))
  have hremovable : ∀ value ∈ sensitive, value ≠ [] → Removable value := by
    intro value hmem hne
    simp only [sensitive, List.mem_cons, List.not_mem_nil, or_false] at hmem
    obtain rfl | rfl | rfl | rfl := hmem
    · exact ⟨by decide, by decide, fun anchor ha => by rw [hshort] at ha; cases ha; decide⟩
    · exact absurd rfl hne
    · exact ⟨by decide, by decide, fun anchor ha => by rw [hlong] at ha; cases ha; decide⟩
    · exact ⟨by decide, by decide, fun anchor ha => by rw [hamount] at ha; cases ha; decide⟩
  exact ⟨hremovable, redact_sensitive_removes text sensitive hremovable⟩

end Nigiri.Core
