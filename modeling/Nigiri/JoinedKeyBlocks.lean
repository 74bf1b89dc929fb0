import Nigiri.PrivateKeyBlocks

/-! The scan for key blocks over a text to which an assignment to a key is added: the addition is
swallowed by a block left open, or left alone. -/
namespace Nigiri.Fixtures
open Utf8 AsciiCase Rewrite

/-- A private key block starts in a text and does not end in it. -/
def EndsInKeyBlock (t : Bytes) : Prop :=
  ∃ u label body, Reaches keyBlockStep () t () u ∧ keyBlockAt u = some (label, body) ∧
    afterBlock label body = none

/-- A text that takes no part in a marker, in front of it or in it. -/
structure Markerless (t : Bytes) : Prop where
  beginMarker : Inert beginMarker t
  dashes : Inert dashes t
  endMarker : ∀ label, Inert (endMarker label) t
  inside : t.IsChain notBothDashes

theorem dashes_isPrefixOf (t : Bytes) : dashes.isPrefixOf t = startsIgnoreAsciiCase dashes t := by
  rw [Bool.eq_iff_iff, List.isPrefixOf_iff_prefix, startsIgnoreAsciiCase_iff]
  constructor
  · rintro ⟨rest, rfl⟩
    exact ⟨dashes, rest, rfl, rfl⟩
  · rintro ⟨found, rest, rfl, hfound⟩
    obtain rfl : found = dashes := eq_of_lowered hfound (by decide)
    exact List.prefix_append _ _

theorem markerless_key {kind : SecretValueKind} (key : SecretKey kind) {secret : Bytes}
    (h : IsSecret kind secret) : Markerless (key.bytes ++ secret) := by
  obtain ⟨b, r, hkey, hb⟩ := key_head key
  have hchain := key_chain key h.noDash
  have hpair : ¬ [45, 45] <:+: key.bytes ++ secret := fun hin =>
    (List.isChain_cons_cons.mp <| List.IsChain.infix hchain hin).1 rfl rfl
  have hhead : (key.bytes ++ secret).head? ≠ some 45 := by
    rw [hkey]
    intro hdash
    rw [Option.some.inj hdash] at hb
    exact hb (by decide)
  refine ⟨?_, ?_, fun label => ?_, hchain⟩
  · rw [hkey]
    exact inert_of_notMem hb _
  · exact @inert_of_double 45 (by decide) (ascii "---") _ hpair hhead
  · have hend : Fixtures.endMarker label =
        (ascii "-----END " ++ (label ++ ascii "---")) ++ [45, 45] := by
      rw [Fixtures.endMarker]
      simp only [List.append_assoc]
      rfl
    rw [hend]
    exact inert_of_double (by decide) hpair hhead

variable {t : Bytes}

theorem Markerless.noDashes (h : Markerless t) {c : UInt8} {r : Bytes} (hr : c :: r <:+ t) :
    Fixtures.dashes.isPrefixOf (c :: r) = false := by
  refine Bool.eq_false_iff.mpr fun hdashes => ?_
  obtain ⟨rest, hrest⟩ := List.isPrefixOf_iff_prefix.mp hdashes
  have hchain := h.inside.suffix hr
  rw [← hrest] at hchain
  exact (List.isChain_cons_cons.mp hchain).1 rfl rfl

theorem Markerless.find (h : Markerless t) (xs : Bytes) :
    Fixtures.find (xs ++ t) Fixtures.dashes = Fixtures.find xs Fixtures.dashes := by
  refine position_append_none xs t (fun c r _ => ?_) fun c r hr => h.noDashes hr
  rw [dashes_isPrefixOf, dashes_isPrefixOf, h.dashes]

theorem Markerless.afterBlock (h : Markerless t) (label body : Bytes) :
    Fixtures.afterBlock label (body ++ t) =
      (Fixtures.afterBlock label body).map fun rest => rest ++ t := by
  have hsame : findAsciiCaseInsensitive (body ++ t) (Fixtures.endMarker label) =
      findAsciiCaseInsensitive body (Fixtures.endMarker label) := by
    refine position_append_none body t (fun c r _ => h.endMarker label (c :: r)) fun c r hr => ?_
    have hend : Fixtures.endMarker label =
        Fixtures.dashes ++ (ascii "END " ++ (label ++ Fixtures.dashes)) := by
      rw [Fixtures.endMarker, List.append_assoc]
      rfl
    rw [hend]
    exact startsIgnoreAsciiCase_front ((dashes_isPrefixOf _).symm.trans (h.noDashes hr))
  rw [Fixtures.afterBlock, Fixtures.afterBlock, hsame]
  cases hposition : findAsciiCaseInsensitive body (Fixtures.endMarker label) with
  | none => rfl
  | some n =>
    rw [Option.map_some, Option.map_some, Option.map_some,
      List.drop_append_of_le_length (position_length hposition)]

theorem Markerless.keyBlockAt (h : Markerless t) (xs : Bytes) :
    Fixtures.keyBlockAt (xs ++ t) =
      (Fixtures.keyBlockAt xs).map fun block => (block.1, block.2 ++ t) := by
  cases hbegin : startsIgnoreAsciiCase Fixtures.beginMarker xs with
  | false =>
    rw [keyBlockAt_eq_none hbegin, keyBlockAt_eq_none ((h.beginMarker xs).trans hbegin)]
    rfl
  | true =>
    obtain ⟨found, rest, rfl, hfound⟩ := startsIgnoreAsciiCase_iff.mp hbegin
    rw [List.append_assoc, keyBlockAt_begin hfound, keyBlockAt_begin hfound, h.find]
    cases hfind : Fixtures.find rest Fixtures.dashes with
    | none => rfl
    | some n =>
      obtain ⟨label, body, rfl, rfl, -⟩ := find_dashes hfind
      rw [Option.bind_some, Option.bind_some, List.append_assoc, List.append_assoc,
        List.take_left, List.take_left, List.drop_left, List.drop_left, List.drop_left,
        List.drop_left]
      split <;> rfl

theorem keyBlockStep_none {c : UInt8} {r : Bytes} (h : keyBlockAt (c :: r) = none) :
    keyBlockStep () c r = ⟨[c], 0, ()⟩ := by
  rw [keyBlockStep, h]

theorem keyBlockStep_drop {c : UInt8} {r label body : Bytes}
    (h : keyBlockAt (c :: r) = some (label, body)) :
    r.drop (keyBlockStep () c r).extra = (afterBlock label body).getD [] := by
  rw [keyBlockStep, h]
  exact drop_afterBlock h

theorem EndsInKeyBlock.later {c : UInt8} {r : Bytes}
    (h : EndsInKeyBlock (r.drop (keyBlockStep () c r).extra)) : EndsInKeyBlock (c :: r) := by
  obtain ⟨u, label, body, hreach, hblock, hopen⟩ := h
  exact ⟨u, label, body, .later hreach, hblock, hopen⟩

/-- Behind complete blocks the addition stays as it is. -/
theorem scanKeyBlocks_append (h : Markerless t) {front : Bytes} (hfront : ¬ EndsInKeyBlock front) :
    scanKeyBlocks (front ++ t) = scanKeyBlocks front ++ t := by
  induction (), front using places_induction keyBlockStep with
  | nil =>
    have hnone (c : UInt8) (r : Bytes) (hr : c :: r <:+ t) :
        Fixtures.keyBlockAt (c :: r ++ []) = none := by
      refine keyBlockAt_eq_none (Bool.eq_false_iff.mpr fun hbegin => ?_)
      rw [List.append_nil] at hbegin
      exact Bool.false_ne_true ((h.noDashes hr).symm.trans (starts_dashes hbegin))
    simpa [scanKeyBlocks] using scanKeyBlocks_skip t [] hnone
  | cons _ c r ih =>
    have hrest := ih fun hopen => hfront hopen.later
    have hadded := h.keyBlockAt (c :: r)
    cases hblock : Fixtures.keyBlockAt (c :: r) with
    | none =>
      rw [hblock] at hadded
      rw [keyBlockStep_none hblock, List.drop_zero] at hrest
      have hcopy : scanKeyBlocks (c :: r ++ t) = c :: scanKeyBlocks (r ++ t) :=
        scanKeyBlocks_copy hadded
      rw [hcopy, scanKeyBlocks_copy hblock, hrest]
      rfl
    | some block =>
      obtain ⟨label, body⟩ := block
      rw [hblock] at hadded
      rw [keyBlockStep_drop hblock] at hrest
      have hafter := h.afterBlock label body
      cases hend : Fixtures.afterBlock label body with
      | none => exact absurd ⟨c :: r, label, body, .here _ _, hblock, hend⟩ hfront
      | some rest =>
        rw [hend] at hafter hrest
        have hlen : (c :: r ++ t).length - (rest ++ t).length = (c :: r).length - rest.length := by
          rw [List.length_append, List.length_append]
          omega
        rw [scanKeyBlocks_block hadded, scanKeyBlocks_block hblock, hafter, hend]
        simp only [Option.map_some, Option.getD_some] at hrest ⊢
        rw [hlen, hrest, List.append_assoc]

/-- In an open block nothing of the addition is left but its length. -/
theorem scanKeyBlocks_open {t₁ t₂ front label body : Bytes} (h₁ : Markerless t₁)
    (h₂ : Markerless t₂) (hlength : t₁.length = t₂.length)
    (hblock : keyBlockAt front = some (label, body)) (hopen : afterBlock label body = none) :
    scanKeyBlocks (front ++ t₁) = scanKeyBlocks (front ++ t₂) := by
  have hadded₁ := h₁.keyBlockAt front
  have hadded₂ := h₂.keyBlockAt front
  rw [hblock] at hadded₁ hadded₂
  rw [scanKeyBlocks_block hadded₁, scanKeyBlocks_block hadded₂, h₁.afterBlock, h₂.afterBlock,
    hopen, List.length_append, List.length_append, hlength]
  rfl

theorem scanKeyBlocks_reaches {t₁ t₂ label body : Bytes} (h₁ : Markerless t₁)
    (h₂ : Markerless t₂) (hlength : t₁.length = t₂.length) {s s' : Unit} {front u : Bytes}
    (hreach : Reaches keyBlockStep s front s' u) (hblock : keyBlockAt u = some (label, body))
    (hopen : afterBlock label body = none) :
    scanKeyBlocks (front ++ t₁) = scanKeyBlocks (front ++ t₂) := by
  induction hreach with
  | here => exact scanKeyBlocks_open h₁ h₂ hlength hblock hopen
  | @later s c r s' u _ ih =>
    have hrest := ih hblock
    have hadded₁ := h₁.keyBlockAt (c :: r)
    have hadded₂ := h₂.keyBlockAt (c :: r)
    cases hhere : keyBlockAt (c :: r) with
    | none =>
      rw [hhere] at hadded₁ hadded₂
      rw [keyBlockStep_none hhere, List.drop_zero] at hrest
      have hcopy₁ : scanKeyBlocks (c :: r ++ t₁) = c :: scanKeyBlocks (r ++ t₁) :=
        scanKeyBlocks_copy hadded₁
      have hcopy₂ : scanKeyBlocks (c :: r ++ t₂) = c :: scanKeyBlocks (r ++ t₂) :=
        scanKeyBlocks_copy hadded₂
      rw [hcopy₁, hcopy₂, hrest]
    | some block =>
      obtain ⟨label', body'⟩ := block
      cases hend : afterBlock label' body' with
      | none => exact scanKeyBlocks_open h₁ h₂ hlength hhere hend
      | some rest =>
        rw [keyBlockStep_drop hhere, hend, Option.getD_some] at hrest
        rw [hhere] at hadded₁ hadded₂
        have hafter₁ := h₁.afterBlock label' body'
        have hafter₂ := h₂.afterBlock label' body'
        rw [hend] at hafter₁ hafter₂
        rw [scanKeyBlocks_block hadded₁, scanKeyBlocks_block hadded₂, hafter₁, hafter₂]
        simp only [Option.map_some, Option.getD_some, List.length_append, hlength, hrest]

end Nigiri.Fixtures
