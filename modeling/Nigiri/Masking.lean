import Nigiri.Rewrite

/-! Texts of which stretches are covered by masks. Each mask begins with a mark, so that a word
without the mark that can be read in the covered text was there before. -/
namespace Nigiri.Masking
open Rewrite
variable {α σ : Type*}

/-- What is left of a text when stretches of it are covered: `hides hidden rest mask` allows a
stretch, with this text behind it, to be covered by this mask. -/
inductive Masked (hides : List α → List α → List α → Prop) : List α → List α → Prop where
  | nil : Masked hides [] []
  | copy (b : α) {x y : List α} (h : Masked hides x y) : Masked hides (b :: x) (b :: y)
  | mask (hidden mask : List α) {x y : List α} (hhides : hides hidden x mask)
    (h : Masked hides x y) : Masked hides (hidden ++ x) (mask ++ y)

/-- The same without regard to what stands behind. -/
def Loosely (hides : List α → List α → List α → Prop) (hidden _ mask : List α) : Prop :=
  ∃ rest, hides hidden rest mask

/-- Every mask begins with the mark, which the word does not have, and no mask has the first letter
of the word. -/
structure Legible (hides : List α → List α → List α → Prop) (mark a : α) (w : List α) : Prop where
  unmarked : mark ∉ a :: w
  covering : ∀ {hidden rest mask}, hides hidden rest mask → hidden ≠ []
  marked : ∀ {hidden rest mask}, hides hidden rest mask → ∃ m, mask = mark :: m
  outside : ∀ {hidden rest mask}, hides hidden rest mask → a ∉ mask

variable {hides : List α → List α → List α → Prop} {mark a : α} {w x y : List α}

theorem Masked.refl (x : List α) : Masked hides x x := by
  induction x with
  | nil => exact .nil
  | cons b x ih => exact .copy b ih

theorem Masked.append_left (xs : List α) (h : Masked hides x y) :
    Masked hides (xs ++ x) (xs ++ y) := by
  induction xs with
  | nil => exact h
  | cons b xs ih => exact .copy b ih

/-- An unmarked beginning is uncovered. -/
theorem Masked.beginning
    (hmarked : ∀ {hidden rest mask}, hides hidden rest mask → ∃ m, mask = mark :: m)
    {u z : List α} (hu : mark ∉ u) (h : Masked hides x (u ++ z)) :
    ∃ x', x = u ++ x' ∧ Masked hides x' z := by
  induction u generalizing x with
  | nil => exact ⟨x, rfl, h⟩
  | cons b u ih =>
    obtain ⟨hb, hu⟩ := not_or.mp (mt List.mem_cons.mpr hu)
    generalize hy : b :: u ++ z = y at h
    cases h with
    | nil => cases hy
    | copy b' h =>
      obtain ⟨rfl, rfl⟩ := List.cons.inj hy
      obtain ⟨x', rfl, hx'⟩ := ih hu h
      exact ⟨x', rfl, hx'⟩
    | mask hidden mask hhides h =>
      obtain ⟨m, rfl⟩ := hmarked hhides
      exact absurd (List.cons.inj hy).1.symm hb

/-- A legible word in a covered text is a word of the text itself. -/
theorem Masked.word (hw : Legible hides mark a w) {before after : List α}
    (h : Masked hides x (before ++ (a :: w ++ after))) :
    ∃ front back, x = front ++ (a :: w ++ back) := by
  generalize hy : before ++ (a :: w ++ after) = y at h
  induction h generalizing before with
  | nil => simp at hy
  | @copy b x' y' h ih =>
    cases before with
    | nil =>
      have hprefix : Masked hides (b :: x') (a :: w ++ after) := by
        rw [List.nil_append] at hy
        exact hy ▸ .copy b h
      obtain ⟨back, hback, -⟩ := hprefix.beginning hw.marked hw.unmarked
      exact ⟨[], back, hback⟩
    | cons c before =>
      obtain ⟨front, back, rfl⟩ := ih (List.cons.inj hy).2
      exact ⟨b :: front, back, rfl⟩
  | @mask hidden mask x' y' hhides h ih =>
    rcases List.append_eq_append_iff.mp hy with ⟨as, hmask, hword⟩ | ⟨as, -, hy'⟩
    · cases as with
      | nil =>
        obtain ⟨front, back, rfl⟩ := @ih [] hword
        exact ⟨hidden ++ front, back, by rw [List.append_assoc]⟩
      | cons c as =>
        -- the word would begin in the mask
        obtain ⟨rfl, -⟩ := List.cons.inj hword
        exact absurd (hmask ▸ List.mem_append_right _ List.mem_cons_self) (hw.outside hhides)
    · obtain ⟨front, back, rfl⟩ := ih hy'.symm
      exact ⟨hidden ++ front, back, by rw [List.append_assoc]⟩

/-- What is read from an uncovered element on was there to be read. -/
theorem Masked.suffix {b : α} {r : List α} (h : Masked hides x y) (hr : b :: r <:+ y)
    (houtside : ∀ {hidden rest mask}, hides hidden rest mask → b ∉ mask) :
    ∃ x', x' <:+ x ∧ Masked hides x' (b :: r) := by
  induction h with
  | nil => exact absurd hr (by simp)
  | @copy c x y h ih =>
    rcases List.suffix_cons_iff.mp hr with heq | hr
    · exact ⟨c :: x, List.suffix_rfl, heq ▸ .copy c h⟩
    · obtain ⟨x', hx', hmasked⟩ := ih hr
      exact ⟨x', hx'.trans (List.suffix_cons ..), hmasked⟩
  | @mask hidden mask x y hhides h ih =>
    rcases suffix_append hr with hr | ⟨c, zs, hc, heq⟩
    · obtain ⟨x', hx', hmasked⟩ := ih hr
      exact ⟨x', hx'.trans (List.suffix_append ..), hmasked⟩
    · obtain ⟨rfl, -⟩ := List.cons.inj heq
      exact absurd (hc.subset List.mem_cons_self) (houtside hhides)

/-- A word that no covered stretch reaches into stays where it is. -/
theorem Masked.uncovered {u z : List α} (h : Masked hides (u ++ z) y)
    (huncovered : ∀ {hidden rest mask}, hides hidden rest mask → hidden ++ rest <:+ u ++ z →
      (hidden ++ rest).length ≤ z.length) : ∃ z', y = u ++ z' ∧ Masked hides z z' := by
  induction u generalizing y with
  | nil => exact ⟨y, rfl, h⟩
  | cons b u ih =>
    generalize hx : b :: u ++ z = x at h huncovered
    cases h with
    | nil => cases hx
    | copy b' h =>
      obtain ⟨rfl, rfl⟩ := List.cons.inj hx
      obtain ⟨z', rfl, hz'⟩ := ih h fun hhides hsuffix =>
        huncovered hhides (hsuffix.trans (List.suffix_cons ..))
      exact ⟨z', rfl, hz'⟩
    | mask hidden mask hhides h =>
      have hlength := huncovered hhides List.suffix_rfl
      rw [← hx, List.length_append, List.length_cons] at hlength
      omega

/-- When no covered stretch reaches into the first place of a word, it is still the first place. -/
theorem Masked.first (hw : Legible hides mark a w) {before after : List α}
    (h : Masked hides (before ++ (a :: w ++ after)) y)
    (hfirst : ∀ c r, c :: r <:+ before → ¬ a :: w <+: c :: r ++ (a :: w ++ after))
    (huncovered : ∀ {hidden rest mask}, hides hidden rest mask →
      hidden ++ rest <:+ before ++ (a :: w ++ after) → after.length < (hidden ++ rest).length →
        (a :: w ++ after).length ≤ rest.length) :
    ∃ before' after', y = before' ++ (a :: w ++ after') ∧
      Masked (Loosely hides) before before' ∧
      ∀ c r, c :: r <:+ before' → ¬ a :: w <+: c :: r ++ (a :: w ++ after') := by
  generalize hx : before ++ (a :: w ++ after) = x at h huncovered
  induction h generalizing before with
  | nil => simp at hx
  | @copy b x' y' h ih =>
    cases before with
    | nil =>
      have hcopied : Masked hides (a :: w ++ after) (b :: y') := by
        rw [List.nil_append] at hx
        exact hx ▸ .copy b h
      obtain ⟨after', hafter', -⟩ := hcopied.uncovered fun hhides hsuffix => by
        by_contra hlong
        have hrest := huncovered hhides (hx ▸ hsuffix) (Nat.lt_of_not_le hlong)
        have hhidden := List.length_pos_iff.mpr (hw.covering hhides)
        have hlength := hsuffix.length_le
        rw [List.length_append] at hlength
        omega
      exact ⟨[], after', hafter', .nil, fun c r hr => absurd hr (by simp)⟩
    | cons c before =>
      obtain ⟨rfl, hx'⟩ := List.cons.inj hx
      obtain ⟨before', after', rfl, hbefore', hfirst'⟩ := ih
        (fun c' r hr => hfirst c' r (hr.trans (List.suffix_cons ..))) hx'
        fun hhides hsuffix => huncovered hhides (hsuffix.trans (List.suffix_cons ..))
      refine ⟨c :: before', after', rfl, .copy c hbefore', fun c' r hr hstart => ?_⟩
      rcases List.suffix_cons_iff.mp hr with heq | hr
      · obtain ⟨z, hz⟩ := hstart
        have hcopied : Masked hides (c :: x') (a :: w ++ z) := by
          rw [hz, heq]
          exact .copy c h
        obtain ⟨x'', hx'', -⟩ := hcopied.beginning hw.marked hw.unmarked
        exact hfirst c before List.suffix_rfl ⟨x'', by rw [← hx'', ← hx']; rfl⟩
      · exact hfirst' c' r hr hstart
  | @mask hidden mask x' y' hhides h ih =>
    have hlong : (a :: w ++ after).length ≤ x'.length := by
      refine huncovered hhides List.suffix_rfl ?_
      rw [← hx, List.length_append, List.length_append, List.length_cons]
      omega
    obtain ⟨before₁, rfl, hx'⟩ : ∃ before₁, before = hidden ++ before₁ ∧
        before₁ ++ (a :: w ++ after) = x' := by
      rcases List.append_eq_append_iff.mp hx with ⟨as, hhidden, hafter⟩ | ⟨as, hbefore, hx'⟩
      · have hnil : as = [] := by
          rw [hafter, List.length_append] at hlong
          exact List.length_eq_zero_iff.mp (by omega)
        rw [hnil, List.append_nil] at hhidden
        rw [hnil, List.nil_append] at hafter
        exact ⟨[], by rw [hhidden, List.append_nil], hafter⟩
      · exact ⟨as, hbefore, hx'.symm⟩
    obtain ⟨before', after', rfl, hbefore', hfirst'⟩ := ih
      (fun c r hr => hfirst c r (hr.trans (List.suffix_append ..))) hx'
      fun hhides hsuffix => huncovered hhides (hsuffix.trans (List.suffix_append ..))
    refine ⟨mask ++ before', after', by rw [List.append_assoc],
      .mask hidden mask ⟨x', hhides⟩ hbefore', fun c r hr hstart => ?_⟩
    rcases suffix_append hr with hr | ⟨c', r', hr', heq⟩
    · exact hfirst' c r hr hstart
    · rw [heq] at hstart
      obtain rfl := (List.cons_prefix_cons.mp hstart).1
      exact hw.outside hhides (hr'.subset List.mem_cons_self)

/-- A rewriting whose pieces copy something and then cover the rest, if anything, is a covering. -/
theorem masked_rewrite {step : Step α σ} {I : σ → List α → Prop}
    (hpiece : ∀ s c r, I s (c :: r) → ∃ shown hidden mask rest,
      c :: r = shown ++ (hidden ++ rest) ∧ (step s c r).emitted = shown ++ mask ∧
      r.drop (step s c r).extra = rest ∧ I (step s c r).next rest ∧
      (hidden = mask ∨ hides hidden rest mask))
    {s : σ} {t : List α} (hI : I s t) : Masked hides t (rewrite step s t) := by
  induction s, t using places_induction step with
  | nil => exact .nil
  | cons s c r ih =>
    obtain ⟨shown, hidden, mask, rest, hsplit, hemitted, hdrop, hnext, hcover⟩ := hpiece s c r hI
    rw [hdrop] at ih
    rw [rewrite_cons, hemitted, hdrop, hsplit, List.append_assoc]
    refine Masked.append_left shown ?_
    rcases hcover with rfl | hhides
    · exact Masked.append_left hidden (ih hnext)
    · exact .mask hidden mask hhides (ih hnext)

section Replace
variable [DecidableEq α] {pattern replacement t : List α}

/-- The pattern is covered by its replacement. -/
def Replaces (pattern replacement : List α) (hidden _ mask : List α) : Prop :=
  hidden = pattern ∧ mask = replacement

theorem masked_replaceAll (hne : pattern ≠ []) (t : List α) :
    Masked (Replaces pattern replacement) t (replaceAll pattern replacement t) := by
  induction h : t.length using Nat.strong_induction_on generalizing t with
  | _ n ih =>
    cases t with
    | nil => exact .nil
    | cons c r =>
      by_cases hp : pattern <+: c :: r
      · obtain ⟨rest, hrest⟩ := hp
        have hshorter : rest.length < n := by
          have hpos := List.length_pos_iff.mpr hne
          rw [← h, ← hrest, List.length_append]
          omega
        rw [← hrest, replaceAll_found replacement hne]
        exact .mask pattern replacement ⟨rfl, rfl⟩ (ih _ hshorter rest rfl)
      · rw [replaceAll_cons replacement hp]
        exact .copy c (ih _ (by rw [← h]; exact Nat.lt_succ_self _) r rfl)

/-- A pattern that cannot be spelled with its replacement is gone. -/
theorem absent_replaceAll {mark a : α} {w m : List α} (hmark : mark ∉ a :: w)
    (ha : a ∉ mark :: m) (t : List α) : ¬ a :: w <:+: replaceAll (a :: w) (mark :: m) t := by
  have hmarked {hidden rest mask : List α} (h : Replaces (a :: w) (mark :: m) hidden rest mask) :
      ∃ m, mask = mark :: m := ⟨m, h.2⟩
  induction h : t.length using Nat.strong_induction_on generalizing t with
  | _ n ih =>
    rintro ⟨before, after, hword⟩
    cases t with
    | nil =>
      have hempty := congrArg List.length hword
      rw [List.length_append, List.length_append, List.length_cons] at hempty
      rw [replaceAll, rewrite_nil] at hempty
      exact absurd hempty (by simp)
    | cons c r =>
      by_cases hp : a :: w <+: c :: r
      · obtain ⟨rest, hrest⟩ := hp
        have hshorter : rest.length < n := by
          rw [← h, ← hrest, List.length_append, List.length_cons]
          omega
        rw [← hrest, replaceAll_found _ (List.cons_ne_nil a w), List.append_assoc] at hword
        rcases List.append_eq_append_iff.mp hword with ⟨as, hm, hlater⟩ | ⟨as, -, hlater⟩
        · cases as with
          | nil => exact ih _ hshorter rest rfl ⟨[], after, hlater⟩
          | cons b as =>
            obtain ⟨rfl, -⟩ := List.cons.inj hlater
            exact ha (hm ▸ List.mem_append_right _ List.mem_cons_self)
        · exact ih _ hshorter rest rfl ⟨as, after, by rw [hlater, List.append_assoc]⟩
      · have hshorter : r.length < n := by
          rw [← h]
          exact Nat.lt_succ_self _
        have hmasked := @masked_replaceAll α _ (a :: w) (mark :: m) (List.cons_ne_nil a w) (c :: r)
        rw [replaceAll_cons _ hp] at hword hmasked
        cases before with
        | nil =>
          rw [List.nil_append] at hword
          rw [← hword] at hmasked
          obtain ⟨r', hr', -⟩ := hmasked.beginning hmarked hmark
          exact hp ⟨r', hr'.symm⟩
        | cons b before =>
          exact ih _ hshorter r rfl ⟨before, after, (List.cons.inj hword).2⟩

end Replace

section Covers
variable {covered : List α → Prop} {opening closing : α} {inner w x y z : List α}

/-- Stretches of one kind, each covered by the same mask. -/
def Covers (covered : List α → Prop) (m : List α) (hidden _ mask : List α) : Prop :=
  covered hidden ∧ mask = m

/-- A word without a letter stands before it or behind it. -/
theorem infix_around {m : α} (h : w <:+: x ++ m :: y) (hm : m ∉ w) : w <:+: x ∨ w <:+: y := by
  obtain ⟨front, back, h⟩ := h
  rw [List.append_assoc] at h
  obtain ⟨as, hx, hback⟩ | ⟨as, hfront, hy⟩ := List.append_eq_append_iff.mp h
  · obtain ⟨bs, has, _⟩ | ⟨bs, hw, hbs⟩ := List.append_eq_append_iff.mp hback
    · exact .inl ⟨front, bs, by rw [hx, has, List.append_assoc]⟩
    · cases bs with
      | nil =>
        rw [List.append_nil] at hw
        exact .inl ⟨front, [], by rw [hx, hw, List.append_nil]⟩
      | cons b bs =>
        obtain ⟨rfl, _⟩ := List.cons.inj hbs
        exact absurd (hw ▸ List.mem_append_right as List.mem_cons_self) hm
  · cases as with
    | nil =>
      cases w with
      | nil => exact .inl List.nil_infix
      | cons a w =>
        obtain ⟨rfl, _⟩ := List.cons.inj hy
        exact absurd List.mem_cons_self hm
    | cons a as =>
      obtain ⟨_, rfl⟩ := List.cons.inj hy
      exact .inr ⟨as, back, List.append_assoc as w back⟩

/-- A word that a mask cannot hide or help to spell: it has neither end of the mask and is not
within it. -/
structure Plain (opening closing : α) (inner w : List α) : Prop where
  no_opening : opening ∉ w
  no_closing : closing ∉ w
  outside : ¬ w <:+: inner

theorem Plain.around {rest : List α} (hw : Plain opening closing inner w)
    (h : w <:+: x ++ (opening :: (inner ++ [closing]) ++ rest)) : w <:+: x ∨ w <:+: rest := by
  obtain hx | hmask := infix_around h hw.no_opening
  · exact .inl hx
  · have hmask : w <:+: inner ++ closing :: rest := by simpa using hmask
    obtain hinner | hrest := infix_around hmask hw.no_closing
    · exact absurd hinner hw.outside
    · exact .inr hrest

/-- What can be read between masks was there before. -/
theorem Masked.visible (hw : Plain opening closing inner w)
    (h : Masked (Covers covered (opening :: (inner ++ [closing]))) x y) (hy : w <:+: y) :
    w <:+: x := by
  induction h with
  | nil => exact hy
  | @copy b x y h ih =>
    obtain hstart | hy := List.infix_cons_iff.mp hy
    · obtain ⟨rest, hrest⟩ := hstart
      have hall : Masked (Covers covered (opening :: (inner ++ [closing]))) (b :: x) (w ++ rest) :=
        hrest ▸ .copy b h
      obtain ⟨x', hx', _⟩ := hall.beginning (fun hhides => ⟨_, hhides.2⟩) hw.no_opening
      exact ⟨[], x', hx'.symm⟩
    · exact (ih hy).trans ⟨[b], [], List.append_nil _⟩
  | @mask hidden mask x y hhides h ih =>
    rw [hhides.2] at hy
    obtain hempty | hy := @Plain.around _ _ _ _ _ [] _ hw hy
    · exact (List.infix_nil.mp hempty) ▸ List.nil_infix
    · exact (ih hy).trans (List.suffix_append hidden x).isInfix

/-- A stretch to be covered does not begin within a mask. -/
theorem Plain.beyond {rest : List α} (hw : Plain opening closing inner w)
    (h : w ++ rest <:+ inner ++ closing :: y) : (w ++ rest).length ≤ y.length := by
  have hstart {u t : List α} (hu : u <:+ inner)
      (hread : w ++ rest = u ++ closing :: t) : False := by
    obtain ⟨bs, hbs, _⟩ | ⟨bs, hwbs, hbs⟩ := List.append_eq_append_iff.mp hread
    · exact hw.outside ((List.IsPrefix.isInfix ⟨bs, hbs.symm⟩).trans hu.isInfix)
    · cases bs with
      | nil =>
        rw [List.append_nil] at hwbs
        exact hw.outside (hwbs ▸ hu.isInfix)
      | cons b bs =>
        obtain ⟨rfl, _⟩ := List.cons.inj hbs
        exact hw.no_closing (hwbs ▸ List.mem_append_right u List.mem_cons_self)
  obtain ⟨front, h⟩ := h
  obtain ⟨as, hinner, hread⟩ | ⟨as, _, hy⟩ := List.append_eq_append_iff.mp h
  · exact (hstart ⟨front, hinner.symm⟩ hread).elim
  · cases as with
    | nil => exact (@hstart [] y (List.nil_suffix) hy.symm).elim
    | cons a as =>
      obtain ⟨_, rfl⟩ := List.cons.inj hy
      exact (List.suffix_append as (w ++ rest)).length_le

/-- Covering a covered text covers the text: no stretch reaches into a mask. -/
theorem Masked.trans (hmask : opening ∉ inner ++ [closing])
    (hcovered : ∀ hidden, covered hidden → Plain opening closing inner hidden)
    (hxy : Masked (Covers covered (opening :: (inner ++ [closing]))) x y)
    (hyz : Masked (Covers covered (opening :: (inner ++ [closing]))) y z) :
    Masked (Covers covered (opening :: (inner ++ [closing]))) x z := by
  have hmarked {hidden rest mask : List α}
      (h : Covers covered (opening :: (inner ++ [closing])) hidden rest mask) :
      ∃ m, mask = opening :: m := ⟨_, h.2⟩
  induction hyz generalizing x with
  | nil => exact hxy
  | @copy b y z hyz ih =>
    generalize hby : b :: y = by' at hxy
    cases hxy with
    | nil => cases hby
    | copy b' h =>
      obtain ⟨rfl, rfl⟩ := List.cons.inj hby
      exact .copy b (ih h)
    | @mask hidden mask x y' hhides h =>
      rw [hhides.2] at hby
      obtain ⟨hb, hy⟩ := List.cons.inj hby
      have hy : y = inner ++ [closing] ++ y' := hy
      subst hy
      have hbeyond {w rest mask : List α} (hstretch : Covers covered
          (opening :: (inner ++ [closing])) w rest mask)
          (hsuffix : w ++ rest <:+ inner ++ [closing] ++ y') :
          (w ++ rest).length ≤ y'.length := by
        rw [List.append_assoc] at hsuffix
        exact (hcovered w hstretch.1).beyond hsuffix
      obtain ⟨z', rfl, _⟩ := hyz.uncovered hbeyond
      obtain ⟨x'', hx'', hxz⟩ := (ih (h.append_left (inner ++ [closing]))).beginning hmarked hmask
      rw [List.append_cancel_left hx'', hb]
      exact .mask hidden (opening :: (inner ++ [closing])) ⟨hhides.1, rfl⟩ hxz
  | @mask hidden mask y z hhides hyz ih =>
    obtain ⟨x', rfl, hx'⟩ := hxy.beginning hmarked (hcovered hidden hhides.1).no_opening
    exact .mask hidden mask hhides (ih hx')
end Covers

end Nigiri.Masking
