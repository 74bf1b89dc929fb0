import Mathlib.Algebra.Group.Nat.Defs
import Mathlib.Data.List.Basic
import Mathlib.Data.List.Infix
import Mathlib.Tactic.Common

/-! Texts rewritten from left to right: at each place a step emits something for what it
consumes and goes on behind it. Searching and replacing are the simplest cases. -/
namespace Nigiri.Rewrite
variable {α σ : Type*}

/-- What a step does at a place: it consumes one element and `extra` more. -/
structure Piece (α σ : Type*) where
  emitted : List α
  extra : Nat
  next : σ

abbrev Step (α σ : Type*) := σ → α → List α → Piece α σ

def rewriteAfter (step : Step α σ) : σ → Nat → List α → List α
  | _, _, [] => []
  | s, n + 1, _ :: r => rewriteAfter step s n r
  | s, 0, c :: r =>
    let p := step s c r
    p.emitted ++ rewriteAfter step p.next p.extra r

def rewrite (step : Step α σ) (s : σ) (t : List α) : List α := rewriteAfter step s 0 t

/-- The places a rewriting stops at, with the state it has there. -/
inductive Reaches (step : Step α σ) : σ → List α → σ → List α → Prop where
  | here (s : σ) (t : List α) : Reaches step s t s t
  | later {s : σ} {c : α} {r : List α} {s' : σ} {t' : List α}
    (h : Reaches step (step s c r).next (r.drop (step s c r).extra) s' t') :
    Reaches step s (c :: r) s' t'

/-- The state is a fold over everything consumed, whatever is emitted for it. -/
def Tracks (step : Step α σ) (f : σ → α → σ) : Prop :=
  ∀ s c r, (step s c r).next = (c :: r.take (step s c r).extra).foldl f s

variable {step : Step α σ} {f : σ → α → σ}

theorem rewriteAfter_eq (s : σ) (n : Nat) (t : List α) :
    rewriteAfter step s n t = rewrite step s (t.drop n) := by
  induction t generalizing n with
  | nil => simp [rewrite, rewriteAfter]
  | cons c r ih =>
    cases n with
    | zero => rfl
    | succ n => simpa [rewriteAfter] using ih n

@[simp] theorem rewrite_nil (s : σ) : rewrite step s [] = [] := rfl

theorem rewrite_cons (s : σ) (c : α) (r : List α) :
    rewrite step s (c :: r) =
      (step s c r).emitted ++ rewrite step (step s c r).next (r.drop (step s c r).extra) := by
  rw [← rewriteAfter_eq]
  rfl

/-- What holds at the end, and before a piece when it holds behind it, holds of every text. -/
theorem places_induction (step : Step α σ) {motive : σ → List α → Prop}
    (nil : ∀ s, motive s [])
    (cons : ∀ s c r,
      motive (step s c r).next (r.drop (step s c r).extra) → motive s (c :: r)) :
    ∀ s t, motive s t := by
  intro s t
  induction h : t.length using Nat.strong_induction_on generalizing s t with
  | _ n ih =>
    cases t with
    | nil => exact nil s
    | cons c r =>
      refine cons s c r (ih _ ?_ _ _ rfl)
      rw [← h, List.length_drop, List.length_cons]
      omega

theorem Reaches.trans {s s' s'' : σ} {t t' t'' : List α} (h : Reaches step s t s' t')
    (h' : Reaches step s' t' s'' t'') : Reaches step s t s'' t'' := by
  induction h with
  | here => exact h'
  | later _ ih => exact .later (ih h')

theorem Reaches.suffix {s s' : σ} {t t' : List α} (h : Reaches step s t s' t') : t' <:+ t := by
  induction h with
  | here => exact List.suffix_rfl
  | later _ ih => exact (ih.trans (List.drop_suffix _ _)).trans (List.suffix_cons _ _)

theorem suffix_append {c : α} {r xs ys : List α} (h : c :: r <:+ xs ++ ys) :
    c :: r <:+ ys ∨ ∃ x zs, x :: zs <:+ xs ∧ c :: r = x :: zs ++ ys := by
  obtain ⟨front, hfront⟩ := h
  rcases List.append_eq_append_iff.mp hfront with ⟨as, hxs, hr⟩ | ⟨as, -, hys⟩
  · cases as with
    | nil => exact .inl ⟨[], hr⟩
    | cons a as => exact .inr ⟨a, as, ⟨front, hxs.symm⟩, hr⟩
  · exact .inl ⟨as, hys.symm⟩

/-- A piece given by the part of the text it consumes. -/
theorem consumed {c : α} {r xs t : List α} (h : c :: r = xs ++ t) (hne : xs ≠ []) :
    c :: r.take (xs.length - 1) = xs ∧ r.drop (xs.length - 1) = t := by
  obtain ⟨x, xs, rfl⟩ := List.exists_cons_of_ne_nil hne
  obtain ⟨rfl, rfl⟩ := List.cons.inj h
  simp

/-- A text copied element by element, up to where something else follows. -/
theorem rewrite_copy (hf : Tracks step f) (xs : List α) (t : List α) (s : σ)
    (h : ∀ s c r, c :: r <:+ xs → (step s c (r ++ t)).emitted = [c] ∧
      (step s c (r ++ t)).extra = 0) :
    rewrite step s (xs ++ t) = xs ++ rewrite step (xs.foldl f s) t := by
  induction xs generalizing s with
  | nil => rfl
  | cons c r ih =>
    obtain ⟨he, hx⟩ := h s c r List.suffix_rfl
    have hnext : (step s c (r ++ t)).next = f s c := by
      rw [hf, hx]
      rfl
    rw [List.cons_append, rewrite_cons, he, hx, hnext, List.drop_zero,
      ih (f s c) fun s' c' r' hr => h s' c' r' (hr.trans (List.suffix_cons c r))]
    rfl

/-- When no step in a text looks behind its end, the text is rewritten by itself. -/
theorem rewrite_append (hf : Tracks step f) (xs t : List α) (s : σ)
    (h : ∀ s c r, c :: r <:+ xs → step s c (r ++ t) = step s c r ∧
      (step s c r).extra ≤ r.length) :
    rewrite step s (xs ++ t) = rewrite step s xs ++ rewrite step (xs.foldl f s) t := by
  have key : ∀ s t', t' <:+ xs →
      rewrite step s (t' ++ t) = rewrite step s t' ++ rewrite step (t'.foldl f s) t := by
    intro s t' hsuffix
    induction s, t' using places_induction step with
    | nil => rfl
    | cons s c r ih =>
      obtain ⟨hstep, hextra⟩ := h s c r hsuffix
      have hdrop : r.drop (step s c r).extra <:+ xs :=
        (List.drop_suffix _ _).trans ((List.suffix_cons c r).trans hsuffix)
      have hfold : (c :: r).foldl f s =
          (r.drop (step s c r).extra).foldl f (step s c r).next := by
        rw [hf, ← List.foldl_append, List.cons_append, List.take_append_drop]
      rw [List.cons_append, rewrite_cons, hstep, List.drop_append_of_le_length hextra, ih hdrop,
        rewrite_cons, hfold, List.append_assoc]
  exact key s xs List.suffix_rfl

/-- Nothing is lost in number when each piece emits at least as much as it consumes. -/
theorem length_le_rewrite
    (h : ∀ s c r, (c :: r.take (step s c r).extra).length ≤ (step s c r).emitted.length)
    (s : σ) (t : List α) : t.length ≤ (rewrite step s t).length := by
  induction s, t using places_induction step with
  | nil => exact Nat.le_refl _
  | cons s c r ih =>
    have hpiece := h s c r
    rw [rewrite_cons, List.length_append]
    rw [List.length_cons, List.length_take] at hpiece
    rw [List.length_drop] at ih
    rw [List.length_cons]
    omega

/-- The number of elements before the first place where something holds. -/
def position (p : List α → Bool) : List α → Option Nat
  | [] => none
  | c :: r => if p (c :: r) then some 0 else (position p r).map (· + 1)

theorem position_front {p : List α → Bool} {t : List α} (hne : t ≠ []) (h : p t = true) :
    position p t = some 0 := by
  cases t with
  | nil => exact absurd rfl hne
  | cons c r => rw [position, if_pos h]

theorem position_some {p : List α → Bool} {t : List α} {n : Nat} (h : position p t = some n) :
    ∃ xs u, t = xs ++ u ∧ xs.length = n ∧ u ≠ [] ∧ p u = true ∧
      ∀ c r, c :: r <:+ xs → p (c :: r ++ u) = false := by
  induction t generalizing n with
  | nil => cases h
  | cons c r ih =>
    rw [position] at h
    split at h
    · next hp =>
      cases h
      refine ⟨[], c :: r, rfl, rfl, List.cons_ne_nil c r, hp, fun c' r' hr => ?_⟩
      exact absurd (List.suffix_nil.mp hr) (List.cons_ne_nil c' r')
    · next hp =>
      obtain ⟨m, hm, rfl⟩ := Option.map_eq_some_iff.mp h
      obtain ⟨xs, u, rfl, rfl, hne, hu, hbefore⟩ := ih hm
      refine ⟨c :: xs, u, rfl, rfl, hne, hu, fun c' r' hr => ?_⟩
      rcases List.suffix_cons_iff.mp hr with heq | hr
      · rw [heq]
        exact Bool.not_eq_true _ ▸ hp
      · exact hbefore c' r' hr

theorem position_none {p : List α → Bool} {t : List α} (h : position p t = none) :
    ∀ c r, c :: r <:+ t → p (c :: r) = false := by
  induction t with
  | nil => exact fun c r hr => absurd (List.suffix_nil.mp hr) (List.cons_ne_nil c r)
  | cons c r ih =>
    rw [position] at h
    split at h
    · cases h
    · next hp =>
      intro c' r' hr
      rcases List.suffix_cons_iff.mp hr with heq | hr
      · rw [heq]
        exact Bool.not_eq_true _ ▸ hp
      · exact ih (Option.map_eq_none_iff.mp h) c' r' hr

/-- A stretch in which nothing is found only shifts what is found behind it. -/
theorem position_skip {p : List α → Bool} (xs t : List α)
    (h : ∀ c r, c :: r <:+ xs → p (c :: r ++ t) = false) :
    position p (xs ++ t) = (position p t).map (· + xs.length) := by
  induction xs with
  | nil => simp
  | cons c r ih =>
    have hskip := h c r List.suffix_rfl
    have hrest := ih fun c' r' hr => h c' r' (hr.trans (List.suffix_cons c r))
    rw [List.cons_append] at hskip ⊢
    rw [position, hskip, hrest, if_neg Bool.false_ne_true, Option.map_map]
    rfl

/-- What is found in a stretch is found at the same place when the stretch goes on. -/
theorem position_append {p : List α → Bool} (xs t : List α)
    (h : ∀ c r, c :: r <:+ xs → p (c :: r ++ t) = p (c :: r)) :
    position p (xs ++ t) =
      (position p xs).or ((position p t).map (· + xs.length)) := by
  induction xs with
  | nil => simp [position]
  | cons c r ih =>
    have hhere := h c r List.suffix_rfl
    have hrest := ih fun c' r' hr => h c' r' (hr.trans (List.suffix_cons c r))
    rw [List.cons_append] at hhere ⊢
    rw [position, position, hhere, hrest]
    cases p (c :: r)
    · cases position p r <;> simp [Function.comp_def, Nat.add_assoc]
    · simp

/-- What is not there and hides nothing does not change what is found. -/
theorem position_append_none {p : List α → Bool} (xs t : List α)
    (h : ∀ c r, c :: r <:+ xs → p (c :: r ++ t) = p (c :: r))
    (ht : ∀ c r, c :: r <:+ t → p (c :: r) = false) : position p (xs ++ t) = position p xs := by
  have hnone : position p t = none := by
    simpa [position] using position_skip t [] (by simpa using ht)
  rw [position_append xs t h, hnone, Option.map_none, Option.or_none]

section Replace
variable [DecidableEq α] (pattern replacement : List α)

def replaceStep : Step α Unit := fun _ c r =>
  if pattern.isPrefixOf (c :: r) then ⟨replacement, pattern.length - 1, ()⟩ else ⟨[c], 0, ()⟩

/-- Every occurrence of a pattern from left to right, none overlapping the one before. -/
def replaceAll (t : List α) : List α := rewrite (replaceStep pattern replacement) () t

variable {pattern} in
theorem replaceAll_cons {c : α} {r : List α} (h : ¬ pattern <+: c :: r) :
    replaceAll pattern replacement (c :: r) = c :: replaceAll pattern replacement r := by
  have hstep (s : Unit) : replaceStep pattern replacement s c r = ⟨[c], 0, ()⟩ := by
    rw [replaceStep, if_neg (mt List.isPrefixOf_iff_prefix.mp h)]
  rw [replaceAll, rewrite_cons, hstep]
  rfl

variable {pattern} in
theorem replaceAll_found (hne : pattern ≠ []) (t : List α) :
    replaceAll pattern replacement (pattern ++ t) =
      replacement ++ replaceAll pattern replacement t := by
  cases hp : pattern ++ t with
  | nil => exact absurd (List.append_eq_nil_iff.mp hp).1 hne
  | cons c r =>
    have hstep (s : Unit) :
        replaceStep pattern replacement s c r = ⟨replacement, pattern.length - 1, ()⟩ := by
      rw [replaceStep, if_pos (List.isPrefixOf_iff_prefix.mpr ⟨t, hp⟩)]
    rw [replaceAll, rewrite_cons, hstep]
    simp only [(consumed hp.symm hne).2]
    rfl

variable {pattern} in
/-- Nothing is replaced in a stretch in which the pattern does not begin. -/
theorem replaceAll_copy (xs t : List α) (h : ∀ c r, c :: r <:+ xs → ¬ pattern <+: c :: r ++ t) :
    replaceAll pattern replacement (xs ++ t) = xs ++ replaceAll pattern replacement t := by
  induction xs with
  | nil => rfl
  | cons c r ih =>
    have hhere := h c r List.suffix_rfl
    rw [List.cons_append] at hhere ⊢
    rw [replaceAll_cons replacement hhere,
      ih fun c' r' hr => h c' r' (hr.trans (List.suffix_cons c r))]
    rfl

variable {pattern} in
theorem replaceAll_absent {t : List α} (h : ¬ pattern <:+: t) :
    replaceAll pattern replacement t = t := by
  have hcopy := @replaceAll_copy _ _ pattern replacement t [] fun c r hr hp => by
    rw [List.append_nil] at hp
    exact h (hp.isInfix.trans hr.isInfix)
  rw [List.append_nil] at hcopy
  rw [hcopy]
  exact List.append_nil t

variable {pattern} in
/-- A pattern that does not lie across the border of two texts is replaced in each. -/
theorem replaceAll_append (xs t : List α)
    (h : ∀ c r, c :: r <:+ xs → pattern <+: c :: r ++ t → pattern <+: c :: r) :
    replaceAll pattern replacement (xs ++ t) =
      replaceAll pattern replacement xs ++ replaceAll pattern replacement t := by
  refine @rewrite_append α Unit (replaceStep pattern replacement) (fun _ _ => ())
    (fun _ _ _ => rfl) xs t () fun s c r hr => ?_
  have hsame : pattern.isPrefixOf (c :: (r ++ t)) = pattern.isPrefixOf (c :: r) := by
    rw [Bool.eq_iff_iff, List.isPrefixOf_iff_prefix, List.isPrefixOf_iff_prefix]
    exact ⟨h c r hr, fun hp => hp.trans (List.prefix_append _ _)⟩
  rw [replaceStep, replaceStep, hsame]
  refine ⟨rfl, ?_⟩
  split
  · next hp =>
    have hlength := (List.isPrefixOf_iff_prefix.mp hp).length_le
    rw [List.length_cons] at hlength
    simp only
    omega
  · exact Nat.zero_le _

theorem replaceStep_last {a b : α} (ha : pattern.getLast? = some a) (hab : a ≠ b) (s : Unit)
    {c : α} {r : List α} (hlast : (c :: r).getLast? = some b)
    (h : r.drop (replaceStep pattern replacement s c r).extra = []) :
    c = b ∧ (replaceStep pattern replacement s c r).emitted = [b] := by
  rw [replaceStep] at h ⊢
  split at h
  · -- the pattern would end the text
    next hp =>
    obtain ⟨rest, hrest⟩ := List.isPrefixOf_iff_prefix.mp hp
    have hlen : r.length ≤ pattern.length - 1 := List.drop_eq_nil_iff.mp h
    have hpos : 0 < pattern.length := List.length_pos_iff.mpr fun hnil => by
      rw [hnil] at ha
      cases ha
    have hnil : rest = [] := by
      have hsum := congrArg List.length hrest
      rw [List.length_append, List.length_cons] at hsum
      exact List.length_eq_zero_iff.mp (by omega)
    rw [hnil, List.append_nil] at hrest
    rw [← hrest, ha] at hlast
    exact absurd (Option.some.inj hlast) hab
  · next hp =>
    rw [if_neg hp]
    rw [List.drop_zero] at h
    rw [h] at hlast
    cases hlast
    exact ⟨rfl, rfl⟩

/-- An end that the pattern cannot end with stays the end. -/
theorem replaceAll_concat {a b : α} (ha : pattern.getLast? = some a) (hab : a ≠ b)
    (t : List α) :
    ∃ t', replaceAll pattern replacement (t ++ [b]) = t' ++ [b] := by
  have key : ∀ s u, u.getLast? = some b →
      ∃ t', rewrite (replaceStep pattern replacement) s u = t' ++ [b] := by
    intro s u hlast
    induction s, u using places_induction (replaceStep pattern replacement) with
    | nil => cases hlast
    | cons s c r ih =>
      rw [rewrite_cons]
      by_cases hrest : r.drop (replaceStep pattern replacement s c r).extra = []
      · obtain ⟨rfl, hplain⟩ := replaceStep_last pattern replacement ha hab s hlast hrest
        exact ⟨[], by rw [hrest, hplain]; rfl⟩
      · obtain ⟨front, hfront⟩ :=
          List.drop_suffix (replaceStep pattern replacement s c r).extra r
        rw [← hfront, ← List.cons_append, List.getLast?_append_of_ne_nil _ hrest] at hlast
        obtain ⟨t', ht'⟩ := ih hlast
        exact ⟨(replaceStep pattern replacement s c r).emitted ++ t', by
          rw [ht', List.append_assoc]⟩
  exact key () (t ++ [b]) (by simp)

end Replace

end Nigiri.Rewrite
