import Mathlib.Data.List.Forall2
import Mathlib.Tactic.Common

/-! Chains of checks that stop at the first error: when a chain accepts and with what, and which
errors it can give. -/
namespace Nigiri.Checks
variable {ε α β : Type} {P : ε → Prop}

/-- The value, or the error that its absence is reported with. -/
def orError (o : Option α) (e : ε) : Except ε α :=
  match o with
  | some a => .ok a
  | none => .error e

theorem orError_ok_iff {o : Option α} {e : ε} {a : α} : orError o e = .ok a ↔ o = some a := by
  cases o <;> simp [orError]

theorem bind_ok_iff {x : Except ε α} {f : α → Except ε β} {b : β} :
    (x >>= f) = .ok b ↔ ∃ a, x = .ok a ∧ f a = .ok b := by
  cases x with
  | error e => simp [bind, Except.bind]
  | ok a => simp [bind, Except.bind]

theorem guard_ok_iff {p : Prop} [Decidable p] {e : ε} {x : Except ε α} {a : α} :
    (if p then .error e else x) = .ok a ↔ ¬ p ∧ x = .ok a := by
  by_cases hp : p <;> simp [hp]

theorem require_ok_iff {p : Prop} [Decidable p] {e : ε} {x : Except ε α} {a : α} :
    (if p then x else .error e) = .ok a ↔ p ∧ x = .ok a := by
  by_cases hp : p <;> simp [hp]

theorem mapError_ok_iff {ε' : Type} {x : Except ε α} {f : ε → ε'} {a : α} :
    x.mapError f = .ok a ↔ x = .ok a := by
  cases x <;> simp [Except.mapError]

theorem forM_ok_iff {xs : List α} {f : α → Except ε Unit} :
    forM xs f = .ok () ↔ ∀ x ∈ xs, f x = .ok () := by
  induction xs with
  | nil => exact iff_of_true rfl (List.forall_mem_nil _)
  | cons x xs ih =>
    rw [List.forM_cons, bind_ok_iff, List.forall_mem_cons, ih]
    constructor
    · rintro ⟨_, hx, hxs⟩
      exact ⟨hx, hxs⟩
    · rintro ⟨hx, hxs⟩
      exact ⟨(), hx, hxs⟩

/-- A list is converted when each of its elements is. -/
theorem mapM_ok_iff {xs : List α} {f : α → Except ε β} {ys : List β} :
    xs.mapM f = .ok ys ↔ List.Forall₂ (fun x y => f x = .ok y) xs ys := by
  induction xs generalizing ys with
  | nil =>
    rw [List.mapM_nil, List.forall₂_nil_left_iff]
    exact ⟨fun h => (Except.ok.inj h).symm, fun h => h ▸ rfl⟩
  | cons x xs ih =>
    rw [List.mapM_cons, bind_ok_iff, List.forall₂_cons_left_iff]
    constructor
    · rintro ⟨y, hx, hrest⟩
      obtain ⟨ys', hxs, hys⟩ := bind_ok_iff.mp hrest
      exact ⟨y, ys', hx, ih.mp hxs, (Except.ok.inj hys).symm⟩
    · rintro ⟨y, ys', hx, hxs, rfl⟩
      exact ⟨y, hx, bind_ok_iff.mpr ⟨ys', ih.mpr hxs, rfl⟩⟩

/-- Every error of a chain is of one kind. -/
def FailsWith (P : ε → Prop) (x : Except ε α) : Prop := ∀ e, x = .error e → P e

theorem failsWith_ok (a : α) : FailsWith P (.ok a : Except ε α) := fun _ h => by cases h

theorem failsWith_error {e : ε} (he : P e) : FailsWith P (.error e : Except ε α) :=
  fun _ h => Except.error.inj h ▸ he

theorem failsWith_orError {o : Option α} {e : ε} (he : P e) : FailsWith P (orError o e) := by
  cases o with
  | none => exact failsWith_error he
  | some a => exact failsWith_ok a

theorem failsWith_bind {x : Except ε α} {f : α → Except ε β} (hx : FailsWith P x)
    (hf : ∀ a, FailsWith P (f a)) : FailsWith P (x >>= f) := by
  cases x with
  | error e => exact failsWith_error (hx e rfl)
  | ok a => exact hf a

theorem failsWith_guard {p : Prop} [Decidable p] {e : ε} {x : Except ε α} (he : P e)
    (hx : FailsWith P x) : FailsWith P (if p then .error e else x) := by
  by_cases hp : p
  · rw [if_pos hp]
    exact failsWith_error he
  · rw [if_neg hp]
    exact hx

theorem failsWith_require {p : Prop} [Decidable p] {e : ε} {x : Except ε α} (he : P e)
    (hx : FailsWith P x) : FailsWith P (if p then x else .error e) := by
  by_cases hp : p
  · rw [if_pos hp]
    exact hx
  · rw [if_neg hp]
    exact failsWith_error he

theorem failsWith_mapError {ε' : Type} {x : Except ε' α} {f : ε' → ε} (hf : ∀ e, P (f e)) :
    FailsWith P (x.mapError f) := by
  cases x with
  | error e => exact failsWith_error (hf e)
  | ok a => exact failsWith_ok a

theorem failsWith_forM {xs : List α} {f : α → Except ε Unit} (hf : ∀ x, FailsWith P (f x)) :
    FailsWith P (forM xs f) := by
  induction xs with
  | nil => exact failsWith_ok ()
  | cons x xs ih =>
    rw [List.forM_cons]
    exact failsWith_bind (hf x) fun _ => ih

end Nigiri.Checks
