import Mathlib.Data.List.Basic
import Mathlib.Tactic.Common

/-! Histories in which each event is justified by what came before it. -/
namespace Nigiri.History
variable {ε : Type} {P Q : List ε → ε → Prop} {h t : List ε} {e : ε}

def Always (P : List ε → ε → Prop) (h : List ε) : Prop :=
  ∀ before e after, h = before ++ e :: after → P before e

theorem always_nil : Always P [] := by
  intro before e after h
  simp at h

theorem always_concat : Always P (h ++ [e]) ↔ Always P h ∧ P h e := by
  constructor
  · intro hall
    refine ⟨fun before e' after hsplit => ?_, hall h e [] rfl⟩
    exact hall before e' (after ++ [e]) (by rw [hsplit]; simp)
  · rintro ⟨hall, hlast⟩ before e' after hsplit
    rcases List.eq_nil_or_concat after with rfl | ⟨after', last, rfl⟩
    · obtain ⟨rfl, hcons⟩ := List.append_inj' hsplit rfl
      obtain rfl := (List.cons.inj hcons).1
      exact hlast
    · refine hall before e' after' ?_
      rw [List.concat_eq_append, ← List.cons_append, ← List.append_assoc] at hsplit
      exact (List.append_inj' hsplit rfl).1

/-- The same, read from the front. -/
def AlwaysAfter (P : List ε → ε → Prop) : List ε → List ε → Prop
  | _, [] => True
  | before, e :: after => P before e ∧ AlwaysAfter P (before ++ [e]) after

theorem AlwaysAfter.always (hafter : AlwaysAfter P h t) (hall : Always P h) :
    Always P (h ++ t) := by
  induction t generalizing h with
  | nil => rwa [List.append_nil]
  | cons e t ih =>
    rw [List.append_cons]
    exact ih hafter.2 (always_concat.mpr ⟨hall, hafter.1⟩)

theorem Always.mem (hall : Always P h) (he : e ∈ h) :
    ∃ before after, h = before ++ e :: after ∧ P before e := by
  obtain ⟨before, after, rfl⟩ := List.append_of_mem he
  exact ⟨before, after, rfl, hall before e after rfl⟩

end Nigiri.History
