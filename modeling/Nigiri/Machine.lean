import Mathlib.Data.List.Basic
import Mathlib.Tactic.Common

/-! Machines that take one labelled move at a time, their runs, and the rules for what a run
keeps and for how long it can be. -/
namespace Nigiri.Machine
variable {σ μ : Type} {step : σ → μ → Option σ} {s s' s'' : σ} {moves : List μ}

/-- The state after a list of moves, if each of them could be made. -/
def run (step : σ → μ → Option σ) : σ → List μ → Option σ
  | s, [] => some s
  | s, m :: moves => (step s m).bind fun s' => run step s' moves

/-- No move can be made any more. -/
def Stuck (step : σ → μ → Option σ) (s : σ) : Prop := ∀ m, step s m = none

@[simp] theorem run_nil : run step s [] = some s := rfl

theorem run_cons {m : μ} :
    run step s (m :: moves) = some s' ↔
      ∃ next, step s m = some next ∧ run step next moves = some s' :=
  Option.bind_eq_some_iff

/-- What holds at first and is kept by every step holds after every run. -/
theorem run_invariant {I : σ → Prop} (hstep : ∀ s m s', I s → step s m = some s' → I s')
    (hs : I s) (hrun : run step s moves = some s') : I s' := by
  induction moves generalizing s with
  | nil =>
    obtain rfl := Option.some.inj hrun
    exact hs
  | cons m moves ih =>
    obtain ⟨next, hnext, hrest⟩ := run_cons.mp hrun
    exact ih (hstep s m next hs hnext) hrest

/-- Where every step lowers a rank, under an invariant, a run has no more moves than that. -/
theorem run_length_le {I : σ → Prop} (rank : σ → Nat)
    (hkeep : ∀ s m s', I s → step s m = some s' → I s')
    (hlower : ∀ s m s', I s → step s m = some s' → rank s' < rank s)
    (hs : I s) (hrun : run step s moves = some s') : moves.length + rank s' ≤ rank s := by
  induction moves generalizing s with
  | nil =>
    obtain rfl := Option.some.inj hrun
    simp
  | cons m moves ih =>
    obtain ⟨next, hnext, hrest⟩ := run_cons.mp hrun
    have hle := ih (hkeep s m next hs hnext) hrest
    have hlt := hlower s m next hs hnext
    rw [List.length_cons]
    omega

theorem run_append {more : List μ} (h : run step s moves = some s')
    (hmore : run step s' more = some s'') : run step s (moves ++ more) = some s'' := by
  induction moves generalizing s with
  | nil =>
    obtain rfl := Option.some.inj h
    exact hmore
  | cons m moves ih =>
    obtain ⟨next, hnext, hrest⟩ := run_cons.mp h
    exact run_cons.mpr ⟨next, hnext, ih hrest⟩

/-- A run of moves of one kind. -/
def Reaches (step : σ → μ → Option σ) (kind : μ → Prop) (s s' : σ) : Prop :=
  ∃ moves, (∀ m ∈ moves, kind m) ∧ run step s moves = some s'

namespace Reaches
variable {kind kind' : μ → Prop}

theorem refl : Reaches step kind s s := ⟨[], by simp, rfl⟩

theorem head {m : μ} (hm : kind m) (h : step s m = some s') (hrest : Reaches step kind s' s'') :
    Reaches step kind s s'' := by
  obtain ⟨moves, hmoves, hrun⟩ := hrest
  exact ⟨m :: moves, List.forall_mem_cons.mpr ⟨hm, hmoves⟩, run_cons.mpr ⟨s', h, hrun⟩⟩

theorem trans (h : Reaches step kind s s') (h' : Reaches step kind s' s'') :
    Reaches step kind s s'' := by
  obtain ⟨moves, hmoves, hrun⟩ := h
  obtain ⟨more, hmore, hrun'⟩ := h'
  exact ⟨moves ++ more, List.forall_mem_append.mpr ⟨hmoves, hmore⟩, run_append hrun hrun'⟩

theorem mono (hkind : ∀ m, kind m → kind' m) (h : Reaches step kind s s') :
    Reaches step kind' s s' := by
  obtain ⟨moves, hmoves, hrun⟩ := h
  exact ⟨moves, fun m hm => hkind m (hmoves m hm), hrun⟩

/-- What every move of the kind keeps holds where such a run leads. -/
theorem invariant {I : σ → Prop} (hstep : ∀ s m s', kind m → I s → step s m = some s' → I s')
    (hs : I s) (h : Reaches step kind s s') : I s' := by
  obtain ⟨moves, hmoves, hrun⟩ := h
  induction moves generalizing s with
  | nil =>
    obtain rfl := Option.some.inj hrun
    exact hs
  | cons m moves ih =>
    obtain ⟨next, hnext, hrest⟩ := run_cons.mp hrun
    obtain ⟨hm, hmoves⟩ := List.forall_mem_cons.mp hmoves
    exact ih (hstep s m next hm hs hnext) hmoves hrest

end Reaches

end Nigiri.Machine
