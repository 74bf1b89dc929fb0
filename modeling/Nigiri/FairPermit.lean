import Mathlib.Data.List.Basic
import Mathlib.Data.List.Nodup
import Mathlib.Data.List.Perm.Subperm
import Mathlib.Tactic.Common

/-! One permit that is passed on in the order it was asked for. Who gives it up, or stops waiting
for it, leaves the line; who is first in the line has it. -/
namespace Nigiri.Queued
variable {P M : Type} [DecidableEq P]

/-- A fair mutex, by what it promises: a free one is taken at once, a held one is waited for in
line, it is passed on to the first who waits, and who stops waiting only loses a place. -/
structure FairMutex (P M : Type) [DecidableEq P] where
  free : M
  holder : M → Option P
  waiters : M → List P
  ask : M → P → M
  leave : M → P → M
  unheld : holder free = none
  unclaimed : ∀ m, holder m = none → waiters m = []
  taken : ∀ m p, holder m = none → holder (ask m p) = some p ∧ waiters (ask m p) = []
  queued : ∀ m p q, holder m = some q →
    holder (ask m p) = some q ∧ waiters (ask m p) = waiters m ++ [p]
  passedOn : ∀ m p, holder m = some p →
    holder (leave m p) = (waiters m).head? ∧ waiters (leave m p) = (waiters m).tail
  withdrawn : ∀ m p, holder m ≠ some p →
    holder (leave m p) = holder m ∧ waiters (leave m p) = (waiters m).erase p

namespace FairMutex
variable {mutex : FairMutex P M} {m : M} {p q : P}

/-- The holder and those who wait. -/
def line (mutex : FairMutex P M) (m : M) : List P := (mutex.holder m).toList ++ mutex.waiters m

theorem line_unheld (hfree : mutex.holder m = none) : mutex.line m = [] := by
  rw [line, hfree, mutex.unclaimed m hfree]
  rfl

theorem line_held (hheld : mutex.holder m = some p) : mutex.line m = p :: mutex.waiters m := by
  rw [line, hheld]
  rfl

theorem holder_eq_head? : mutex.holder m = (mutex.line m).head? := by
  cases hholder : mutex.holder m with
  | none =>
    rw [line_unheld hholder]
    rfl
  | some p =>
    rw [line_held hholder]
    rfl

theorem line_ask : mutex.line (mutex.ask m p) = mutex.line m ++ [p] := by
  cases hholder : mutex.holder m with
  | none =>
    obtain ⟨hheld, hwaiters⟩ := mutex.taken m p hholder
    rw [line_held hheld, hwaiters, line_unheld hholder]
    rfl
  | some q =>
    obtain ⟨hheld, hwaiters⟩ := mutex.queued m p q hholder
    rw [line_held hheld, hwaiters, line_held hholder]
    rfl

theorem line_leave : mutex.line (mutex.leave m p) = (mutex.line m).erase p := by
  by_cases hholder : mutex.holder m = some p
  · obtain ⟨hnext, hwaiters⟩ := mutex.passedOn m p hholder
    rw [line, hnext, hwaiters, line_held hholder, List.erase_cons_head]
    cases mutex.waiters m <;> rfl
  · obtain ⟨hsame, hwaiters⟩ := mutex.withdrawn m p hholder
    rw [line, hsame, hwaiters]
    cases hheld : mutex.holder m with
    | none =>
      rw [line_unheld hheld, mutex.unclaimed m hheld]
      rfl
    | some q =>
      have hne : q ≠ p := fun hsame => hholder (hheld.trans (congrArg some hsame))
      rw [line_held hheld]
      exact (List.erase_cons_tail (beq_false_of_ne hne ▸ Bool.false_ne_true)).symm

theorem leave_holder (hheld : mutex.holder m = some q) (hne : q ≠ p) :
    mutex.holder (mutex.leave m p) = some q := by
  refine (mutex.withdrawn m p fun hsame => hne ?_).1.trans hheld
  exact Option.some.inj (hheld.symm.trans hsame)

end FairMutex

omit [DecidableEq P] in
/-- Without repetitions a list puts two of its entries in one order only. -/
theorem not_sublist_swap {p q : P} {line : List P} (hnodup : line.Nodup)
    (hpq : [p, q].Sublist line) : ¬ [q, p].Sublist line := by
  induction line with
  | nil => cases hpq
  | cons a line ih =>
    obtain ⟨ha, hline⟩ := List.nodup_cons.mp hnodup
    intro hqp
    cases hpq with
    | cons _ hpq =>
      cases hqp with
      | cons _ hqp => exact ih hline hpq hqp
      | cons_cons _ _ => exact ha (hpq.subset (by simp))
    | cons_cons _ hq =>
      cases hqp with
      | cons _ hqp => exact ha (hqp.subset (by simp))
      | cons_cons _ hp => exact ha (hp.subset (by simp))

/-- One permit with its line; nobody waits for it while it is free. -/
structure Permit (P : Type) where
  holder : Option P
  waiters : List P
  unclaimed : holder = none → waiters = []

def Permit.ask (permit : Permit P) (p : P) : Permit P :=
  match permit.holder with
  | none => ⟨some p, [], fun hnone => by cases hnone⟩
  | some q => ⟨some q, permit.waiters ++ [p], fun hnone => by cases hnone⟩

def Permit.passOn : List P → Permit P
  | [] => ⟨none, [], fun _ => rfl⟩
  | next :: waiters => ⟨some next, waiters, fun hnone => by cases hnone⟩

def Permit.leave (permit : Permit P) (p : P) : Permit P :=
  if permit.holder = some p then Permit.passOn permit.waiters
  else ⟨permit.holder, permit.waiters.erase p,
    fun hnone => by rw [permit.unclaimed hnone]; rfl⟩

/-- The permit with its line keeps every promise of a fair mutex. -/
def fairPermit (P : Type) [DecidableEq P] : FairMutex P (Permit P) where
  free := ⟨none, [], fun _ => rfl⟩
  holder := Permit.holder
  waiters := Permit.waiters
  ask := Permit.ask
  leave := Permit.leave
  unheld := rfl
  unclaimed permit := permit.unclaimed
  taken permit p hfree := by
    rw [Permit.ask]
    split
    next => exact ⟨rfl, rfl⟩
    next q hheld => cases hfree.symm.trans hheld
  queued permit p q hheld := by
    rw [Permit.ask]
    split
    next hfree => cases hfree.symm.trans hheld
    next q' hheld' =>
      obtain rfl := Option.some.inj (hheld'.symm.trans hheld)
      exact ⟨rfl, rfl⟩
  passedOn permit p hheld := by
    rw [Permit.leave, if_pos hheld]
    cases permit.waiters <;> exact ⟨rfl, rfl⟩
  withdrawn permit p hother := by
    rw [Permit.leave, if_neg hother]
    exact ⟨rfl, rfl⟩

end Nigiri.Queued
