import Nigiri.Process

/-! Operations that commit with one request and go on with others: the identifier that the commit
returned is lost in no result. -/
namespace Nigiri.TwoPhase
open Nigiri.Process
variable {Q : Type} {R : Q → Type} {ι ε α : Type}

/-- Which requests commit, which must wait for a commit, and the identifier a commit returned. -/
structure Plan (Q : Type) (R : Q → Type) (ι : Type) where
  commits : Q → Bool
  follows : Q → Bool
  committed : Event Q R → Option ι
  committed_commits : ∀ e id, committed e = some id → commits e.request = true
  follows_commits : ∀ q, follows q = true → commits q = false

/-- What a result must say of the identifier. -/
def Settles (carries : ι → ε → Prop) (returns : ι → α → Prop) (id : ι) : Except ε α → Prop
  | .error error => carries id error
  | .ok a => returns id a

/-- What holds after any part of an operation, and of its result once it has one. -/
structure KeepsId (plan : Plan Q R ι) (carries : ι → ε → Prop) (returns : ι → α → Prop)
    (h : Trace Q R) (o : Option (Except ε α)) : Prop where
  once : (h.filter fun e => plan.commits e.request).length ≤ 1
  ordered : Each (fun before q => plan.follows q = true →
    ∃ e ∈ before, ∃ id, plan.committed e = some id) h
  settled : ∀ e ∈ h, ∀ id, plan.committed e = some id → ∀ result, o = some result →
    Settles carries returns id result
  returned : ∀ a, o = some (.ok a) → ∃ e ∈ h, ∃ id, plan.committed e = some id

section Rules
variable {plan : Plan Q R ι} {carries : ι → ε → Prop} {returns : ι → α → Prop}

theorem keepsId_refused {error : ε} {t : Trace Q R} {o : Option (Except ε α)}
    (hrun : Runs (.done (.error error) : Proc Q R (Except ε α)) t o) :
    KeepsId plan carries returns t o := by
  obtain ⟨rfl, ho⟩ := hrun
  refine ⟨Nat.zero_le 1, each_nil, fun _ he => absurd he List.not_mem_nil, fun a ha => ?_⟩
  obtain rfl | rfl := ho <;> cases ha

theorem follows_of_commits {q : Q} (hcommits : plan.commits q = true) :
    plan.follows q = false := by
  cases hfollows : plan.follows q with
  | false => rfl
  | true =>
    rw [plan.follows_commits q hfollows] at hcommits
    cases hcommits

/-- Before there is a result, one commit that is not known to have succeeded loses nothing. -/
theorem keepsId_attempted {e : Event Q R} (error : Option ε)
    (hcommits : plan.commits e.request = true) (hunknown : plan.committed e = none) :
    KeepsId plan carries returns [e] (error.map fun error => (.error error : Except ε α)) := by
  refine ⟨List.length_filter_le _ _, ?_, ?_, ?_⟩
  · refine each_concat.mpr ⟨each_nil, fun hfollows => ?_⟩
    rw [follows_of_commits hcommits] at hfollows
    cases hfollows
  · intro e' he' id hid
    obtain rfl := List.mem_singleton.mp he'
    rw [hunknown] at hid
    cases hid
  · intro a ha
    cases error <;> cases ha

/-- Behind the commit that gave the identifier there are only requests of other kinds. -/
theorem keepsId_committed {e : Event Q R} {t : Trace Q R} {o : Option (Except ε α)} {id : ι}
    (hid : plan.committed e = some id) (ht : ∀ e ∈ t, plan.commits e.request = false)
    (hresult : ∀ result, o = some result → Settles carries returns id result) :
    KeepsId plan carries returns (e :: t) o := by
  have hcommits := plan.committed_commits e id hid
  refine ⟨?_, ?_, ?_, fun _ _ => ⟨e, List.mem_cons_self, id, hid⟩⟩
  · have hothers : t.filter (fun e => plan.commits e.request) = [] :=
      List.filter_eq_nil_iff.mpr fun e he => by rw [ht e he]; exact Bool.false_ne_true
    rw [List.filter_cons, if_pos hcommits, hothers]
    exact Nat.le_refl 1
  · intro before e' after hsplit hfollows
    cases before with
    | nil =>
      obtain ⟨rfl, _⟩ := List.cons.inj hsplit
      rw [follows_of_commits hcommits] at hfollows
      cases hfollows
    | cons first before =>
      obtain ⟨rfl, _⟩ := List.cons.inj hsplit
      exact ⟨e, List.mem_cons_self, id, hid⟩
  · intro e' he' id' hid' result ho
    obtain rfl | he' := List.mem_cons.mp he'
    · obtain rfl := Option.some.inj (hid.symm.trans hid')
      exact hresult result ho
    · have hother := ht e' he'
      rw [plan.committed_commits e' id' hid'] at hother
      cases hother

/-- A commit that gave no identifier ends the operation; one that gave an identifier leaves it to
requests of other kinds, whose results must all tell it. -/
theorem keepsId_ask {q : Q} {k : R q → Proc Q R (Except ε α)} (hcommits : plan.commits q = true)
    (hpending : plan.committed ⟨q, none⟩ = none)
    (hreply : ∀ r, (plan.committed ⟨q, some r⟩ = none ∧ ∃ error, k r = .done (.error error)) ∨
      ∃ id, plan.committed ⟨q, some r⟩ = some id ∧ Asks (plan.commits · = false) (k r) ∧
        ∀ t result, Runs (k r) t (some result) → Settles carries returns id result)
    {t : Trace Q R} {o : Option (Except ε α)} (hrun : Runs (.ask q k) t o) :
    KeepsId plan carries returns t o := by
  obtain ⟨rfl, rfl⟩ | ⟨rfl, rfl⟩ | ⟨r, t', rfl, hrest⟩ := hrun
  · exact ⟨Nat.zero_le 1, each_nil, fun _ he => absurd he List.not_mem_nil, nofun⟩
  · exact keepsId_attempted none hcommits hpending
  · obtain ⟨hnone, error, hdone⟩ | ⟨id, hid, hasks, hresults⟩ := hreply r
    · rw [hdone] at hrest
      obtain ⟨rfl, rfl | rfl⟩ := hrest
      · exact keepsId_attempted none hcommits hnone
      · exact keepsId_attempted (some error) hcommits hnone
    · refine keepsId_committed hid (hasks.runs hrest) fun result ho => ?_
      subst ho
      exact hresults t' result hrest

end Rules

end Nigiri.TwoPhase
