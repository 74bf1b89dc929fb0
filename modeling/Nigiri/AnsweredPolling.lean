import Nigiri.Polling

/-! Selections among futures that are ready in the end: under such an environment a selection is
left with the result of a branch. -/
namespace Nigiri.Polling
open Nigiri.Process
variable {Q : Type} {R : Q → Type} {β : Type}

def Await.isPark : Await Q → Bool
  | .park => true
  | _ => false

/-- How often a task has slept. -/
def sleeps (t : TaskTrace R) : Nat := t.countP fun e => e.request.isPark

/-- From every point on, a future is ready once the task has slept often enough. -/
def Prompt (env : Environment (Await Q) (Await.Answer R)) : Prop :=
  ∀ h f, ∃ n, ∀ t, Follows env h t → n ≤ sleeps t → env (h ++ t) (.poll f) ≠ none

variable {env : Environment (Await Q) (Await.Answer R)} {h : TaskTrace R}

theorem sleeps_append (t t' : TaskTrace R) : sleeps (t ++ t') = sleeps t + sleeps t' :=
  List.countP_append

/-- A pass finds a branch that is ready, or every live one pending before it sleeps. -/
def Passed (env : Environment (Await Q) (Await.Answer R)) (bs : List (Branch R β))
    (h h' : TaskTrace R) : Unit ⊕ β → Prop
  | .inr _ => True
  | .inl _ => ∃ t, h' = h ++ t ∧ Follows env h t ∧ sleeps t = 1 ∧ ∀ b ∈ bs, b.enabled = true →
    ∃ t', Follows env h t' ∧ sleeps t' = 0 ∧ env (h ++ t') (.poll b.future) = none

theorem returns_pollPass (bs : List (Branch R β)) :
    Returns env h (pollPass bs) (Passed env bs h) := by
  induction bs generalizing h with
  | nil =>
    refine returns_ask (returns_done ⟨_, rfl, ⟨rfl, trivial⟩, rfl, fun _ hb => ?_⟩)
    cases hb
  | cons b bs ih =>
    rw [pollPass]
    split
    next henabled =>
      refine returns_ask ?_
      cases hready : env h (.poll b.future) with
      | some r => exact returns_done trivial
      | none =>
        refine ih.mono fun h' x hx => ?_
        rcases x with _ | r
        · obtain ⟨t, rfl, ht, hone, hpending⟩ := hx
          have hfirst : some (none : Option (R b.future.call)) = some (env h (.poll b.future)) :=
            congrArg some hready.symm
          refine ⟨⟨.poll b.future, some none⟩ :: t, List.append_assoc .., ⟨hfirst, ht⟩, hone,
            fun b' hb' henabled' => ?_⟩
          rcases List.mem_cons.mp hb' with rfl | hlater
          · exact ⟨[], trivial, rfl, by rwa [List.append_nil]⟩
          · obtain ⟨t', ht', hzero, hnone⟩ := hpending b' hlater henabled'
            refine ⟨⟨.poll b.future, some none⟩ :: t', ⟨hfirst, ht'⟩, hzero, ?_⟩
            rwa [List.append_assoc] at hnone
        · exact trivial
    next hdisabled =>
      refine ih.mono fun h' x hx => ?_
      rcases x with _ | r
      · obtain ⟨t, rfl, ht, hone, hpending⟩ := hx
        refine ⟨t, rfl, ht, hone, fun b' hb' henabled' => ?_⟩
        rcases List.mem_cons.mp hb' with rfl | hlater
        · exact absurd henabled' hdisabled
        · exact hpending b' hlater henabled'
      · exact trivial

/-- A selection with a live branch is left, for the task never sleeps too often. -/
theorem returns_select (hprompt : Prompt env) {bs : List (Branch R β)}
    (hlive : bs.any Branch.enabled = true) :
    Returns env h (select bs) fun _ result => ∃ b, result = some b := by
  obtain ⟨b, hb, henabled⟩ := List.any_eq_true.mp hlive
  obtain ⟨n, hn⟩ := hprompt h b.future
  rw [select, if_pos hlive]
  refine returns_loop (fun h' _ => ∃ t, h' = h ++ t ∧ Follows env h t)
    (fun h' _ => n + sleeps h - sleeps h') ?_ ⟨[], (List.append_nil h).symm, trivial⟩
  rintro _ ⟨⟩ ⟨t, rfl, ht⟩
  refine (returns_pollPass bs).mono fun h' x hx => ?_
  rcases x with _ | r
  · obtain ⟨t', rfl, ht', hone, hpending⟩ := hx
    obtain ⟨t'', ht'', hzero, hnone⟩ := hpending b hb henabled
    -- the branch was pending, so there have been fewer sleeps than it may take
    have hfew : sleeps t < n := by
      refine Nat.lt_of_not_le fun hmany => hn (t ++ t'') (follows_append.mpr ⟨ht, ht''⟩) ?_ ?_
      · rw [sleeps_append, hzero]
        exact hmany
      · rwa [← List.append_assoc]
    refine ⟨⟨t ++ t', List.append_assoc .., follows_append.mpr ⟨ht, ht'⟩⟩, ?_⟩
    simp only [sleeps_append, hone]
    omega
  · exact returns_done ⟨r, rfl⟩

end Nigiri.Polling
