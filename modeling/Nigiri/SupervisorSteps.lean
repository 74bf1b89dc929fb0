import Nigiri.Supervisor

/-! What a move can do to the supervisor, its tasks and its record. -/
namespace Nigiri.Supervisor
open Nigiri.Runtime
variable {α ξ ε : Type}

/-- The creation of the resource has not been asked for yet. -/
def Progress.waiting : Progress → Bool
  | .ensuringImage | .settling => true
  | _ => false

def MutationStatus.issued : MutationStatus ε → Bool
  | .spawned => false
  | _ => true

/-- The changes of the supervisor, its tasks and its record, whoever makes the move. -/
inductive CoreStep : Core α ξ ε → Core α ξ ε → Prop
  | stays {c} : CoreStep c c
  | spawned {c} (h : c.phase = .unspawned) : CoreStep c { c with phase := .building }
  | built {c} (h : c.phase = .building) : CoreStep c { c with phase := .working }
  | unbuilt {c} (h : c.phase = .building) : CoreStep c { c with phase := .unbuilt }
  | begins {c} (call : Call) (h : c.phase = .working) (hb : c.branches = []) :
    CoreStep c (c.begin call)
  | progresses {c index branch progress} (hb : c.branches[index]? = some branch)
    (hw : progress.waiting = true → branch.progress.waiting = true) :
    CoreStep c (c.setProgress index branch progress)
  | spawns {c index branch} (hb : c.branches[index]? = some branch)
    (hw : branch.progress.waiting = true) :
    CoreStep c ((c.spawnMutation branch.resource).setProgress index branch
      (.awaiting c.mutations.length))
  | leaves {c} : CoreStep c { c with branches := [] }
  | decides {c branches} (outcome : Outcome α (StartError ξ)) (h : c.phase = .working)
    (hb : branches = []) : CoreStep c { c with phase := .deciding outcome, branches := branches }
  | serves {c outcome} (h : c.phase = .deciding outcome) : CoreStep c { c with phase := .serving }
  | cleansUp {c} (after : After ξ)
    (h : (∃ outcome, c.phase = .deciding outcome) ∨ c.phase = .serving) :
    CoreStep c (c.cleanup after)
  | joins {c mutation pending after resource reply}
    (h : c.phase = .settling (mutation :: pending) after)
    (hm : c.mutations[mutation]? = some ⟨resource, .settled reply⟩) :
    CoreStep c { c with phase := .settling pending after }
  | takesOrder {c after} (h : c.phase = .settling [] after) : CoreStep c (c.takeOrder after)
  | removes {c owned left firstError after}
    (h : c.phase = .removing (owned :: left) firstError after) :
    CoreStep c (c.remove owned left firstError after)
  | cleans {c firstError after} (h : c.phase = .removing [] firstError after) :
    CoreStep c { c with phase := .cleaned firstError after }
  | finishes {c firstError after} (h : c.phase = .cleaned firstError after) :
    CoreStep c { c with phase := .finished }
  | polls {c mutation resource} (hm : c.mutations[mutation]? = some ⟨resource, .spawned⟩) :
    CoreStep c (c.pollMutation mutation resource)
  | replies {c mutation resource} (reply : Option (Except ε String))
    (hm : c.mutations[mutation]? = some ⟨resource, .inFlight⟩) :
    CoreStep c (c.settleMutation mutation resource reply)
  | commits {c mutation resource status} (hm : c.mutations[mutation]? = some ⟨resource, status⟩)
    (hi : status.issued = true) :
    CoreStep c { c with log := c.log ++ [.committed mutation resource] }
  | removed {c owned left firstError after} (result : Except ε Unit)
    (h : c.phase = .awaitingRemoval owned left firstError after) :
    CoreStep c (c.removed owned left firstError after result)

section Inversion
variable {wait : CancellationWait} {s s' : State α ξ ε} {m : Move α ξ ε}

theorem advance_core {index : Nat} {branch : Branch} {how : Ending}
    (hb : s.branches[index]? = some branch) (h : advance s index branch how = some s') :
    CoreStep s.toCore s'.toCore := by
  have hdone : CoreStep s.toCore (s.setProgress index branch .done) :=
    .progresses hb (by intro hw; cases hw)
  simp only [advance] at h
  split at h
  · next hprogress =>
    split at h
    · cases h
    · cases h
      exact .spawns hb (by rw [hprogress]; rfl)
  · split at h
    · cases h
      exact hdone
    · cases h
  · cases h
  · cases h
  · split at h
    · cases h
      exact hdone
    · cases h
  · next hprogress =>
    cases h
    exact .progresses hb (by rw [hprogress]; exact id)
  · cases h
    exact hdone
  · split at h
    · cases h
      refine .progresses hb (fun hw => ?_)
      split at hw <;> cases hw
    · cases h
      exact hdone
    · cases h
      exact hdone
    · cases h
  · cases h
    exact hdone

theorem status_eq_settled {mutation : Nat} {reply : Option (Except ε String)}
    (h : (s.mutations[mutation]?).map Mutation.status = some (.settled reply)) :
    ∃ resource, s.mutations[mutation]? = some ⟨resource, .settled reply⟩ := by
  obtain ⟨found, hfound, hstatus⟩ := Option.map_eq_some_iff.mp h
  exact ⟨found.resource, by rw [hfound, ← hstatus]⟩

theorem supervise_core (h : supervise wait s = some s') : CoreStep s.toCore s'.toCore := by
  simp only [supervise] at h
  split at h
  · next hphase =>
    split at h
    · cases h
      exact .cleansUp _ (.inl ⟨_, hphase⟩)
    · cases h
      exact .serves hphase
  · next hphase =>
    split at h
    · cases h
      exact .cleansUp _ (.inl ⟨_, hphase⟩)
    · cases h
      exact .cleansUp _ (.inl ⟨_, hphase⟩)
  · next hphase =>
    cases h
    exact .cleansUp _ (.inl ⟨_, hphase⟩)
  · next hphase =>
    split at h
    · cases h
      exact .cleansUp _ (.inr hphase)
    · cases h
  · next hphase =>
    split at h
    · next hstatus =>
      cases h
      obtain ⟨resource, hm⟩ := status_eq_settled hstatus
      exact .joins hphase hm
    · cases h
  · next hphase =>
    cases h
    exact .takesOrder hphase
  · next hphase =>
    cases h
    exact .removes hphase
  · next hphase =>
    cases h
    exact .cleans hphase
  · next hphase =>
    cases h
    exact .finishes hphase
  · next hphase =>
    cases h
    exact .finishes hphase
  · next hphase =>
    cases h
    exact .finishes hphase
  · cases h

theorem receive_core (h : receive wait s = some s') : s'.toCore = s.toCore := by
  simp only [receive] at h
  split at h
  · cases h
    rfl
  · cases h
    rfl
  · split at h
    · cases h
      rfl
    · cases h

theorem call_core (h : call wait s = some s') : s'.toCore = s.toCore := by
  simp only [call] at h
  split at h
  · split at h <;> cases h <;> rfl
  · cases h
    rfl
  · cases h

theorem caller_core (hm : m.ofCaller = true) (h : step wait s m = some s') :
    CoreStep s.toCore s'.toCore := by
  cases m with
  | spawn error =>
    simp only [step] at h
    split at h
    · next hphase =>
      cases h
      exact .spawned hphase
    · cases h
      exact .stays
    · cases h
  | receive =>
    simp only [step] at h
    split at h
    · rw [receive_core h]
      exact .stays
    · cases h
  | call =>
    rw [call_core h]
    exact .stays
  | drop | beginShutdown | joined | deadlinePasses =>
    simp only [step] at h
    repeat' split at h
    all_goals cases h
    all_goals exact .stays
  | completed =>
    simp only [step] at h
    repeat' split at h
    all_goals cases h
    all_goals exact .stays
  | _ => cases hm

theorem step_core (h : step wait s m = some s') : CoreStep s.toCore s'.toCore := by
  cases m with
  | build error =>
    simp only [step] at h
    split at h
    · next hphase =>
      cases h
      exact .built hphase
    · next hphase =>
      cases h
      exact .unbuilt hphase
    · cases h
  | asks call =>
    simp only [step] at h
    split at h
    · next hphase hbranches =>
      cases h
      exact .begins call hphase hbranches
    · cases h
  | advance index how =>
    simp only [step] at h
    split at h
    · next hb => exact advance_core hb h
    · cases h
  | returns =>
    simp only [step] at h
    split at h
    · cases h
      exact .leaves
    · cases h
  | abandon =>
    cases h
    exact .leaves
  | workEnds outcome =>
    simp only [step] at h
    split at h
    · next hphase hbranches =>
      cases h
      exact .decides outcome hphase hbranches
    · cases h
  | cancelWork =>
    simp only [step] at h
    split at h
    · next hphase =>
      split at h
      · cases h
        exact .decides _ hphase rfl
      · cases h
    · cases h
  | supervise => exact supervise_core h
  | poll mutation =>
    simp only [step] at h
    split at h
    · next hm =>
      cases h
      exact .polls hm
    · cases h
  | reply mutation reply =>
    simp only [step] at h
    split at h
    · next hm =>
      cases h
      exact .replies reply hm
    · cases h
  | commit mutation =>
    simp only [step] at h
    split at h
    · cases h
    · cases h
    · next resource status hspawned hm =>
      cases h
      refine .commits hm ?_
      cases hstatus : status with
      | spawned => exact (hspawned hstatus).elim
      | _ => rfl
  | removed result =>
    simp only [step] at h
    split at h
    · next hphase =>
      cases h
      exact .removed result hphase
    · cases h
  | _ => exact caller_core rfl h

end Inversion

end Nigiri.Supervisor
