import Nigiri.NoLeak

/-! What a cleanup tells of its removals, and how they stand to what the engine has committed. -/
namespace Nigiri.Supervisor
open Nigiri.History Nigiri.Machine Nigiri.Runtime
variable {α ξ ε : Type}

section TornDown

/-- The supervisor has not been spawned or has stopped. -/
def Idle (phase : Phase α ξ ε) : Prop :=
  phase = .unspawned ∨ phase = .unbuilt ∨ phase = .finished

/-- The stack was never begun, or all that it reserved has been removed in one cleanup. -/
def TornDown (c : Core α ξ ε) : Prop :=
  c.log = [] ∨
    c.log.countP Event.isCleanup = 1 ∧
      (removals c.log).map Prod.fst = (reservations c.log).reverse ∧
      returned c.log = (reservations c.log).reverse

theorem kept_tornDown {c : Core α ξ ε} (hc : Kept c) (hidle : Idle c.phase) : TornDown c := by
  have hstage := hc.stage
  obtain hphase | hphase | hphase := hidle
  · simp only [Stage, hphase] at hstage
    exact .inl hstage.1
  · simp only [Stage, hphase] at hstage
    exact .inl hstage.1
  · simp only [Stage, hphase] at hstage
    obtain ⟨hremoving, hreturned, _⟩ := hstage
    have hreverse : (removals c.log).map Prod.fst = (reservations c.log).reverse := by
      have hremovals := hremoving.removals
      rw [List.map_nil, List.append_nil] at hremovals
      rw [hremovals, ← ledgerOf_resources, List.map_map, ← List.map_reverse]
      rfl
    exact .inr ⟨cleanup_once hc.recorded.lawful hremoving.cleanup, hreverse,
      hreturned.symm.trans hreverse⟩

theorem TornDown.returns {c : Core α ξ ε} (h : TornDown c) :
    returned c.log = (reservations c.log).reverse := by
  obtain h | ⟨_, _, hreturned⟩ := h
  · rw [h]
    rfl
  · exact hreturned

theorem TornDown.returned {c : Core α ξ ε} (h : TornDown c) :
    returned c.log = (removals c.log).map Prod.fst := by
  obtain h | ⟨_, hremovals, hreturned⟩ := h
  · rw [h]
    rfl
  · rw [hremovals, hreturned]

theorem idle_removals {c c' : Core α ξ ε} (h : CoreStep c c') (hidle : Idle c.phase) :
    removals c'.log = removals c.log := by
  have hconcat : ∀ {e : Event ε}, e.quiet = true → removals (c.log ++ [e]) = removals c.log :=
    removals_quiet
  cases h with
  | begins call hphase => obtain h | h | h := hidle <;> cases hphase.symm.trans h
  | cleansUp after hphase =>
    obtain ⟨outcome, hphase⟩ | hphase := hphase <;> obtain h | h | h := hidle <;>
      cases hphase.symm.trans h
  | removes hphase => obtain h | h | h := hidle <;> cases hphase.symm.trans h
  | removed result hphase => obtain h | h | h := hidle <;> cases hphase.symm.trans h
  | spawns | polls | replies | commits => exact hconcat rfl
  | _ => rfl

theorem step_log {c c' : Core α ξ ε} (h : CoreStep c c') : ∃ more, c'.log = c.log ++ more := by
  cases h with
  | begins | spawns | cleansUp | removes | polls | replies | commits | removed => exact ⟨_, rfl⟩
  | _ => exact ⟨[], (List.append_nil _).symm⟩

end TornDown

section Failures
variable {log : List (Event ε)} {e : Event ε}

def Event.failure : Event ε → Option ε
  | .removed _ (.error error) => some error
  | _ => none

def failures (log : List (Event ε)) : List ε := log.filterMap Event.failure

/-- What is reported of a cleanup: the first of the errors of its removals. -/
def cleanupResult (log : List (Event ε)) : Except ε Unit :=
  match (failures log).head? with
  | none => .ok ()
  | some error => .error error

@[simp] theorem failures_concat : failures (log ++ [e]) = failures log ++ e.failure.toList :=
  filterMap_concat _

theorem failures_quiet (he : e.quiet = true) : failures (log ++ [e]) = failures log := by
  rw [failures_concat]
  cases e with
  | removed => cases he
  | _ => exact List.append_nil _

end Failures

section Reported
variable {c c' : Core α ξ ε}

/-- The error that is kept is the first there was. -/
def Reported (c : Core α ξ ε) : Prop :=
  match c.phase with
  | .removing _ firstError _ | .awaitingRemoval _ _ firstError _ | .cleaned firstError _ =>
    firstError = (failures c.log).head?
  | .finished => True
  | _ => failures c.log = []

theorem Reported.of_eq (hc : Reported c) (hphase : c'.phase = c.phase)
    (hlog : failures c'.log = failures c.log) : Reported c' := by
  simp only [Reported] at hc ⊢
  rw [hphase, hlog]
  exact hc

theorem CoreStep.reported (h : CoreStep c c') (hc : Reported c) : Reported c' := by
  cases h with
  | stays => exact hc
  | spawned hphase | built hphase | unbuilt hphase | decides _ hphase =>
    simp only [Reported, hphase] at hc
    exact hc
  | serves hphase =>
    simp only [Reported, hphase] at hc
    exact hc
  | begins call hphase =>
    refine hc.of_eq rfl ?_
    simp only [Core.begin, failures, List.filterMap_append, List.filterMap_map]
    rw [List.append_right_eq_self, List.filterMap_eq_nil_iff]
    exact fun _ _ => rfl
  | progresses | leaves => exact hc.of_eq rfl rfl
  | spawns | polls | replies | commits => exact hc.of_eq rfl (failures_quiet rfl)
  | cleansUp after hphase =>
    have hnil : failures c.log = [] := by
      obtain ⟨outcome, hphase⟩ | hphase := hphase
      · simpa only [Reported, hphase] using hc
      · simpa only [Reported, hphase] using hc
    simp [Reported, Core.cleanup, hnil, Event.failure]
  | joins hphase hm =>
    simp only [Reported, hphase] at hc
    exact hc
  | takesOrder hphase =>
    simp only [Reported, hphase] at hc
    simp [Reported, Core.takeOrder, takeCleanupOrder, hc]
  | removes hphase =>
    simp only [Reported, hphase] at hc
    simp [Reported, Core.remove, Event.failure, hc]
  | cleans hphase =>
    simp only [Reported, hphase] at hc
    exact hc
  | finishes => trivial
  | removed result hphase =>
    simp only [Reported, hphase] at hc
    simp only [Reported, Core.removed, failures_concat, hc]
    cases result with
    | ok _ =>
      change _ = (failures c.log ++ []).head?
      rw [List.append_nil]
      cases failures c.log <;> rfl
    | error error => cases failures c.log <;> rfl

theorem finished_step (h : CoreStep c c') (hphase : c.phase = .finished) :
    c'.phase = .finished ∧ failures c'.log = failures c.log := by
  cases h with
  | stays | progresses | leaves => exact ⟨hphase, rfl⟩
  | spawns | polls | replies | commits => exact ⟨hphase, failures_quiet rfl⟩
  | cleansUp after hphase' =>
    obtain ⟨outcome, hphase'⟩ | hphase' := hphase' <;> cases hphase'.symm.trans hphase
  | spawned hphase' | built hphase' | unbuilt hphase' | serves hphase' | joins hphase'
  | takesOrder hphase' | removes hphase' | cleans hphase' | finishes hphase' =>
    cases hphase'.symm.trans hphase
  | begins _ hphase' | decides _ hphase' | removed _ hphase' => cases hphase'.symm.trans hphase

end Reported

section Shutdown
variable {wait : CancellationWait} {s s' : State α ξ ε} {m : Move α ξ ε}

def CallerEnd.shutdownResult : CallerEnd ξ ε → Option (Except ε Unit)
  | .shutDown result => some result
  | _ => none

/-- The result of the shutdown that a caller is about to return or has returned. -/
def Caller.shutdownResult : Caller α ξ ε → Option (Except ε Unit)
  | .cancelling after | .joining _ after | .ended after => after.shutdownResult
  | _ => none

structure Completed (s : State α ξ ε) : Prop where
  reported : Reported s.toCore
  completion : ∀ result, s.completion = some result →
    s.phase = .finished ∧ result = cleanupResult s.log
  shutdown : ∀ result, s.caller.shutdownResult = some result → s.completion = some result

theorem supervise_completion (h : supervise wait s = some s') :
    s'.caller = s.caller ∧ (s'.completion = s.completion ∨
      ∃ firstError, s.phase = .cleaned firstError .complete ∧ s'.phase = .finished ∧
        s'.log = s.log ∧ s'.completion = some (match firstError with
          | none => .ok ()
          | some error => .error error)) := by
  simp only [supervise] at h
  split at h
  case h_9 firstError hphase =>
    cases h
    exact ⟨rfl, .inr ⟨firstError, hphase, rfl, rfl, rfl⟩⟩
  all_goals repeat' split at h
  all_goals cases h
  all_goals exact ⟨rfl, .inl rfl⟩

theorem caller_completion (hm : m.ofCaller = true) (h : step wait s m = some s') :
    s'.completion = s.completion ∧ ∀ result, s'.caller.shutdownResult = some result →
      s.caller.shutdownResult = some result ∨ s.completion = some result := by
  have hnone : ∀ {caller : Caller α ξ ε} {s' : State α ξ ε}, caller.shutdownResult = none →
      s'.completion = s.completion → s'.caller = caller →
      s'.completion = s.completion ∧ ∀ result, s'.caller.shutdownResult = some result →
        s.caller.shutdownResult = some result ∨ s.completion = some result := by
    intro caller s' hcaller hcompletion hs'
    refine ⟨hcompletion, fun result hresult => ?_⟩
    rw [hs', hcaller] at hresult
    cases hresult
  cases m with
  | spawn error =>
    simp only [step] at h
    split at h
    · cases h
      exact hnone rfl rfl rfl
    · cases h
      exact hnone rfl rfl rfl
    · cases h
  | receive =>
    simp only [step] at h
    split at h
    · simp only [receive] at h
      split at h
      · cases h
        exact hnone rfl rfl rfl
      · cases h
        cases wait <;> exact hnone rfl rfl rfl
      · split at h
        · cases h
          exact hnone rfl rfl rfl
        · cases h
    · cases h
  | drop =>
    simp only [step] at h
    split at h
    · cases h
      exact hnone rfl rfl rfl
    · cases h
      exact hnone rfl rfl rfl
    · cases h
      exact hnone rfl rfl rfl
    · cases h
  | beginShutdown =>
    simp only [step] at h
    split at h
    · cases h
      exact hnone rfl rfl rfl
    · cases h
  | call =>
    simp only [step, call] at h
    split at h
    · split at h
      · cases h
        exact hnone rfl rfl rfl
      · cases h
        exact hnone rfl rfl rfl
    · next hcaller =>
      cases h
      rw [hcaller]
      exact ⟨rfl, fun result hresult => .inl hresult⟩
    · cases h
  | completed =>
    simp only [step] at h
    split at h
    · next hcompletion =>
      cases h
      refine ⟨rfl, fun result hresult => .inr ?_⟩
      cases hresult
      exact hcompletion
    · split at h
      · cases h
        exact hnone rfl rfl rfl
      · cases h
    · cases h
  | joined =>
    simp only [step] at h
    split at h
    · next hcaller =>
      split at h
      · cases h
        rw [hcaller]
        exact ⟨rfl, fun result hresult => .inl hresult⟩
      · cases h
    · cases h
  | deadlinePasses =>
    simp only [step] at h
    split at h
    · next hcaller =>
      cases h
      rw [hcaller]
      exact ⟨rfl, fun result hresult => .inl hresult⟩
    · cases h
  | _ => cases hm

theorem engine_completion (hm : m.ofCaller = false) (hsupervise : m ≠ .supervise)
    (h : step wait s m = some s') : s'.completion = s.completion ∧ s'.caller = s.caller := by
  cases m with
  | supervise => exact absurd rfl hsupervise
  | advance index how =>
    simp only [step, advance] at h
    repeat' split at h
    all_goals cases h
    all_goals exact ⟨rfl, rfl⟩
  | build | asks | returns | abandon | workEnds | cancelWork | poll | reply | commit | removed =>
    simp only [step] at h
    repeat' split at h
    all_goals cases h
    all_goals exact ⟨rfl, rfl⟩
  | _ => cases hm

theorem Completed.of_core {s s' : State α ξ ε} (hs : Completed s)
    (hcore : CoreStep s.toCore s'.toCore) (hcompletion : s'.completion = s.completion)
    (hshutdown : ∀ result, s'.caller.shutdownResult = some result →
      s.caller.shutdownResult = some result ∨ s.completion = some result) : Completed s' where
  reported := hcore.reported hs.reported
  completion result hresult := by
    rw [hcompletion] at hresult
    obtain ⟨hphase, rfl⟩ := hs.completion result hresult
    obtain ⟨hphase', hfailures⟩ := finished_step hcore hphase
    refine ⟨hphase', ?_⟩
    rw [cleanupResult, cleanupResult, hfailures]
  shutdown result hresult := by
    rw [hcompletion]
    obtain h | h := hshutdown result hresult
    · exact hs.shutdown result h
    · exact h

theorem step_completed (hs : Completed s) (h : step wait s m = some s') : Completed s' := by
  cases hm : m.ofCaller with
  | true =>
    obtain ⟨hcompletion, hshutdown⟩ := caller_completion hm h
    exact hs.of_core (step_core h) hcompletion hshutdown
  | false =>
    by_cases hsupervise : m = .supervise
    · subst hsupervise
      obtain ⟨hcaller, hcompletion | ⟨firstError, hphase, hphase', hlog, hcompletion⟩⟩ :=
        supervise_completion h
      · exact hs.of_core (step_core h) hcompletion fun result hresult => .inl (hcaller ▸ hresult)
      · have hreported := hs.reported
        simp only [Reported, hphase] at hreported
        refine ⟨(step_core h).reported hs.reported, fun result hresult => ⟨hphase', ?_⟩,
          fun result hresult => ?_⟩
        · rw [← Option.some.inj (hcompletion.symm.trans hresult), hreported, cleanupResult, hlog]
        · rw [hcaller] at hresult
          cases hphase.symm.trans (hs.completion result (hs.shutdown result hresult)).1
    · obtain ⟨hcompletion, hcaller⟩ := engine_completion hm hsupervise h
      exact hs.of_core (step_core h) hcompletion fun result hresult => .inl (hcaller ▸ hresult)

/-- A shutdown returns when every removal has returned, with the first error there was. -/
theorem shutdown_reports_first_failure {moves : List (Move α ξ ε)} {result : Except ε Unit}
    (hrun : run (step wait) initial moves = some s)
    (hcaller : s.caller = .ended (.shutDown result)) :
    s.phase = .finished ∧ result = cleanupResult s.log ∧
      returned s.log = (reservations s.log).reverse := by
  have hinitial : Completed (initial : State α ξ ε) := by
    refine ⟨(rfl : failures [] = []), fun result h => ?_, fun result h => ?_⟩
    · cases h
    · cases h
  have hs := run_invariant (fun _ _ _ => step_completed) hinitial hrun
  obtain ⟨hphase, hresult⟩ := hs.completion result (hs.shutdown result (by rw [hcaller]; rfl))
  exact ⟨hphase, hresult, (kept_tornDown (run_kept hrun) (.inr (.inr hphase))).returns⟩

/-- The engine refuses to remove the one resource of a startup that is shut down. -/
def refusedShutdown : List (Move Nat Unit Unit) :=
  [.spawn none, .build none, .asks (.createNetwork "net"), .advance 0 .succeeds, .poll 0,
    .reply 0 (some (.ok "n1")), .advance 0 .succeeds, .returns, .workEnds (.value 7), .supervise,
    .receive, .beginShutdown, .supervise, .supervise, .supervise, .supervise, .removed (.error ()),
    .supervise, .supervise, .completed, .joined]

theorem shutdown_reports_refusal :
    ∃ s : State Nat Unit Unit, run (step .deadline) initial refusedShutdown = some s ∧
      s.caller = .ended (.shutDown (.error ())) ∧ s.phase = .finished ∧
      .error () = cleanupResult s.log :=
  have hrun : ∃ s, run (step .deadline) initial refusedShutdown = some s ∧
      s.caller = .ended (.shutDown (.error ())) :=
    ⟨_, rfl, rfl⟩
  have ⟨s, hrun, hcaller⟩ := hrun
  have hshutdown := shutdown_reports_first_failure hrun hcaller
  ⟨s, hrun, hcaller, hshutdown.1, hshutdown.2.1⟩

end Shutdown

section Commits
variable {wait : CancellationWait} {s : State α ξ ε} {log : List (Event ε)}

/-- The engine commits no create that it has already answered. -/
def CommitsInTime (log : List (Event ε)) : Prop :=
  Always (fun before e => ∀ index resource, e = .committed index resource →
    ∀ reply, .reported index resource reply ∉ before) log

theorem spawned_before_removal {before after : List (Event ε)} {index : Nat}
    {resource resource' : Resource} {target : String}
    (hlog : Always Lawful (before ++ .removing resource' target :: after))
    (hspawned : .spawned index resource ∈ before ++ .removing resource' target :: after) :
    .spawned index resource ∈ before := by
  obtain hmem | hmem := List.mem_append.mp hspawned
  · exact hmem
  · obtain habsurd | hmem := List.mem_cons.mp hmem
    · cases habsurd
    · obtain ⟨between, rest, rfl⟩ := List.append_of_mem hmem
      have hcleanup := (hlog before _ _ rfl).1
      have hlater : Lawful (before ++ .removing resource' target :: between)
          (.spawned index resource) :=
        hlog _ _ rest (by simp)
      exact absurd (List.mem_append_left _ hcleanup) hlater.2

/-- With such an engine every resource that it has committed is removed after that. -/
theorem committed_removed_after {moves : List (Move α ξ ε)} {index : Nat} {resource : Resource}
    (hrun : run (step wait) initial moves = some s) (hphase : s.phase = .finished)
    (htime : CommitsInTime s.log) (hcommitted : .committed index resource ∈ s.log) :
    ∃ before target after, s.log = before ++ .removing resource target :: after ∧
      .committed index resource ∈ before ∧
      (((reservations s.log).map Resource.name).count resource.name = 1 →
        (∀ index id, .reported index resource (some (.ok id)) ∈ s.log → target = id) ∧
        ((∀ index id, .reported index resource (some (.ok id)) ∉ s.log) →
          target = resource.name)) := by
  have hkept := run_kept hrun
  have hlawful := hkept.recorded.lawful
  have hstage := hkept.stage
  simp only [Stage, hphase] at hstage
  have hremovals := hstage.1.removals
  rw [List.map_nil, List.append_nil] at hremovals
  have hspawned : .spawned index resource ∈ s.log ∧ resource ∈ reservations s.log := by
    obtain ⟨start, rest, hsplit, hissued, hreserved⟩ := hlawful.mem hcommitted
    have hissued' : .issued index resource ∈ s.log := by
      rw [hsplit]
      exact List.mem_append_left _ hissued
    obtain ⟨start', rest', hsplit', hspawned, _⟩ := hlawful.mem hissued'
    refine ⟨?_, ?_⟩
    · rw [hsplit']
      exact List.mem_append_left _ hspawned
    · rw [hsplit, reservations, List.filterMap_append]
      exact List.mem_append_left _ hreserved
  have hremoved : resource ∈ (removals s.log).map Prod.fst := by
    rw [← (kept_tornDown hkept (.inr (.inr hphase))).returned,
      (kept_tornDown hkept (.inr (.inr hphase))).returns]
    exact List.mem_reverse.mpr hspawned.2
  obtain ⟨⟨removed, target⟩, hremoval, hsame⟩ := List.mem_map.mp hremoved
  obtain rfl : removed = resource := hsame
  obtain ⟨before, after, hlog, _, hsettled, _⟩ := hlawful.mem (mem_removals.mp hremoval)
  refine ⟨before, target, after, hlog, ?_, hkept.target hremovals hremoval⟩
  have hbefore : .spawned index removed ∈ before :=
    spawned_before_removal (hlog ▸ hlawful) (hlog ▸ hspawned.1)
  obtain ⟨reply, hreported⟩ := hsettled index removed hbefore
  rw [hlog] at hcommitted
  obtain hmem | hmem := List.mem_append.mp hcommitted
  · exact hmem
  · obtain habsurd | hmem := List.mem_cons.mp hmem
    · cases habsurd
    · obtain ⟨between, rest, rfl⟩ := List.append_of_mem hmem
      have hlate := htime (before ++ .removing removed target :: between)
        (.committed index removed) rest (by rw [hlog]; simp)
      exact absurd (List.mem_append_left _ hreported) (hlate index _ rfl reply)

/-- The caller goes away while its one create is on its way, which commits and then fails. -/
def committedError : List (Move Nat Unit Unit) :=
  [.spawn none, .build none, .asks (.createNetwork "net"), .advance 0 .succeeds, .poll 0, .drop,
    .call, .call, .cancelWork, .supervise, .commit 0, .reply 0 (some (.error ())), .supervise,
    .supervise, .supervise, .removed (.ok ()), .supervise, .supervise]

theorem committed_removed_error :
    ∃ s : State Nat Unit Unit, run (step .deadline) initial committedError = some s ∧
      ∃ before target after, s.log = before ++ .removing ⟨.network, "net"⟩ target :: after ∧
        .committed 0 ⟨.network, "net"⟩ ∈ before :=
  have hrun : ∃ s, run (step .deadline) initial committedError = some s ∧ s.phase = .finished ∧
      s.log = [.reserved ⟨.network, "net"⟩, .spawned 0 ⟨.network, "net"⟩,
        .issued 0 ⟨.network, "net"⟩, .cleanup, .committed 0 ⟨.network, "net"⟩,
        .reported 0 ⟨.network, "net"⟩ (some (.error ())), .removing ⟨.network, "net"⟩ "net",
        .removed ⟨.network, "net"⟩ (.ok ())] :=
    ⟨_, rfl, rfl, rfl⟩
  have ⟨s, hrun, hphase, hlog⟩ := hrun
  have htime : CommitsInTime s.log := by
    rw [hlog]
    refine AlwaysAfter.always (h := []) ?_ always_nil
    simp [AlwaysAfter]
  have ⟨before, target, after, hsplit, hbefore, _⟩ :=
    @committed_removed_after _ _ _ _ _ _ 0 ⟨.network, "net"⟩ hrun hphase htime
      (by rw [hlog]; simp)
  ⟨s, hrun, before, target, after, hsplit, hbefore⟩

end Commits

end Nigiri.Supervisor
