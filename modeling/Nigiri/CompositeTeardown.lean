import Nigiri.CleanupReport
import Nigiri.Composite
import Nigiri.SupervisorEnds

/-! Whichever way a composite ends, each stack is torn down once, and the Bitcoin stack after the
one that depends on it. -/
namespace Nigiri.Composite
open Nigiri.Machine Nigiri.Runtime Nigiri.Supervisor
variable {α β ξ ε : Type}

section Stacks

/-- What holds of a supervisor in any run. -/
structure Sound (s : Supervisor.State α ξ ε) : Prop where
  kept : Kept s.toCore
  registered : Registered s.toCore
  meets : s.Meets

variable {s s' : Supervisor.State α ξ ε} {m : Supervisor.Move α ξ ε}

theorem sound_initial : Sound (Supervisor.initial : Supervisor.State α ξ ε) where
  kept := kept_initial
  registered := ⟨by simp [Supervisor.initial], fun _ _ h => by cases h⟩
  meets := .spawning

theorem Sound.step (hs : Sound s) (h : Supervisor.step .complete s m = some s') : Sound s' :=
  ⟨(step_core h).kept hs.kept, (step_core h).registered hs.registered, step_meets hs.meets h⟩

/-- Nothing is removed of a stack that is held. -/
theorem Sound.holds (hs : Sound s) (hholds : holds s.caller = true) : removals s.log = [] := by
  have hmeets := hs.meets
  have hstage := hs.kept.stage
  cases hcaller : s.caller with
  | holding value =>
    have hposition : s.phase.position = .serving := by
      rw [State.Meets, hcaller] at hmeets
      generalize s.phase.position = p, s.result = r, s.shutdown = sh at hmeets
      cases hmeets with
      | holding => rfl
      | listening hk => cases hk
      | leaving hk => cases hk
    cases hphase : s.phase with
    | serving =>
      simp only [Stage, hphase] at hstage
      exact hstage.1.removals
    | settling _ after | removing _ _ after | awaitingRemoval _ _ _ after | cleaned _ after =>
      rw [hphase] at hposition
      cases after <;> cases hposition
    | _ =>
      rw [hphase] at hposition
      cases hposition
  | _ =>
    rw [hcaller] at hholds
    cases hholds

theorem idle_of_position {phase : Phase α ξ ε}
    (h : phase.position = .unspawned ∨ phase.position = .stopped) : Idle phase := by
  cases phase with
  | unspawned => exact .inl rfl
  | unbuilt => exact .inr (.inl rfl)
  | finished => exact .inr (.inr rfl)
  | settling _ after | removing _ _ after | awaitingRemoval _ _ _ after | cleaned _ after =>
    cases after <;> obtain h | h := h <;> cases h
  | _ => obtain h | h := h <;> cases h

theorem Sound.departed (hs : Sound s) (hdeparted : departed s.caller = true) : Idle s.phase := by
  have hmeets := hs.meets
  apply idle_of_position
  rw [State.Meets] at hmeets
  generalize s.caller = k at hmeets hdeparted
  generalize s.phase.position = p, s.result = r, s.shutdown = sh at hmeets ⊢
  cases hmeets with
  | spawning => exact .inl rfl
  | unspawned => exact .inl rfl
  | listening hk => cases hk <;> cases hdeparted
  | holding => cases hdeparted
  | leaving hk => cases hk <;> cases hdeparted
  | ended => exact .inr rfl

/-- A caller that is called upon can bring its stack to its end. -/
theorem sound_ends {t : Supervisor.State α ξ ε} (hs : Sound t) :
    ∃ t', Reaches (Supervisor.step .complete) (fun _ => True) t t' ∧
      departed t'.caller = true := by
  cases hdeparted : departed t.caller with
  | true => exact ⟨t, .refl, hdeparted⟩
  | false =>
    have hk : t.caller ≠ .spawning := by
      intro h
      rw [h] at hdeparted
      cases hdeparted
    have hended : ∀ how, t.caller ≠ .ended how := by
      intro how h
      rw [h] at hdeparted
      cases hdeparted
    obtain ⟨t', how, hreaches, hcaller⟩ := meets_ends hs.meets hs.registered hk hended
    exact ⟨t', hreaches, by rw [hcaller]; rfl⟩

/-- A caller that waits for the complete cleanup is over only when all that was reserved has been
removed, and can always come to that. -/
theorem complete_caller_waits {moves : List (Supervisor.Move α ξ ε)}
    (hrun : run (Supervisor.step .complete) Supervisor.initial moves = some s) :
    (Composite.holds s.caller = true → removals s.log = []) ∧
    (Composite.departed s.caller = true → Idle s.phase ∧ TornDown s.toCore) ∧
    ∃ more s', run (Supervisor.step .complete) s more = some s' ∧
      Composite.departed s'.caller = true := by
  have hs : Sound s := run_invariant (fun _ _ _ => Sound.step) sound_initial hrun
  refine ⟨hs.holds, fun hdeparted => ?_, ?_⟩
  · exact ⟨hs.departed hdeparted, kept_tornDown hs.kept (hs.departed hdeparted)⟩
  · obtain ⟨s', ⟨more, _, hmore⟩, hdeparted⟩ := sound_ends hs
    exact ⟨more, s', hmore, hdeparted⟩

theorem complete_caller_waits_refused :
    ∃ s : Supervisor.State Nat Unit Unit,
      run (Supervisor.step .complete) Supervisor.initial refusedShutdown = some s ∧
      Idle s.phase ∧ TornDown s.toCore :=
  have hrun : ∃ s, run (Supervisor.step .complete) Supervisor.initial refusedShutdown = some s ∧
      Composite.departed s.caller = true :=
    ⟨_, rfl, rfl⟩
  have ⟨s, hrun, hdeparted⟩ := hrun
  ⟨s, hrun, (complete_caller_waits hrun).2.1 hdeparted⟩

end Stacks

section Order
variable {shape : Shape} {s s' : State α β ξ ε} {m : Move α β ξ ε}

/-- Which of the stacks is held, and which is over, at each point. -/
def Placed (s : State α β ξ ε) : Prop :=
  match s.point with
  | .startingBitcoin => s.dependent.caller = .spawning
  | .startingDependent | .endingDependent => holds s.bitcoin.caller = true
  | .attachingLogs => holds s.bitcoin.caller = true ∧ departed s.dependent.caller = true
  | .connecting | .held => holds s.bitcoin.caller = true ∧ holds s.dependent.caller = true
  | .endingBitcoin => departed s.dependent.caller = true
  | .ended => departed s.bitcoin.caller = true ∧ departed s.dependent.caller = true

structure Ordered (s : State α β ξ ε) : Prop where
  bitcoin : Sound s.bitcoin
  dependent : Sound s.dependent
  placed : Placed s

theorem goesOn_placed (hs : Placed s) (h : goesOn shape s = some s') : Placed s' := by
  simp only [goesOn] at h
  split at h
  · next hpoint =>
    split at h
    · next hholds =>
      cases h
      exact hholds
    · cases h
  · next hpoint =>
    simp only [Placed, hpoint] at hs
    split at h
    · next hholds =>
      cases h
      cases shape.connects <;> exact ⟨hs, hholds⟩
    · cases h
  · next hpoint =>
    simp only [Placed, hpoint] at hs
    cases h
    exact hs.2
  · next hpoint =>
    simp only [Placed, hpoint] at hs
    cases h
    exact hs
  · next hpoint =>
    split at h
    · next hdeparted =>
      cases h
      exact hdeparted
    · cases h
  · next hpoint =>
    simp only [Placed, hpoint] at hs
    split at h
    · next hdeparted =>
      cases h
      exact ⟨hdeparted, hs⟩
    · cases h
  · cases h
  · cases h

theorem leaves_placed {how : Leaving} (hs : Placed s) (h : leaves shape s how = some s') :
    Placed s' := by
  simp only [leaves] at h
  split at h
  · next hpoint =>
    simp only [Placed, hpoint] at hs
    split at h
    · next hdeparted =>
      cases h
      exact ⟨hdeparted, by rw [hs]; rfl⟩
    · cases h
  · next hpoint =>
    simp only [Placed, hpoint] at hs
    split at h
    · next hdeparted =>
      cases h
      cases how with
      | failed => exact ⟨hs, hdeparted⟩
      | cancelled => cases hlogs : shape.logsWhenCancelled <;> simp [Placed, hs, hdeparted]
      | panicked => exact hdeparted
    · cases h
  · next hpoint =>
    simp only [Placed, hpoint] at hs
    split at h
    · cases h
      exact hs.2
    · cases h
  · next hpoint =>
    simp only [Placed, hpoint] at hs
    cases h
    exact hs.1
  · cases h

theorem bitcoin_step {move : Supervisor.Move α ξ ε} (h : step shape s (.bitcoin move) = some s') :
    ∃ bitcoin, Supervisor.step .complete s.bitcoin move = some bitcoin ∧
      s' = { s with bitcoin := bitcoin } ∧
      (move.ofCaller = true → s.point = .startingBitcoin ∨ s.point = .endingBitcoin) := by
  simp only [step] at h
  split at h
  · cases h
  · next hcalls =>
    obtain ⟨bitcoin, hbitcoin, hs'⟩ := Option.map_eq_some_iff.mp h
    refine ⟨bitcoin, hbitcoin, hs'.symm, fun hm => ?_⟩
    rw [hm] at hcalls
    cases hpoint : s.point with
    | startingBitcoin => exact .inl rfl
    | endingBitcoin => exact .inr rfl
    | _ =>
      rw [hpoint] at hcalls
      exact absurd rfl hcalls

theorem dependent_step {move : Supervisor.Move β ξ ε}
    (h : step shape s (.dependent move) = some s') :
    ∃ dependent, Supervisor.step .complete s.dependent move = some dependent ∧
      s' = { s with dependent := dependent } ∧
      (move.ofCaller = true → s.point = .startingDependent ∨ s.point = .endingDependent) := by
  simp only [step] at h
  split at h
  · cases h
  · next hcalls =>
    obtain ⟨dependent, hdependent, hs'⟩ := Option.map_eq_some_iff.mp h
    refine ⟨dependent, hdependent, hs'.symm, fun hm => ?_⟩
    rw [hm] at hcalls
    cases hpoint : s.point with
    | startingDependent => exact .inl rfl
    | endingDependent => exact .inr rfl
    | _ =>
      rw [hpoint] at hcalls
      exact absurd rfl hcalls

/-- The stacks move by themselves without a change of what is held and what is over. -/
theorem placed_of_callers {bitcoin : Supervisor.State α ξ ε} {dependent : Supervisor.State β ξ ε}
    (hs : Placed s) (hbitcoin : bitcoin.caller = s.bitcoin.caller)
    (hdependent : dependent.caller = s.dependent.caller) :
    Placed ⟨s.point, bitcoin, dependent⟩ := by
  simp only [Placed] at hs ⊢
  rw [hbitcoin, hdependent]
  exact hs

theorem goesOn_stacks (h : goesOn shape s = some s') :
    s'.bitcoin = s.bitcoin ∧ s'.dependent = s.dependent := by
  simp only [goesOn] at h
  repeat' split at h
  all_goals cases h
  all_goals exact ⟨rfl, rfl⟩

theorem leaves_stacks {how : Leaving} (h : leaves shape s how = some s') :
    s'.bitcoin = s.bitcoin ∧ s'.dependent = s.dependent := by
  simp only [leaves] at h
  repeat' split at h
  all_goals cases h
  all_goals exact ⟨rfl, rfl⟩

theorem step_ordered (hs : Ordered s) (h : step shape s m = some s') : Ordered s' := by
  obtain ⟨hbitcoin, hdependent, hplaced⟩ := hs
  cases m with
  | bitcoin move =>
    obtain ⟨bitcoin, hstep, rfl, hcalls⟩ := bitcoin_step h
    refine ⟨hbitcoin.step hstep, hdependent, ?_⟩
    cases hm : move.ofCaller with
    | false => exact placed_of_callers hplaced (step_advances hm hstep).1 rfl
    | true =>
      obtain hpoint | hpoint := hcalls hm <;> simp only [Placed, hpoint] at hplaced ⊢ <;>
        exact hplaced
  | dependent move =>
    obtain ⟨dependent, hstep, rfl, hcalls⟩ := dependent_step h
    refine ⟨hbitcoin, hdependent.step hstep, ?_⟩
    cases hm : move.ofCaller with
    | false => exact placed_of_callers hplaced rfl (step_advances hm hstep).1
    | true =>
      obtain hpoint | hpoint := hcalls hm <;> simp only [Placed, hpoint] at hplaced ⊢ <;>
        exact hplaced
  | goesOn =>
    obtain ⟨hbitcoin', hdependent'⟩ := goesOn_stacks h
    exact ⟨hbitcoin' ▸ hbitcoin, hdependent' ▸ hdependent, goesOn_placed hplaced h⟩
  | leaves how =>
    obtain ⟨hbitcoin', hdependent'⟩ := leaves_stacks h
    exact ⟨hbitcoin' ▸ hbitcoin, hdependent' ▸ hdependent, leaves_placed hplaced h⟩
  | released =>
    simp only [step] at h
    split at h
    · next hpoint =>
      simp only [Placed, hpoint] at hplaced
      cases h
      exact ⟨hbitcoin, hdependent, hplaced.1⟩
    · cases h

theorem ordered_initial : Ordered (initial : State α β ξ ε) := ⟨sound_initial, sound_initial, rfl⟩

/-- Nothing of the Bitcoin stack is removed before the dependent stack is over. -/
theorem Ordered.departed (hs : Ordered s) (hremovals : removals s.bitcoin.log ≠ []) :
    Composite.departed s.dependent.caller = true := by
  have hbitcoin : holds s.bitcoin.caller ≠ true := fun hholds => hremovals (hs.bitcoin.holds hholds)
  have hplaced := hs.placed
  cases hpoint : s.point with
  | startingBitcoin =>
    simp only [Placed, hpoint] at hplaced
    rw [hplaced]
    rfl
  | startingDependent | endingDependent =>
    simp only [Placed, hpoint] at hplaced
    exact absurd hplaced hbitcoin
  | attachingLogs | connecting | held =>
    simp only [Placed, hpoint] at hplaced
    exact absurd hplaced.1 hbitcoin
  | endingBitcoin =>
    simp only [Placed, hpoint] at hplaced
    exact hplaced
  | ended =>
    simp only [Placed, hpoint] at hplaced
    exact hplaced.2

/-- Once a removal of the Bitcoin stack has begun, none of the dependent stack begins. -/
theorem step_removals (hs : Ordered s) (hremovals : removals s.bitcoin.log ≠ [])
    (h : step shape s m = some s') :
    removals s'.bitcoin.log ≠ [] ∧ removals s'.dependent.log = removals s.dependent.log := by
  cases m with
  | bitcoin move =>
    obtain ⟨bitcoin, hstep, rfl, _⟩ := bitcoin_step h
    obtain ⟨more, hlog⟩ := step_log (step_core hstep)
    refine ⟨?_, rfl⟩
    rw [hlog, removals, List.filterMap_append]
    exact fun hnil => hremovals (List.append_eq_nil_iff.mp hnil).1
  | dependent move =>
    obtain ⟨dependent, hstep, rfl, _⟩ := dependent_step h
    refine ⟨hremovals, idle_removals (step_core hstep) ?_⟩
    exact hs.dependent.departed (hs.departed hremovals)
  | goesOn =>
    obtain ⟨hbitcoin, hdependent⟩ := goesOn_stacks h
    rw [hbitcoin, hdependent]
    exact ⟨hremovals, rfl⟩
  | leaves how =>
    obtain ⟨hbitcoin, hdependent⟩ := leaves_stacks h
    rw [hbitcoin, hdependent]
    exact ⟨hremovals, rfl⟩
  | released =>
    simp only [step] at h
    split at h
    · cases h
      exact ⟨hremovals, rfl⟩
    · cases h

theorem run_removals {moves : List (Move α β ξ ε)} (hs : Ordered s)
    (hremovals : removals s.bitcoin.log ≠ []) (hrun : run (step shape) s moves = some s') :
    removals s'.dependent.log = removals s.dependent.log := by
  have hkeep : ∀ (t : State α β ξ ε) m t',
      Ordered t ∧ removals t.bitcoin.log ≠ [] ∧
        removals t.dependent.log = removals s.dependent.log →
      step shape t m = some t' →
      Ordered t' ∧ removals t'.bitcoin.log ≠ [] ∧
        removals t'.dependent.log = removals s.dependent.log := by
    intro t m t' ht h
    obtain ⟨hordered, hbitcoin, hdependent⟩ := ht
    obtain ⟨hbitcoin', hdependent'⟩ := step_removals hordered hbitcoin h
    exact ⟨step_ordered hordered h, hbitcoin', hdependent'.trans hdependent⟩
  exact (run_invariant hkeep ⟨hs, hremovals, rfl⟩ hrun).2.2

end Order

section Completion
variable {shape : Shape} {s : State α β ξ ε}

def Completes (shape : Shape) (s : State α β ξ ε) : Prop :=
  ∃ s', Reaches (step shape) (fun _ => True) s s' ∧ s'.point = .ended

theorem Completes.head {s' : State α β ξ ε} {m : Move α β ξ ε} (h : step shape s m = some s')
    (hs' : Completes shape s') : Completes shape s := by
  obtain ⟨ended, hreaches, hended⟩ := hs'
  exact ⟨ended, hreaches.head trivial h, hended⟩

theorem bitcoin_ends (hs : Sound s.bitcoin) (hcalls : s.point.calls .bitcoin = true) :
    ∃ bitcoin, Reaches (step shape) (fun _ => True) s { s with bitcoin := bitcoin } ∧
      departed bitcoin.caller = true := by
  obtain ⟨bitcoin, ⟨moves, hkind, hrun⟩, hdeparted⟩ := sound_ends hs
  refine ⟨bitcoin, ⟨moves.map .bitcoin, by simp, ?_⟩, hdeparted⟩
  clear hs hkind
  induction moves generalizing s with
  | nil =>
    obtain rfl := Option.some.inj hrun
    rfl
  | cons move moves ih =>
    obtain ⟨next, hnext, hrest⟩ := run_cons.mp hrun
    have h : step shape s (.bitcoin move) = some { s with bitcoin := next } := by
      simp [step, hcalls, hnext]
    exact run_cons.mpr ⟨_, h, @ih { s with bitcoin := next } hcalls hrest⟩

theorem dependent_ends (hs : Sound s.dependent) (hcalls : s.point.calls .dependent = true) :
    ∃ dependent, Reaches (step shape) (fun _ => True) s { s with dependent := dependent } ∧
      departed dependent.caller = true := by
  obtain ⟨dependent, ⟨moves, hkind, hrun⟩, hdeparted⟩ := sound_ends hs
  refine ⟨dependent, ⟨moves.map .dependent, by simp, ?_⟩, hdeparted⟩
  clear hs hkind
  induction moves generalizing s with
  | nil =>
    obtain rfl := Option.some.inj hrun
    rfl
  | cons move moves ih =>
    obtain ⟨next, hnext, hrest⟩ := run_cons.mp hrun
    have h : step shape s (.dependent move) = some { s with dependent := next } := by
      simp [step, hcalls, hnext]
    exact run_cons.mpr ⟨_, h, @ih { s with dependent := next } hcalls hrest⟩

theorem endingBitcoin_completes (hs : Sound s.bitcoin) (hpoint : s.point = .endingBitcoin) :
    Completes shape s := by
  obtain ⟨bitcoin, hreaches, hdeparted⟩ := @bitcoin_ends _ _ _ _ shape s hs (by rw [hpoint]; rfl)
  have h : step shape { s with bitcoin := bitcoin } .goesOn =
      some { s with bitcoin := bitcoin, point := .ended } := by
    simp [step, goesOn, hpoint, hdeparted]
  exact ⟨_, hreaches.trans (.head trivial h .refl), rfl⟩

theorem endingDependent_completes (hs : Ordered s) (hpoint : s.point = .endingDependent) :
    Completes shape s := by
  obtain ⟨dependent, hreaches, hdeparted⟩ :=
    @dependent_ends _ _ _ _ shape s hs.dependent (by rw [hpoint]; rfl)
  have h : step shape { s with dependent := dependent } .goesOn =
      some { s with dependent := dependent, point := .endingBitcoin } := by
    simp [step, goesOn, hpoint, hdeparted]
  obtain ⟨ended, hends, hended⟩ := Completes.head h (endingBitcoin_completes hs.bitcoin rfl)
  exact ⟨ended, hreaches.trans hends, hended⟩

/-- From any point on the composite can come to its end. -/
theorem Ordered.completes (hs : Ordered s) : Completes shape s := by
  have hlogs : ∀ {s : State α β ξ ε}, Sound s.bitcoin → s.point = .attachingLogs →
      Completes shape s := by
    intro s hbitcoin hpoint
    have h : step shape s .goesOn = some { s with point := .endingBitcoin } := by
      simp [step, goesOn, hpoint]
    exact .head h (endingBitcoin_completes hbitcoin rfl)
  cases hpoint : s.point with
  | startingBitcoin =>
    obtain ⟨bitcoin, hreaches, hdeparted⟩ :=
      @bitcoin_ends _ _ _ _ shape s hs.bitcoin (by rw [hpoint]; rfl)
    have h : step shape { s with bitcoin := bitcoin } (.leaves .failed) =
        some { s with bitcoin := bitcoin, point := .ended } := by
      simp [step, leaves, hpoint, hdeparted]
    exact ⟨_, hreaches.trans (.head trivial h .refl), rfl⟩
  | startingDependent =>
    obtain ⟨dependent, hreaches, hdeparted⟩ :=
      @dependent_ends _ _ _ _ shape s hs.dependent (by rw [hpoint]; rfl)
    have h : step shape { s with dependent := dependent } (.leaves .failed) =
        some { s with dependent := dependent, point := .attachingLogs } := by
      simp [step, leaves, hpoint, hdeparted]
    obtain ⟨ended, hends, hended⟩ := Completes.head h (hlogs hs.bitcoin rfl)
    exact ⟨ended, hreaches.trans hends, hended⟩
  | attachingLogs => exact hlogs hs.bitcoin hpoint
  | connecting =>
    have h : step shape s (.leaves .failed) = some { s with point := .endingDependent } := by
      simp [step, leaves, hpoint]
    exact .head h (endingDependent_completes (step_ordered hs h) rfl)
  | held =>
    have h : step shape s .released = some { s with point := .endingDependent } := by
      simp [step, hpoint]
    exact .head h (endingDependent_completes (step_ordered hs h) rfl)
  | endingDependent => exact endingDependent_completes hs hpoint
  | endingBitcoin => exact endingBitcoin_completes hs.bitcoin hpoint
  | ended => exact ⟨s, .refl, hpoint⟩

end Completion

section Runs
variable {shape : Shape} {s : State α β ξ ε} {moves : List (Move α β ξ ε)}

theorem run_ordered (hrun : run (step shape) initial moves = some s) : Ordered s :=
  run_invariant (fun _ _ _ => step_ordered) ordered_initial hrun

/-- Once a removal of the Bitcoin stack has begun, every removal of the dependent stack has returned
and none is begun any more. However the composite ends, with whatever errors, each stack that was
started has been torn down once; and it can be brought to its end from wherever it is. -/
theorem composite_torn_down (hrun : run (step shape) initial moves = some s) :
    (removals s.bitcoin.log ≠ [] →
      TornDown s.dependent.toCore ∧
        returned s.dependent.log = (removals s.dependent.log).map Prod.fst ∧
        ∀ more s', run (step shape) s more = some s' →
          removals s'.dependent.log = removals s.dependent.log) ∧
    (s.point = .ended → TornDown s.bitcoin.toCore ∧ TornDown s.dependent.toCore) ∧
    ∃ more s', run (step shape) s more = some s' ∧ s'.point = .ended := by
  have hs := run_ordered hrun
  refine ⟨fun hremovals => ?_, fun hpoint => ?_, ?_⟩
  · have htorn := kept_tornDown hs.dependent.kept (hs.dependent.departed (hs.departed hremovals))
    exact ⟨htorn, htorn.returned, fun _ _ => run_removals hs hremovals⟩
  · have hplaced := hs.placed
    simp only [Placed, hpoint] at hplaced
    exact ⟨kept_tornDown hs.bitcoin.kept (hs.bitcoin.departed hplaced.1),
      kept_tornDown hs.dependent.kept (hs.dependent.departed hplaced.2)⟩
  · obtain ⟨s', ⟨more, _, hmore⟩, hended⟩ := @Ordered.completes _ _ _ _ shape s hs
    exact ⟨more, s', hmore, hended⟩

/-- The check of a started pair fails, and so does the removal of its dependent container. -/
def failedConnect : List (Move Nat Nat Unit Unit) :=
  [.spawn none, .build none, .asks (.createNetwork "net"), .advance 0 .succeeds, .poll 0,
      .reply 0 (some (.ok "n1")), .advance 0 .succeeds, .returns, .workEnds (.value 1), .supervise,
      .receive].map .bitcoin ++
    .goesOn :: [.spawn none, .build none, .asks (.startContainer "elements"), .advance 0 .succeeds,
      .advance 0 .succeeds, .poll 0, .reply 0 (some (.ok "e1")), .advance 0 .succeeds,
      .advance 0 .succeeds, .returns, .workEnds (.value 2), .supervise, .receive].map .dependent ++
    .goesOn :: .leaves .failed ::
    [.drop, .supervise, .supervise, .supervise, .supervise, .removed (.error ()), .supervise,
      .supervise, .joined].map .dependent ++
    .goesOn :: [.drop, .supervise, .supervise, .supervise, .supervise].map .bitcoin

theorem composite_torn_down_failedConnect :
    ∃ s : State Nat Nat Unit Unit, run (step pegPair) initial failedConnect = some s ∧
      removals s.bitcoin.log = [(⟨.network, "net"⟩, "n1")] ∧ TornDown s.dependent.toCore ∧
      returned s.dependent.log = [⟨.container, "elements"⟩] :=
  have hrun : ∃ s, run (step pegPair) initial failedConnect = some s ∧
      removals s.bitcoin.log = [(⟨.network, "net"⟩, "n1")] ∧
      removals s.dependent.log = [(⟨.container, "elements"⟩, "e1")] :=
    ⟨_, rfl, rfl, rfl⟩
  have ⟨s, hrun, hbitcoin, hdependent⟩ := hrun
  have htorn := (composite_torn_down hrun).1 (by rw [hbitcoin]; simp)
  ⟨s, hrun, hbitcoin, htorn.1, by rw [htorn.2.1, hdependent]; rfl⟩

end Runs

end Nigiri.Composite
