import Nigiri.NoLeak
import Nigiri.SupervisorCaller

/-! A supervisor can always be brought to its end by the moves of the engine and of the tasks, once
its caller has gone away. -/
namespace Nigiri.Supervisor
open Nigiri.Machine Nigiri.Runtime
variable {α ξ ε : Type}

section Registered
variable {c c' : Core α ξ ε}

/-- Only requests that were spawned are registered or waited for. -/
structure Registered (c : Core α ξ ε) : Prop where
  registry : ∀ index ∈ c.registry, index < c.mutations.length
  pending : ∀ pending after, c.phase = .settling pending after →
    ∀ index ∈ pending, index < c.mutations.length

theorem Registered.of_eq (hc : Registered c) (hregistry : c'.registry = c.registry)
    (hlength : c'.mutations.length = c.mutations.length)
    (hphase : c'.phase = c.phase ∨ ∀ pending after, c'.phase ≠ .settling pending after) :
    Registered c' where
  registry := by
    rw [hregistry, hlength]
    exact hc.registry
  pending pending after h := by
    obtain hphase | hphase := hphase
    · rw [hlength]
      exact hc.pending pending after (hphase ▸ h)
    · exact absurd h (hphase pending after)

theorem CoreStep.registered (h : CoreStep c c') (hc : Registered c) : Registered c' := by
  cases h with
  | spawns hb hw =>
    refine ⟨fun index hmem => ?_, fun pending after hphase index hmem => ?_⟩
    · simp only [Core.setProgress, Core.spawnMutation, List.length_append, List.length_singleton,
        List.mem_append, List.mem_singleton] at hmem ⊢
      obtain hmem | rfl := hmem
      · have hlt := hc.registry index hmem
        omega
      · omega
    · have hlt := hc.pending pending after hphase index hmem
      simp only [Core.setProgress, Core.spawnMutation, List.length_append, List.length_singleton]
      omega
  | cleansUp after hphase =>
    refine ⟨by simp [Core.cleanup], fun pending after hphase index hmem => ?_⟩
    cases hphase
    exact hc.registry index hmem
  | joins hphase hm =>
    refine ⟨hc.registry, fun pending after hphase' index hmem => ?_⟩
    cases hphase'
    exact hc.pending _ _ hphase index (List.mem_cons_of_mem _ hmem)
  | polls | replies => exact hc.of_eq rfl List.length_set (.inl rfl)
  | spawned | built | unbuilt | decides | serves | takesOrder | removes | cleans | finishes
  | removed => exact hc.of_eq rfl rfl (.inr fun _ _ h => by cases h)
  | _ => exact hc.of_eq rfl rfl (.inl rfl)

end Registered

section Finishing
variable {s : State α ξ ε}

/-- The moves of the supervisor, its tasks and the engine. -/
def ByEngine (m : Move α ξ ε) : Prop := m.ofCaller = false

def Finishes (s : State α ξ ε) : Prop :=
  ∃ s', Reaches (step .complete) ByEngine s s' ∧ s'.phase.stopped = true

theorem Finishes.head {s' : State α ξ ε} {m : Move α ξ ε} (hm : m.ofCaller = false)
    (h : step .complete s m = some s') (hs' : Finishes s') : Finishes s := by
  obtain ⟨s'', hreaches, hstopped⟩ := hs'
  exact ⟨s'', hreaches.head hm h, hstopped⟩

theorem Finishes.supervise {s' : State α ξ ε} (h : supervise .complete s = some s')
    (hs' : Finishes s') : Finishes s := .head (m := .supervise) rfl h hs'

theorem cleaned_finishes {firstError : Option ε} {after : After ξ}
    (hphase : s.phase = .cleaned firstError after) : Finishes s := by
  have h : ∃ s', supervise .complete s = some s' ∧ s'.phase = .finished := by
    cases after <;> simp only [supervise, hphase] <;> exact ⟨_, rfl, rfl⟩
  obtain ⟨s', h, hfinished⟩ := h
  exact .supervise h ⟨s', .refl, by rw [hfinished]; rfl⟩

/-- Each removal returns, and the next one is begun. -/
theorem removing_finishes {left : List OwnedResource} {firstError : Option ε} {after : After ξ}
    (hphase : s.phase = .removing left firstError after) : Finishes s := by
  induction left generalizing s firstError with
  | nil =>
    have h : supervise .complete s = some { s with phase := .cleaned firstError after } := by
      simp only [supervise, hphase]
    exact .supervise h (cleaned_finishes rfl)
  | cons owned left ih =>
    have h : supervise .complete s =
        some { s with toCore := s.remove owned left firstError after } := by
      simp only [supervise, hphase]
    refine .supervise h ?_
    have hreturns : step .complete { s with toCore := s.remove owned left firstError after }
        (.removed (.ok ())) = some { s with
          toCore := (s.remove owned left firstError after).removed owned left firstError after
            (.ok ()) } := rfl
    exact .head rfl hreturns (ih rfl)

theorem awaitingRemoval_finishes {owned : OwnedResource} {left : List OwnedResource}
    {firstError : Option ε} {after : After ξ}
    (hphase : s.phase = .awaitingRemoval owned left firstError after) : Finishes s := by
  have h : step .complete s (.removed (.ok ())) =
      some { s with toCore := s.removed owned left firstError after (.ok ()) } := by
    simp only [step, hphase]
  exact .head rfl h (removing_finishes rfl)

theorem reply_settles {index : Nat} {resource : Resource} (hrunning : s.phase.running = true)
    (hm : s.mutations[index]? = some ⟨resource, .inFlight⟩) :
    step .complete s (.reply index none) =
      some { s with toCore := s.settleMutation index resource none } := by
  simp only [step, hrunning, hm]

theorem poll_issues {index : Nat} {resource : Resource} (hrunning : s.phase.running = true)
    (hm : s.mutations[index]? = some ⟨resource, .spawned⟩) :
    step .complete s (.poll index) = some { s with toCore := s.pollMutation index resource } := by
  simp only [step, hrunning, hm]

/-- A request that is waited for can be brought to its end. -/
theorem settling_joins {index : Nat} {pending : List Nat} {after : After ξ}
    (hphase : s.phase = .settling (index :: pending) after) (hlt : index < s.mutations.length) :
    ∃ s', Reaches (step .complete) ByEngine s s' ∧ s'.phase = .settling pending after ∧
      s'.mutations.length = s.mutations.length := by
  have hrunning : s.phase.running = true := by rw [hphase]; rfl
  have hsettled : ∀ {s : State α ξ ε} {resource : Resource} {reply : Option (Except ε String)},
      s.phase = .settling (index :: pending) after →
      s.mutations[index]? = some ⟨resource, .settled reply⟩ →
      step .complete s .supervise = some { s with phase := .settling pending after } := by
    intro s resource reply hphase hm
    simp only [step, supervise, hphase, hm, Option.map_some]
  have hinFlight : ∀ {s : State α ξ ε} {resource : Resource},
      s.phase = .settling (index :: pending) after → index < s.mutations.length →
      s.mutations[index]? = some ⟨resource, .inFlight⟩ →
      ∃ s', Reaches (step .complete) ByEngine s s' ∧ s'.phase = .settling pending after ∧
        s'.mutations.length = s.mutations.length := by
    intro s resource hphase hlt hm
    have hrunning : s.phase.running = true := by rw [hphase]; rfl
    have hset : (s.settleMutation index resource none).mutations[index]? =
        some ⟨resource, .settled none⟩ := List.getElem?_set_self hlt
    refine ⟨_, .head (m := .reply index none) rfl (reply_settles hrunning hm)
      (.head (m := .supervise) rfl (hsettled hphase hset) .refl), rfl, ?_⟩
    exact List.length_set
  obtain ⟨⟨resource, status⟩, hm⟩ : ∃ mutation, s.mutations[index]? = some mutation :=
    ⟨_, List.getElem?_eq_getElem hlt⟩
  cases status with
  | settled reply => exact ⟨_, .head (m := .supervise) rfl (hsettled hphase hm) .refl, rfl, rfl⟩
  | inFlight => exact hinFlight hphase hlt hm
  | spawned =>
    have hset : (s.pollMutation index resource).mutations[index]? = some ⟨resource, .inFlight⟩ :=
      List.getElem?_set_self hlt
    have hlength : (s.pollMutation index resource).mutations.length = s.mutations.length :=
      List.length_set
    have hjoins := @hinFlight { s with toCore := s.pollMutation index resource } resource hphase
      (by rw [hlength]; exact hlt) hset
    obtain ⟨s', hreaches, hphase', hlength'⟩ := hjoins
    exact ⟨s', .head (m := .poll index) rfl (poll_issues hrunning hm) hreaches, hphase',
      hlength'.trans hlength⟩

theorem settling_finishes {pending : List Nat} {after : After ξ}
    (hphase : s.phase = .settling pending after)
    (hpending : ∀ index ∈ pending, index < s.mutations.length) : Finishes s := by
  induction pending generalizing s with
  | nil =>
    have h : supervise .complete s = some { s with toCore := s.takeOrder after } := by
      simp only [supervise, hphase]
    exact .supervise h (removing_finishes rfl)
  | cons index pending ih =>
    obtain ⟨hlt, hpending⟩ := List.forall_mem_cons.mp hpending
    obtain ⟨s', hreaches, hphase', hlength⟩ := settling_joins hphase hlt
    obtain ⟨s'', hreaches', hstopped⟩ := ih hphase' (by rw [hlength]; exact hpending)
    exact ⟨s'', hreaches.trans hreaches', hstopped⟩

theorem Ends.closed {r : ResultChannel (Except (StartError ξ) α)} {sh : Bool}
    (h : Ends .starting r sh) : r = .closed := by
  cases h
  rfl

theorem deciding_finishes {outcome : Outcome α (StartError ξ)} (hr : Registered s.toCore)
    (hphase : s.phase = .deciding outcome) (hclosed : s.result = .closed) : Finishes s := by
  have h : ∃ s' after, supervise .complete s = some s' ∧ s'.phase = .settling s.registry after ∧
      s'.mutations = s.mutations := by
    cases outcome <;> simp only [supervise, hphase, hclosed] <;> exact ⟨_, _, rfl, rfl, rfl⟩
  obtain ⟨s', after, h, hphase', hmutations⟩ := h
  refine .supervise h (settling_finishes hphase' ?_)
  rw [hmutations]
  exact hr.registry

/-- A supervisor whose caller leaves comes to its end. -/
theorem ends_finishes (hr : Registered s.toCore)
    (he : Ends s.phase.position s.result s.shutdown) : Finishes s := by
  cases hphase : s.phase with
  | unspawned =>
    rw [hphase] at he
    cases he
  | building =>
    have h : step .complete s (.build (some "")) = some { s with
        phase := .unbuilt
        result := s.result.send (.error (.engine "start fixture supervisor" "")) } := by
      simp only [step, hphase]
    exact .head rfl h ⟨_, .refl, rfl⟩
  | unbuilt | finished => exact ⟨s, .refl, by rw [hphase]; rfl⟩
  | working =>
    rw [hphase] at he
    have hends : step .complete { s with branches := [] } (.workEnds (.panic none)) =
        some { s with branches := [], phase := .deciding (.panic none) } := by
      simp only [step, hphase]
    have habandon : step .complete s .abandon = some { s with branches := [] } := rfl
    refine .head rfl habandon (.head rfl hends (deciding_finishes ?_ rfl he.closed))
    exact hr.of_eq rfl rfl (.inr fun _ _ h => by cases h)
  | deciding outcome =>
    rw [hphase] at he
    exact deciding_finishes hr hphase he.closed
  | serving =>
    rw [hphase] at he
    cases hshutdown : s.shutdown with
    | true =>
      have h : supervise .complete s = some { s with toCore := s.cleanup .complete } := by
        simp only [supervise, hphase, hshutdown, if_true]
      exact .supervise h (settling_finishes rfl hr.registry)
    | false =>
      rw [hshutdown] at he
      cases he
  | settling pending after => exact settling_finishes hphase (hr.pending pending after hphase)
  | removing => exact removing_finishes hphase
  | awaitingRemoval => exact awaitingRemoval_finishes hphase
  | cleaned => exact cleaned_finishes hphase

end Finishing

section Leaving
variable {s s' : State α ξ ε}

/-- The caller can leave at any time, and the supervisor does not move meanwhile. -/
theorem meets_leaves (hs : s.Meets) (hk : s.caller ≠ .spawning)
    (hended : ∀ how, s.caller ≠ .ended how) :
    ∃ s', Reaches (step .complete) (fun _ => True) s s' ∧
      (∃ after, s'.caller = .joining false after) ∧ s'.toCore = s.toCore := by
  have hcancels : ∀ {s : State α ξ ε} {after : CallerEnd ξ ε}, s.caller = .cancelling after →
      ∃ s', Reaches (step .complete) (fun _ => True) s s' ∧
        (∃ after, s'.caller = .joining false after) ∧ s'.toCore = s.toCore := by
    intro s after hcaller
    have h : step .complete s .call = some { s with
        cancelled := ⟨true, true⟩
        caller := .joining false after } := by
      simp [step, call, hcaller]
    exact ⟨_, .head trivial h .refl, ⟨after, rfl⟩, rfl⟩
  have hdrops : ∀ {s : State α ξ ε}, s.caller = .droppingReceiver →
      ∃ s', Reaches (step .complete) (fun _ => True) s s' ∧
        (∃ after, s'.caller = .joining false after) ∧ s'.toCore = s.toCore := by
    intro s hcaller
    have h : ∃ next, step .complete s .call = some next ∧ next.caller = .cancelling .dropped ∧
        next.toCore = s.toCore := by
      simp only [step, call, hcaller]
      split <;> exact ⟨_, rfl, rfl, rfl⟩
    obtain ⟨next, h, hnext, hcore⟩ := h
    obtain ⟨s', hreaches, hjoining, hcore'⟩ := hcancels hnext
    exact ⟨s', hreaches.head trivial h, hjoining, hcore'.trans hcore⟩
  cases hcaller : s.caller with
  | spawning => exact absurd hcaller hk
  | ended how => exact absurd hcaller (hended how)
  | awaitingResult =>
    have h : step .complete s .drop = some { s with caller := .droppingReceiver } := by
      simp only [step, hcaller]
    obtain ⟨s', hreaches, hjoining, hcore⟩ := @hdrops { s with caller := .droppingReceiver } rfl
    exact ⟨s', hreaches.head trivial h, hjoining, hcore⟩
  | droppingReceiver => exact hdrops hcaller
  | holding | shuttingDown =>
    have h : step .complete s .drop = some { s with
        shutdown := true
        caller := .joining false .dropped } := by
      simp only [step, hcaller]
    exact ⟨_, .head trivial h .refl, ⟨_, rfl⟩, rfl⟩
  | cancelling after => exact hcancels hcaller
  | joining detachable after =>
    rw [State.Meets, hcaller] at hs
    cases hs with
    | listening hk => cases hk
    | leaving hk =>
      cases hk
      exact ⟨s, .refl, ⟨after, hcaller⟩, rfl⟩

theorem reaches_meets {kind : Move α ξ ε → Prop} (hs : s.Meets)
    (h : Reaches (step .complete) kind s s') : s'.Meets :=
  h.invariant (I := State.Meets) (fun _ _ _ _ => step_meets) hs

theorem reaches_caller (h : Reaches (step .complete) ByEngine s s') : s'.caller = s.caller :=
  h.invariant (I := fun t => t.caller = s.caller)
    (fun _ _ _ hm ht hstep => (step_advances hm hstep).1.trans ht) rfl

/-- The caller of a supervisor can always come to its end. -/
theorem meets_ends (hs : s.Meets) (hr : Registered s.toCore) (hk : s.caller ≠ .spawning)
    (hended : ∀ how, s.caller ≠ .ended how) :
    ∃ s' how, Reaches (step .complete) (fun _ => True) s s' ∧ s'.caller = .ended how := by
  obtain ⟨left, hleft, ⟨after, hjoining⟩, hcore⟩ := meets_leaves hs hk hended
  have hmeets := reaches_meets hs hleft
  have hends : Ends left.phase.position left.result left.shutdown := by
    rw [State.Meets, hjoining] at hmeets
    cases hmeets with
    | listening hk => cases hk
    | leaving hk he => exact he
  obtain ⟨stopped, hstops, hstopped⟩ := ends_finishes (hcore ▸ hr) hends
  have hcaller := (reaches_caller hstops).trans hjoining
  have hjoined : step .complete stopped .joined = some { stopped with caller := .ended after } := by
    simp only [step, hcaller, hstopped, if_true]
  refine ⟨{ stopped with caller := .ended after }, after, hleft.trans ?_, rfl⟩
  exact (hstops.mono fun _ _ => trivial).trans (.head trivial hjoined .refl)

end Leaving

end Nigiri.Supervisor
