import Nigiri.Machine
import Nigiri.Supervisor

/-! How far a supervisor can be in what its caller knows, for a caller that waits for the complete
cleanup. -/
namespace Nigiri.Supervisor
open Nigiri.Machine Nigiri.Runtime
variable {α ξ ε : Type}

section Positions

/-- A supervisor is detached where it cleans up with nobody to tell. -/
inductive Position where
  | unspawned
  | starting
  | detached
  | serving
  | closing
  | stopped

def After.position : After ξ → Position
  | .complete => .closing
  | .publish _ => .starting
  | .nothing => .detached

def Phase.position : Phase α ξ ε → Position
  | .unspawned => .unspawned
  | .building | .working | .deciding _ => .starting
  | .serving => .serving
  | .settling _ after | .removing _ _ after | .awaitingRemoval _ _ _ after | .cleaned _ after =>
    after.position
  | .unbuilt | .finished => .stopped

/-- What a move that is not the caller's can do to what the caller sees. -/
inductive Advance : Position → ResultChannel (Except (StartError ξ) α) → Bool → Position →
    ResultChannel (Except (StartError ξ) α) → Bool → Prop
  | stays {p r sh} : Advance p r sh p r sh
  | serves {r sh} (value : α) (hr : r ≠ .closed) :
    Advance .starting r sh .serving (.sent (.ok value)) sh
  | unsent {sh} : Advance .starting .closed sh .closing .closed true
  | fails {r sh} (error : StartError ξ) :
    Advance .starting r sh .stopped (r.send (.error error)) sh
  | shutsDown {r} : Advance .serving r true .closing r true
  | completes {r sh} : Advance .closing r sh .stopped r sh
  | detaches {r sh} : Advance .detached r sh .stopped r sh

/-- What a move of the caller's can do. -/
inductive CallerStep : Caller α ξ ε → Position → ResultChannel (Except (StartError ξ) α) → Bool →
    Caller α ξ ε → Position → ResultChannel (Except (StartError ξ) α) → Bool → Prop
  | spawns {r sh} : CallerStep .spawning .unspawned r sh .awaitingResult .starting r sh
  | spawnFails {r sh how} : CallerStep .spawning .unspawned r sh (.ended how) .unspawned r sh
  | receives {p sh} (value : α) :
    CallerStep .awaitingResult p (.sent (.ok value)) sh (.holding value) p .received sh
  | fails {p sh after} (error : StartError ξ) :
    CallerStep .awaitingResult p (.sent (.error error)) sh (.joining false after) p .received sh
  | misses {r sh after} : CallerStep .awaitingResult .stopped r sh (.cancelling after) .stopped r sh
  | drops {p r sh} : CallerStep .awaitingResult p r sh .droppingReceiver p r sh
  | dropsOffer {p sh after} (value : α) :
    CallerStep .droppingReceiver p (.sent (.ok value)) sh (.cancelling after) p .closed true
  | dropsReceiver {p r sh after} (hr : ∀ value, r ≠ .sent (.ok value)) :
    CallerStep .droppingReceiver p r sh (.cancelling after) p .closed sh
  | dropsHandle {p r sh after} (value : α) :
    CallerStep (.holding value) p r sh (.joining false after) p r true
  | beginsShutdown {p r sh} (value : α) :
    CallerStep (.holding value) p r sh .shuttingDown p r true
  | dropsShutdown {p r sh after} :
    CallerStep .shuttingDown p r sh (.joining false after) p r true
  | completes {p r sh after} : CallerStep .shuttingDown p r sh (.joining false after) p r sh
  | cancels {p r sh after} : CallerStep (.cancelling after) p r sh (.joining false after) p r sh
  | joins {r sh detachable after} :
    CallerStep (.joining detachable after) .stopped r sh (.ended after) .stopped r sh
  | detaches {p r sh detachable after} (hd : detachable = true) :
    CallerStep (.joining detachable after) p r sh (.ended after) p r sh

/-- The caller still has the receiver of the result. -/
inductive Listens : Caller α ξ ε → Prop
  | awaitingResult : Listens .awaitingResult
  | droppingReceiver : Listens .droppingReceiver

/-- The caller waits for the thread to end. -/
inductive Leaves : Caller α ξ ε → Prop
  | shuttingDown : Leaves .shuttingDown
  | cancelling {after} : Leaves (.cancelling after)
  | joining {after} : Leaves (.joining false after)

/-- What a caller that listens may find. -/
inductive Offers : Position → ResultChannel (Except (StartError ξ) α) → Bool → Prop
  | starting : Offers .starting .empty false
  | offered (value : α) : Offers .serving (.sent (.ok value)) false
  | refused (error : StartError ξ) : Offers .stopped (.sent (.error error)) false

/-- How far the supervisor is behind a caller that leaves. -/
inductive Ends : Position → ResultChannel (Except (StartError ξ) α) → Bool → Prop
  | starting {sh} : Ends .starting .closed sh
  | serving {r} : Ends .serving r true
  | closing {r} : Ends .closing r true
  | stopped {r sh} : Ends .stopped r sh

/-- The states that both sides are in together. -/
inductive Meets : Caller α ξ ε → Position → ResultChannel (Except (StartError ξ) α) → Bool → Prop
  | spawning : Meets .spawning .unspawned .empty false
  | unspawned {how} : Meets (.ended how) .unspawned .empty false
  | listening {k p r sh} (hk : Listens k) (ho : Offers p r sh) : Meets k p r sh
  | holding (value : α) : Meets (.holding value) .serving .received false
  | leaving {k p r sh} (hk : Leaves k) (he : Ends p r sh) : Meets k p r sh
  | ended {how r sh} : Meets (.ended how) .stopped r sh

def State.Meets (s : State α ξ ε) : Prop :=
  Supervisor.Meets s.caller s.phase.position s.result s.shutdown

end Positions

section Advance
variable {s s' : State α ξ ε} {m : Move α ξ ε}

def State.Advances (s s' : State α ξ ε) : Prop :=
  s'.caller = s.caller ∧
    Advance s.phase.position s.result s.shutdown s'.phase.position s'.result s'.shutdown

theorem advances_of_eq (hcaller : s'.caller = s.caller)
    (hposition : s'.phase.position = s.phase.position) (hresult : s'.result = s.result)
    (hshutdown : s'.shutdown = s.shutdown) : s.Advances s' := by
  refine ⟨hcaller, ?_⟩
  rw [hposition, hresult, hshutdown]
  exact .stays

theorem advance_advances {index : Nat} {branch : Branch} {how : Ending}
    (h : advance s index branch how = some s') : s.Advances s' := by
  simp only [advance] at h
  repeat' split at h
  all_goals cases h
  all_goals exact ⟨rfl, .stays⟩

theorem supervise_advances (h : supervise .complete s = some s') : s.Advances s' := by
  simp only [supervise] at h
  split at h
  · next value hphase =>
    split at h
    · next hresult =>
      cases h
      refine ⟨rfl, ?_⟩
      rw [hphase, hresult]
      exact .unsent
    · next hresult =>
      cases h
      refine ⟨rfl, ?_⟩
      rw [hphase]
      exact .serves value hresult
  · next hphase =>
    cases h
    exact advances_of_eq rfl (by rw [hphase]; rfl) rfl rfl
  · next hphase =>
    cases h
    exact advances_of_eq rfl (by rw [hphase]; rfl) rfl rfl
  · next hphase =>
    split at h
    · next hshutdown =>
      cases h
      refine ⟨rfl, ?_⟩
      rw [hphase, hshutdown]
      exact .shutsDown
    · cases h
  · next hphase =>
    split at h
    · cases h
      exact advances_of_eq rfl (by rw [hphase]; rfl) rfl rfl
    · cases h
  · next hphase =>
    cases h
    exact advances_of_eq rfl (by rw [hphase]; rfl) rfl rfl
  · next hphase =>
    cases h
    exact advances_of_eq rfl (by rw [hphase]; rfl) rfl rfl
  · next hphase =>
    cases h
    exact advances_of_eq rfl (by rw [hphase]; rfl) rfl rfl
  · next hphase =>
    cases h
    refine ⟨rfl, ?_⟩
    rw [hphase]
    exact .completes
  · next error hphase =>
    cases h
    refine ⟨rfl, ?_⟩
    rw [hphase]
    exact .fails error
  · next hphase =>
    cases h
    refine ⟨rfl, ?_⟩
    rw [hphase]
    exact .detaches
  · cases h

theorem step_advances (hm : m.ofCaller = false) (h : step .complete s m = some s') :
    s.Advances s' := by
  cases m with
  | build error =>
    simp only [step] at h
    split at h
    · next hphase =>
      cases h
      exact advances_of_eq rfl (by rw [hphase]; rfl) rfl rfl
    · next hphase =>
      cases h
      refine ⟨rfl, ?_⟩
      rw [hphase]
      exact .fails _
    · cases h
  | asks call =>
    simp only [step] at h
    split at h
    · cases h
      exact ⟨rfl, .stays⟩
    · cases h
  | advance index how =>
    simp only [step] at h
    split at h
    · exact advance_advances h
    · cases h
  | returns =>
    simp only [step] at h
    split at h
    · cases h
      exact ⟨rfl, .stays⟩
    · cases h
  | abandon =>
    cases h
    exact ⟨rfl, .stays⟩
  | workEnds outcome =>
    simp only [step] at h
    split at h
    · next hphase _ =>
      cases h
      exact advances_of_eq rfl (by rw [hphase]; rfl) rfl rfl
    · cases h
  | cancelWork =>
    simp only [step] at h
    split at h
    · next hphase =>
      split at h
      · cases h
        exact advances_of_eq rfl (by rw [hphase]; rfl) rfl rfl
      · cases h
    · cases h
  | supervise => exact supervise_advances h
  | poll | reply | commit =>
    simp only [step] at h
    repeat' split at h
    all_goals cases h
    all_goals exact ⟨rfl, .stays⟩
  | removed result =>
    simp only [step] at h
    split at h
    · next hphase =>
      cases h
      exact advances_of_eq rfl (by rw [hphase]; rfl) rfl rfl
    · cases h
  | _ => cases hm

end Advance

section Meets
variable {k k' : Caller α ξ ε} {p p' : Position} {r r' : ResultChannel (Except (StartError ξ) α)}
  {sh sh' : Bool}

theorem Advance.meets (h : Advance p r sh p' r' sh') (hs : Meets k p r sh) : Meets k p' r' sh' := by
  cases hs with
  | spawning =>
    cases h with
    | stays => exact .spawning
  | unspawned =>
    cases h with
    | stays => exact .unspawned
  | listening hk ho =>
    cases ho with
    | starting =>
      cases h with
      | stays => exact .listening hk .starting
      | serves value => exact .listening hk (.offered value)
      | fails error => exact .listening hk (.refused error)
    | offered value =>
      cases h with
      | stays => exact .listening hk (.offered value)
    | refused error =>
      cases h with
      | stays => exact .listening hk (.refused error)
  | holding value =>
    cases h with
    | stays => exact .holding value
  | leaving hk he =>
    refine .leaving hk ?_
    cases he with
    | starting =>
      cases h with
      | stays => exact .starting
      | serves value hr => exact absurd rfl hr
      | unsent => exact .closing
      | fails => exact .stopped
    | serving =>
      cases h with
      | stays => exact .serving
      | shutsDown => exact .closing
    | closing =>
      cases h with
      | stays => exact .closing
      | completes => exact .stopped
    | stopped =>
      cases h with
      | stays => exact .stopped
  | ended =>
    cases h with
    | stays => exact .ended

theorem Ends.shutdown (h : Ends p r sh) : Ends p r true := by
  cases h with
  | starting => exact .starting
  | serving => exact .serving
  | closing => exact .closing
  | stopped => exact .stopped

theorem CallerStep.meets (h : CallerStep k p r sh k' p' r' sh') (hs : Meets k p r sh) :
    Meets k' p' r' sh' := by
  cases hs with
  | spawning =>
    cases h with
    | spawns => exact .listening .awaitingResult .starting
    | spawnFails => exact .unspawned
  | unspawned => cases h
  | listening hk ho =>
    cases h with
    | receives value =>
      cases ho with
      | offered => exact .holding value
    | fails error =>
      cases ho with
      | refused => exact .leaving .joining .stopped
    | misses => exact .leaving .cancelling .stopped
    | drops => exact .listening .droppingReceiver ho
    | dropsOffer value =>
      cases ho with
      | offered => exact .leaving .cancelling .serving
    | dropsReceiver hr =>
      cases ho with
      | starting => exact .leaving .cancelling .starting
      | offered value => exact absurd rfl (hr value)
      | refused => exact .leaving .cancelling .stopped
    | _ => cases hk
  | holding value =>
    cases h with
    | dropsHandle => exact .leaving .joining .serving
    | beginsShutdown => exact .leaving .shuttingDown .serving
  | leaving hk he =>
    cases h with
    | dropsShutdown => exact .leaving .joining he.shutdown
    | completes => exact .leaving .joining he
    | cancels => exact .leaving .joining he
    | joins => exact .ended
    | detaches hd =>
      subst hd
      cases hk
    | _ => cases hk
  | ended => cases h

end Meets

section Steps
variable {s s' : State α ξ ε} {m : Move α ξ ε}

def State.CallerSteps (s s' : State α ξ ε) : Prop :=
  CallerStep s.caller s.phase.position s.result s.shutdown s'.caller s'.phase.position s'.result
    s'.shutdown

theorem position_of_stopped {phase : Phase α ξ ε} (h : phase.stopped = true) :
    phase.position = .stopped := by
  cases phase with
  | unbuilt | finished => rfl
  | _ => cases h

theorem receive_steps (hcaller : s.caller = .awaitingResult) (h : receive .complete s = some s') :
    s.CallerSteps s' := by
  rw [State.CallerSteps, hcaller]
  simp only [receive] at h
  split at h
  · next value hresult =>
    cases h
    rw [hresult]
    exact .receives value
  · next error hresult =>
    cases h
    rw [hresult]
    exact .fails error
  · split at h
    · next hstopped =>
      cases h
      rw [position_of_stopped hstopped]
      exact .misses
    · cases h

theorem call_steps (h : call .complete s = some s') : s.CallerSteps s' := by
  rw [State.CallerSteps]
  simp only [call] at h
  split at h
  · next hcaller =>
    rw [hcaller]
    split at h
    · next value hresult =>
      cases h
      rw [hresult]
      exact .dropsOffer value
    · next hresult =>
      cases h
      exact .dropsReceiver fun value hvalue => hresult value hvalue
  · next hcaller =>
    cases h
    rw [hcaller]
    exact .cancels
  · cases h

theorem step_callerSteps (hm : m.ofCaller = true)
    (h : step .complete s m = some s') : s.CallerSteps s' := by
  cases m with
  | spawn error =>
    simp only [step] at h
    split at h
    · next hcaller hphase =>
      cases h
      rw [State.CallerSteps, hcaller, hphase]
      exact .spawns
    · next hcaller hphase =>
      cases h
      rw [State.CallerSteps, hcaller, hphase]
      exact .spawnFails
    · cases h
  | receive =>
    simp only [step] at h
    split at h
    · next hcaller => exact receive_steps hcaller h
    · cases h
  | drop =>
    simp only [step] at h
    split at h
    · next hcaller =>
      cases h
      rw [State.CallerSteps, hcaller]
      exact .drops
    · next value hcaller =>
      cases h
      rw [State.CallerSteps, hcaller]
      exact .dropsHandle value
    · next hcaller =>
      cases h
      rw [State.CallerSteps, hcaller]
      exact .dropsShutdown
    · cases h
  | call => exact call_steps h
  | beginShutdown =>
    simp only [step] at h
    split at h
    · next value hcaller =>
      cases h
      rw [State.CallerSteps, hcaller]
      exact .beginsShutdown value
    · cases h
  | completed =>
    simp only [step] at h
    split at h
    · next hcaller _ =>
      cases h
      rw [State.CallerSteps, hcaller]
      exact .completes
    · next hcaller _ =>
      split at h
      · cases h
        rw [State.CallerSteps, hcaller]
        exact .completes
      · cases h
    · cases h
  | joined =>
    simp only [step] at h
    split at h
    · next detachable after hcaller =>
      split at h
      · next hstopped =>
        cases h
        rw [State.CallerSteps, hcaller, position_of_stopped hstopped]
        exact .joins
      · cases h
    · cases h
  | deadlinePasses =>
    simp only [step] at h
    split at h
    · next hcaller =>
      cases h
      rw [State.CallerSteps, hcaller]
      exact .detaches rfl
    · cases h
  | _ => cases hm

theorem step_meets (hs : s.Meets) (h : step .complete s m = some s') : s'.Meets := by
  cases hm : m.ofCaller with
  | true => exact (step_callerSteps hm h).meets hs
  | false =>
    obtain ⟨hcaller, hadvance⟩ := step_advances hm h
    rw [State.Meets, hcaller]
    exact hadvance.meets hs

end Steps

end Nigiri.Supervisor
