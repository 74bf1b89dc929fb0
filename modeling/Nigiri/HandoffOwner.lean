import Nigiri.CoordinateStartup

/-! The started value has one owner at any time, and every run comes to an end in which either
the caller has been given the value or the coordinator has taken it back. -/
namespace Nigiri.Handoff
open Nigiri.Machine Nigiri.Runtime
variable {α ε : Type}

section Phases

/-- The coordinator has nothing to send yet but an error. -/
inductive Starts : Coordinator ε → Prop where
  | building : Starts .building
  | working : Starts .working
  | failing (error : StartError ε) : Starts (.failing error)

/-- The coordinator waits for the acknowledgement. -/
inductive Waits : Coordinator ε → Prop where
  | pollAcknowledged : Waits .pollAcknowledged
  | pollCancelled : Waits .pollCancelled
  | parked : Waits .parked

/-- The caller still has the receiver of the result. -/
inductive Listens : Caller α ε → Prop where
  | awaitingResult : Listens .awaitingResult
  | droppingReceiver : Listens .droppingReceiver

/-- The caller has the handoff, and has not taken the value out of it. -/
inductive Holds : Caller α ε → Prop where
  | beforeAck : Holds .beforeAck
  | taking : Holds .taking
  | droppingHandoff : Holds .droppingHandoff

/-- The caller has dropped what it had but for the cancellation guard. -/
inductive Left : Caller α ε → Prop where
  | cancelling : Left (.cancelling .dropped)
  | joining : Left (.joining .dropped)
  | ended : Left (.ended .dropped)

/-- The caller is about to return the result or has done so. -/
inductive Returns (result : Except (StartError ε) α) : Caller α ε → Prop where
  | completing : Returns result (.completing result)
  | joining : Returns result (.joining (.returned result))
  | ended : Returns result (.ended (.returned result))

/-- The states that both sides are in together. -/
inductive Phase : State α ε → Prop where
  | spawning : Phase initial
  | unspawned (error : StartError ε) :
    Phase ⟨.unspawned, .ended (.returned (.error error)), .empty, none, .pending, ⟨false, false⟩,
      none, []⟩
  | starting {c k} (hc : Starts c) (hk : Listens k) :
    Phase ⟨c, k, .empty, none, .pending, ⟨false, false⟩, none, []⟩
  | startingAlone {c k w} (hc : Starts c) (hk : Left k) :
    Phase ⟨c, k, .closed, none, .pending, w, none, []⟩
  | sending {k} (value : α) (hk : Listens k) :
    Phase ⟨.sending, k, .empty, some value, .pending, ⟨false, false⟩, some value, []⟩
  | sendingAlone {k w} (value : α) (hk : Left k) :
    Phase ⟨.sending, k, .closed, some value, .pending, w, some value, []⟩
  | refused {k} (error : StartError ε) (hk : Listens k) :
    Phase ⟨.finished, k, .sent (.error error), none, .pending, ⟨false, false⟩, none, []⟩
  | failed {k r w} (error : StartError ε) (hk : Returns (.error error) k) :
    Phase ⟨.finished, k, r, none, .pending, w, none, []⟩
  | failedAlone {k r w} (hk : Left k) : Phase ⟨.finished, k, r, none, .pending, w, none, []⟩
  | offered {c k} (value : α) (hc : Waits c) (hk : Listens k) :
    Phase ⟨c, k, .sent (.ok ()), some value, .pending, ⟨false, false⟩, some value, []⟩
  | held {c k} (value : α) (hc : Waits c) (hk : Holds k) :
    Phase ⟨c, k, .received, some value, .pending, ⟨false, false⟩, some value, []⟩
  | taken {c} (value : α) (hc : Waits c) :
    Phase ⟨c, .acknowledging value, .received, none, .pending, ⟨false, false⟩, some value, []⟩
  | returned {c k w} (value : α) (hc : Waits c ∨ c = .takingBack ∨ c = .finished)
    (hk : Returns (.ok value) k) :
    Phase ⟨c, k, .received, none, .sent, w, some value, []⟩
  | abandoned {c k r w} (value : α) (hc : Waits c ∨ c = .takingBack) (hk : Left k) :
    Phase ⟨c, k, r, some value, .dropped, w, some value, []⟩
  | reclaimed {k r w} (value : α) (hk : Left k) :
    Phase ⟨.finished, k, r, none, .dropped, w, some value, [value]⟩

end Phases

def Move.ofCaller : Move α ε → Bool
  | .build _ | .workEnds _ | .coordinate => false
  | _ => true

section Steps
variable {c : Coordinator ε} {k : Caller α ε} {r : ResultChannel (Except (StartError ε) Unit)}
  {sl p : Option α} {a : Acknowledged} {w : Cancelled} {re : List α} {m : Move α ε}
  {s s' : State α ε}

theorem left_step (hk : Left k) (hm : m.ofCaller = true)
    (h : step ⟨c, k, r, sl, a, w, p, re⟩ m = some s') :
    ∃ k' w', Left k' ∧ s' = ⟨c, k', r, sl, a, w', p, re⟩ := by
  cases hk with
  | cancelling =>
    cases m with
    | call =>
      cases h
      exact ⟨_, _, .joining, rfl⟩
    | _ => simp [step, Move.ofCaller] at h hm
  | joining =>
    cases m with
    | joined =>
      cases c with
      | finished =>
        cases h
        exact ⟨_, _, .ended, rfl⟩
      | _ => cases h
    | deadlinePasses =>
      cases h
      exact ⟨_, _, .ended, rfl⟩
    | _ => simp [step, call, Move.ofCaller] at h hm
  | ended => cases m <;> simp [step, call, Move.ofCaller] at h hm

theorem returns_step {result : Except (StartError ε) α} (hk : Returns result k)
    (hm : m.ofCaller = true) (h : step ⟨c, k, r, sl, a, w, p, re⟩ m = some s') :
    ∃ k' w', Returns result k' ∧ s' = ⟨c, k', r, sl, a, w', p, re⟩ := by
  cases hk with
  | completing =>
    cases m with
    | call =>
      cases h
      exact ⟨_, _, .joining, rfl⟩
    | _ => simp [step, Move.ofCaller] at h hm
  | joining =>
    cases m with
    | joined =>
      cases c with
      | finished =>
        cases h
        exact ⟨_, _, .ended, rfl⟩
      | _ => cases h
    | deadlinePasses =>
      cases h
      exact ⟨_, _, .ended, rfl⟩
    | _ => simp [step, call, Move.ofCaller] at h hm
  | ended => cases m <;> simp [step, call, Move.ofCaller] at h hm

/-- A caller that listens looks at the result, or drops the receiver. -/
theorem listens_step (hk : Listens k) (hm : m.ofCaller = true)
    (h : step ⟨c, k, r, sl, a, w, p, re⟩ m = some s') :
    s' = ⟨c, .droppingReceiver, r, sl, a, w, p, re⟩ ∨
      receive ⟨c, k, r, sl, a, w, p, re⟩ = some s' ∨
      call ⟨c, .droppingReceiver, r, sl, a, w, p, re⟩ = some s' := by
  cases hk with
  | awaitingResult =>
    cases m with
    | receive => exact .inr (.inl h)
    | drop =>
      cases h
      exact .inl rfl
    | _ => simp [step, call, Move.ofCaller] at h hm
  | droppingReceiver =>
    cases m with
    | call => exact .inr (.inr h)
    | _ => simp [step, Move.ofCaller] at h hm

theorem coordinate_waits (hc : Waits c)
    (h : coordinate ⟨c, k, r, sl, a, w, p, re⟩ = some s') :
    ∃ c', s' = ⟨c', k, r, sl, a, w, p, re⟩ ∧
      (Waits c' ∨ c' = .takingBack ∧ (a = .dropped ∨ w.changed = true) ∨
        c' = .finished ∧ a = .sent) := by
  cases hc with
  | pollAcknowledged =>
    cases a with
    | pending =>
      cases h
      exact ⟨_, rfl, .inl .pollCancelled⟩
    | sent =>
      cases h
      exact ⟨_, rfl, .inr (.inr ⟨rfl, rfl⟩)⟩
    | dropped =>
      cases h
      exact ⟨_, rfl, .inr (.inl ⟨rfl, .inl rfl⟩)⟩
  | pollCancelled =>
    simp only [coordinate] at h
    split at h
    · next hchanged =>
      cases h
      exact ⟨_, rfl, .inr (.inl ⟨rfl, .inr hchanged⟩)⟩
    · cases h
      exact ⟨_, rfl, .inl .parked⟩
  | parked =>
    simp only [coordinate] at h
    split at h
    · cases h
      exact ⟨_, rfl, .inl .pollAcknowledged⟩
    · cases h

/-- A coordinator that starts goes on to its value, or to an error and its sending. -/
theorem starts_step (hc : Starts c) (hm : m.ofCaller = false)
    (h : step ⟨c, k, r, none, .pending, w, none, []⟩ m = some s') :
    (∃ c', Starts c' ∧ s' = ⟨c', k, r, none, .pending, w, none, []⟩) ∨
      (∃ value, s' = ⟨.sending, k, r, some value, .pending, w, some value, []⟩) ∨
      ∃ error, s' = sendResult ⟨c, k, r, none, .pending, w, none, []⟩ (.error error) := by
  cases hc with
  | building =>
    cases m with
    | build error =>
      cases error with
      | none =>
        cases h
        exact .inl ⟨_, .working, rfl⟩
      | some source =>
        cases h
        exact .inl ⟨_, .failing _, rfl⟩
    | _ => simp [step, coordinate, Move.ofCaller] at h hm
  | working =>
    cases m with
    | workEnds outcome =>
      cases outcome with
      | value value =>
        cases h
        exact .inr (.inl ⟨value, rfl⟩)
      | error error =>
        cases h
        exact .inl ⟨_, .failing _, rfl⟩
      | panic payload =>
        cases h
        exact .inl ⟨_, .failing _, rfl⟩
    | _ => simp [step, coordinate, Move.ofCaller] at h hm
  | failing error =>
    cases m with
    | coordinate =>
      cases h
      exact .inr (.inr ⟨error, rfl⟩)
    | _ => simp [step, Move.ofCaller] at h hm

theorem caller_phase (hs : Phase s) (hm : m.ofCaller = true) (h : step s m = some s') :
    Phase s' := by
  cases hs with
  | spawning =>
    cases m with
    | spawn error =>
      cases error with
      | none =>
        cases h
        exact .starting .building .awaitingResult
      | some source =>
        cases h
        exact .unspawned _
    | _ => simp [step, call, initial, Move.ofCaller] at h hm
  | unspawned => cases m <;> simp [step, call, Move.ofCaller] at h hm
  | starting hc hk =>
    obtain rfl | h | h := listens_step hk hm h
    · exact .starting hc .droppingReceiver
    · cases hc <;> cases h
    · cases h
      exact .startingAlone hc .cancelling
  | startingAlone hc hk =>
    obtain ⟨k', w', hk', rfl⟩ := left_step hk hm h
    exact .startingAlone hc hk'
  | sending value hk =>
    obtain rfl | h | h := listens_step hk hm h
    · exact .sending value .droppingReceiver
    · cases h
    · cases h
      exact .sendingAlone value .cancelling
  | sendingAlone value hk =>
    obtain ⟨k', w', hk', rfl⟩ := left_step hk hm h
    exact .sendingAlone value hk'
  | refused error hk =>
    obtain rfl | h | h := listens_step hk hm h
    · exact .refused error .droppingReceiver
    · cases h
      exact .failed error .completing
    · cases h
      exact .failedAlone .cancelling
  | failed error hk =>
    obtain ⟨k', w', hk', rfl⟩ := returns_step hk hm h
    exact .failed error hk'
  | failedAlone hk =>
    obtain ⟨k', w', hk', rfl⟩ := left_step hk hm h
    exact .failedAlone hk'
  | offered value hc hk =>
    obtain rfl | h | h := listens_step hk hm h
    · exact .offered value hc .droppingReceiver
    · cases h
      exact .held value hc .beforeAck
    · cases h
      exact .abandoned value (.inl hc) .cancelling
  | held value hc hk =>
    cases hk with
    | beforeAck =>
      cases m with
      | hookEnds =>
        cases h
        exact .held value hc .taking
      | drop =>
        cases h
        exact .held value hc .droppingHandoff
      | _ => simp [step, call, Move.ofCaller] at h hm
    | taking =>
      cases m with
      | call =>
        cases h
        exact .taken value hc
      | _ => simp [step, Move.ofCaller] at h hm
    | droppingHandoff =>
      cases m with
      | call =>
        cases h
        exact .abandoned value (.inl hc) .cancelling
      | _ => simp [step, Move.ofCaller] at h hm
  | taken value hc =>
    cases m with
    | call =>
      cases h
      exact .returned value (.inl hc) .completing
    | _ => simp [step, Move.ofCaller] at h hm
  | returned value hc hk =>
    obtain ⟨k', w', hk', rfl⟩ := returns_step hk hm h
    exact .returned value hc hk'
  | abandoned value hc hk =>
    obtain ⟨k', w', hk', rfl⟩ := left_step hk hm h
    exact .abandoned value hc hk'
  | reclaimed value hk =>
    obtain ⟨k', w', hk', rfl⟩ := left_step hk hm h
    exact .reclaimed value hk'

/-- Only polling is left to a coordinator that waits. -/
theorem waits_step (hc : Waits c) (hm : m.ofCaller = false)
    (h : step ⟨c, k, r, sl, a, w, p, re⟩ m = some s') :
    coordinate ⟨c, k, r, sl, a, w, p, re⟩ = some s' := by
  cases m with
  | coordinate => exact h
  | build => cases hc <;> cases h
  | workEnds => cases hc <;> cases h
  | _ => cases hm

theorem finished_step (hm : m.ofCaller = false) :
    step ⟨.finished, k, r, sl, a, w, p, re⟩ m = none := by
  cases m with
  | build | workEnds | coordinate => rfl
  | _ => cases hm

theorem takingBack_step (hm : m.ofCaller = false)
    (h : step ⟨.takingBack, k, r, sl, a, w, p, re⟩ m = some s') :
    s' = ⟨.finished, k, r, none, a, w, p, re ++ sl.toList⟩ := by
  cases m with
  | coordinate =>
    cases h
    rfl
  | build | workEnds => cases h
  | _ => cases hm

theorem sending_step (hm : m.ofCaller = false)
    (h : step ⟨.sending, k, r, sl, a, w, p, re⟩ m = some s') :
    s' = sendResult ⟨.sending, k, r, sl, a, w, p, re⟩ (.ok ()) := by
  cases m with
  | coordinate =>
    cases h
    rfl
  | build | workEnds => cases h
  | _ => cases hm

/-- Before the acknowledgement and the signal, a waiting coordinator goes on waiting. -/
theorem quiet_step (hc : Waits c) (hm : m.ofCaller = false)
    (h : step ⟨c, k, r, sl, .pending, ⟨false, false⟩, p, re⟩ m = some s') :
    ∃ c', Waits c' ∧ s' = ⟨c', k, r, sl, .pending, ⟨false, false⟩, p, re⟩ := by
  obtain ⟨c', rfl, hc' | ⟨_, ha | hw⟩ | ⟨_, ha⟩⟩ := coordinate_waits hc (waits_step hc hm h)
  · exact ⟨c', hc', rfl⟩
  · cases ha
  · cases hw
  · cases ha

theorem coordinator_phase (hs : Phase s) (hm : m.ofCaller = false) (h : step s m = some s') :
    Phase s' := by
  cases hs with
  | spawning => cases m <;> simp [step, coordinate, initial, Move.ofCaller] at h hm
  | unspawned => cases m <;> simp [step, coordinate, Move.ofCaller] at h hm
  | starting hc hk =>
    obtain ⟨c', hc', rfl⟩ | ⟨value, rfl⟩ | ⟨error, rfl⟩ := starts_step hc hm h
    · exact .starting hc' hk
    · exact .sending value hk
    · exact .refused error hk
  | startingAlone hc hk =>
    obtain ⟨c', hc', rfl⟩ | ⟨value, rfl⟩ | ⟨error, rfl⟩ := starts_step hc hm h
    · exact .startingAlone hc' hk
    · exact .sendingAlone value hk
    · exact .failedAlone hk
  | sending value hk =>
    obtain rfl := sending_step hm h
    exact .offered value .pollAcknowledged hk
  | sendingAlone value hk =>
    obtain rfl := sending_step hm h
    exact .abandoned value (.inr rfl) hk
  | refused | failed | failedAlone | reclaimed => simp [finished_step hm] at h
  | offered value hc hk =>
    obtain ⟨c', hc', rfl⟩ := quiet_step hc hm h
    exact .offered value hc' hk
  | held value hc hk =>
    obtain ⟨c', hc', rfl⟩ := quiet_step hc hm h
    exact .held value hc' hk
  | taken value hc =>
    obtain ⟨c', hc', rfl⟩ := quiet_step hc hm h
    exact .taken value hc'
  | returned value hc hk =>
    obtain hc | rfl | rfl := hc
    · obtain ⟨c', rfl, hc' | ⟨hc', _⟩ | ⟨hc', _⟩⟩ := coordinate_waits hc (waits_step hc hm h)
      · exact .returned value (.inl hc') hk
      · exact .returned value (.inr (.inl hc')) hk
      · exact .returned value (.inr (.inr hc')) hk
    · obtain rfl := takingBack_step hm h
      exact .returned value (.inr (.inr rfl)) hk
    · simp [finished_step hm] at h
  | abandoned value hc hk =>
    obtain hc | rfl := hc
    · obtain ⟨c', rfl, hc' | ⟨hc', _⟩ | ⟨_, ha⟩⟩ := coordinate_waits hc (waits_step hc hm h)
      · exact .abandoned value (.inl hc') hk
      · exact .abandoned value (.inr hc') hk
      · cases ha
    · obtain rfl := takingBack_step hm h
      exact .reclaimed value hk

theorem step_phase (hs : Phase s) (h : step s m = some s') : Phase s' := by
  cases hm : m.ofCaller with
  | true => exact caller_phase hs hm h
  | false => exact coordinator_phase hs hm h

theorem run_phase {moves : List (Move α ε)} (hrun : run step initial moves = some s) : Phase s :=
  run_invariant (fun _ _ _ => step_phase) .spawning hrun

end Steps

section Owner
variable {s : State α ε}

def CallerEnd.values : CallerEnd α ε → List α
  | .returned (.ok value) => [value]
  | _ => []

/-- The value while the caller has it, from its taking on. -/
def Caller.values : Caller α ε → List α
  | .acknowledging value | .completing (.ok value) => [value]
  | .cancelling after | .joining after | .ended after => after.values
  | _ => []

/-- Every copy of the value: in the slot, with the caller, or dropped by the coordinator. -/
def owned (s : State α ε) : List α := s.slot.toList ++ s.caller.values ++ s.reclaimed

theorem Phase.owned (hs : Phase s) : Handoff.owned s = s.produced.toList := by
  cases hs with
  | starting _ hk => cases hk <;> rfl
  | startingAlone _ hk => cases hk <;> rfl
  | sending _ hk => cases hk <;> rfl
  | sendingAlone _ hk => cases hk <;> rfl
  | refused _ hk => cases hk <;> rfl
  | failed _ hk => cases hk <;> rfl
  | failedAlone hk => cases hk <;> rfl
  | offered _ _ hk => cases hk <;> rfl
  | held _ _ hk => cases hk <;> rfl
  | returned _ _ hk => cases hk <;> rfl
  | abandoned _ _ hk => cases hk <;> rfl
  | reclaimed _ hk => cases hk <;> rfl
  | _ => rfl

theorem Phase.not_panicked (hs : Phase s) : s.caller ≠ .panicked := by
  intro h
  cases hs with
  | starting _ hk | startingAlone _ hk | sending _ hk | sendingAlone _ hk | refused _ hk
  | failed _ hk | failedAlone hk | offered _ _ hk | held _ _ hk | returned _ _ hk
  | abandoned _ _ hk | reclaimed _ hk => cases hk <;> cases h
  | _ => cases h

end Owner

section Ends
variable {c : Coordinator ε} {k : Caller α ε} {r : ResultChannel (Except (StartError ε) Unit)}
  {sl p : Option α} {a : Acknowledged} {w : Cancelled} {re : List α} {s : State α ε}

theorem starts_moves (hc : Starts c) : ¬ Stuck step ⟨c, k, r, sl, a, w, p, re⟩ := by
  intro hstuck
  cases hc with
  | building => cases hstuck (.build none)
  | working => cases hstuck (.workEnds (.panic none))
  | failing error => cases hstuck .coordinate

theorem waits_moves (hc : Waits c) (ha : a ≠ .pending) :
    ¬ Stuck step ⟨c, k, r, sl, a, w, p, re⟩ := by
  intro hstuck
  have hnone := hstuck .coordinate
  cases hc with
  | pollAcknowledged => cases a <;> cases hnone
  | pollCancelled =>
    simp only [step, coordinate] at hnone
    split at hnone <;> cases hnone
  | parked =>
    simp only [step, coordinate, if_pos (Or.inl ha)] at hnone
    cases hnone

theorem left_ends (hk : Left k) (hstuck : Stuck step ⟨.finished, k, r, sl, a, w, p, re⟩) :
    k = .ended .dropped := by
  cases hk with
  | cancelling => cases hstuck .call
  | joining => cases hstuck .joined
  | ended => rfl

theorem returns_ends {result : Except (StartError ε) α} (hk : Returns result k)
    (hstuck : Stuck step ⟨.finished, k, r, sl, a, w, p, re⟩) : k = .ended (.returned result) := by
  cases hk with
  | completing => cases hstuck .call
  | joining => cases hstuck .joined
  | ended => rfl

/-- A run that cannot go on has ended on both sides, and has left nothing in the slot. -/
theorem Phase.stuck (hs : Phase s) (hstuck : Stuck step s) :
    (∃ how, s.caller = .ended how) ∧
      (s.coordinator = .unspawned ∨ s.coordinator = .finished) ∧ s.slot = none := by
  cases hs with
  | spawning => cases hstuck (.spawn none)
  | unspawned error => exact ⟨⟨_, rfl⟩, .inl rfl, rfl⟩
  | starting hc => exact absurd hstuck (starts_moves hc)
  | startingAlone hc => exact absurd hstuck (starts_moves hc)
  | sending => cases hstuck .coordinate
  | sendingAlone => cases hstuck .coordinate
  | refused error hk =>
    cases hk with
    | awaitingResult => cases hstuck .receive
    | droppingReceiver => cases hstuck .call
  | failed error hk => exact ⟨⟨_, returns_ends hk hstuck⟩, .inr rfl, rfl⟩
  | failedAlone hk => exact ⟨⟨_, left_ends hk hstuck⟩, .inr rfl, rfl⟩
  | offered value hc hk =>
    cases hk with
    | awaitingResult => cases hstuck .receive
    | droppingReceiver => cases hstuck .call
  | held value hc hk =>
    cases hk with
    | beforeAck => cases hstuck .hookEnds
    | taking => cases hstuck .call
    | droppingHandoff => cases hstuck .call
  | taken => cases hstuck .call
  | returned value hc hk =>
    obtain hc | rfl | rfl := hc
    · exact absurd hstuck (waits_moves hc (by simp))
    · cases hstuck .coordinate
    · exact ⟨⟨_, returns_ends hk hstuck⟩, .inr rfl, rfl⟩
  | abandoned value hc hk =>
    obtain hc | rfl := hc
    · exact absurd hstuck (waits_moves hc (by simp))
    · cases hstuck .coordinate
  | reclaimed value hk => exact ⟨⟨_, left_ends hk hstuck⟩, .inr rfl, rfl⟩

end Ends

section Rank
variable {s s' : State α ε} {m : Move α ε}

/-- How far a coordinator is from its end, given whether the acknowledgement is decided and the
signal given: once one of them is, it parks at most once more. -/
def Coordinator.rank (decided changed : Bool) : Coordinator ε → Nat
  | .unspawned => 12
  | .building => 11
  | .working => 10
  | .sending | .failing _ => 9
  | .pollAcknowledged => if decided || changed then 3 else 8
  | .pollCancelled => if changed then 2 else if decided then 5 else 7
  | .parked => if decided || changed then 4 else 6
  | .takingBack => 1
  | .finished => 0

def Caller.rank : Caller α ε → Nat
  | .spawning => 7
  | .awaitingResult => 6
  | .beforeAck => 5
  | .taking => 4
  | .acknowledging _ | .droppingReceiver | .droppingHandoff => 3
  | .completing _ | .cancelling _ => 2
  | .joining _ => 1
  | .ended _ | .panicked => 0

def rank (s : State α ε) : Nat :=
  s.coordinator.rank (decide (s.acknowledged ≠ .pending)) s.cancelled.changed + s.caller.rank

theorem Coordinator.rank_mono (c : Coordinator ε) {decided decided' changed changed' : Bool}
    (hd : decided = true → decided' = true) (hc : changed = true → changed' = true) :
    c.rank decided' changed' ≤ c.rank decided changed := by
  cases decided <;> cases changed <;> cases decided' <;> cases changed' <;>
    cases c <;> simp_all [rank]

theorem coordinate_rank (h : coordinate s = some s') : rank s' < rank s := by
  obtain ⟨c, k, r, sl, a, w, p, re⟩ := s
  cases c with
  | sending => cases r <;> cases h <;> simp [rank, Coordinator.rank, sendResult] <;> split <;> omega
  | failing error => cases r <;> cases h <;> simp [rank, Coordinator.rank, sendResult]
  | pollAcknowledged =>
    cases a <;> cases h <;> cases hw : w.changed <;> simp [rank, Coordinator.rank, hw]
  | pollCancelled =>
    simp only [coordinate] at h
    split at h
    · next hw =>
      cases h
      simp [rank, Coordinator.rank, hw]
    · next hw =>
      cases h
      cases a <;> simp [rank, Coordinator.rank, hw]
  | parked =>
    simp only [coordinate] at h
    split at h
    · next hready =>
      cases h
      obtain ha | hw := hready
      · simp [rank, Coordinator.rank, ha]
      · simp [rank, Coordinator.rank, hw]
    · cases h
  | takingBack =>
    cases h
    simp [rank, Coordinator.rank, takeBack, takeHandoffValue]
  | _ => cases h

/-- A move of the caller's brings the caller on, and the coordinator no further back. -/
theorem rank_of_caller {k : Caller α ε} {r : ResultChannel (Except (StartError ε) Unit)}
    {sl : Option α} {a : Acknowledged} {w : Cancelled} (hk : k.rank < s.caller.rank)
    (ha : s.acknowledged ≠ .pending → a ≠ .pending)
    (hw : s.cancelled.changed = true → w.changed = true) :
    rank ⟨s.coordinator, k, r, sl, a, w, s.produced, s.reclaimed⟩ < rank s := by
  have hmono : s.coordinator.rank (decide (a ≠ .pending)) w.changed ≤
      s.coordinator.rank (decide (s.acknowledged ≠ .pending)) s.cancelled.changed :=
    s.coordinator.rank_mono (by simpa using ha) hw
  simp only [rank]
  omega

theorem receive_rank (hcaller : s.caller = .awaitingResult) (h : receive s = some s') :
    rank s' < rank s := by
  simp only [receive] at h
  split at h
  · cases h
    exact rank_of_caller (by simp [hcaller, Caller.rank]) id id
  · cases h
    exact rank_of_caller (by simp [hcaller, Caller.rank]) id id
  · split at h
    · cases h
      exact rank_of_caller (by simp [hcaller, Caller.rank]) id id
    · cases h

theorem call_rank (h : call s = some s') : rank s' < rank s := by
  simp only [call, takeHandoffValue] at h
  split at h
  · next hcaller =>
    split at h
    · next heq =>
      obtain ⟨_, rfl⟩ := Prod.mk.inj heq
      cases h
      exact rank_of_caller (by simp [hcaller, Caller.rank]) id id
    · next heq =>
      obtain ⟨_, rfl⟩ := Prod.mk.inj heq
      cases h
      exact rank_of_caller (by simp [hcaller, Caller.rank]) id id
  · next hcaller =>
    cases h
    exact rank_of_caller (by simp [hcaller, Caller.rank]) (by simp) id
  · next hcaller =>
    cases h
    exact rank_of_caller (by simp [hcaller, Caller.rank]) id (by simp [Cancelled.changed])
  · next hcaller =>
    split at h
    · cases h
      exact rank_of_caller (by simp [hcaller, Caller.rank]) (by simp) id
    · cases h
      exact rank_of_caller (by simp [hcaller, Caller.rank]) id id
  · next hcaller =>
    cases h
    exact rank_of_caller (by simp [hcaller, Caller.rank]) (by simp) id
  · next hcaller =>
    cases h
    exact rank_of_caller (by simp [hcaller, Caller.rank]) id (by simp [Cancelled.changed])
  · cases h

theorem step_rank (hs : Phase s) (h : step s m = some s') : rank s' < rank s := by
  cases m with
  | spawn error =>
    cases hs with
    | spawning =>
      cases error <;> cases h <;> simp [rank, Coordinator.rank, Caller.rank, initial]
    | starting _ hk | sending _ hk | refused _ hk | offered _ _ hk => cases hk <;> cases h
    | startingAlone _ hk | sendingAlone _ hk | failedAlone hk | abandoned _ _ hk
    | reclaimed _ hk => cases hk <;> cases h
    | failed _ hk | held _ _ hk | returned _ _ hk => cases hk <;> cases h
    | _ => cases h
  | build error =>
    simp only [step] at h
    split at h
    · next hc =>
      cases h
      simp [rank, hc, Coordinator.rank]
    · next hc =>
      cases h
      simp [rank, hc, Coordinator.rank]
    · cases h
  | workEnds outcome =>
    simp only [step] at h
    split at h
    · next hc =>
      cases h
      simp [rank, hc, Coordinator.rank]
    · next hc =>
      cases h
      simp [rank, hc, Coordinator.rank]
    · next hc =>
      cases h
      simp [rank, hc, Coordinator.rank]
    · cases h
  | coordinate => exact coordinate_rank h
  | receive =>
    simp only [step] at h
    split at h
    · next hcaller => exact receive_rank hcaller h
    · cases h
  | hookEnds =>
    simp only [step] at h
    split at h
    · next hcaller =>
      cases h
      exact rank_of_caller (by simp [hcaller, Caller.rank]) id id
    · cases h
  | call => exact call_rank h
  | drop =>
    simp only [step] at h
    split at h
    · next hcaller =>
      cases h
      exact rank_of_caller (by simp [hcaller, Caller.rank]) id id
    · next hcaller =>
      cases h
      exact rank_of_caller (by simp [hcaller, Caller.rank]) id id
    · cases h
  | joined =>
    simp only [step] at h
    split at h
    · next hcaller _ =>
      cases h
      exact rank_of_caller (by simp [hcaller, Caller.rank]) id id
    · cases h
  | deadlinePasses =>
    simp only [step] at h
    split at h
    · next hcaller =>
      cases h
      exact rank_of_caller (by simp [hcaller, Caller.rank]) id id
    · cases h

theorem run_length {moves : List (Move α ε)} (hrun : run step initial moves = some s) :
    moves.length ≤ 19 := by
  have hle := run_length_le rank (fun _ _ _ => step_phase) (fun _ _ _ => step_rank) .spawning hrun
  have hinitial : rank (initial : State α ε) = 19 := rfl
  omega

end Rank

section Outcome
variable {s s' : State α ε} {moves : List (Move α ε)}

/-- Once the coordinator has taken the value back, that is what has become of it. -/
theorem reclaimed_stays {value : α} {rest : List (Move α ε)} (hs : Phase s)
    (hreclaimed : s.reclaimed = [value]) (hrun : run step s rest = some s') :
    s'.reclaimed = [value] := by
  have hkeep : ∀ (s : State α ε) m s', Phase s ∧ s.reclaimed = [value] → step s m = some s' →
      Phase s' ∧ s'.reclaimed = [value] := by
    intro s m s' hs h
    obtain ⟨hphase, hreclaimed⟩ := hs
    refine ⟨step_phase hphase h, ?_⟩
    cases hphase with
    | reclaimed _ hk =>
      cases hm : m.ofCaller with
      | true =>
        obtain ⟨k', w', _, rfl⟩ := left_step hk hm h
        exact hreclaimed
      | false => simp [finished_step hm] at h
    | _ => cases hreclaimed
  exact (run_invariant hkeep ⟨hs, hreclaimed⟩ hrun).2

theorem CallerEnd.values_eq {how : CallerEnd α ε} {value : α} (h : how.values = [value]) :
    how = .returned (.ok value) := by
  cases how with
  | dropped => cases h
  | returned result =>
    cases result with
    | error error => cases h
    | ok returned =>
      obtain rfl := List.singleton_inj.mp h
      rfl

/-- At any time the value that was produced has one owner, and its transfer never fails. Every run
ends, with the value returned to the caller or with the value taken back by the coordinator, and
after that it is never with the caller. -/
theorem coordinate_startup_one_owner (hrun : run step initial moves = some s) :
    owned s = s.produced.toList ∧ s.caller ≠ .panicked ∧ moves.length ≤ 19 ∧
    (∀ value rest s', s.reclaimed = [value] → run step s rest = some s' →
      s'.reclaimed = [value] ∧ s'.caller.values = []) ∧
    (Stuck step s → ∃ how, s.caller = .ended how ∧
      (s.coordinator = .unspawned ∨ s.coordinator = .finished) ∧ s.slot = none ∧
      ∀ value, s.produced = some value →
        how = .returned (.ok value) ∧ s.reclaimed = [] ∨
          (∀ other, how ≠ .returned (.ok other)) ∧ s.reclaimed = [value]) := by
  have hphase := run_phase hrun
  refine ⟨hphase.owned, hphase.not_panicked, run_length hrun, ?_, ?_⟩
  · intro value rest s' hreclaimed hrest
    have hstays := reclaimed_stays hphase hreclaimed hrest
    have howned := (run_invariant (fun _ _ _ => step_phase) hphase hrest).owned
    refine ⟨hstays, ?_⟩
    rw [owned, hstays] at howned
    have hlength := congrArg List.length howned
    cases hproduced : s'.produced with
    | none => simp [hproduced] at hlength
    | some produced =>
      simp only [hproduced, List.length_append, Option.toList_some, List.length_singleton]
        at hlength
      exact List.length_eq_zero_iff.mp (by omega)
  · intro hstuck
    obtain ⟨⟨how, hcaller⟩, hcoordinator, hslot⟩ := hphase.stuck hstuck
    refine ⟨how, hcaller, hcoordinator, hslot, ?_⟩
    intro value hproduced
    have howned := hphase.owned
    rw [owned, hslot, hcaller, hproduced] at howned
    obtain ⟨hvalues, hreclaimed⟩ | ⟨hvalues, hreclaimed⟩ := List.append_eq_singleton_iff.mp howned
    · refine .inr ⟨fun other h => ?_, hreclaimed⟩
      rw [h] at hvalues
      cases hvalues
    · exact .inl ⟨CallerEnd.values_eq hvalues, hreclaimed⟩

/-- The caller is dropped in its hook, after the value was offered. -/
def droppedRun : List (Move Nat Unit) :=
  [.spawn none, .build none, .workEnds (.value 7), .coordinate, .coordinate, .coordinate, .receive,
    .drop, .call, .coordinate, .call, .coordinate, .deadlinePasses, .coordinate]

def droppedState : State Nat Unit :=
  ⟨.finished, .ended .dropped, .received, none, .dropped, ⟨true, true⟩, some 7, [7]⟩

theorem droppedState_stuck : Stuck step droppedState := by
  intro m
  cases m <;> rfl

theorem coordinate_startup_dropped :
    run step initial droppedRun = some droppedState ∧
      ∃ how, droppedState.caller = .ended how ∧
        (how = .returned (.ok 7) ∧ droppedState.reclaimed = [] ∨
          (∀ other, how ≠ .returned (.ok other)) ∧ droppedState.reclaimed = [7]) :=
  have hrun : run step initial droppedRun = some droppedState := rfl
  have ⟨how, hcaller, _, _, howner⟩ :=
    (coordinate_startup_one_owner hrun).2.2.2.2 droppedState_stuck
  ⟨hrun, how, hcaller, howner 7 rfl⟩

end Outcome

end Nigiri.Handoff
