import Nigiri.Channels
import Nigiri.Machine

/-! How a coordinator thread hands the value it has started over to its caller. The two sides
share a oneshot for the result, the slot that holds the value, a oneshot for the acknowledgement,
and a watch that signals cancellation. Every step between two of these operations may be one
of the other side. -/
namespace Nigiri.Handoff
open Nigiri.Runtime
variable {α ε : Type}

/-- The oneshot of the acknowledgement, whose sender is part of the pending handoff. -/
inductive Acknowledged where
  | pending
  | sent
  | dropped
  deriving DecidableEq

/-- What the coordinator thread does next. -/
inductive Coordinator (ε : Type) where
  | unspawned
  | building
  | working
  | sending
  | failing (error : StartError ε)
  | pollAcknowledged
  | pollCancelled
  | parked
  | takingBack
  | finished

/-- How the caller's future has ended. -/
inductive CallerEnd (α ε : Type) where
  | returned (result : Except (StartError ε) α)
  | dropped

/-- What the caller's side does next. Its future may be dropped while it awaits the result or the
hook; what it holds is then dropped part by part. -/
inductive Caller (α ε : Type) where
  | spawning
  | awaitingResult
  | beforeAck
  | taking
  | acknowledging (value : α)
  | completing (result : Except (StartError ε) α)
  | droppingReceiver
  | droppingHandoff
  | cancelling (after : CallerEnd α ε)
  | joining (after : CallerEnd α ε)
  | ended (how : CallerEnd α ε)
  | panicked

/-- The message of the result is the pending handoff, or an error. Besides what the sides share,
the value that was produced is recorded, and the values that the coordinator has dropped. -/
structure State (α ε : Type) where
  coordinator : Coordinator ε
  caller : Caller α ε
  result : ResultChannel (Except (StartError ε) Unit)
  slot : Option α
  acknowledged : Acknowledged
  cancelled : Cancelled
  produced : Option α
  reclaimed : List α

def initial : State α ε :=
  ⟨.unspawned, .spawning, .empty, none, .pending, ⟨false, false⟩, none, []⟩

/-- What either side does next, and how what the code does not decide turns out. -/
inductive Move (α ε : Type) where
  | spawn (error : Option String)
  | build (error : Option String)
  | workEnds (outcome : Outcome α ε)
  | coordinate
  | receive
  | hookEnds
  | call
  | drop
  | joined
  | deadlinePasses

def takeHandoffValue (s : State α ε) : Option α × State α ε := (s.slot, { s with slot := none })

/-- The value is dropped where it is still there. -/
def takeBack (s : State α ε) : State α ε :=
  let (value, s) := takeHandoffValue s
  { s with coordinator := .finished, reclaimed := s.reclaimed ++ value.toList }

/-- A message that cannot be sent is dropped, and with a handoff its acknowledgement. -/
def sendResult (s : State α ε) (message : Except (StartError ε) Unit) : State α ε :=
  match s.result, message with
  | .closed, .ok () => { s with acknowledged := .dropped, coordinator := .takingBack }
  | .closed, .error _ => { s with coordinator := .finished }
  | _, .ok () => { s with result := .sent message, coordinator := .pollAcknowledged }
  | _, .error _ => { s with result := .sent message, coordinator := .finished }

/-- The acknowledgement is polled first, then the signal. The thread parks when neither is ready,
and either wakes it. -/
def coordinate (s : State α ε) : Option (State α ε) :=
  match s.coordinator with
  | .sending => some (sendResult s (.ok ()))
  | .failing error => some (sendResult s (.error error))
  | .pollAcknowledged =>
    match s.acknowledged with
    | .pending => some { s with coordinator := .pollCancelled }
    | .sent => some { s with coordinator := .finished }
    | .dropped => some { s with coordinator := .takingBack }
  | .pollCancelled =>
    if s.cancelled.changed then some { s with coordinator := .takingBack }
    else some { s with coordinator := .parked }
  | .parked =>
    if s.acknowledged ≠ .pending ∨ s.cancelled.changed then
      some { s with coordinator := .pollAcknowledged }
    else none
  | .takingBack => some (takeBack s)
  | .unspawned | .building | .working | .finished => none

/-- The channel is left empty only by a coordinator that has stopped. -/
def receive (s : State α ε) : Option (State α ε) :=
  match s.result with
  | .sent (.ok ()) => some { s with result := .received, caller := .beforeAck }
  | .sent (.error error) =>
    some { s with result := .received, caller := .completing (.error error) }
  | _ =>
    match s.coordinator with
    | .finished =>
      some { s with
        caller := .cancelling (.returned (.error (.engine "wait for composite coordinator"
          "composite coordinator stopped before startup completed"))) }
    | _ => none

/-- What the caller does between two of its awaits, one operation on what is shared at a time. -/
def call (s : State α ε) : Option (State α ε) :=
  match s.caller with
  | .taking =>
    match takeHandoffValue s with
    | (none, s) => some { s with caller := .panicked }
    | (some value, s) => some { s with caller := .acknowledging value }
  | .acknowledging value =>
    some { s with acknowledged := .sent, caller := .completing (.ok value) }
  | .completing result =>
    some { s with cancelled.closed := true, caller := .joining (.returned result) }
  | .droppingReceiver =>
    match s.result with
    | .sent (.ok ()) =>
      some { s with result := .closed, acknowledged := .dropped, caller := .cancelling .dropped }
    | _ => some { s with result := .closed, caller := .cancelling .dropped }
  | .droppingHandoff =>
    some { s with acknowledged := .dropped, caller := .cancelling .dropped }
  | .cancelling after => some { s with cancelled := ⟨true, true⟩, caller := .joining after }
  | _ => none

def step (s : State α ε) : Move α ε → Option (State α ε)
  | .spawn error =>
    match s.caller, error with
    | .spawning, none => some { s with coordinator := .building, caller := .awaitingResult }
    | .spawning, some source =>
      some { s with
        caller := .ended (.returned (.error (.engine "spawn composite coordinator" source))) }
    | _, _ => none
  | .build error =>
    match s.coordinator, error with
    | .building, none => some { s with coordinator := .working }
    | .building, some source =>
      some { s with coordinator := .failing (.engine "start composite coordinator" source) }
    | _, _ => none
  | .workEnds outcome =>
    match s.coordinator, outcome with
    | .working, .value value =>
      some { s with coordinator := .sending, slot := some value, produced := some value }
    | .working, .error error => some { s with coordinator := .failing (.work error) }
    | .working, .panic payload =>
      let message := payload.getD "composite startup panicked"
      some { s with coordinator := .failing (.engine "run composite startup" message) }
    | _, _ => none
  | .coordinate => coordinate s
  | .receive =>
    match s.caller with
    | .awaitingResult => receive s
    | _ => none
  | .hookEnds =>
    match s.caller with
    | .beforeAck => some { s with caller := .taking }
    | _ => none
  | .call => call s
  | .drop =>
    match s.caller with
    | .awaitingResult => some { s with caller := .droppingReceiver }
    | .beforeAck => some { s with caller := .droppingHandoff }
    | _ => none
  | .joined =>
    match s.caller, s.coordinator with
    | .joining after, .finished => some { s with caller := .ended after }
    | _, _ => none
  | .deadlinePasses =>
    match s.caller with
    | .joining after => some { s with caller := .ended after }
    | _ => none

end Nigiri.Handoff
