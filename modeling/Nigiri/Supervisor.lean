import Nigiri.Channels
import Nigiri.Machine

/-! The supervisor of a startup: its work reserves a name before it has the engine create anything
under it, the creating requests run on as tasks of their own, and the supervisor cleans up after the
work whichever way it ends. What the work does is open; any task, the engine, the work and the
caller may move between two moves of the supervisor. -/
namespace Nigiri.Supervisor
open Nigiri.Runtime
variable {α ξ ε : Type}

section Ledger

inductive ResourceKind where
  | container
  | network
  deriving DecidableEq

structure Resource where
  kind : ResourceKind
  name : String
  deriving DecidableEq

structure OwnedResource where
  resource : Resource
  id : Option String
  deriving DecidableEq

/-- What the engine is told to remove. -/
def OwnedResource.target (owned : OwnedResource) : String := owned.id.getD owned.resource.name

/-- A ledger keeps the order of creation. -/
abbrev ResourceLedger := List OwnedResource

def expect (ledger : ResourceLedger) (resource : Resource) : ResourceLedger :=
  ledger ++ [⟨resource, none⟩]

def confirmFirst (name id : String) : ResourceLedger → ResourceLedger
  | [] => []
  | owned :: rest =>
    if owned.resource.name = name then { owned with id := some id } :: rest
    else owned :: confirmFirst name id rest

/-- The latest resource of the name gets the id. -/
def confirm (ledger : ResourceLedger) (name id : String) : ResourceLedger :=
  (confirmFirst name id ledger.reverse).reverse

def takeCleanupOrder (ledger : ResourceLedger) : List OwnedResource × ResourceLedger :=
  (ledger.reverse, [])

end Ledger

section State

/-- A task that asks the engine to create a resource. There is no reply when the task panics. -/
inductive MutationStatus (ε : Type) where
  | spawned
  | inFlight
  | settled (reply : Option (Except ε String))

structure Mutation (ε : Type) where
  resource : Resource
  status : MutationStatus ε

/-- How far the startup of one resource is. -/
inductive Progress where
  | ensuringImage
  | settling
  | awaiting (mutation : Nat)
  | starting
  | done
  deriving DecidableEq

structure Branch where
  resource : Resource
  progress : Progress

/-- What the work asks of its startup. -/
inductive Call where
  | createNetwork (name : String)
  | startContainer (name : String)
  | startContainerPair (first second : String)

def Call.branches : Call → List Branch
  | .createNetwork name => [⟨⟨.network, name⟩, .settling⟩]
  | .startContainer name => [⟨⟨.container, name⟩, .ensuringImage⟩]
  | .startContainerPair first second =>
    [⟨⟨.container, first⟩, .ensuringImage⟩, ⟨⟨.container, second⟩, .ensuringImage⟩]

/-- What is left to do behind the cleanup. -/
inductive After (ξ : Type) where
  | complete
  | publish (error : StartError ξ)
  | nothing

inductive Phase (α ξ ε : Type) where
  | unspawned
  | building
  | unbuilt
  | working
  | deciding (outcome : Outcome α (StartError ξ))
  | serving
  | settling (pending : List Nat) (after : After ξ)
  | removing (left : List OwnedResource) (firstError : Option ε) (after : After ξ)
  | awaitingRemoval (owned : OwnedResource) (left : List OwnedResource) (firstError : Option ε)
    (after : After ξ)
  | cleaned (firstError : Option ε) (after : After ξ)
  | finished

inductive Event (ε : Type) where
  | reserved (resource : Resource)
  | spawned (mutation : Nat) (resource : Resource)
  | issued (mutation : Nat) (resource : Resource)
  | committed (mutation : Nat) (resource : Resource)
  | reported (mutation : Nat) (resource : Resource) (reply : Option (Except ε String))
  | cleanup
  | removing (resource : Resource) (target : String)
  | removed (resource : Resource) (result : Except ε Unit)

/-- The supervisor thread with its tasks, and the record of what happened on it. -/
structure Core (α ξ ε : Type) where
  phase : Phase α ξ ε
  branches : List Branch
  ledger : ResourceLedger
  mutations : List (Mutation ε)
  registry : List Nat
  log : List (Event ε)

/-- Whose cancellation guard joins the thread only until the deadline. -/
inductive CancellationWait where
  | deadline
  | complete
  deriving DecidableEq

inductive CallerEnd (ξ ε : Type) where
  | failed (error : StartError ξ)
  | dropped
  | shutDown (result : Except ε Unit)

/-- What the caller's side does next. A handle is held until it is shut down or dropped. -/
inductive Caller (α ξ ε : Type) where
  | spawning
  | awaitingResult
  | holding (value : α)
  | shuttingDown
  | droppingReceiver
  | cancelling (after : CallerEnd ξ ε)
  | joining (detachable : Bool) (after : CallerEnd ξ ε)
  | ended (how : CallerEnd ξ ε)

/-- The shutdown signal is given when it is sent, or when the handle is dropped. -/
structure State (α ξ ε : Type) extends Core α ξ ε where
  caller : Caller α ξ ε
  result : ResultChannel (Except (StartError ξ) α)
  cancelled : Cancelled
  shutdown : Bool
  completion : Option (Except ε Unit)

def initial : State α ξ ε :=
  { phase := .unspawned, branches := [], ledger := [], mutations := [], registry := [], log := []
    caller := .spawning, result := .empty, cancelled := ⟨false, false⟩, shutdown := false
    completion := none }

end State

section Moves

/-- How what a branch awaits ends: on its own, or before the signal. -/
inductive Ending where
  | succeeds
  | fails
  | cancelled

inductive Move (α ξ ε : Type) where
  | spawn (error : Option String)
  | receive
  | drop
  | call
  | beginShutdown
  | completed
  | joined
  | deadlinePasses
  | build (error : Option String)
  | asks (call : Call)
  | advance (index : Nat) (how : Ending)
  | returns
  | abandon
  | workEnds (outcome : Outcome α (StartError ξ))
  | cancelWork
  | supervise
  | poll (mutation : Nat)
  | reply (mutation : Nat) (reply : Option (Except ε String))
  | commit (mutation : Nat)
  | removed (result : Except ε Unit)

def Move.ofCaller : Move α ξ ε → Bool
  | .spawn _ | .receive | .drop | .call | .beginShutdown | .completed | .joined
  | .deadlinePasses => true
  | _ => false

def Phase.running : Phase α ξ ε → Bool
  | .unspawned | .building | .unbuilt | .finished => false
  | _ => true

def Phase.stopped : Phase α ξ ε → Bool
  | .unbuilt | .finished => true
  | _ => false

namespace Core

/-- The names are reserved before anything is awaited. -/
def begin (c : Core α ξ ε) (call : Call) : Core α ξ ε :=
  { c with
    branches := call.branches
    ledger := call.branches.foldl (fun ledger branch => expect ledger branch.resource) c.ledger
    log := c.log ++ call.branches.map fun branch => .reserved branch.resource }

def setProgress (c : Core α ξ ε) (index : Nat) (branch : Branch) (progress : Progress) :
    Core α ξ ε :=
  { c with branches := c.branches.set index { branch with progress := progress } }

def spawnMutation (c : Core α ξ ε) (resource : Resource) : Core α ξ ε :=
  { c with
    mutations := c.mutations ++ [⟨resource, .spawned⟩]
    registry := c.registry ++ [c.mutations.length]
    log := c.log ++ [.spawned c.mutations.length resource] }

def pollMutation (c : Core α ξ ε) (index : Nat) (resource : Resource) : Core α ξ ε :=
  { c with
    mutations := c.mutations.set index ⟨resource, .inFlight⟩
    log := c.log ++ [.issued index resource] }

/-- A task that has an id confirms its resource before it ends. -/
def settleMutation (c : Core α ξ ε) (index : Nat) (resource : Resource)
    (reply : Option (Except ε String)) : Core α ξ ε :=
  { c with
    mutations := c.mutations.set index ⟨resource, .settled reply⟩
    ledger := match reply with
      | some (.ok id) => confirm c.ledger resource.name id
      | _ => c.ledger
    log := c.log ++ [.reported index resource reply] }

/-- The registry of tasks is taken; no task is registered after that. -/
def cleanup (c : Core α ξ ε) (after : After ξ) : Core α ξ ε :=
  { c with
    phase := .settling c.registry after
    registry := []
    log := c.log ++ [.cleanup] }

def takeOrder (c : Core α ξ ε) (after : After ξ) : Core α ξ ε :=
  let (order, ledger) := takeCleanupOrder c.ledger
  { c with phase := .removing order none after, ledger := ledger }

def remove (c : Core α ξ ε) (owned : OwnedResource) (left : List OwnedResource)
    (firstError : Option ε) (after : After ξ) : Core α ξ ε :=
  { c with
    phase := .awaitingRemoval owned left firstError after
    log := c.log ++ [.removing owned.resource owned.target] }

/-- The first error is kept; no error ends the cleanup. -/
def removed (c : Core α ξ ε) (owned : OwnedResource) (left : List OwnedResource)
    (firstError : Option ε) (after : After ξ) (result : Except ε Unit) : Core α ξ ε :=
  let firstError := match firstError, result with
    | none, .error error => some error
    | _, _ => firstError
  { c with
    phase := .removing left firstError after
    log := c.log ++ [.removed owned.resource result] }

end Core

/-- An operation under the signal may end by itself, or by the signal once that is given. A mutation
is spawned only before the signal. -/
def advance (s : State α ξ ε) (index : Nat) (branch : Branch) (how : Ending) :
    Option (State α ξ ε) :=
  match branch.progress, how with
  | .settling, .succeeds =>
    if s.cancelled.sent then none
    else some { s with
      toCore := (s.spawnMutation branch.resource).setProgress index branch
        (.awaiting s.mutations.length) }
  | .settling, .cancelled =>
    if s.cancelled.sent then some { s with toCore := s.setProgress index branch .done } else none
  | .settling, .fails => none
  | .done, _ => none
  | _, .cancelled =>
    if s.cancelled.changed then some { s with toCore := s.setProgress index branch .done }
    else none
  | .ensuringImage, .succeeds => some { s with toCore := s.setProgress index branch .settling }
  | .ensuringImage, .fails => some { s with toCore := s.setProgress index branch .done }
  | .awaiting mutation, how =>
    match (s.mutations[mutation]?).map Mutation.status, how with
    | some (.settled (some (.ok _))), .succeeds =>
      let next := match branch.resource.kind with
        | .container => Progress.starting
        | .network => .done
      some { s with toCore := s.setProgress index branch next }
    | some (.settled (some (.error _))), .fails | some (.settled none), .fails =>
      some { s with toCore := s.setProgress index branch .done }
    | _, _ => none
  | .starting, _ => some { s with toCore := s.setProgress index branch .done }

/-- What the supervisor does from one of its awaits to the next. An error is published before the
cleanup only to a caller with a deadline. -/
def supervise (wait : CancellationWait) (s : State α ξ ε) : Option (State α ξ ε) :=
  match s.phase with
  | .deciding (.value value) =>
    match s.result with
    | .closed => some { s with toCore := s.cleanup .complete, shutdown := true }
    | _ => some { s with phase := .serving, result := .sent (.ok value) }
  | .deciding (.error error) =>
    if wait = .deadline then
      some { s with toCore := s.cleanup .nothing, result := s.result.send (.error error) }
    else some { s with toCore := s.cleanup (.publish error) }
  | .deciding (.panic payload) =>
    let message := payload.getD "fixture startup panicked"
    some { s with toCore := s.cleanup (.publish (.engine "run fixture startup" message)) }
  | .serving => if s.shutdown then some { s with toCore := s.cleanup .complete } else none
  | .settling (mutation :: pending) after =>
    match (s.mutations[mutation]?).map Mutation.status with
    | some (.settled _) => some { s with phase := .settling pending after }
    | _ => none
  | .settling [] after => some { s with toCore := s.takeOrder after }
  | .removing (owned :: left) firstError after =>
    some { s with toCore := s.remove owned left firstError after }
  | .removing [] firstError after => some { s with phase := .cleaned firstError after }
  | .cleaned firstError .complete =>
    some { s with
      phase := .finished
      completion := some (match firstError with
        | none => .ok ()
        | some error => .error error) }
  | .cleaned _ (.publish error) =>
    some { s with phase := .finished, result := s.result.send (.error error) }
  | .cleaned _ .nothing => some { s with phase := .finished }
  | _ => none

/-- The supervisor's own error where the thread has stopped and sent no result. -/
def receive (wait : CancellationWait) (s : State α ξ ε) : Option (State α ξ ε) :=
  match s.result with
  | .sent (.ok value) =>
    some { s with result := .received, cancelled.closed := true, caller := .holding value }
  | .sent (.error error) =>
    some { s with
      result := .received
      cancelled.closed := true
      caller := match wait with
        | .deadline => .ended (.failed error)
        | .complete => .joining false (.failed error) }
  | _ =>
    if s.phase.stopped then
      some { s with caller := .cancelling (.failed (.engine "wait for fixture supervisor"
        "fixture supervisor stopped before startup completed")) }
    else none

/-- What the caller's side does between two of its awaits. -/
def call (wait : CancellationWait) (s : State α ξ ε) : Option (State α ξ ε) :=
  match s.caller with
  | .droppingReceiver =>
    match s.result with
    | .sent (.ok _) =>
      some { s with result := .closed, shutdown := true, caller := .cancelling .dropped }
    | _ => some { s with result := .closed, caller := .cancelling .dropped }
  | .cancelling after =>
    some { s with cancelled := ⟨true, true⟩, caller := .joining (wait = .deadline) after }
  | _ => none

def step (wait : CancellationWait) (s : State α ξ ε) : Move α ξ ε → Option (State α ξ ε)
  | .spawn error =>
    match s.caller, s.phase, error with
    | .spawning, .unspawned, none =>
      some { s with phase := .building, caller := .awaitingResult }
    | .spawning, .unspawned, some source =>
      some { s with caller := .ended (.failed (.engine "spawn fixture supervisor" source)) }
    | _, _, _ => none
  | .receive =>
    match s.caller with
    | .awaitingResult => receive wait s
    | _ => none
  | .drop =>
    match s.caller with
    | .awaitingResult => some { s with caller := .droppingReceiver }
    | .holding _ | .shuttingDown =>
      some { s with shutdown := true, caller := .joining false .dropped }
    | _ => none
  | .call => call wait s
  | .beginShutdown =>
    match s.caller with
    | .holding _ => some { s with shutdown := true, caller := .shuttingDown }
    | _ => none
  | .completed =>
    match s.caller, s.completion with
    | .shuttingDown, some result => some { s with caller := .joining false (.shutDown result) }
    | .shuttingDown, none =>
      if s.phase.stopped then
        some { s with caller := .joining false (.failed (.engine "wait for fixture cleanup"
          "fixture supervisor stopped without reporting cleanup")) }
      else none
    | _, _ => none
  | .joined =>
    match s.caller with
    | .joining _ after => if s.phase.stopped then some { s with caller := .ended after } else none
    | _ => none
  | .deadlinePasses =>
    match s.caller with
    | .joining true after => some { s with caller := .ended after }
    | _ => none
  | .build error =>
    match s.phase, error with
    | .building, none => some { s with phase := .working }
    | .building, some source =>
      some { s with
        phase := .unbuilt
        result := s.result.send (.error (.engine "start fixture supervisor" source)) }
    | _, _ => none
  | .asks call =>
    match s.phase, s.branches with
    | .working, [] => some { s with toCore := s.begin call }
    | _, _ => none
  | .advance index how =>
    match s.branches[index]? with
    | some branch => advance s index branch how
    | none => none
  | .returns =>
    if s.branches.all fun branch => branch.progress = .done then some { s with branches := [] }
    else none
  | .abandon => some { s with branches := [] }
  | .workEnds outcome =>
    match s.phase, s.branches with
    | .working, [] => some { s with phase := .deciding outcome }
    | _, _ => none
  | .cancelWork =>
    match s.phase with
    | .working =>
      if s.cancelled.changed then
        some { s with
          branches := []
          phase := .deciding (.error (.engine "start fixture" "fixture startup was cancelled")) }
      else none
    | _ => none
  | .supervise => supervise wait s
  | .poll mutation =>
    match s.phase.running, s.mutations[mutation]? with
    | true, some ⟨resource, .spawned⟩ => some { s with toCore := s.pollMutation mutation resource }
    | _, _ => none
  | .reply mutation reply =>
    match s.phase.running, s.mutations[mutation]? with
    | true, some ⟨resource, .inFlight⟩ =>
      some { s with toCore := s.settleMutation mutation resource reply }
    | _, _ => none
  | .commit mutation =>
    match s.mutations[mutation]? with
    | some ⟨_, .spawned⟩ | none => none
    | some ⟨resource, _⟩ => some { s with log := s.log ++ [.committed mutation resource] }
  | .removed result =>
    match s.phase with
    | .awaitingRemoval owned left firstError after =>
      some { s with toCore := s.removed owned left firstError after result }
    | _ => none

end Moves

end Nigiri.Supervisor
