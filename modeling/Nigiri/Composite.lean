import Nigiri.Supervisor

/-! Two stacks of which one depends on the other: a Bitcoin stack with a Liquid stack or with two
LND nodes on its network. One owner after another is the caller of both supervisors: the startup on
the coordinator thread, whoever takes the pair over, or the unwinding of either. -/
namespace Nigiri.Composite
open Nigiri.Supervisor
variable {α β ξ ε : Type}

/-- Where the two composites differ. -/
structure Shape where
  connects : Bool
  logsWhenCancelled : Bool

def pegPair : Shape := ⟨true, true⟩

def lndPair : Shape := ⟨false, false⟩

/-- What the owner of the stacks is at. -/
inductive Point where
  | startingBitcoin
  | startingDependent
  | attachingLogs
  | connecting
  | held
  | endingDependent
  | endingBitcoin
  | ended

inductive Stack where
  | bitcoin
  | dependent

/-- The owner is the caller of a stack that it starts or ends. -/
def Point.calls : Point → Stack → Bool
  | .startingBitcoin, .bitcoin | .endingBitcoin, .bitcoin => true
  | .startingDependent, .dependent | .endingDependent, .dependent => true
  | _, _ => false

structure State (α β ξ ε : Type) where
  point : Point
  bitcoin : Supervisor.State α ξ ε
  dependent : Supervisor.State β ξ ε

def initial : State α β ξ ε := ⟨.startingBitcoin, Supervisor.initial, Supervisor.initial⟩

inductive Leaving where
  | failed
  | cancelled
  | panicked

/-- The pair is released when it is shut down or dropped by whoever has it. -/
inductive Move (α β ξ ε : Type) where
  | bitcoin (move : Supervisor.Move α ξ ε)
  | dependent (move : Supervisor.Move β ξ ε)
  | goesOn
  | leaves (how : Leaving)
  | released

def holds : Caller α ξ ε → Bool
  | .holding _ => true
  | _ => false

/-- A startup may fail before it spawns its supervisor. -/
def departed : Caller α ξ ε → Bool
  | .spawning | .ended _ => true
  | _ => false

def goesOn (shape : Shape) (s : State α β ξ ε) : Option (State α β ξ ε) :=
  match s.point with
  | .startingBitcoin =>
    if holds s.bitcoin.caller then some { s with point := .startingDependent } else none
  | .startingDependent =>
    if holds s.dependent.caller then
      some { s with point := if shape.connects then .connecting else .held }
    else none
  | .attachingLogs => some { s with point := .endingBitcoin }
  | .connecting => some { s with point := .held }
  | .endingDependent =>
    if departed s.dependent.caller then some { s with point := .endingBitcoin } else none
  | .endingBitcoin => if departed s.bitcoin.caller then some { s with point := .ended } else none
  | .held | .ended => none

/-- The logs of the Bitcoin stack are added to the error of the dependent one. What is held is
dropped in the order of its fields, the dependent stack first. -/
def leaves (shape : Shape) (s : State α β ξ ε) (how : Leaving) : Option (State α β ξ ε) :=
  match s.point with
  | .startingBitcoin => if departed s.bitcoin.caller then some { s with point := .ended } else none
  | .startingDependent =>
    if departed s.dependent.caller then
      some { s with
        point := match how with
          | .failed => .attachingLogs
          | .cancelled => if shape.logsWhenCancelled then .attachingLogs else .endingBitcoin
          | .panicked => .endingBitcoin }
    else none
  | .attachingLogs =>
    match how with
    | .panicked => some { s with point := .endingBitcoin }
    | _ => none
  | .connecting => some { s with point := .endingDependent }
  | _ => none

def step (shape : Shape) (s : State α β ξ ε) : Move α β ξ ε → Option (State α β ξ ε)
  | .bitcoin move =>
    if move.ofCaller && !s.point.calls .bitcoin then none
    else (Supervisor.step .complete s.bitcoin move).map fun bitcoin => { s with bitcoin := bitcoin }
  | .dependent move =>
    if move.ofCaller && !s.point.calls .dependent then none
    else
      (Supervisor.step .complete s.dependent move).map fun dependent =>
        { s with dependent := dependent }
  | .goesOn => goesOn shape s
  | .leaves how => leaves shape s how
  | .released =>
    match s.point with
    | .held => some { s with point := .endingDependent }
    | _ => none

end Nigiri.Composite
