/-! What the threads of a startup share: the result of the work, sent once, and the signal that
cancels it. -/
namespace Nigiri.Runtime
variable {α ε μ : Type}

/-- The error of the work, or one of the engine in its place. -/
inductive StartError (ε : Type) where
  | engine (operation source : String)
  | work (error : ε)

/-- A oneshot, as its two ends leave it. -/
inductive ResultChannel (μ : Type) where
  | empty
  | sent (message : μ)
  | received
  | closed

/-- What cannot be sent is dropped. -/
def ResultChannel.send (channel : ResultChannel μ) (message : μ) : ResultChannel μ :=
  match channel with
  | .closed => .closed
  | _ => .sent message

/-- The watch of the cancellation signal. -/
structure Cancelled where
  sent : Bool
  closed : Bool
  deriving DecidableEq

def Cancelled.changed (cancelled : Cancelled) : Bool := cancelled.sent || cancelled.closed

/-- How the work of a startup ends. -/
inductive Outcome (α ε : Type) where
  | value (value : α)
  | error (error : ε)
  | panic (payload : Option String)

end Nigiri.Runtime
