import Nigiri.WireFormat

/-! Errors and gRPC statuses of the LND adapter. The rendered text of a status code is a
function of the code alone and is not kept; every other error text is the source's. -/
namespace Nigiri.Lnd
open Nigiri.WireFormat
variable {Hash : Type}

inductive LndStatusCode where
  | ok | cancelled | unknown | invalidArgument | deadlineExceeded | notFound
  | alreadyExists | permissionDenied | resourceExhausted | failedPrecondition | aborted
  | outOfRange | unimplemented | internal | unavailable | dataLoss | unauthenticated
  deriving DecidableEq, Repr

inductive LndError (Hash : Type) where
  | invalidRequest (detail : String)
  | credentialRead (path : String)
  | transport (operation detail : String)
  | authentication (operation detail : String)
  | status (code : LndStatusCode) (operation : String)
  | timeout (operation : String) (duration : Nat)
  | invalidResponse (operation detail : String) (identifier : Option String)
  | paymentFailed (paymentHash : Hash) (reason : String)
  | outcomeUnknown (operation : String) (identifier : Option String)
  deriving DecidableEq, Repr

/-- The gRPC codes of a received status. -/
inductive Code where
  | ok | cancelled | unknown | invalidArgument | deadlineExceeded | notFound
  | alreadyExists | permissionDenied | resourceExhausted | failedPrecondition | aborted
  | outOfRange | unimplemented | internal | unavailable | dataLoss | unauthenticated
  deriving DecidableEq, Repr

/-- What the adapter reads of a status: its code, and whether a transport error stands
anywhere in its source chain. -/
structure Status where
  code : Code
  hasTransportSource : Bool
  deriving DecidableEq, Repr

def statusCode : Code → LndStatusCode
  | .ok => .ok
  | .cancelled => .cancelled
  | .unknown => .unknown
  | .invalidArgument => .invalidArgument
  | .deadlineExceeded => .deadlineExceeded
  | .notFound => .notFound
  | .alreadyExists => .alreadyExists
  | .permissionDenied => .permissionDenied
  | .resourceExhausted => .resourceExhausted
  | .failedPrecondition => .failedPrecondition
  | .aborted => .aborted
  | .outOfRange => .outOfRange
  | .unimplemented => .unimplemented
  | .internal => .internal
  | .unavailable => .unavailable
  | .dataLoss => .dataLoss
  | .unauthenticated => .unauthenticated

def mapStatus (operation : String) (status : Status) : LndError Hash :=
  if status.hasTransportSource then .transport operation "gRPC transport failed"
  else match status.code with
    | .unauthenticated | .permissionDenied =>
      .authentication operation "credentials were rejected"
    | code => .status (statusCode code) operation

/-- What one awaited request gives before its deadline, or the deadline itself. -/
inductive Reply (α : Type) where
  | response (a : α)
  | status (s : Status)
  | elapsed

def boundedRequestUntil {α : Type} (configuredDuration : Nat) (operation : String) :
    Reply α → Except (LndError Hash) α
  | .response a => .ok a
  | .status s => .error (mapStatus operation s)
  | .elapsed => .error (.timeout operation configuredDuration)

def invalidRequest (detail : String) : LndError Hash := .invalidRequest detail

def unknownMutationOutcome (operation : String) (identifier : Option String) :
    LndError Hash := .outcomeUnknown operation identifier

/-- After a dispatched mutation these replies leave open whether it was committed. -/
def mutatingStatusIsAmbiguous (status : Status) : Bool :=
  status.hasTransportSource || match status.code with
    | .cancelled | .unknown | .deadlineExceeded | .resourceExhausted | .internal
    | .unavailable => true
    | _ => false

def boundedMutatingRequestUntil {α : Type} (operation : String)
    (identifier : Option String) : Reply α → Except (LndError Hash) α
  | .response a => .ok a
  | .status s =>
    if mutatingStatusIsAmbiguous s then .error (unknownMutationOutcome operation identifier)
    else .error (mapStatus operation s)
  | .elapsed => .error (unknownMutationOutcome operation identifier)

/-- Adding a duration to the clock fails past the supported range. -/
def operationDeadline {Instant : Type} (checkedAdd : Nat → Option Instant) (duration : Nat) :
    Except (LndError Hash) Instant :=
  match checkedAdd duration with
  | some deadline => .ok deadline
  | none => .error (invalidRequest "request timeout exceeds the supported instant range")

def MAX_ERROR_TEXT_BYTES : Nat := 1024

/-- The longest prefix of whole characters within a number of bytes. -/
def charPrefix : Nat → List Char → List Char
  | _, [] => []
  | room, c :: cs =>
    if c.utf8Size ≤ room then c :: charPrefix (room - c.utf8Size) cs else []

def bounded (value : String) : String :=
  if value.utf8ByteSize ≤ MAX_ERROR_TEXT_BYTES then value
  else String.ofList (charPrefix (MAX_ERROR_TEXT_BYTES - '…'.utf8Size) value.toList) ++ "…"

/-- A bounded text starts as the text does. -/
theorem bounded_head {value : String} {c : Char} {cs : List Char} (h : value.toList = c :: cs) :
    ∃ rest, (bounded value).toList = c :: rest := by
  unfold bounded
  split
  next => exact ⟨cs, h⟩
  next =>
    have hfits : c.utf8Size ≤ MAX_ERROR_TEXT_BYTES - '…'.utf8Size :=
      Nat.le_trans c.utf8Size_le_four (by decide)
    rw [h, charPrefix, if_pos hfits, String.toList_append, String.toList_ofList]
    exact ⟨_, rfl⟩

def invalidResponseWithIdentifier (operation detail : String) (identifier : Option String) :
    LndError Hash := .invalidResponse operation detail identifier

def invalidResponse (operation detail : String) : LndError Hash :=
  invalidResponseWithIdentifier operation detail none

/-- The operation an error is reported under, for the three kinds a retry policy reads. -/
def LndError.retriedOperation : LndError Hash → Option String
  | .transport operation _ | .timeout operation _ | .status _ operation => some operation
  | _ => none

end Nigiri.Lnd
