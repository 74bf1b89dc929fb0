import Nigiri.BoundedResponse

/-! Calls to a node: the envelope of a response and what it makes of the call. The library reads
JSON texts; the derived readers of the structures are given here. -/
namespace Nigiri.Core
open Utf8

/-- A JSON value. A number is its text, and a name stands once in an object. -/
inductive Value where
  | null
  | bool (b : Bool)
  | number (text : String)
  | string (text : String)
  | array (items : List Value)
  | object (members : List (String × Value))

def Value.isNull : Value → Bool
  | .null => true
  | _ => false

def Value.asString : Value → Option String
  | .string text => some text
  | _ => none

/-- A JSON text as a structure is read from it: its members or items, in order, each with what it
reads as if it can be read and not just be skipped. -/
inductive Document where
  | object (members : List (String × Option Value))
  | array (items : List (Option Value))
  | scalar

def Value.toDocument : Value → Document
  | .object members => .object (members.map fun member => (member.1, some member.2))
  | .array items => .array (items.map some)
  | _ => .scalar

/-- The field of a structure: its name stands there once, with a value of its type. -/
def readField {α : Type} (name : String) (read : Value → Option α)
    (members : List (String × Option Value)) : Option α :=
  match members.filter fun member => member.1 = name with
  | [(_, some value)] => read value
  | _ => none

structure Request where
  url : String
  user : String
  password : String
  jsonrpc : String
  id : String
  method : String
  params : Value

structure Response where
  result : Value
  error : Value
  id : String

def Response.read : Document → Option Response
  | .object members => do
    let result ← readField "result" some members
    let error ← readField "error" some members
    let id ← readField "id" Value.asString members
    return ⟨result, error, id⟩
  | .array [some result, some error, some id] => do return ⟨result, error, ← id.asString⟩
  | _ => none

/-- A number in range, with a sign or without. -/
def i32FromStr (text : String) : Option Int32 :=
  let magnitude (digits : List Char) : Option Nat :=
    if digits ≠ [] ∧ digits.all Char.isDigit then some (Nat.ofDigitChars 10 digits 0) else none
  let value : Option Int :=
    match text.toList with
    | '-' :: digits => (magnitude digits).map fun n => -(n : Int)
    | '+' :: digits => (magnitude digits).map Int.ofNat
    | digits => (magnitude digits).map Int.ofNat
  value.bind fun n => if -2147483648 ≤ n ∧ n ≤ 2147483647 then some (Int32.ofInt n) else none

def Value.asI32 : Value → Option Int32
  | .number text => i32FromStr text
  | _ => none

structure RpcErrorPayload where
  code : Int32
  message : String
  deriving DecidableEq, Repr

def RpcErrorPayload.read : Document → Option RpcErrorPayload
  | .object members => do
    let code ← readField "code" Value.asI32 members
    let message ← readField "message" Value.asString members
    return ⟨code, message⟩
  | .array [some code, some message] => do return ⟨← code.asI32, ← message.asString⟩
  | _ => none

section Call
variable {R : Type} (fromSlice : Bytes → Option Document) (decode : Value → Option R)
  (config : NigiriConfig) (method : String) (sensitive : List String)

def invalidResponse (detail : String) : NigiriError := .invalidResponse method detail

/-- The error of a status other than success, which is told when the body tells nothing else. -/
def httpErrorOf (response : BoundedResponse) : Option (Option NigiriError) :=
  if response.status.isSuccess then some none
  else (response.statusError method sensitive).map some

/-- What is made of a complete response. -/
def readResponse (response : BoundedResponse) : Option (Except NigiriError R) := do
  let httpError ← httpErrorOf method sensitive response
  match response.intoBody method with
  | .error error => return .error error
  | .ok body =>
    match ((fromSlice body).bind Response.read).filter fun r => r.id = "nigiri-rs" with
    | none =>
      return .error (httpError.getD
        (invalidResponse method "expected a matching JSON-RPC response envelope"))
    | some envelope =>
      if !envelope.error.isNull then
        if !envelope.result.isNull then
          return .error (invalidResponse method "response contains both a result and an error")
        else
          match RpcErrorPayload.read envelope.error.toDocument with
          | none => return .error (invalidResponse method "invalid JSON-RPC error payload")
          | some error =>
            let message ← redactText error.message sensitive
            return .error (.rpcFailed method error.code message)
      else
        match httpError with
        | some error => return .error error
        | none =>
          match decode envelope.result with
          | some value => return .ok value
          | none =>
            return .error (invalidResponse method "result did not match the requested type")

def requestOf (params : Value) : Request where
  url := config.nodeRpcUrl
  user := config.nodeRpcUser
  password := config.nodeRpcPassword
  jsonrpc := "1.0"
  id := "nigiri-rs"
  method := method
  params := if params.isNull then .array [] else params

/-- The parameters are `none` when they could not be serialized. -/
def callWithSensitive (params : Option Value) (network : Request → Exchange) :
    Option (Except NigiriError R) :=
  match params with
  | none => some (.error (.invalidRequest "node RPC parameters could not be serialized"))
  | some params =>
    match send config method (network (requestOf config method params)) with
    | .error error => some (.error error)
    | .ok response => readResponse fromSlice decode method sensitive response

end Call

end Nigiri.Core
