import Nigiri.LossyText
import Nigiri.SensitiveRemoval
import Nigiri.Peg

/-! Responses of which only so many bytes are read, and the errors their status makes of them. -/
namespace Nigiri.Core
open Utf8

structure StatusCode where
  code : Nat
  valid : 100 ≤ code ∧ code < 1000
  deriving DecidableEq, Repr

def StatusCode.isSuccess (status : StatusCode) : Bool := 200 ≤ status.code && status.code < 300

structure NigiriConfig where
  nodeRpcUrl : String
  nodeRpcUser : String
  nodeRpcPassword : String
  timeout : Nat
  maxResponseBytes : Nat
  deriving DecidableEq, Repr

inductive TransportFault where
  | timeout | other
  deriving DecidableEq, Repr

/-- What becomes of a request: it fails, or a response comes in chunks to its end or to a fault. -/
inductive Exchange where
  | failed (fault : TransportFault)
  | response (status : StatusCode) (chunks : List Bytes) (fault : Option TransportFault)
  deriving DecidableEq, Repr

structure BoundedResponse where
  status : StatusCode
  body : Bytes
  exceeded : Bool
  deriving DecidableEq, Repr

/-- The text with the sensitive values removed. -/
def redactText (text : String) (sensitive : List String) : Option String :=
  (redactSensitive text.toList (sensitive.map String.toList)).map String.ofList

def boundedErrorText (body : Bytes) (exceeded : Bool) (sensitive : List String) : Option String :=
  (redactText (String.ofList (fromUtf8Lossy body)) sensitive).map fun text =>
    if exceeded then text ++ "…[truncated]" else text

def BoundedResponse.statusError (response : BoundedResponse) (operation : String)
    (sensitive : List String) : Option NigiriError :=
  (boundedErrorText response.body response.exceeded sensitive).map fun body =>
    .httpStatus operation response.status.code body

def BoundedResponse.intoBody (response : BoundedResponse) (operation : String) :
    Except NigiriError Bytes :=
  if response.exceeded then
    .error (.invalidResponse operation "response body exceeded the configured safety limit")
  else .ok response.body

/-- The loop over the chunks of a body. -/
def readBody (limit : Nat) (body : Bytes) (fault : Option TransportFault) :
    List Bytes → Except TransportFault (Bytes × Bool)
  | [] =>
    match fault with
    | none => .ok (body, false)
    | some fault => .error fault
  | chunk :: chunks =>
    let remaining := limit - body.length
    let body := body ++ chunk.take (min chunk.length remaining)
    if remaining < chunk.length then .ok (body, true)
    else readBody limit body fault chunks

def transportError (config : NigiriConfig) (operation : String) : TransportFault → NigiriError
  | .timeout => .timeout operation config.timeout
  | .other => .httpTransport operation

def send (config : NigiriConfig) (operation : String) :
    Exchange → Except NigiriError BoundedResponse
  | .failed fault => .error (transportError config operation fault)
  | .response status chunks fault =>
    match readBody config.maxResponseBytes [] fault chunks with
    | .error fault => .error (transportError config operation fault)
    | .ok (body, exceeded) => .ok ⟨status, body, exceeded⟩

/-- However a body is split, it is cut at the limit exactly when it is longer, and then nothing
behind the limit matters. -/
theorem readBody_eq (limit : Nat) (body : Bytes) (fault : Option TransportFault)
    (chunks : List Bytes) (hroom : body.length ≤ limit) :
    readBody limit body fault chunks =
      if limit < (body ++ chunks.flatten).length then
        .ok ((body ++ chunks.flatten).take limit, true)
      else match fault with
        | none => .ok (body ++ chunks.flatten, false)
        | some fault => .error fault := by
  induction chunks generalizing body with
  | nil =>
    rw [List.flatten_nil, List.append_nil, if_neg (Nat.not_lt.mpr hroom)]
    cases fault <;> rfl
  | cons chunk chunks ih =>
    rw [readBody, List.flatten_cons, ← List.append_assoc]
    by_cases hfull : limit - body.length < chunk.length
    · have hlong : limit < (body ++ chunk ++ chunks.flatten).length := by
        rw [List.length_append, List.length_append]
        omega
      simp only [if_pos hfull, if_pos hlong, Nat.min_eq_right hfull.le]
      rw [List.append_assoc, List.take_append, List.take_of_length_le hroom,
        List.take_append_of_le_length hfull.le]
    · have hroom' : (body ++ chunk).length ≤ limit := by
        rw [List.length_append]
        omega
      simp only [if_neg hfull, Nat.min_eq_left (Nat.le_of_not_lt hfull), List.take_length]
      exact ih (body ++ chunk) hroom'

/-- What `send` makes of a body cut into chunks depends on the bytes of the whole body alone. -/
theorem send_response (config : NigiriConfig) (operation : String) (status : StatusCode)
    (chunks : List Bytes) (fault : Option TransportFault) :
    send config operation (.response status chunks fault) =
      if config.maxResponseBytes < chunks.flatten.length then
        .ok ⟨status, chunks.flatten.take config.maxResponseBytes, true⟩
      else match fault with
        | none => .ok ⟨status, chunks.flatten, false⟩
        | some fault => .error (transportError config operation fault) := by
  rw [send, readBody_eq config.maxResponseBytes [] fault chunks (Nat.zero_le _),
    List.nil_append]
  by_cases hlong : config.maxResponseBytes < chunks.flatten.length
  · simp only [if_pos hlong]
  · simp only [if_neg hlong]
    cases fault <;> rfl

theorem send_body_length_le (config : NigiriConfig) (operation : String) (exchange : Exchange)
    (response : BoundedResponse) (hsend : send config operation exchange = .ok response) :
    response.body.length ≤ config.maxResponseBytes := by
  cases exchange with
  | failed fault => cases hsend
  | response status chunks fault =>
    rw [send_response] at hsend
    by_cases hlong : config.maxResponseBytes < chunks.flatten.length
    · rw [if_pos hlong] at hsend
      cases hsend
      exact List.length_take_le _ _
    · rw [if_neg hlong] at hsend
      cases fault with
      | none =>
        cases hsend
        exact Nat.le_of_not_lt hlong
      | some fault => cases hsend

/-- However a body is cut into chunks, its first bytes up to the limit are retained, and the limit
is reported as exceeded exactly when the body is longer. -/
theorem send_independent_of_chunking (config : NigiriConfig) (operation : String)
    (status : StatusCode) (chunks : List Bytes) :
    (∃ response, send config operation (.response status chunks none) = .ok response ∧
      response.status = status ∧
      response.body =
        chunks.flatten.take (min chunks.flatten.length config.maxResponseBytes) ∧
      response.body.length = min chunks.flatten.length config.maxResponseBytes ∧
      (response.exceeded = true ↔ config.maxResponseBytes < chunks.flatten.length)) ∧
    (∀ others fault, others.flatten = chunks.flatten →
      send config operation (.response status others fault) =
        send config operation (.response status chunks fault)) ∧
    ∀ exchange response, send config operation exchange = .ok response →
      response.body.length ≤ config.maxResponseBytes := by
  refine ⟨?_, ?_, send_body_length_le config operation⟩
  · rw [send_response]
    by_cases hlong : config.maxResponseBytes < chunks.flatten.length
    · rw [if_pos hlong, Nat.min_eq_right hlong.le]
      refine ⟨_, rfl, rfl, rfl, ?_, iff_of_true rfl hlong⟩
      rw [List.length_take, Nat.min_eq_left hlong.le]
    · rw [if_neg hlong, Nat.min_eq_left (Nat.le_of_not_lt hlong), List.take_length]
      exact ⟨_, rfl, rfl, rfl, rfl, iff_of_false Bool.false_ne_true hlong⟩
  · intro others fault hsame
    rw [send_response, send_response, hsame]

/-- Removing sensitive values never panics. -/
theorem redactText_some (text : String) (sensitive : List String) :
    ∃ result, redactText text sensitive = some result := by
  have hfold : ∀ (values : List (List Char)) (text : List Char), (∀ value ∈ values, value ≠ []) →
      ∃ result, values.foldlM redactValue text = some result := by
    intro values
    induction values with
    | nil => exact fun text _ => ⟨text, rfl⟩
    | cons value values ih =>
      intro text hvalues
      obtain ⟨hvalue, hvalues⟩ := List.forall_mem_cons.mp hvalues
      obtain ⟨anchor, removed, _, hremoved, _⟩ := @redactValue_some value text hvalue
      obtain ⟨result, hresult⟩ := ih removed hvalues
      exact ⟨result, by rw [List.foldlM_cons, hremoved]; exact hresult⟩
  obtain ⟨result, hresult⟩ := hfold ((sensitive.map String.toList).filter (· ≠ [])) text.toList
    fun value hvalue => by simpa using (List.mem_filter.mp hvalue).2
  exact ⟨String.ofList result, by rw [redactText, redactSensitive, hresult]; rfl⟩

theorem statusError_some (response : BoundedResponse) (operation : String)
    (sensitive : List String) :
    ∃ body, response.statusError operation sensitive =
      some (.httpStatus operation response.status.code body) := by
  obtain ⟨text, htext⟩ := redactText_some (String.ofList (fromUtf8Lossy response.body)) sensitive
  rw [BoundedResponse.statusError, boundedErrorText, htext]
  exact ⟨_, rfl⟩

end Nigiri.Core
