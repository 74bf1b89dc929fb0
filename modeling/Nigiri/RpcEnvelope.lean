import Nigiri.NodeRpc

/-! What a node's response is: an envelope for the request, an error of it, or neither; and that
a call reports exactly that. -/
namespace Nigiri.Core
open Utf8

/-- A name stands once among members, and its value can be read. -/
def Once (name : String) (value : Value) (members : List (String × Option Value)) : Prop :=
  ∃ front back, members = front ++ (name, some value) :: back ∧
    ∀ member ∈ front ++ back, member.1 ≠ name

/-- An envelope for a request. Members besides the three are passed over. -/
inductive IsEnvelope (id : String) : Document → Value → Value → Prop where
  | object (members : List (String × Option Value)) (result error : Value)
    (hresult : Once "result" result members) (herror : Once "error" error members)
    (hid : Once "id" (.string id) members) : IsEnvelope id (.object members) result error
  | array (result error : Value) :
    IsEnvelope id (.array [some result, some error, some (.string id)]) result error

inductive IsErrorPayload : Document → RpcErrorPayload → Prop where
  | object (members : List (String × Option Value)) (value : Value) (code : Int32)
    (message : String) (hcode : Once "code" value members) (hvalue : value.asI32 = some code)
    (hmessage : Once "message" (.string message) members) :
    IsErrorPayload (.object members) ⟨code, message⟩
  | array (value : Value) (code : Int32) (message : String) (hvalue : value.asI32 = some code) :
    IsErrorPayload (.array [some value, some (.string message)]) ⟨code, message⟩

theorem isNull_iff {value : Value} : value.isNull = true ↔ value = .null := by
  cases value <;> simp [Value.isNull]

theorem asString_iff {value : Value} {text : String} :
    value.asString = some text ↔ value = .string text := by
  cases value <;> simp [Value.asString]

theorem readField_iff {α : Type} {name : String} {read : Value → Option α}
    {members : List (String × Option Value)} {x : α} :
    readField name read members = some x ↔
      ∃ value, Once name value members ∧ read value = some x := by
  constructor
  · intro h
    rw [readField] at h
    split at h
    · next found value hfilter =>
      obtain ⟨front, back, hmembers, hfront, hname, hback⟩ := List.filter_eq_cons_iff.mp hfilter
      obtain rfl : found = name := by simpa using hname
      refine ⟨value, ⟨front, back, hmembers, ?_⟩, h⟩
      intro member hmember
      obtain hmember | hmember := List.mem_append.mp hmember
      · simpa using hfront member hmember
      · simpa using List.filter_eq_nil_iff.mp hback member hmember
    · cases h
  · intro h
    obtain ⟨value, ⟨front, back, rfl, hothers⟩, hread⟩ := h
    have hfilter : (front ++ (name, some value) :: back).filter
        (fun member => decide (member.1 = name)) = [(name, some value)] := by
      apply List.filter_eq_cons_iff.mpr
      refine ⟨front, back, rfl, ?_, by simp, List.filter_eq_nil_iff.mpr ?_⟩
      · intro member hmember
        simpa using hothers member (List.mem_append_left back hmember)
      · intro member hmember
        simpa using hothers member (List.mem_append_right front hmember)
    rw [readField, hfilter]
    exact hread

theorem Response.read_iff {document : Document} {response : Response} :
    Response.read document = some response ↔
      IsEnvelope response.id document response.result response.error := by
  constructor
  · intro h
    cases document with
    | object members =>
      simp only [Response.read, Option.bind_eq_bind, Option.bind_eq_some_iff, readField_iff,
        Option.pure_def, Option.some.injEq] at h
      obtain ⟨_, ⟨result, hresult, rfl⟩, _, ⟨error, herror, rfl⟩, id, ⟨_, hid, htext⟩, rfl⟩ := h
      rw [asString_iff.mp htext] at hid
      exact .object members result error hresult herror hid
    | array items =>
      rw [Response.read.eq_def] at h
      split at h
      · next heq => cases heq
      · next result error id heq =>
        cases heq
        simp only [Option.bind_eq_bind, Option.bind_eq_some_iff, Option.pure_def,
          Option.some.injEq, asString_iff] at h
        obtain ⟨text, rfl, rfl⟩ := h
        exact .array result error
      · cases h
    | scalar => cases h
  · intro h
    obtain ⟨result, error, id⟩ := response
    cases h with
    | object members _ _ hresult herror hid =>
      simp only [Response.read, Option.bind_eq_bind, Option.bind_eq_some_iff, readField_iff,
        Option.pure_def, Option.some.injEq]
      exact ⟨result, ⟨result, hresult, rfl⟩, error, ⟨error, herror, rfl⟩, id,
        ⟨.string id, hid, rfl⟩, rfl⟩
    | array => rfl

theorem RpcErrorPayload.read_iff {document : Document} {payload : RpcErrorPayload} :
    RpcErrorPayload.read document = some payload ↔ IsErrorPayload document payload := by
  constructor
  · intro h
    rw [RpcErrorPayload.read.eq_def] at h
    split at h
    · next members =>
      simp only [Option.bind_eq_bind, Option.bind_eq_some_iff, readField_iff,
        Option.pure_def, Option.some.injEq] at h
      obtain ⟨code, ⟨value, hcode, hvalue⟩, message, ⟨_, hmessage, htext⟩, rfl⟩ := h
      rw [asString_iff.mp htext] at hmessage
      exact .object members value code message hcode hvalue hmessage
    · next value message =>
      simp only [Option.bind_eq_bind, Option.bind_eq_some_iff, Option.pure_def,
        Option.some.injEq, asString_iff] at h
      obtain ⟨code, hvalue, text, rfl, rfl⟩ := h
      exact .array value code text hvalue
    · cases h
  · intro h
    cases h with
    | object members value code message hcode hvalue hmessage =>
      simp only [RpcErrorPayload.read, Option.bind_eq_bind, Option.bind_eq_some_iff, readField_iff,
        Option.pure_def, Option.some.injEq]
      exact ⟨code, ⟨value, hcode, hvalue⟩, message, ⟨.string message, hmessage, rfl⟩, rfl⟩
    | array value code message hvalue =>
      simp only [RpcErrorPayload.read, hvalue]
      rfl

/-- A body that reads as an envelope for a request. -/
def Carries (fromSlice : Bytes → Option Document) (body : Bytes) (id : String)
    (result error : Value) : Prop :=
  ∃ document, fromSlice body = some document ∧ IsEnvelope id document result error

theorem carries_iff {fromSlice : Bytes → Option Document} {body : Bytes} {id : String}
    {result error : Value} :
    Carries fromSlice body id result error ↔
      (fromSlice body).bind Response.read = some ⟨result, error, id⟩ := by
  rw [Carries, Option.bind_eq_some_iff]
  simp only [Response.read_iff]

/-- A body is at most one envelope. -/
theorem Carries.unique {fromSlice : Bytes → Option Document} {body : Bytes} {id id' : String}
    {result result' error error' : Value} (h : Carries fromSlice body id result error)
    (h' : Carries fromSlice body id' result' error') :
    result = result' ∧ error = error' ∧ id = id' := by
  rw [carries_iff] at h h'
  rw [h] at h'
  cases h'
  exact ⟨rfl, rfl, rfl⟩

section Outcome
variable {R : Type} (fromSlice : Bytes → Option Document) (decode : Value → Option R)
  (method : String) (sensitive : List String) (status : StatusCode) (body : Bytes)

/-- When a response within the limit gives a value. -/
def Succeeds (value : R) : Prop :=
  status.isSuccess = true ∧
    ∃ result, Carries fromSlice body "nigiri-rs" result .null ∧ decode result = some value

/-- When it gives the node's own failure. -/
def Fails (code : Int32) (message : String) : Prop :=
  ∃ error payload, Carries fromSlice body "nigiri-rs" .null error ∧ error ≠ .null ∧
    IsErrorPayload error.toDocument payload ∧ payload.code = code ∧
    redactText payload.message sensitive = some message

/-- When all there is to tell is the status. -/
def StatusOnly : Prop :=
  status.isSuccess = false ∧
    ∀ result error, Carries fromSlice body "nigiri-rs" result error → error = .null

/-- The error a status makes is there before the body is looked at. -/
theorem httpErrorOf_some (response : BoundedResponse) :
    ∃ httpError, httpErrorOf method sensitive response = some httpError ∧
      (response.status.isSuccess = true ∧ httpError = none ∨
        response.status.isSuccess = false ∧
          ∃ text, httpError = some (.httpStatus method response.status.code text)) := by
  rw [httpErrorOf]
  cases hsuccess : response.status.isSuccess with
  | true => exact ⟨none, rfl, .inl ⟨rfl, rfl⟩⟩
  | false =>
    obtain ⟨text, htext⟩ := statusError_some response method sensitive
    exact ⟨_, by rw [htext]; rfl, .inr ⟨rfl, text, rfl⟩⟩

/-- What a response within the limit is told as. -/
inductive Decided : Except NigiriError R → Prop where
  | value (value : R) (h : Succeeds fromSlice decode status body value) : Decided (.ok value)
  | rpcFailed (code : Int32) (message : String) (h : Fails fromSlice sensitive body code message) :
    Decided (.error (.rpcFailed method code message))
  | httpStatus (text : String) (h : StatusOnly fromSlice status body) :
    Decided (.error (.httpStatus method status.code text))
  | invalid (detail : String) (hsucceeds : ∀ value, ¬ Succeeds fromSlice decode status body value)
    (hfails : ∀ code message, ¬ Fails fromSlice sensitive body code message)
    (hstatus : ¬ StatusOnly fromSlice status body) :
    Decided (.error (.invalidResponse method detail))

section Envelope
variable {fromSlice decode method sensitive status body} {result error : Value}

theorem decided_unread {httpError : Option NigiriError}
    (hstatus : status.isSuccess = true ∧ httpError = none ∨
      status.isSuccess = false ∧ ∃ text, httpError = some (.httpStatus method status.code text))
    (hnone : ∀ result error, ¬ Carries fromSlice body "nigiri-rs" result error) (detail : String) :
    Decided fromSlice decode method sensitive status body
      (.error (httpError.getD (.invalidResponse method detail))) := by
  obtain ⟨hsuccess, rfl⟩ | ⟨hsuccess, text, rfl⟩ := hstatus
  · refine .invalid detail ?_ ?_ ?_
    · intro value h
      obtain ⟨_, result, hcarries, _⟩ := h
      exact hnone _ _ hcarries
    · intro code message h
      obtain ⟨error, payload, hcarries, _⟩ := h
      exact hnone _ _ hcarries
    · intro h
      rw [h.1] at hsuccess
      cases hsuccess
  · exact .httpStatus text ⟨hsuccess, fun result error h => absurd h (hnone result error)⟩

theorem Carries.undecoded (h : Carries fromSlice body "nigiri-rs" result .null)
    (hsuccess : status.isSuccess = true) (hdecode : decode result = none) (detail : String) :
    Decided fromSlice decode method sensitive status body
      (.error (.invalidResponse method detail)) := by
  refine .invalid detail ?_ ?_ ?_
  · intro value h'
    obtain ⟨_, result', hcarries, hvalue⟩ := h'
    rw [← (h.unique hcarries).1, hdecode] at hvalue
    cases hvalue
  · intro code message h'
    obtain ⟨error, payload, hcarries, hne, _⟩ := h'
    exact hne (h.unique hcarries).2.1.symm
  · intro h'
    rw [h'.1] at hsuccess
    cases hsuccess

theorem Carries.invalid (h : Carries fromSlice body "nigiri-rs" result error) (hne : error ≠ .null)
    (hfails : ∀ code message, ¬ Fails fromSlice sensitive body code message) (detail : String) :
    Decided fromSlice decode method sensitive status body
      (.error (.invalidResponse method detail)) := by
  refine .invalid detail ?_ hfails fun h' => hne (h'.2 result error h)
  intro value h'
  obtain ⟨_, result', hcarries, _⟩ := h'
  exact hne (h.unique hcarries).2.1

theorem Carries.not_fails_both (h : Carries fromSlice body "nigiri-rs" result error)
    (hresult : result ≠ .null) (code : Int32) (message : String) :
    ¬ Fails fromSlice sensitive body code message := by
  intro h'
  obtain ⟨error', payload, hcarries, _⟩ := h'
  exact hresult (h.unique hcarries).1

theorem Carries.not_fails_unread (h : Carries fromSlice body "nigiri-rs" result error)
    (hpayload : RpcErrorPayload.read error.toDocument = none) (code : Int32) (message : String) :
    ¬ Fails fromSlice sensitive body code message := by
  intro h'
  obtain ⟨error', payload, hcarries, _, hread, _⟩ := h'
  rw [← (h.unique hcarries).2.1, ← RpcErrorPayload.read_iff, hpayload] at hread
  cases hread

end Envelope

/-- A response within the limit is read by its envelope first and by its status then. -/
theorem readResponse_within :
    ∃ outcome, readResponse fromSlice decode method sensitive ⟨status, body, false⟩ =
        some outcome ∧ Decided fromSlice decode method sensitive status body outcome := by
  obtain ⟨httpError, hhttp, hstatus⟩ := httpErrorOf_some method sensitive ⟨status, body, false⟩
  simp only [readResponse, hhttp, BoundedResponse.intoBody, Option.bind_eq_bind, Option.bind_some,
    Bool.false_eq_true, if_false]
  cases hread : ((fromSlice body).bind Response.read).filter fun r => r.id = "nigiri-rs" with
  | none =>
    refine ⟨_, rfl, decided_unread hstatus (fun result error hcarries => ?_) _⟩
    rw [carries_iff.mp hcarries] at hread
    cases hread
  | some envelope =>
    obtain ⟨henvelope, hid⟩ := Option.filter_eq_some_iff.mp hread
    obtain ⟨result, error, id⟩ := envelope
    obtain rfl : id = "nigiri-rs" := by simpa using hid
    have hcarries := carries_iff.mpr henvelope
    by_cases herror : error = .null
    · subst herror
      obtain ⟨hsuccess, rfl⟩ | ⟨hsuccess, text, rfl⟩ := hstatus
      · cases hdecode : decode result with
        | some value =>
          refine ⟨.ok value, ?_, .value value ⟨hsuccess, result, hcarries, hdecode⟩⟩
          simp [Value.isNull, hdecode]
        | none =>
          refine ⟨_, ?_, hcarries.undecoded hsuccess hdecode
            "result did not match the requested type"⟩
          simp [Value.isNull, hdecode, invalidResponse]
      · refine ⟨_, ?_, .httpStatus text ⟨hsuccess, fun result' error' h => ?_⟩⟩
        · simp [Value.isNull]
        · exact (h.unique hcarries).2.1
    · by_cases hresult : result = .null
      · subst hresult
        cases hpayload : RpcErrorPayload.read error.toDocument with
        | none =>
          refine ⟨_, ?_, hcarries.invalid herror (hcarries.not_fails_unread hpayload)
            "invalid JSON-RPC error payload"⟩
          simp [Value.isNull, hpayload, invalidResponse]
        | some payload =>
          obtain ⟨message, hmessage⟩ := redactText_some payload.message sensitive
          refine ⟨_, ?_, .rpcFailed payload.code message ⟨error, payload, hcarries, herror,
            RpcErrorPayload.read_iff.mp hpayload, rfl, hmessage⟩⟩
          simp [Value.isNull, hpayload, hmessage]
      · have hnull : error.isNull = false :=
          Bool.eq_false_iff.mpr fun h => herror (isNull_iff.mp h)
        have hboth : result.isNull = false :=
          Bool.eq_false_iff.mpr fun h => hresult (isNull_iff.mp h)
        refine ⟨_, ?_, hcarries.invalid herror (hcarries.not_fails_both hresult)
          "response contains both a result and an error"⟩
        simp [hnull, hboth, invalidResponse]

variable {fromSlice decode sensitive status body}

theorem Succeeds.unique {value value' : R} (h : Succeeds fromSlice decode status body value)
    (h' : Succeeds fromSlice decode status body value') : value = value' := by
  obtain ⟨_, result, hcarries, hvalue⟩ := h
  obtain ⟨_, result', hcarries', hvalue'⟩ := h'
  rw [(hcarries.unique hcarries').1, hvalue'] at hvalue
  exact (Option.some.inj hvalue).symm

theorem Fails.unique {code code' : Int32} {message message' : String}
    (h : Fails fromSlice sensitive body code message)
    (h' : Fails fromSlice sensitive body code' message') : code = code' ∧ message = message' := by
  obtain ⟨error, payload, hcarries, _, hread, rfl, hmessage⟩ := h
  obtain ⟨error', payload', hcarries', _, hread', rfl, hmessage'⟩ := h'
  rw [(hcarries.unique hcarries').2.1, ← RpcErrorPayload.read_iff] at hread
  rw [← RpcErrorPayload.read_iff, hread, Option.some.injEq] at hread'
  subst hread'
  rw [hmessage', Option.some.injEq] at hmessage
  exact ⟨rfl, hmessage.symm⟩

theorem Succeeds.not_fails {value : R} (h : Succeeds fromSlice decode status body value)
    (code : Int32) (message : String) : ¬ Fails fromSlice sensitive body code message := by
  intro h'
  obtain ⟨_, result, hcarries, _⟩ := h
  obtain ⟨error, payload, hcarries', hne, _⟩ := h'
  exact hne (hcarries.unique hcarries').2.1.symm

theorem Succeeds.not_statusOnly {value : R} (h : Succeeds fromSlice decode status body value) :
    ¬ StatusOnly fromSlice status body := by
  intro h'
  have hsuccess := h.1
  rw [h'.1] at hsuccess
  cases hsuccess

theorem Fails.not_statusOnly {code : Int32} {message : String}
    (h : Fails fromSlice sensitive body code message) : ¬ StatusOnly fromSlice status body := by
  intro h'
  obtain ⟨error, payload, hcarries, hne, _⟩ := h
  exact hne (h'.2 _ _ hcarries)

end Outcome

section Call
variable {R : Type} (fromSlice : Bytes → Option Document) (decode : Value → Option R)
  (config : NigiriConfig) (method : String) (sensitive : List String)

/-- A call that got a complete response is read from the whole body, when it is within the
limit. -/
theorem callWithSensitive_complete (params : Value) (network : Request → Exchange)
    (status : StatusCode) (chunks : List Bytes)
    (hresponse : network (requestOf config method params) = .response status chunks none) :
    callWithSensitive fromSlice decode config method sensitive (some params) network =
      if config.maxResponseBytes < chunks.flatten.length then
        some (.error (.invalidResponse method
          "response body exceeded the configured safety limit"))
      else readResponse fromSlice decode method sensitive ⟨status, chunks.flatten, false⟩ := by
  have hread := readBody_eq config.maxResponseBytes [] none chunks (Nat.zero_le _)
  rw [List.nil_append] at hread
  simp only [callWithSensitive, hresponse, send, hread]
  by_cases hlong : config.maxResponseBytes < chunks.flatten.length
  · obtain ⟨httpError, hhttp, _⟩ := httpErrorOf_some method sensitive
      ⟨status, chunks.flatten.take config.maxResponseBytes, true⟩
    simp only [if_pos hlong, readResponse, hhttp]
    rfl
  · simp only [if_neg hlong]

/-- What is reported of a complete response, and when. -/
structure Reports (status : StatusCode) (body : Bytes) (outcome : Except NigiriError R) :
    Prop where
  ok : ∀ value, outcome = .ok value ↔
    body.length ≤ config.maxResponseBytes ∧ Succeeds fromSlice decode status body value
  rpcFailed : ∀ name code message, outcome = .error (.rpcFailed name code message) ↔
    name = method ∧ body.length ≤ config.maxResponseBytes ∧
      Fails fromSlice sensitive body code message
  httpStatus : (∃ name code text, outcome = .error (.httpStatus name code text)) ↔
    body.length ≤ config.maxResponseBytes ∧ StatusOnly fromSlice status body
  invalidResponse : (∃ name detail, outcome = .error (.invalidResponse name detail)) ↔
    ¬ (body.length ≤ config.maxResponseBytes ∧
      ((∃ value, Succeeds fromSlice decode status body value) ∨
        (∃ code message, Fails fromSlice sensitive body code message) ∨
          StatusOnly fromSlice status body))

variable {fromSlice decode config method sensitive} {status : StatusCode} {body : Bytes}

theorem reports_exceeded (hlong : ¬ body.length ≤ config.maxResponseBytes) (detail : String) :
    Reports fromSlice decode config method sensitive status body
      (.error (.invalidResponse method detail)) where
  ok value := ⟨nofun, fun h => absurd h.1 hlong⟩
  rpcFailed name code message := ⟨nofun, fun h => absurd h.2.1 hlong⟩
  httpStatus := by
    constructor
    · intro h
      obtain ⟨name, code, text, h⟩ := h
      cases h
    · exact fun h => absurd h.1 hlong
  invalidResponse := ⟨fun _ h => hlong h.1, fun _ => ⟨method, detail, rfl⟩⟩

theorem reports_ok (hwithin : body.length ≤ config.maxResponseBytes) {value : R}
    (h : Succeeds fromSlice decode status body value) :
    Reports fromSlice decode config method sensitive status body (.ok value) where
  ok value' := by
    constructor
    · intro heq
      cases heq
      exact ⟨hwithin, h⟩
    · intro h'
      rw [h.unique h'.2]
  rpcFailed name code message :=
    ⟨nofun, fun h' => absurd h'.2.2 (h.not_fails code message)⟩
  httpStatus := by
    constructor
    · intro h'
      obtain ⟨name, code, text, h'⟩ := h'
      cases h'
    · exact fun h' => absurd h'.2 h.not_statusOnly
  invalidResponse := by
    constructor
    · intro h'
      obtain ⟨name, detail, h'⟩ := h'
      cases h'
    · exact fun h' => absurd ⟨hwithin, .inl ⟨value, h⟩⟩ h'

theorem reports_rpcFailed (hwithin : body.length ≤ config.maxResponseBytes) {code : Int32}
    {message : String} (h : Fails fromSlice sensitive body code message) :
    Reports fromSlice decode config method sensitive status body
      (.error (.rpcFailed method code message)) where
  ok value := ⟨nofun, fun h' => absurd h (h'.2.not_fails code message)⟩
  rpcFailed name code' message' := by
    constructor
    · intro heq
      cases heq
      exact ⟨rfl, hwithin, h⟩
    · intro h'
      obtain ⟨rfl, _, h'⟩ := h'
      rw [(h.unique h').1, (h.unique h').2]
  httpStatus := by
    constructor
    · intro h'
      obtain ⟨name, code, text, h'⟩ := h'
      cases h'
    · exact fun h' => absurd h'.2 h.not_statusOnly
  invalidResponse := by
    constructor
    · intro h'
      obtain ⟨name, detail, h'⟩ := h'
      cases h'
    · exact fun h' => absurd ⟨hwithin, .inr (.inl ⟨code, message, h⟩)⟩ h'

theorem reports_httpStatus (hwithin : body.length ≤ config.maxResponseBytes)
    (h : StatusOnly fromSlice status body) (text : String) :
    Reports fromSlice decode config method sensitive status body
      (.error (.httpStatus method status.code text)) where
  ok value := ⟨nofun, fun h' => absurd h h'.2.not_statusOnly⟩
  rpcFailed name code message := ⟨nofun, fun h' => absurd h h'.2.2.not_statusOnly⟩
  httpStatus := ⟨fun _ => ⟨hwithin, h⟩, fun _ => ⟨method, status.code, text, rfl⟩⟩
  invalidResponse := by
    constructor
    · intro h'
      obtain ⟨name, detail, h'⟩ := h'
      cases h'
    · exact fun h' => absurd ⟨hwithin, .inr (.inr h)⟩ h'

theorem reports_invalid (hsucceeds : ∀ value, ¬ Succeeds fromSlice decode status body value)
    (hfails : ∀ code message, ¬ Fails fromSlice sensitive body code message)
    (hstatus : ¬ StatusOnly fromSlice status body) (detail : String) :
    Reports fromSlice decode config method sensitive status body
      (.error (.invalidResponse method detail)) where
  ok value := ⟨nofun, fun h => absurd h.2 (hsucceeds value)⟩
  rpcFailed name code message := ⟨nofun, fun h => absurd h.2.2 (hfails code message)⟩
  httpStatus := by
    constructor
    · intro h
      obtain ⟨name, code, text, h⟩ := h
      cases h
    · exact fun h => absurd h.2 hstatus
  invalidResponse := by
    refine ⟨fun _ h => ?_, fun _ => ⟨method, detail, rfl⟩⟩
    obtain ⟨_, ⟨value, h⟩ | ⟨code, message, h⟩ | h⟩ := h
    · exact hsucceeds value h
    · exact hfails code message h
    · exact hstatus h

theorem Decided.reports {outcome : Except NigiriError R}
    (h : Decided fromSlice decode method sensitive status body outcome)
    (hwithin : body.length ≤ config.maxResponseBytes) :
    Reports fromSlice decode config method sensitive status body outcome := by
  cases h with
  | value value h => exact reports_ok hwithin h
  | rpcFailed code message h => exact reports_rpcFailed hwithin h
  | httpStatus text h => exact reports_httpStatus hwithin h text
  | invalid detail hsucceeds hfails hstatus => exact reports_invalid hsucceeds hfails hstatus detail

variable (fromSlice decode config method sensitive)

/-- What a call reports of a complete response; neither an error nor a response to another request
passes for a success, nor the latter for a failure of this one. -/
theorem call_with_sensitive_outcomes (params : Value) (network : Request → Exchange)
    (status : StatusCode) (chunks : List Bytes)
    (hresponse : network (requestOf config method params) = .response status chunks none) :
    ∃ outcome,
      callWithSensitive fromSlice decode config method sensitive (some params) network =
        some outcome ∧
      Reports fromSlice decode config method sensitive status chunks.flatten outcome ∧
      ∀ id result error, Carries fromSlice chunks.flatten id result error →
        (error ≠ .null ∨ id ≠ "nigiri-rs" → ∀ value, outcome ≠ .ok value) ∧
        (id ≠ "nigiri-rs" →
          ∀ name code message, outcome ≠ .error (.rpcFailed name code message)) := by
  have hcall := callWithSensitive_complete fromSlice decode config method sensitive params network
    status chunks hresponse
  have hreports : ∃ outcome,
      callWithSensitive fromSlice decode config method sensitive (some params) network =
        some outcome ∧
      Reports fromSlice decode config method sensitive status chunks.flatten outcome := by
    by_cases hlong : config.maxResponseBytes < chunks.flatten.length
    · rw [if_pos hlong] at hcall
      exact ⟨_, hcall, reports_exceeded (Nat.not_le.mpr hlong) _⟩
    · rw [if_neg hlong] at hcall
      have hwithin := Nat.le_of_not_lt hlong
      obtain ⟨outcome, hread, hdecided⟩ :=
        readResponse_within fromSlice decode method sensitive status chunks.flatten
      exact ⟨outcome, hcall.trans hread, hdecided.reports hwithin⟩
  obtain ⟨outcome, houtcome, hreports⟩ := hreports
  refine ⟨outcome, houtcome, hreports, ?_⟩
  intro id result error hcarries
  constructor
  · intro hother value heq
    obtain ⟨_, _, result', hcarries', _⟩ := (hreports.ok value).mp heq
    obtain ⟨_, herror, hid⟩ := hcarries.unique hcarries'
    exact hother.elim (· herror) (· hid)
  · intro hother name code message heq
    obtain ⟨_, _, error', payload, hcarries', _⟩ := (hreports.rpcFailed name code message).mp heq
    exact hother (hcarries.unique hcarries').2.2

end Call

section Example
def heightError : Value := .object [("code", .number "-8"), ("message", .string "out of range")]

/-- `{"result":null,"error":{"code":-8,"message":"out of range"},"id":"nigiri-rs"}` -/
def heightResponse : Document :=
  .object [("result", some .null), ("error", some heightError),
    ("id", some (.string "nigiri-rs"))]

def heightText : Bytes :=
  encode ("\x7b\"result\":null,\"error\":\x7b\"code\":-8,".toList ++
    "\"message\":\"out of range\"\x7d,\"id\":\"nigiri-rs\"\x7d".toList)

/-- A node that refuses a block height under a server error is heard. -/
theorem call_with_sensitive_refused :
    let config : NigiriConfig := ⟨"http://127.0.0.1:18443/", "admin1", "123", 2000, 1024⟩
    let fromSlice := fun body : Bytes => if body = heightText then some heightResponse else none
    let chunks := [heightText.take 30, [], heightText.drop 30]
    callWithSensitive fromSlice (fun _ => some ()) config "getblockhash" []
        (some (.array [.number "999"])) (fun _ => .response ⟨500, by decide⟩ chunks none) =
      some (.error (.rpcFailed "getblockhash" (-8) "out of range")) := by
  intro config fromSlice chunks
  have hchunks : chunks.flatten = heightText := by simp [chunks]
  have hread : fromSlice chunks.flatten = some heightResponse := by
    rw [hchunks]
    exact if_pos rfl
  have hcarries : Carries fromSlice chunks.flatten "nigiri-rs" .null heightError :=
    ⟨_, hread, .object _ _ _ ⟨[], _, rfl, by simp⟩ ⟨[("result", some .null)], _, rfl, by simp⟩
      ⟨[("result", some .null), ("error", some heightError)], [], rfl, by simp⟩⟩
  have hfails : Fails fromSlice [] chunks.flatten (-8) "out of range" := by
    refine ⟨heightError, ⟨-8, "out of range"⟩, hcarries, nofun, ?_, rfl, by decide⟩
    exact .object _ (.number "-8") _ _ ⟨[], _, rfl, by simp⟩ (by decide)
      ⟨[("code", some (.number "-8"))], [], rfl, by simp⟩
  obtain ⟨outcome, hcall, hreports, _⟩ := call_with_sensitive_outcomes fromSlice (fun _ => some ())
    config "getblockhash" [] (.array [.number "999"])
      (fun _ => .response ⟨500, by decide⟩ chunks none) ⟨500, by decide⟩ chunks rfl
  rw [hcall, (hreports.rpcFailed _ _ _).mpr ⟨rfl, by rw [hchunks]; decide, hfails⟩]

end Example

end Nigiri.Core
