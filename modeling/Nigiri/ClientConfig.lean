import Nigiri.Checks
import Nigiri.PairAllocation
import Nigiri.Peg

/-! What a client is configured with: checked and normalized once, over the URL library. -/
namespace Nigiri.Config
open Nigiri.Core Nigiri.Checks
variable {Url : Type}

/-- The URL library, and the standard library's reading of an address. -/
structure UrlLib (Url : Type) where
  parse : String → Option Url
  scheme : Url → String
  cannotBeABase : Url → Bool
  path : Url → String
  query : Url → Option String
  fragment : Url → Option String
  setPath : Url → String → Url
  setHost : Url → String → Option Url
  setPort : Url → Option UInt16 → Option Url
  extendPath : Url → List String → Option Url
  displayV6 : String → Option String

structure ElectrumEndpoint where
  host : String
  port : UInt16
  deriving DecidableEq, Repr

def ElectrumEndpoint.new (host : String) (port : UInt16) : Except NigiriError ElectrumEndpoint :=
  if host.isEmpty then .error (.invalidRequest "endpoint host must not be empty")
  else if port = 0 then .error (.invalidRequest "endpoint port must not be zero")
  else .ok ⟨host, port⟩

def DEFAULT_TIMEOUT : Nat := 30 * 1000000000
def DEFAULT_MAX_RESPONSE_BYTES : Nat := 64 * 1024
def MAX_RESPONSE_BYTES_LIMIT : Nat := 16 * 1024 * 1024

/-- Durations are counted in nanoseconds. -/
structure NigiriConfig (Url : Type) where
  esploraUrl : Url
  nodeRpcUrl : Url
  electrum : ElectrumEndpoint
  nodeRpcUser : String
  nodeRpcPassword : String
  timeout : Nat
  maxResponseBytes : Nat
  deriving DecidableEq, Repr

section Validation
variable (lib : UrlLib Url)

def isHttp (url : Url) : Bool :=
  (lib.scheme url == "http" || lib.scheme url == "https") && !lib.cannotBeABase url

def validateEndpointUrl (url : Url) : Except NigiriError Unit :=
  if !isHttp lib url then
    .error (.invalidRequest "endpoint URLs must use HTTP or HTTPS and support relative paths")
  else if (lib.query url).isSome || (lib.fragment url).isSome then
    .error (.invalidRequest "endpoint URLs must not contain a query or fragment")
  else .ok ()

def normalizeBaseUrl (url : Url) : Url :=
  if (lib.path url).endsWith "/" then url else lib.setPath url (lib.path url ++ "/")

def NigiriConfig.validateAndNormalize (config : NigiriConfig Url) :
    Except NigiriError (NigiriConfig Url) := do
  validateEndpointUrl lib config.esploraUrl
  validateEndpointUrl lib config.nodeRpcUrl
  let config := { config with esploraUrl := normalizeBaseUrl lib config.esploraUrl }
  if config.timeout = 0 then .error (.invalidRequest "timeout must be greater than zero")
  else if config.maxResponseBytes = 0 then
    .error (.invalidRequest "max_response_bytes must be greater than zero")
  else if config.maxResponseBytes > MAX_RESPONSE_BYTES_LIMIT then
    .error (.invalidRequest "max_response_bytes must not exceed MAX_RESPONSE_BYTES_LIMIT")
  else .ok config

/-- The base URL of a mapped port, or that the static URL is not one, which panics. -/
def mappedHttpUrl (host : String) (port : UInt16) : Option (Except String Url) := do
  let url ← lib.parse "http://localhost/"
  let hosted := match lib.setHost url host with
    | some url => some url
    | none => (lib.displayV6 host).bind fun address => lib.setHost url ("[" ++ address ++ "]")
  match hosted with
  | none => return .error "container runtime returned an invalid mapped host"
  | some url =>
    match lib.setPort url (some port) with
    | none => return .error "container runtime returned an invalid mapped port"
    | some url => return .ok url

def walletRpcUrl (rootUrl : Url) (walletName : String) : Except String Url :=
  match lib.extendPath rootUrl ["wallet", walletName] with
  | none => .error "node RPC URL cannot hold a wallet path"
  | some url => .ok url

end Validation

section Accepted
variable {lib : UrlLib Url} {config client : NigiriConfig Url} {url : Url}

structure EndpointUrl (lib : UrlLib Url) (url : Url) : Prop where
  http : isHttp lib url = true
  query : lib.query url = none
  fragment : lib.fragment url = none

structure Acceptable (lib : UrlLib Url) (config : NigiriConfig Url) : Prop where
  esploraUrl : EndpointUrl lib config.esploraUrl
  nodeRpcUrl : EndpointUrl lib config.nodeRpcUrl
  timeout : 0 < config.timeout
  maxResponseBytes : 0 < config.maxResponseBytes ∧
    config.maxResponseBytes ≤ MAX_RESPONSE_BYTES_LIMIT

theorem validateEndpointUrl_ok_iff {u : Unit} :
    validateEndpointUrl lib url = .ok u ↔ EndpointUrl lib url := by
  rw [validateEndpointUrl, guard_ok_iff, guard_ok_iff]
  simp only [Bool.not_eq_true', Bool.not_eq_false, Bool.or_eq_true, not_or,
    Bool.not_eq_true, Option.isSome_eq_false_iff, Option.isNone_iff_eq_none, and_true]
  exact ⟨fun h => ⟨h.1, h.2.1, h.2.2⟩, fun h => ⟨h.http, h.query, h.fragment⟩⟩

/-- A configuration is accepted when each of its parts is, and only its Esplora URL is changed. -/
theorem validateAndNormalize_ok_iff :
    config.validateAndNormalize lib = .ok client ↔ Acceptable lib config ∧
      client = { config with esploraUrl := normalizeBaseUrl lib config.esploraUrl } := by
  simp only [NigiriConfig.validateAndNormalize, bind_ok_iff, guard_ok_iff,
    validateEndpointUrl_ok_iff, Except.ok.injEq]
  constructor
  · rintro ⟨-, hesplora, -, hnode, htimeout, hzero, hlarge, rfl⟩
    exact ⟨⟨hesplora, hnode, Nat.pos_of_ne_zero htimeout, Nat.pos_of_ne_zero hzero,
      Nat.le_of_not_lt hlarge⟩, rfl⟩
  · rintro ⟨h, rfl⟩
    exact ⟨(), h.esploraUrl, (), h.nodeRpcUrl, Nat.ne_of_gt h.timeout,
      Nat.ne_of_gt h.maxResponseBytes.1, Nat.not_lt.mpr h.maxResponseBytes.2, rfl⟩

end Accepted

end Nigiri.Config
