import Nigiri.LndError

/-! Validated connection settings: endpoint, certificate, timeout and macaroon. The URL
parser and the TLS stack are parameters; what the adapter itself checks is here. -/
namespace Nigiri.Lnd
open Nigiri.WireFormat
variable {Hash : Type}

def MAX_TLS_CERTIFICATE_BYTES : Nat := 1048576
def MAX_MACAROON_BYTES : Nat := 65536

/-- What the adapter reads of a parsed URL. -/
structure Url where
  text : List Char
  scheme : String
  port : Option UInt16
  host : Option String
  query : Option String
  fragment : Option String
  deriving DecidableEq, Repr

/-- Durations are counted in nanoseconds. -/
structure TlsConfig where
  endpoint : Url
  certificate : Bytes
  timeout : Nat
  certificate_size : 0 < certificate.length ∧ certificate.length ≤ MAX_TLS_CERTIFICATE_BYTES
  timeout_pos : 0 < timeout

structure LndConfig where
  tls : TlsConfig
  macaroon : Bytes
  macaroon_size : 0 < macaroon.length ∧ macaroon.length ≤ MAX_MACAROON_BYTES

/-- The text before and after the first occurrence of a separator. -/
def splitOnce (separator : List Char) : List Char → Option (List Char × List Char)
  | [] => none
  | c :: cs =>
    if separator.isPrefixOf (c :: cs) then some ([], (c :: cs).drop separator.length)
    else (splitOnce separator cs).map fun p => (c :: p.1, p.2)

def isAuthorityChar (c : Char) : Bool := !(c == '/' || c == '?' || c == '#')

def originalAuthority (endpoint : List Char) : Except (LndError Hash) (List Char) :=
  match splitOnce "://".toList endpoint with
  | none => .error (invalidRequest "endpoint must include a host")
  | some (_, rest) => .ok (rest.takeWhile isAuthorityChar)

/-- The text after the last colon or, for a bracketed host, after the colon that follows
the bracket. -/
def authorityPort (authority : List Char) : Option (List Char) :=
  if authority.head? = some '[' then
    match authority.dropWhile (· ≠ ']') with
    | _ :: ':' :: port => some port
    | _ => none
  else if ':' ∈ authority then
    some (authority.reverse.takeWhile (· ≠ ':')).reverse
  else none

def decimal (digits : List Char) : Nat :=
  digits.foldl (fun n c => n * 10 + (c.toNat - '0'.toNat)) 0

def validateAuthority (authority : List Char) : Except (LndError Hash) Unit :=
  if '@' ∈ authority then .error (invalidRequest "endpoint must not include userinfo")
  else match authorityPort authority with
    | none => .error (invalidRequest "endpoint must include a port")
    | some port =>
      if port = [] ∨ ¬ port.all Char.isDigit then
        .error (invalidRequest "endpoint port must be in range")
      else if 65536 ≤ decimal port then
        .error (invalidRequest "endpoint port must be in range")
      else if decimal port = 0 then
        .error (invalidRequest "endpoint port must be greater than zero")
      else .ok ()

def validateEndpoint (parse : List Char → Option Url) (endpoint : List Char) :
    Except (LndError Hash) Url := do
  let authority ← originalAuthority endpoint
  validateAuthority authority
  match parse endpoint with
  | none => .error (invalidRequest "endpoint must be a valid HTTPS URL")
  | some url =>
    if url.scheme ≠ "https" then .error (invalidRequest "endpoint must use HTTPS")
    else if url.host.isNone then .error (invalidRequest "endpoint must include a host")
    else if url.query.isSome then .error (invalidRequest "endpoint must not include a query")
    else if url.fragment.isSome then
      .error (invalidRequest "endpoint must not include a fragment")
    else .ok url

/-- An accepted length comes with its bounds. -/
def validateCredential (name : String) (length maximum : Nat) :
    Except (LndError Hash) (PLift (0 < length ∧ length ≤ maximum)) :=
  if h : length = 0 then
    .error (invalidRequest (if name = "TLS certificate" then "TLS certificate must not be empty"
      else "macaroon must not be empty"))
  else if h' : maximum < length then
    .error (invalidRequest (
      if name = "TLS certificate" then "TLS certificate exceeds MAX_TLS_CERTIFICATE_BYTES"
      else "macaroon exceeds MAX_MACAROON_BYTES"))
  else .ok ⟨by omega⟩

def TlsConfig.new (parse : List Char → Option Url) (endpoint : List Char) (certificate : Bytes)
    (timeout : Nat) : Except (LndError Hash) TlsConfig := do
  let endpoint ← validateEndpoint parse endpoint
  let ⟨hcertificate⟩ ← validateCredential "TLS certificate" certificate.length
    MAX_TLS_CERTIFICATE_BYTES
  if h : timeout = 0 then .error (invalidRequest "timeout must be greater than zero")
  else return ⟨endpoint, certificate, timeout, hcertificate, by omega⟩

/-- A parsed URL has lost an explicit default port; it is written back before validation. -/
def endpointText (endpoint : Url) : List Char :=
  if endpoint.scheme = "https" ∧ endpoint.port = none then
    let (front, rest) := match splitOnce "://".toList endpoint.text with
      | some (scheme, rest) => (scheme ++ "://".toList, rest)
      | none => ([], endpoint.text)
    front ++ rest.takeWhile isAuthorityChar ++ ":443".toList ++ rest.dropWhile isAuthorityChar
  else endpoint.text

def TlsConfig.fromUrl (parse : List Char → Option Url) (endpoint : Url) (certificate : Bytes)
    (timeout : Nat) : Except (LndError Hash) TlsConfig :=
  TlsConfig.new parse (endpointText endpoint) certificate timeout

def LndConfig.authenticated (tls : TlsConfig) (macaroon : Bytes) :
    Except (LndError Hash) LndConfig := do
  let ⟨h⟩ ← validateCredential "macaroon" macaroon.length MAX_MACAROON_BYTES
  return ⟨tls, macaroon, h⟩

/-- The TLS stack and the header parser, as far as they accept or refuse. -/
structure TransportLib where
  acceptsEndpoint : TlsConfig → Bool
  acceptsHeader : Bytes → Bool

def invalidTransportConfiguration : LndError Hash :=
  .transport "configure transport" "invalid HTTPS transport configuration"

def tlsEndpoint (lib : TransportLib) (config : TlsConfig) : Except (LndError Hash) Unit :=
  if lib.acceptsEndpoint config then .ok () else .error invalidTransportConfiguration

def hexDigit (n : Nat) : UInt8 := UInt8.ofNat (if n < 10 then 48 + n else 87 + n)

def lowercaseHex (bytes : Bytes) : Bytes :=
  bytes.flatMap fun b => [hexDigit (b.toNat / 16), hexDigit (b.toNat % 16)]

structure LndClient where
  config : LndConfig

def LndClient.withConfig (lib : TransportLib) (config : LndConfig) :
    Except (LndError Hash) LndClient := do
  tlsEndpoint lib config.tls
  if lib.acceptsHeader (lowercaseHex config.macaroon) then return ⟨config⟩
  else .error invalidTransportConfiguration

/-- A macaroon within the bound is accepted: no error can arise here after a wallet has been
initialized with it. -/
theorem LndConfig.authenticated_ok (tls : TlsConfig) (macaroon : Bytes)
    (h : 0 < macaroon.length ∧ macaroon.length ≤ MAX_MACAROON_BYTES) :
    (LndConfig.authenticated tls macaroon : Except (LndError Hash) LndConfig)
      = .ok ⟨tls, macaroon, h⟩ := by
  have hpos : macaroon.length ≠ 0 := by omega
  have hmax : ¬ MAX_MACAROON_BYTES < macaroon.length := by omega
  rw [authenticated, validateCredential, dif_neg hpos, dif_neg hmax]
  rfl

/-- The only error left in building a client is one of its transport configuration. -/
theorem LndClient.withConfig_error {lib : TransportLib} {config : LndConfig}
    {e : LndError Hash} (h : LndClient.withConfig lib config = .error e) :
    e = invalidTransportConfiguration := by
  unfold withConfig tlsEndpoint at h
  cases he : lib.acceptsEndpoint config.tls with
  | false =>
    simp only [he, Bool.false_eq_true, if_false, bind, Except.bind] at h
    exact (Except.error.inj h).symm
  | true =>
    simp only [he, if_true, bind, Except.bind] at h
    split at h
    · cases h
    · exact (Except.error.inj h).symm

end Nigiri.Lnd
