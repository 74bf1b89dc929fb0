import Nigiri.FixtureError

/-! Creating a wallet: a seed is generated and validated, the wallet is initialized with
it once, and every outcome after that dispatch is final. Around it, the retry loop of the
fixture that creates one node. -/
namespace Nigiri.Lnd
open Nigiri.WireFormat Nigiri.Process
variable {Hash Instant : Type}

def MIN_WALLET_PASSWORD_BYTES : Nat := 8
def MAX_WALLET_PASSWORD_BYTES : Nat := 65536
def CIPHER_SEED_WORDS : Nat := 24
def MAX_CIPHER_SEED_WORD_BYTES : Nat := 1024
def MAX_CIPHER_SEED_BYTES : Nat := CIPHER_SEED_WORDS * MAX_CIPHER_SEED_WORD_BYTES

/-- Endpoint material used only while a wallet is created. -/
structure LndBootstrapConfig where
  endpoint : Url
  tlsCertificate : Bytes
  timeout : Nat

structure GenSeedRequest where
  aezeedPassphrase : Bytes
  seedEntropy : Bytes
  deriving DecidableEq, Repr

/-- Absent messages of the request are left out: the code never sets them. -/
structure InitWalletRequest where
  walletPassword : Bytes
  cipherSeedMnemonic : List Bytes
  aezeedPassphrase : Bytes
  recoveryWindow : Int32
  statelessInit : Bool
  extendedMasterKey : Bytes
  extendedMasterKeyBirthdayTimestamp : UInt64
  macaroonRootKey : Bytes
  deriving DecidableEq, Repr

/-- What the loop asks of its surroundings; a seed response is its list of words, an
initialization response its macaroon. -/
inductive WalletCall where
  | genSeed (request : GenSeedRequest)
  | initWallet (request : InitWalletRequest)
  | retryDelay
  deriving DecidableEq, Repr

abbrev WalletCall.Answer : WalletCall → Type
  | .genSeed _ => Reply (List Bytes)
  | .initWallet _ => Reply Bytes
  | .retryDelay => Unit

def validateWalletPassword (walletPassword : Bytes) : Except (LndError Hash) Unit :=
  if walletPassword.length < MIN_WALLET_PASSWORD_BYTES then
    .error (invalidRequest "wallet password must contain at least 8 bytes")
  else if MAX_WALLET_PASSWORD_BYTES < walletPassword.length then
    .error (invalidRequest "wallet password exceeds the private bootstrap byte limit")
  else .ok ()

def seedFault (detail : String) : LndError Hash :=
  .invalidResponse "generate wallet seed" detail none

/-- Machine words hold 64 bits; their sums are checked. -/
def checkSeedWords (total : Nat) : List Bytes → Except (LndError Hash) Unit
  | [] => .ok ()
  | word :: words =>
    if word = [] ∨ MAX_CIPHER_SEED_WORD_BYTES < word.length then
      .error (seedFault "generated cipher seed word is invalid")
    else if 2 ^ 64 ≤ total + word.length then
      .error (seedFault "generated cipher seed size overflowed")
    else if MAX_CIPHER_SEED_BYTES < total + word.length then
      .error (seedFault "generated cipher seed exceeds its byte limit")
    else checkSeedWords (total + word.length) words

def validateCipherSeed (words : List Bytes) : Except (LndError Hash) Unit :=
  if words.length ≠ CIPHER_SEED_WORDS then
    .error (seedFault "generated cipher seed must contain exactly 24 words")
  else checkSeedWords 0 words

def uncertainInitialization : LndError Hash := .outcomeUnknown "initialize wallet" none

def validatedTransportConfig (parse : List Char → Option Url) (config : LndBootstrapConfig)
    (walletPassword : Bytes) : Except (LndError Hash) TlsConfig := do
  validateWalletPassword walletPassword
  TlsConfig.fromUrl parse config.endpoint config.tlsCertificate config.timeout

def genSeedRequest : GenSeedRequest := ⟨[], []⟩

def initWalletRequest (walletPassword : Bytes) (seed : List Bytes) : InitWalletRequest :=
  ⟨walletPassword, seed, [], 0, true, [], 0, []⟩

/-- The daemon may have committed the wallet whatever goes wrong with its answer. -/
def initializedConfig (validated : TlsConfig) (reply : Except (LndError Hash) Bytes) :
    Except (LndError Hash) LndConfig :=
  match reply with
  | .error _ => .error uncertainInitialization
  | .ok adminMacaroon =>
    if adminMacaroon = [] ∨ MAX_MACAROON_BYTES < adminMacaroon.length then
      .error uncertainInitialization
    else LndConfig.authenticated validated adminMacaroon

abbrev WalletProc := Proc WalletCall WalletCall.Answer

def initializeWalletValidated (checkedAdd : Nat → Option Instant) (validated : TlsConfig)
    (walletPassword : Bytes) : WalletProc (Except (LndError Hash) LndConfig) :=
  let timeout := validated.timeout
  match (operationDeadline checkedAdd timeout : Except (LndError Hash) Instant) with
  | .error e => .done (.error e)
  | .ok _ =>
    .ask (.genSeed genSeedRequest) fun reply =>
      match (boundedRequestUntil timeout "generate wallet seed" reply
        : Except (LndError Hash) (List Bytes)) with
      | .error e => .done (.error e)
      | .ok seed =>
        match (validateCipherSeed seed : Except (LndError Hash) Unit) with
        | .error e => .done (.error e)
        | .ok () =>
          .ask (.initWallet (initWalletRequest walletPassword seed)) fun reply =>
            .done (initializedConfig validated
              (boundedRequestUntil timeout "initialize wallet" reply))

/-- The parameters of one node's creation. -/
structure WalletSetup (Instant : Type) where
  parse : List Char → Option Url
  lib : TransportLib
  checkedAdd : Nat → Option Instant

def initializeWallet (setup : WalletSetup Instant) (config : LndBootstrapConfig)
    (walletPassword : Bytes) : WalletProc (Except (LndError Hash) LndConfig) :=
  match (validatedTransportConfig setup.parse config walletPassword
    : Except (LndError Hash) TlsConfig) with
  | .error e => .done (.error e)
  | .ok validated =>
    match (tlsEndpoint setup.lib validated : Except (LndError Hash) Unit) with
    | .error e => .done (.error e)
    | .ok () => initializeWalletValidated setup.checkedAdd validated walletPassword

/-- The fixture's connector: a wallet, then a client for it. -/
def connectorInitialize (setup : WalletSetup Instant) (config : LndBootstrapConfig)
    (password : Bytes) : WalletProc (Except (LndError Hash) LndClient) := do
  let config ← initializeWallet setup config password
  return config.bind (LndClient.withConfig setup.lib)

def isTransientSeedGeneration (error : LndError Hash) : Bool :=
  match error with
  | .transport operation _ | .timeout operation _ | .status _ operation =>
    operation = "generate wallet seed" && isTransientLndReadiness error
  | _ => false

abbrev DeadlineProc := Proc WalletCall fun call => Option call.Answer

/-- One round: initialize under the startup deadline; only a transient failure of the seed
generation is waited out and tried again. -/
def initializeRound (setup : WalletSetup Instant) (config : LndBootstrapConfig)
    (password : Bytes) (service operation : String) (observation : Observation Hash) :
    DeadlineProc (Observation Hash ⊕ Except (FixtureError Hash) LndClient) := do
  match ← (connectorInitialize setup config password).within with
  | none => return .inr (.error (.readinessTimeout service observation))
  | some (.ok client) => return .inr (.ok client)
  | some (.error source) =>
    if isTransientSeedGeneration source then
      .ask .retryDelay fun
        | none => .done (.inr (.error (.readinessTimeout service (.error source))))
        | some () => .done (.inl (.error source))
    else return .inr (.error (.bootstrap operation source))

def initializeLndClient (setup : WalletSetup Instant) (config : LndBootstrapConfig)
    (password : Bytes) (service operation : String) :
    DeadlineProc (Except (FixtureError Hash) LndClient) :=
  repeatUntil (initializeRound setup config password service operation) (.operation operation)

end Nigiri.Lnd
