import Nigiri.EmbeddedProcess
import Nigiri.MappedUrl
import Nigiri.ReadyChannel
import Nigiri.StackStartup
import Nigiri.WalletUnlocker

/-! The startup of two LND nodes beside a Bitcoin node: both containers, their certificates and
wallets, the wait until both follow the chain, and the channel between them. The engine, the nodes
and the clock are the environment; a caller that goes away calls off whatever is awaited. -/
namespace Nigiri.Topology
open Nigiri.Process Nigiri.Polling Nigiri.WireFormat Nigiri.Lnd
open Nigiri.Fixtures (Argument ContainerImage RPC_USER RPC_PASSWORD Node PairCall PairLib
  ChannelAllocation MappedUrlLib InvalidConfiguration LND_GRPC_PORT LND_PEER_PORT)
open Nigiri.Stack (ContainerSpec RunningContainer)
variable {Hash Invoice Client : Type} {α : Type}

def TLS_CERT_PATH : String := "/root/.lnd/tls.cert"
def BITCOIN_ZMQ_BLOCK_PORT : UInt16 := 28332
def BITCOIN_ZMQ_TX_PORT : UInt16 := 28333

inductive ErrorKind where
  | interrupted
  | notFound
  | wouldBlock
  | connectionRefused
  | connectionReset
  | connectionAborted
  | notConnected
  | invalidData
  | other
  deriving DecidableEq, Repr

/-- An error of the engine; the kind is that of an I/O error, where its source is one. -/
structure EngineError where
  operation : String
  kind : Option ErrorKind
  message : String
  deriving DecidableEq, Repr

def EngineError.isCancelled (error : EngineError) : Bool :=
  error.operation = "start fixture" && error.kind = some .interrupted

def EngineError.isTransientFileUnavailable (error : EngineError) : Bool :=
  error.operation = "read container file" &&
    match error.kind with
    | some .notFound | some .wouldBlock | some .connectionRefused | some .connectionReset
    | some .connectionAborted | some .notConnected => true
    | _ => false

def cancelledError : EngineError :=
  ⟨"start fixture", some .interrupted, "fixture startup was cancelled"⟩

/-- What the wait for a certificate was last seen doing. -/
inductive CertificateObservation where
  | operation (text : String)
  | notReady (error : EngineError)
  deriving DecidableEq, Repr

/-- A failed step keeps the parts that its text is made from. -/
inductive LndFailure (Hash : Type) where
  | invalidConfiguration (detail : String)
  | runtime (resource : String) (source : EngineError)
  | readinessTimeout (service : String) (lastObservation : CertificateObservation)
  | configuration (source : InvalidConfiguration)
  | password
  | pair (source : FixtureError Hash)

/-- A configuration error has no place for a log, nor has the error of a client. -/
def LndFailure.carriesDiagnostics : LndFailure Hash → Bool
  | .invalidConfiguration _ | .pair (.client _) => false
  | _ => true

inductive LogReport where
  | read (service logs : String)
  | unreadable (service : String) (failure : EngineError)
  | skipped (service : String)
  deriving DecidableEq, Repr

structure Failed (Hash : Type) where
  failure : LndFailure Hash
  diagnostics : List LogReport

/-- A static URL that is not one panics, as does a selection without an enabled branch. -/
inductive Stop (Hash : Type) where
  | returned (failure : LndFailure Hash)
  | panicked

/-- The initialization of one client, retried until it ends. -/
structure ClientCall where
  config : LndBootstrapConfig
  password : Bytes
  service : String
  operation : String

abbrev ClientCall.Reply (Hash Client : Type) (_ : ClientCall) : Type :=
  Except (FixtureError Hash) Client

/-- The two phases in which the nodes and Bitcoin are asked. -/
inductive PairPhase where
  | sync
  | channel
  deriving DecidableEq, Repr

/-- What the startup asks for itself, and what its phases ask for. -/
inductive LndCall (Hash Invoice : Type) where
  | startContainerPair (first second : ContainerSpec)
  | readContainerFile (id path : String) (maxBytes : Nat)
  | retryDelay
  | cancelled
  | fillPassword (node : Node)
  | clients (q : Await ClientCall)
  | pair (phase : PairPhase) (q : Await (PairCall Hash Invoice))
  | logs (idOrName : String)

/-- Where the deadline or the caller can end a call, its reply may be missing. -/
abbrev LndCall.Answer (Client : Type) : LndCall Hash Invoice → Type
  | .startContainerPair .. =>
    Option (Except EngineError RunningContainer × Except EngineError RunningContainer)
  | .readContainerFile .. => Option (Except EngineError Bytes)
  | .retryDelay => Option (Except EngineError Unit)
  | .cancelled => Bool
  | .fillPassword _ => Except Unit Bytes
  | .clients q => Option (Await.Answer (ClientCall.Reply Hash Client) q)
  | .pair _ q => Option (Await.Answer (@PairCall.Reply Hash Invoice) q)
  | .logs _ => Option (Except EngineError String)

abbrev LndProc (Hash Invoice Client : Type) :=
  Proc (LndCall Hash Invoice) (LndCall.Answer Client)

abbrev LndTask (Hash Invoice Client α : Type) : Type 1 :=
  LndProc Hash Invoice Client (Except (Stop Hash) α)

abbrev LndTrace (Hash Invoice Client : Type) :=
  Trace (LndCall Hash Invoice) (LndCall.Answer Client)

abbrev LndEvent (Hash Invoice Client : Type) :=
  Event (LndCall Hash Invoice) (LndCall.Answer Client)

def fail (failure : LndFailure Hash) : LndTask Hash Invoice Client α :=
  .done (.error (.returned failure))

/-- The readings of addresses and hashes that are not the fixture's own. -/
structure TopologyLib (Hash : Type) extends MappedUrlLib where
  isIpAddr : String → Bool
  pair : PairLib Hash

structure LndNames where
  alice : String
  bob : String
  deriving DecidableEq, Repr

def LndNames.of (names : LndNames) : Node → String
  | .alice => names.alice
  | .bob => names.bob

structure LndStartupContext where
  networkName : String
  bitcoindName : String
  aliceImage : ContainerImage
  bobImage : ContainerImage
  names : LndNames
  endpointHost : String
  budget : Nat
  allocation : ChannelAllocation

structure StartedLndNodes (Client : Type) where
  alice : Client
  bob : Client
  channelPoint : OutPoint
  containerIds : String × String

section Specs
variable (lib : TopologyLib Hash)

def lndCommand (bitcoindName endpointHost : String) : List Argument :=
  ["--bitcoin.active".toList,
    "--bitcoin.regtest".toList,
    "--bitcoin.node=bitcoind".toList,
    s!"--bitcoind.rpchost={bitcoindName}:{Stack.nodeRpcPort .bitcoin}".toList,
    "--bitcoind.rpcuser=".toList ++ RPC_USER,
    "--bitcoind.rpcpass=".toList ++ RPC_PASSWORD,
    s!"--bitcoind.zmqpubrawblock=tcp://{bitcoindName}:{BITCOIN_ZMQ_BLOCK_PORT}".toList,
    s!"--bitcoind.zmqpubrawtx=tcp://{bitcoindName}:{BITCOIN_ZMQ_TX_PORT}".toList,
    s!"--rpclisten=0.0.0.0:{LND_GRPC_PORT}".toList,
    s!"--listen=0.0.0.0:{LND_PEER_PORT}".toList,
    if lib.isIpAddr endpointHost then s!"--tlsextraip={endpointHost}".toList
    else s!"--tlsextradomain={endpointHost}".toList]

/-- Peers stay on the fixture's network: only the gRPC port is exposed. -/
def lndSpec (image : ContainerImage) (network name bitcoindName endpointHost : String) :
    Except String ContainerSpec :=
  match image.validate with
  | .error error => .error error.detail
  | .ok () => .ok {
      service := "lnd"
      image := image
      entrypoint := image.entrypoint
      name := name
      network := network
      command := lndCommand lib bitcoindName endpointHost
      exposedPorts := [LND_GRPC_PORT] }

def LndStartupContext.image (context : LndStartupContext) : Node → ContainerImage
  | .alice => context.aliceImage
  | .bob => context.bobImage

def LndStartupContext.spec (context : LndStartupContext) (node : Node) :
    Except String ContainerSpec :=
  lndSpec lib (context.image node) context.networkName (context.names.of node)
    context.bitcoindName context.endpointHost

end Specs

section Certificate

/-- The supervisor checks the size of what the engine has read. -/
def boundedContents (maxBytes : Nat) (reply : Except EngineError Bytes) :
    Except EngineError Bytes :=
  match reply with
  | .error error => .error error
  | .ok contents =>
    if maxBytes < contents.length then
      .error ⟨"read container file", some .invalidData,
        "container file exceeds requested byte limit"⟩
    else .ok contents

abbrev CertificateRound (Hash Invoice Client : Type) : Type 1 :=
  LndProc Hash Invoice Client (CertificateObservation ⊕ Except (Stop Hash) Bytes)

def leaveWith (failure : LndFailure Hash) : CertificateRound Hash Invoice Client :=
  .done (.inr (.error (.returned failure)))

def certificateRetry (service : String) (observation : CertificateObservation) :
    CertificateRound Hash Invoice Client :=
  .ask .retryDelay fun
    | none => leaveWith (.readinessTimeout service observation)
    | some (.error error) => leaveWith (.runtime service error)
    | some (.ok ()) => .done (.inl observation)

def certificateRound (service containerId : String) (observation : CertificateObservation) :
    CertificateRound Hash Invoice Client :=
  .ask (.readContainerFile containerId TLS_CERT_PATH MAX_TLS_CERTIFICATE_BYTES) fun
    | none => leaveWith (.readinessTimeout service observation)
    | some reply =>
      match boundedContents MAX_TLS_CERTIFICATE_BYTES reply with
      | .ok certificate =>
        if certificate.isEmpty then
          certificateRetry service (.operation "LND TLS certificate is still empty")
        else .done (.inr (.ok certificate))
      | .error error =>
        if error.isCancelled then leaveWith (.runtime service error)
        else if error.isTransientFileUnavailable then certificateRetry service (.notReady error)
        else leaveWith (.runtime service error)

def waitForTlsCertificate (service containerId : String) : LndTask Hash Invoice Client Bytes :=
  repeatUntil (certificateRound service containerId)
    (.operation "waiting for the bounded LND TLS certificate")

end Certificate

section Phases

instance : Fintype Node where
  elems := {.alice, .bob}
  complete := fun node => by cases node <;> simp

/-- Looked at before anything is awaited, and then called off wherever that stands. -/
def runUntilCancelled (p : LndProc Hash Invoice Client (Option (Except (Stop Hash) α))) :
    LndTask Hash Invoice Client α :=
  .ask .cancelled fun
    | true => fail (.runtime "LND pair" cancelledError)
    | false => p.bind fun
      | none => fail (.runtime "LND pair" cancelledError)
      | some result => .done result

def initializing : Node → String
  | .alice => "initializing Alice wallet"
  | .bob => "initializing Bob wallet"

def initializeClient (config : Node → LndBootstrapConfig) (password : Node → Bytes) (node : Node) :
    Started ClientCall :=
  ⟨⟨config node, password node, node.service, initializing node⟩, 0⟩

/-- Both clients are initialized at once, each with a configuration and a password of its own. -/
abbrev initializations (config : Node → LndBootstrapConfig) (password : Node → Bytes) :
    Joined (ClientCall.Reply Hash Client) (FixtureError Hash) where
  Name := Node
  Out _ := Client
  future := initializeClient config password
  read _ reply := reply
  order := [.alice, .bob]

/-- The passwords are made before anything is awaited. -/
def initializeLndClients (config : Node → LndBootstrapConfig) :
    LndProc Hash Invoice Client (Option (Except (Stop Hash) (Node → Client))) :=
  .ask (.fillPassword .alice) fun
    | .error () => .done (some (.error (.returned .password)))
    | .ok alicePassword =>
      .ask (.fillPassword .bob) fun
        | .error () => .done (some (.error (.returned .password)))
        | .ok bobPassword =>
          let password : Node → Bytes
            | .alice => alicePassword
            | .bob => bobPassword
          ((tryJoin (initializations config password)).within.via .clients).bind fun
            | none => .done none
            | some (.error error) => .done (some (.error (.returned (.pair error))))
            | some (.ok clients) => .done (some (.ok clients))

def pairStop : Fixtures.Stop Hash → Stop Hash
  | .returned error => .returned (.pair error)
  | .panicked => .panicked

def runPair (p : LndProc Hash Invoice Client (Option (Except (Fixtures.Stop Hash) α))) :
    LndTask Hash Invoice Client α :=
  runUntilCancelled (p.bind fun result => .done (result.map (Except.mapError pairStop)))

/-- Both nodes follow the chain. -/
def synchronize : LndTask Hash Invoice Client Unit :=
  runPair (Fixtures.waitForLndSync.within.via (.pair .sync))

def readyChannel [DecidableEq Hash] (lib : PairLib Hash) (bobHost : String)
    (allocation : ChannelAllocation) : LndTask Hash Invoice Client OutPoint :=
  runPair ((Fixtures.bootstrapReadyChannel lib bobHost allocation).within.via (.pair .channel))

end Phases

section Startup
variable [DecidableEq Hash] (lib : TopologyLib Hash) (context : LndStartupContext)

def mappedLndEndpoint (container : RunningContainer) : LndTask Hash Invoice Client Url :=
  match Fixtures.mappedLndEndpoint lib.toMappedUrlLib ⟨container.host, container.ports⟩ with
  | none => .done (.error .panicked)
  | some (.error source) => fail (.configuration source)
  | some (.ok endpoint) => .done (.ok endpoint)

/-- From two running containers to a channel. Alice's certificate and endpoint come first. -/
def bootstrapContainers (alice bob : RunningContainer) :
    LndTask Hash Invoice Client (StartedLndNodes Client) :=
  (waitForTlsCertificate "lnd-alice" alice.id).andThen fun aliceCertificate =>
  (waitForTlsCertificate "lnd-bob" bob.id).andThen fun bobCertificate =>
  (mappedLndEndpoint lib alice).andThen fun aliceEndpoint =>
  (mappedLndEndpoint lib bob).andThen fun bobEndpoint =>
  let config : Node → LndBootstrapConfig
    | .alice => ⟨aliceEndpoint, aliceCertificate, context.budget⟩
    | .bob => ⟨bobEndpoint, bobCertificate, context.budget⟩
  (runUntilCancelled (initializeLndClients config)).andThen fun clients =>
  synchronize.andThen fun () =>
  (readyChannel lib.pair context.names.bob context.allocation).andThen fun channelPoint =>
  .done (.ok ⟨clients .alice, clients .bob, channelPoint, (alice.id, bob.id)⟩)

/-- Alice's error is reported before Bob's. -/
def bootstrapStarted : Except EngineError RunningContainer → Except EngineError RunningContainer →
    LndTask Hash Invoice Client (StartedLndNodes Client)
  | .error error, _ => fail (.runtime "lnd-alice" error)
  | .ok _, .error error => fail (.runtime "lnd-bob" error)
  | .ok alice, .ok bob => bootstrapContainers lib context alice bob

/-- The log of a container that has started is read by its id. -/
def logName (name : String) : Except EngineError RunningContainer → String
  | .ok container => container.id
  | .error _ => name

/-- The result, and what the logs of both nodes are to be read by. -/
def bootstrapNodes : LndProc Hash Invoice Client
    (LndNames × Except (Stop Hash) (StartedLndNodes Client)) :=
  match context.spec lib .alice with
  | .error detail => .done (context.names, .error (.returned (.invalidConfiguration detail)))
  | .ok aliceSpec =>
    match context.spec lib .bob with
    | .error detail => .done (context.names, .error (.returned (.invalidConfiguration detail)))
    | .ok bobSpec =>
      .ask (.startContainerPair aliceSpec bobSpec) fun
        | none => .done (context.names, .error (.returned (.readinessTimeout "lnd-alice"
            (.operation "starting Alice and Bob LND containers"))))
        | some (alice, bob) =>
          (bootstrapStarted lib context alice bob).bind fun result =>
            .done (⟨logName context.names.alice alice, logName context.names.bob bob⟩, result)

def renderLogDiagnostics (service : String) : Option (Except EngineError String) → LogReport
  | some (.ok logs) => .read service logs
  | some (.error failure) => .unreadable service failure
  | none => .skipped service

def attachDiagnostics (failed : Failed Hash) (addition : LogReport) : Failed Hash :=
  if failed.failure.carriesDiagnostics then
    { failed with diagnostics := failed.diagnostics ++ [addition] }
  else failed

def attachContainerLog (service idOrName : String) (failed : Failed Hash) :
    LndProc Hash Invoice Client (Failed Hash) :=
  .ask (.logs idOrName) fun reply =>
    .done (attachDiagnostics failed (renderLogDiagnostics service reply))

def attachLndLogs (logs : LndNames) (failed : Failed Hash) :
    LndProc Hash Invoice Client (Failed Hash) :=
  (attachContainerLog "lnd-bob" logs.bob failed).bind (attachContainerLog "lnd-alice" logs.alice)

inductive Ended (Hash : Type) where
  | returned (failed : Failed Hash)
  | panicked

/-- What the supervisor of the nodes runs. -/
def work : LndProc Hash Invoice Client (Except (Ended Hash) (StartedLndNodes Client)) :=
  (bootstrapNodes lib context).bind fun
    | (_, .ok nodes) => .done (.ok nodes)
    | (_, .error .panicked) => .done (.error .panicked)
    | (logs, .error (.returned failure)) =>
      (attachLndLogs logs ⟨failure, []⟩).bind fun failed => .done (.error (.returned failed))

end Startup

section Caller

/-- What the caller of the startup waits for: the supervisor's thread and its runtime, what the work
asks for there, and its result. -/
inductive StartupCall (Hash Invoice : Type) where
  | spawn
  | buildRuntime
  | work (q : LndCall Hash Invoice)
  | handOver
  | panicMessage

/-- The thread is spawned at once. For what comes from it the reply is missing when the deadline has
passed; the thread may also stop without a result. -/
abbrev StartupCall.Answer (Client : Type) : StartupCall Hash Invoice → Type
  | .spawn => Except (ErrorKind × String) Unit
  | .buildRuntime => Option (Except (ErrorKind × String) Unit)
  | .work q => Option (q.Answer Client)
  | .handOver => Option Bool
  | .panicMessage => String

abbrev StartupProc (Hash Invoice Client : Type) :=
  Proc (StartupCall Hash Invoice) (StartupCall.Answer Client)

abbrev StartupTrace (Hash Invoice Client : Type) :=
  Trace (StartupCall Hash Invoice) (StartupCall.Answer Client)

abbrev StartupEvent (Hash Invoice Client : Type) :=
  Event (StartupCall Hash Invoice) (StartupCall.Answer Client)

def supervisorError (operation : String) (kind : ErrorKind) (message : String) : Failed Hash :=
  ⟨.runtime "fixture supervisor" ⟨operation, some kind, message⟩, []⟩

/-- A panic of the work is caught, and handed over as an error. -/
def handOver (result : Except (Ended Hash) α) :
    StartupProc Hash Invoice Client (Option (Except (Failed Hash) α)) :=
  .ask .handOver fun
    | none => .done none
    | some false => .done (some (.error (supervisorError "wait for fixture supervisor" .other
        "fixture supervisor stopped before startup completed")))
    | some true =>
      match result with
      | .ok a => .done (some (.ok a))
      | .error (.returned failed) => .done (some (.error failed))
      | .error .panicked => .ask .panicMessage fun message =>
        .done (some (.error (supervisorError "run fixture startup" .other message)))

def supervise (work : LndProc Hash Invoice Client (Except (Ended Hash) α)) :
    StartupProc Hash Invoice Client (Option (Except (Failed Hash) α)) :=
  .ask .spawn fun
    | .error (kind, message) =>
      .done (some (.error (supervisorError "spawn fixture supervisor" kind message)))
    | .ok () =>
      .ask .buildRuntime fun
        | none => .done none
        | some (.error (kind, message)) =>
          .done (some (.error (supervisorError "start fixture supervisor" kind message)))
        | some (.ok ()) =>
          (work.within.via .work).bind fun
            | none => .done none
            | some result => handOver result

def wholeTimeout : Failed Hash :=
  ⟨.readinessTimeout "LND pair" (.operation "starting the complete LND topology"), []⟩

/-- The deadline is over all of it, the reading of the logs included. -/
def startLndNodes [DecidableEq Hash] (lib : TopologyLib Hash) (context : LndStartupContext) :
    StartupProc Hash Invoice Client (Except (Failed Hash) (StartedLndNodes Client)) :=
  (supervise (work lib context)).bind fun
    | none => .done (.error wholeTimeout)
    | some result => .done result

end Caller

end Nigiri.Topology
