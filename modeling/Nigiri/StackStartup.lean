import Nigiri.ClientConfig
import Nigiri.NodeArgs
import Nigiri.NodeClient
import Nigiri.Polling

/-! The startup of one stack: a node, its funded wallet and an indexer beside it, each step under
one deadline. The engine, the node and the clock are the environment; an error keeps the parts that
its text is made from. -/
namespace Nigiri.Stack
open Nigiri.Process Nigiri.Polling Nigiri.Core Nigiri.Config
open Nigiri.Fixtures (Argument ContainerImage RPC_USER RPC_PASSWORD mergeNodeArgs)
variable {Url α : Type}

structure EngineError where
  operation : String
  message : String
  deriving DecidableEq, Repr

structure Heights where
  node : UInt64
  esplora : UInt64
  electrum : UInt64
  deriving DecidableEq, Repr

def Heights.agree (heights : Heights) : Bool :=
  heights.node == heights.esplora && heights.node == heights.electrum

inductive ProbeFailure where
  | transport (operation : String)
  | oversized (readBytes : Nat)
  | closed
  | unusable (readBytes : Nat) (category : String)
  deriving DecidableEq, Repr

/-- What a wait was last seen doing. A probe that expires names the round before it, too. -/
inductive Observation where
  | operation (text : String)
  | rootRpc (source : NigiriError)
  | heights (heights : Heights)
  | unavailable (service : String) (source : NigiriError)
  | probeFailed (failure : ProbeFailure)
  | during (observation : Observation) (probe : String)
  deriving DecidableEq, Repr

/-- What reading a container's log brought. -/
inductive LogReport where
  | read (service logs : String)
  | unreadable (service : String) (failure : EngineError)
  | skipped (service : String)
  deriving DecidableEq, Repr

/-- A client whose configuration is rejected makes for an invalid configuration as well. -/
inductive FixtureError where
  | invalidConfiguration (detail : String)
  | rejectedClient (source : NigiriError)
  | runtime (resource : String) (source : EngineError) (diagnostics : List LogReport)
  | bootstrap (chain operation : String) (source : NigiriError) (diagnostics : List LogReport)
  | readinessTimeout (service : String) (lastObservation : Observation)
    (diagnostics : List LogReport)
  deriving DecidableEq, Repr

/-- A failed startup returns an error; a static URL that is not one panics. -/
inductive Stop where
  | returned (error : FixtureError)
  | panicked

def attachDiagnostics (error : FixtureError) (addition : LogReport) : FixtureError :=
  match error with
  | .runtime resource source diagnostics => .runtime resource source (diagnostics ++ [addition])
  | .bootstrap chain operation source diagnostics =>
    .bootstrap chain operation source (diagnostics ++ [addition])
  | .readinessTimeout service observation diagnostics =>
    .readinessTimeout service observation (diagnostics ++ [addition])
  | other => other

structure ContainerSpec where
  service : String
  image : ContainerImage
  entrypoint : Option String
  name : String
  network : String
  command : List Argument
  exposedPorts : List UInt16
  deriving DecidableEq, Repr

structure RunningContainer where
  id : String
  host : String
  ports : List (UInt16 × UInt16)
  deriving DecidableEq, Repr

/-- What a startup asks for: of the clock, of the container engine, of the node and its wallet, of
the process-wide permit, and of the three services that tell a height. -/
inductive StackCall where
  | remaining
  | connect
  | createNetwork (name : String)
  | startContainer (spec : ContainerSpec)
  | logs (idOrName : String)
  | getBlockchainInfo
  | createWallet (name : String)
  | rescanBlockchain
  | newAddress
  | lockMiningPermit
  | generateToAddress (blocks : UInt64) (address : String)
  | blockCount
  | blockHeight
  | tipHeight
  | retryDelay
  deriving DecidableEq

abbrev StackCall.Answer : StackCall → Type
  | .remaining => Nat
  | .connect => Except EngineError Unit
  | .createNetwork _ => Except EngineError Unit
  | .startContainer _ => Except EngineError RunningContainer
  | .logs _ => Except EngineError String
  | .getBlockchainInfo => Except NigiriError Unit
  | .createWallet _ => Except NigiriError Unit
  | .rescanBlockchain => Except NigiriError Unit
  | .newAddress => Except NigiriError String
  | .lockMiningPermit => Unit
  | .generateToAddress .. => Except NigiriError (List String)
  | .blockCount => Except NigiriError UInt64
  | .blockHeight => Except NigiriError UInt64
  | .tipHeight => Except ProbeFailure UInt64
  | .retryDelay => Unit

/-- What a call gives under the startup deadline, or that the deadline has passed. -/
abbrev StackCall.Reply (q : StackCall) : Type := Option q.Answer

abbrev StackTask (α : Type) : Type 1 := Task StackCall.Reply (Except Stop α)

abbrev StackTrace := TaskTrace StackCall.Reply

abbrev StackEvent := Event (Await StackCall) (Await.Answer StackCall.Reply)

section Steps

def fail (error : FixtureError) : StackTask α := .done (.error (.returned error))

def orFail : Except String α → StackTask α
  | .error detail => fail (.invalidConfiguration detail)
  | .ok a => .done (.ok a)

/-- A call that is awaited under the deadline. -/
def run (service : String) (observation : Observation) (q : StackCall) : StackTask q.Answer :=
  .ask (.call q) fun
    | none => fail (.readinessTimeout service observation [])
    | some answer => .done (.ok answer)

def renderLogDiagnostics (service : String) :
    Option (Except EngineError String) → LogReport
  | some (.ok logs) => .read service logs
  | some (.error failure) => .unreadable service failure
  | none => .skipped service

/-- The log of a container is added to an error before it is returned. -/
def attachContainerLog (service idOrName : String) (error : FixtureError) :
    Task StackCall.Reply FixtureError :=
  .ask (.call (.logs idOrName)) fun reply =>
    .done (attachDiagnostics error (renderLogDiagnostics service reply))

def failWithLogs (containers : List (String × String)) (error : FixtureError) : StackTask α :=
  match containers with
  | [] => fail error
  | (service, idOrName) :: containers =>
    (attachContainerLog service idOrName error).bind (failWithLogs containers)

/-- What fails from here on fails with the logs of these containers, in this order. -/
def orFailWithLogs (p : StackTask α) (containers : List (String × String)) : StackTask α :=
  p.bind fun
    | .error (.returned error) => failWithLogs containers error
    | result => .done result

/-- A call of the node whose error fails the wallet's bootstrap. -/
def bootstrap (service chain text operation : String) (q : StackCall)
    (read : q.Answer → Except NigiriError α) : StackTask α :=
  tryBind (run service (.operation text) q) fun answer =>
    match read answer with
    | .ok a => .done (.ok a)
    | .error source => fail (.bootstrap chain operation source [])

end Steps

section Chains
open NigiriNetwork

def nodeService : NigiriNetwork → String
  | bitcoin => "bitcoind"
  | liquid => "elements"

def chainName : NigiriNetwork → String
  | bitcoin => "Bitcoin"
  | liquid => "Liquid"

def nodeRpcPort : NigiriNetwork → UInt16
  | bitcoin => 18443
  | liquid => 18884

def electrsHttpPort : NigiriNetwork → UInt16
  | bitcoin => 30000
  | liquid => 30001

def electrsElectrumPort : NigiriNetwork → UInt16
  | bitcoin => 50000
  | liquid => 50001

def nodeNamePrefix : NigiriNetwork → String
  | bitcoin => "nigiri-rs-bitcoind"
  | liquid => "nigiri-rs-elements"

def nodeCmd : NigiriNetwork → List Argument
  | bitcoin => [
      "-regtest=1".toList,
      "-server=1".toList,
      "-txindex=1".toList,
      s!"-rpcbind=0.0.0.0:{nodeRpcPort bitcoin}".toList,
      "-rpcallowip=0.0.0.0/0".toList,
      "-rpcuser=".toList ++ RPC_USER,
      "-rpcpassword=".toList ++ RPC_PASSWORD,
      "-fallbackfee=0.00001".toList,
      "-printtoconsole=1".toList]
  | liquid => Fixtures.Liquid.nodeCmd

def electrsCmd (network : NigiriNetwork) (nodeContainer : String) : List Argument :=
  ["-vvvv".toList] ++
    (match network with
      | bitcoin => ["--network".toList, "regtest".toList, "--daemon-dir".toList,
          "/tmp/bitcoin".toList]
      | liquid => ["--parent-network".toList, "regtest".toList, "--network".toList,
          "liquidregtest".toList, "--daemon-dir".toList, "/tmp/liquid".toList]) ++
    ["--db-dir".toList,
      "/tmp/electrs".toList,
      "--daemon-rpc-addr".toList,
      s!"{nodeContainer}:{nodeRpcPort network}".toList,
      "--cookie".toList,
      RPC_USER ++ ':' :: RPC_PASSWORD,
      "--http-addr".toList,
      s!"0.0.0.0:{electrsHttpPort network}".toList,
      "--electrum-rpc-addr".toList,
      s!"0.0.0.0:{electrsElectrumPort network}".toList,
      "--cors".toList,
      "*".toList,
      "--jsonrpc-import".toList]

/-- The permit is given back when the mining is over, however it ends. -/
def fundWallet : NigiriNetwork → StackTask Unit
  | bitcoin =>
    tryBind (bootstrap "bitcoind" "Bitcoin" "creating initial mining address" "getnewaddress"
      .newAddress id) fun address =>
    tryBind (run "bitcoind" (.operation "waiting for the initial mining permit")
      .lockMiningPermit) fun () =>
    tryBind (bootstrap "bitcoind" "Bitcoin" "mining the initial 101 blocks" "generatetoaddress"
      (.generateToAddress 101 address) id) fun _ => .done (.ok ())
  | liquid =>
    tryBind (bootstrap "elements" "Liquid" "rescanning for the genesis outputs"
      "rescanblockchain" .rescanBlockchain id) fun () =>
    tryBind (bootstrap "elements" "Liquid" "creating initial mining address" "getnewaddress"
      .newAddress id) fun address =>
    tryBind (bootstrap "elements" "Liquid" "mining the initial block" "generatetoaddress"
      (.generateToAddress 1 address) id) fun _ => .done (.ok ())

end Chains

section Specs
variable (network : NigiriNetwork)

def nodeSpec (image : ContainerImage) (networkName name : String) (extraArgs : List Argument) :
    Except String ContainerSpec :=
  match image.validate with
  | .error error => .error error.detail
  | .ok () => .ok {
      service := nodeService network
      image := image
      entrypoint := image.entrypoint
      name := name
      network := networkName
      command := mergeNodeArgs (nodeCmd network) extraArgs
      exposedPorts := [nodeRpcPort network] }

def electrsSpec (image : ContainerImage) (networkName name nodeName : String) :
    Except String ContainerSpec :=
  match image.validate with
  | .error error => .error error.detail
  | .ok () => .ok {
      service := "electrs"
      image := image
      entrypoint := image.entrypoint
      name := name
      network := networkName
      command := electrsCmd network nodeName
      exposedPorts := [electrsHttpPort network, electrsElectrumPort network] }

def mappedPort (service : String) (container : RunningContainer) (port : UInt16) :
    Except String UInt16 :=
  match container.ports.lookup port with
  | none => .error s!"container runtime omitted the mapped {port} port for {service}"
  | some mapped => .ok mapped

end Specs

section Waits

abbrev StackRound (σ α : Type) : Type 1 := Task StackCall.Reply (σ ⊕ Except Stop α)

/-- The pause between two rounds, which only the deadline ends with an error. -/
def waitBeforeRetry {σ : Type} (service : String) (observation : Observation) (next : σ) :
    StackRound σ α :=
  .ask (.call .retryDelay) fun
    | none => .done (.inr (.error (.returned (.readinessTimeout service observation []))))
    | some () => .done (.inl next)

def rootRpcRound (network : NigiriNetwork) (lastObservation : Observation) :
    StackRound Observation Unit :=
  .ask (.call .getBlockchainInfo) fun
    | none =>
      .done (.inr (.error (.returned (.readinessTimeout (nodeService network) lastObservation []))))
    | some (.ok ()) => .done (.inr (.ok ()))
    | some (.error error) => waitBeforeRetry (nodeService network) (.rootRpc error) (.rootRpc error)

def waitForRootRpc (network : NigiriNetwork) : StackTask Unit :=
  repeatUntil (rootRpcRound network) (.operation "waiting for root getblockchaininfo RPC")

inductive TipService where
  | node
  | esplora
  | electrum
  deriving DecidableEq

instance : Fintype TipService where
  elems := {.node, .esplora, .electrum}
  complete := fun service => by cases service <;> simp

def TipService.call : TipService → StackCall
  | .node => .blockCount
  | .esplora => .blockHeight
  | .electrum => .tipHeight

/-- The three probes of a round are joined, and none ends the others. -/
def heightProbes (round : Nat) : Joined StackCall.Reply Empty where
  Name := TipService
  Out service := service.call.Reply
  future service := ⟨service.call, round⟩
  read _ reply := .ok reply
  order := [.node, .esplora, .electrum]

instance (round : Nat) : DecidableEq (heightProbes round).Name :=
  inferInstanceAs (DecidableEq TipService)

instance (round : Nat) : Fintype (heightProbes round).Name :=
  inferInstanceAs (Fintype TipService)

/-- Results are read in the order node, Esplora, Electrum. An inner error is a service that is not
up yet. -/
def readHeights (observation : Observation) (node esplora : Option (Except NigiriError UInt64))
    (electrum : Option (Except ProbeFailure UInt64)) :
    Except FixtureError (Except Observation Heights) :=
  match node with
  | none => .error (.readinessTimeout "fixture" observation [])
  | some (.error error) => .ok (.error (.unavailable "node" error))
  | some (.ok node) =>
    match esplora with
    | none => .error (.readinessTimeout "fixture" observation [])
    | some (.error error) => .ok (.error (.unavailable "esplora" error))
    | some (.ok esplora) =>
      match electrum with
      | none => .error (.readinessTimeout "electrs"
          (.during observation "probing the Electrum tip height") [])
      | some (.error failure) => .ok (.error (.probeFailed failure))
      | some (.ok electrum) => .ok (.ok ⟨node, esplora, electrum⟩)

def observeHeights (observation : Observation) (round : Nat) :
    Task StackCall.Reply (Except FixtureError (Except Observation Heights)) :=
  (tryJoin (heightProbes round)).bind fun
    | .error never => nomatch never
    | .ok got => .done (readHeights observation (got .node) (got .esplora) (got .electrum))

def syncRound (state : Observation × Nat) : StackRound (Observation × Nat) Unit :=
  (observeHeights state.1 state.2).bind fun
    | .error error => .done (.inr (.error (.returned error)))
    | .ok (.ok heights) =>
      if heights.agree then .done (.inr (.ok ()))
      else waitBeforeRetry "fixture" (.heights heights) (.heights heights, state.2 + 1)
    | .ok (.error unavailable) =>
      waitBeforeRetry "fixture" unavailable (unavailable, state.2 + 1)

def waitForSync : StackTask Unit :=
  repeatUntil syncRound
    (.operation "waiting for node, Esplora, and Electrum tip synchronization", 0)

end Waits

section Start
variable (lib : UrlLib Url) (network : NigiriNetwork)

structure StartedNode (Url : Type) where
  container : RunningContainer
  clientConfig : NigiriConfig Url

structure StartedElectrs (Url : Type) where
  container : RunningContainer
  esploraUrl : Url
  electrumEndpoint : ElectrumEndpoint

def fixtureRpcConfig (nodeRpcUrl : Url) (timeout : Nat) : NigiriConfig Url where
  esploraUrl := nodeRpcUrl
  nodeRpcUrl := nodeRpcUrl
  electrum := ⟨"localhost", electrsElectrumPort network⟩
  nodeRpcUser := String.ofList RPC_USER
  nodeRpcPassword := String.ofList RPC_PASSWORD
  timeout := timeout
  maxResponseBytes := DEFAULT_MAX_RESPONSE_BYTES

def fixtureClient (config : NigiriConfig Url) : StackTask (NigiriConfig Url) :=
  match config.validateAndNormalize lib with
  | .ok config => .done (.ok config)
  | .error source => fail (.rejectedClient source)

def mappedUrl (host : String) (port : UInt16) : StackTask Url :=
  match mappedHttpUrl lib host port with
  | none => .done (.error .panicked)
  | some url => orFail url

/-- A container that does not start is reported with what its log can tell. -/
def startContainer (service resource : String) (spec : ContainerSpec)
    (containerName text : String) : StackTask RunningContainer :=
  tryBind (run service (.operation text) (.startContainer spec)) fun
    | .ok container => .done (.ok container)
    | .error error => failWithLogs [(service, containerName)] (.runtime resource error [])

def startNode (budget : Nat) (image : ContainerImage)
    (networkName containerName walletName : String) (extraArgs : List Argument) :
    StackTask (StartedNode Url) :=
  tryBind (orFail (nodeSpec network image networkName containerName extraArgs)) fun spec =>
  tryBind (startContainer (nodeService network) (nodeService network) spec containerName
    "starting node container") fun container =>
  tryBind (orFail (mappedPort (nodeService network) container (nodeRpcPort network))) fun port =>
  tryBind (mappedUrl lib container.host port) fun rootUrl =>
  tryBind (run (nodeService network) (.operation "configuring the root node RPC client")
    .remaining) fun remaining =>
  tryBind (fixtureClient lib (fixtureRpcConfig network rootUrl remaining)) fun _ =>
  tryBind (orFailWithLogs (waitForRootRpc network)
    [(nodeService network, container.id)]) fun () =>
  tryBind (bootstrap (nodeService network) (chainName network) "creating node wallet"
    "createwallet" (.createWallet walletName) id) fun () =>
  tryBind (orFail (walletRpcUrl lib rootUrl walletName)) fun walletUrl =>
  tryBind (fixtureClient lib (fixtureRpcConfig network walletUrl budget)) fun _ =>
  tryBind (fundWallet network) fun () =>
  .done (.ok ⟨container, fixtureRpcConfig network walletUrl budget⟩)

def electrumEndpoint (host : String) (port : UInt16) : Except String ElectrumEndpoint :=
  match ElectrumEndpoint.new host port with
  | .ok endpoint => .ok endpoint
  | .error _ => .error "container runtime returned an invalid mapped Electrum endpoint"

def startElectrs (image : ContainerImage) (networkName containerName nodeName : String) :
    StackTask (StartedElectrs Url) :=
  tryBind (orFail (electrsSpec network image networkName containerName nodeName)) fun spec =>
  tryBind (startContainer "electrs" "electrs" spec containerName
    "starting Electrs container") fun container =>
  tryBind (orFail (mappedPort "electrs" container (electrsHttpPort network))) fun esploraPort =>
  tryBind (orFail (mappedPort "electrs" container (electrsElectrumPort network)))
    fun electrumPort =>
  tryBind (mappedUrl lib container.host esploraPort) fun esploraUrl =>
  tryBind (orFail (electrumEndpoint container.host electrumPort)) fun endpoint =>
  .done (.ok ⟨container, esploraUrl, endpoint⟩)

structure FixtureBuilder where
  nodeImage : ContainerImage
  electrsImage : ContainerImage
  extraNodeArgs : List Argument
  network : Option String

structure TopologyNames where
  network : String
  node : String
  electrs : String

/-- Every name but a shared network's carries the scope of its fixture. -/
def topologyNamesOn (sharedNetwork : Option String) (scope : String) : TopologyNames where
  network := sharedNetwork.getD ("nigiri-rs-fixture-" ++ scope)
  node := nodeNamePrefix network ++ "-" ++ scope
  electrs := "nigiri-rs-electrs-" ++ scope

structure Fixture (Url : Type) where
  client : NigiriConfig Url
  names : TopologyNames
  electrsId : String
  nodeId : String

def createNetwork (builder : FixtureBuilder) (names : TopologyNames) : StackTask Unit :=
  match builder.network with
  | some _ => .done (.ok ())
  | none =>
    tryBind (run "container network" (.operation "creating fixture network")
      (.createNetwork names.network)) fun
      | .ok () => .done (.ok ())
      | .error error => fail (.runtime "fixture supervisor" error [])

/-- What the supervisor of a stack runs. -/
def work (budget : Nat) (builder : FixtureBuilder) (names : TopologyNames) (walletName : String) :
    StackTask (Fixture Url) :=
  tryBind (createNetwork builder names) fun () =>
  tryBind (startNode lib network budget builder.nodeImage names.network names.node walletName
    builder.extraNodeArgs) fun node =>
  tryBind (orFailWithLogs (startElectrs lib network builder.electrsImage names.network names.electrs
    names.node) [(nodeService network, node.container.id)]) fun electrs =>
  let clientConfig := { node.clientConfig with
    esploraUrl := electrs.esploraUrl
    electrum := electrs.electrumEndpoint }
  tryBind (fixtureClient lib clientConfig) fun client =>
  tryBind (orFailWithLogs waitForSync
    [("electrs", electrs.container.id), (nodeService network, node.container.id)]) fun () =>
  .done (.ok ⟨client, names, electrs.container.id, node.container.id⟩)

def startUnder (budget : Nat) (builder : FixtureBuilder) (scope walletScope : String) :
    StackTask (Fixture Url) :=
  tryBind (orFail (builder.nodeImage.validate.mapError (·.detail))) fun () =>
  tryBind (orFail (builder.electrsImage.validate.mapError (·.detail))) fun () =>
  tryBind (run (nodeService network) (.operation "connecting to the container engine")
    .remaining) fun _ =>
  tryBind (run "container engine" (.operation "connecting to the container engine")
    .connect) fun
    | .error error => fail (.runtime "container engine" error [])
    | .ok () =>
      work lib network budget builder (topologyNamesOn network builder.network scope)
        ("nigiri-rs-" ++ walletScope)

end Start

end Nigiri.Stack
