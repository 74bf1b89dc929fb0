import Nigiri.StackOrder

/-! Every run of a stack's startup, complete or cut off at any point: the steps it has taken, what a
started fixture has shown and what a failed startup tells. -/
namespace Nigiri.Stack
open Nigiri.Process Nigiri.Polling Nigiri.Core Nigiri.Config
variable {Url : Type} {lib : UrlLib Url} {network : NigiriNetwork} {budget : Nat}
  {builder : FixtureBuilder} {scope walletScope : String} {h : StackTrace}
  {o : Option (Except Stop (Fixture Url))}

theorem plan_nodup {names : TopologyNames} : (plan network builder names).Nodup := by
  rw [plan, ownNetwork]
  generalize builder.network.isSome = shared
  cases shared <;> cases network <;> simp [nodePlan, fundingPlan]

/-- The steps are taken in the order of the plan and each at most once, and after a failure nothing
is done but to read logs, the node's last. -/
theorem stack_startup_order
    (hrun : Runs (startUnder lib network budget builder scope walletScope) h o) :
    milestones h <+: plan network builder (topologyNamesOn network builder.network scope) ∧
      (milestones h).Nodup ∧
      (∀ before e after, h = before ++ e :: after → Failed e → ∀ e' ∈ after, ReadsLog e') ∧
      ∃ containers, LogsRead (logServices network) h containers := by
  obtain ⟨containers, hfollows, -⟩ := ensures_startUnder h o hrun
  exact ⟨hfollows.order, plan_nodup.sublist hfollows.order.sublist, hfollows.last, containers,
    hfollows.logs⟩

theorem stack_startup_ready {fixture : Fixture Url}
    (hrun : Runs (startUnder lib network budget builder scope walletScope) h
      (some (.ok fixture))) :
    StackReady lib network builder (topologyNamesOn network builder.network scope) h fixture := by
  obtain ⟨_, _, hready⟩ := ensures_startUnder h _ hrun
  exact hready

/-- An error has its cause in the run, and carries each log that was read, in the order read. Only
the deadline makes it a timeout. -/
theorem stack_startup_tells {error : FixtureError}
    (hrun : Runs (startUnder lib network budget builder scope walletScope) h
      (some (.error (.returned error)))) :
    ∃ containers, LogsRead (logServices network) h containers ∧ Tells h containers error := by
  obtain ⟨containers, hfollows, htells⟩ := ensures_startUnder h _ hrun
  exact ⟨containers, hfollows.logs, htells⟩

section Golden
variable {α β : Type} {t t' : StackTrace}

theorem runs_step {p : StackTask α} {k : α → StackTask β} {a : α} {o : Option (Except Stop β)}
    (hp : Runs p t (some (.ok a))) (hk : Runs (k a) t' o) : Runs (tryBind p k) (t ++ t') o :=
  hp.bind hk

theorem runs_run {q : StackCall} (service : String) (observation : Observation)
    (answer : q.Answer) :
    Runs (run service observation q) [⟨.call q, some (some answer)⟩] (some (.ok answer)) :=
  .inr (.inr ⟨some answer, [], rfl, runs_done _⟩)

theorem runs_bootstrap {q : StackCall} {read : q.Answer → Except NigiriError α}
    (service chain text operation : String) (answer : q.Answer) {a : α}
    (ha : read answer = .ok a) :
    Runs (bootstrap service chain text operation q read) [⟨.call q, some (some answer)⟩]
      (some (.ok a)) := by
  rw [← List.append_nil [_]]
  refine runs_step (runs_run service _ answer) ?_
  rw [ha]
  exact runs_done _

theorem runs_orFailWithLogs {p : StackTask α} (containers : List (String × String)) {a : α}
    (hp : Runs p t (some (.ok a))) : Runs (orFailWithLogs p containers) t (some (.ok a)) := by
  rw [← List.append_nil t]
  exact hp.bind (runs_done _)

/-- URLs of which nothing is told. -/
def textUrls : UrlLib String where
  parse := some
  scheme _ := "http"
  cannotBeABase _ := false
  path _ := "/"
  query _ := none
  fragment _ := none
  setPath _ := id
  setHost url _ := some url
  setPort url _ := some url
  extendPath url _ := some url
  displayV6 _ := none

def anImage : Fixtures.ContainerImage := ⟨"image", "tag", none, none⟩

/-- A builder of a stack, on a shared network or with one of its own. -/
def aBuilder (shared : Option String) : FixtureBuilder := ⟨anImage, anImage, [], shared⟩

abbrev namesOn (shared : Option String) : TopologyNames := topologyNamesOn .bitcoin shared "s"

theorem anImage_valid : anImage.validate = .ok () := by decide

theorem runs_fixtureClient {config : NigiriConfig String} (htimeout : 0 < config.timeout)
    (hsize : config.maxResponseBytes = DEFAULT_MAX_RESPONSE_BYTES) :
    ∃ client, Runs (fixtureClient textUrls config) [] (some (.ok client)) := by
  have hurl (url : String) : EndpointUrl textUrls url := ⟨rfl, rfl, rfl⟩
  have haccepted : Acceptable textUrls config :=
    ⟨hurl _, hurl _, htimeout, by rw [hsize]; decide⟩
  refine ⟨{ config with esploraUrl := normalizeBaseUrl textUrls config.esploraUrl }, ?_⟩
  rw [fixtureClient, validateAndNormalize_ok_iff.mpr ⟨haccepted, rfl⟩]
  exact runs_done _

variable {shared : Option String}

/-- Up to the connection with the engine nothing is refused. -/
theorem runs_connected {o : Option (Except Stop (Fixture String))}
    (hwork : Runs (work textUrls .bitcoin 1 (aBuilder shared) (namesOn shared)
      ("nigiri-rs-" ++ "w")) t o) :
    Runs (startUnder textUrls .bitcoin 1 (aBuilder shared) "s" "w")
      ([⟨.call .remaining, some (some 1)⟩] ++
        ([⟨.call .connect, some (some (.ok ()))⟩] ++ t)) o := by
  have hnode : (aBuilder shared).nodeImage.validate = .ok () := anImage_valid
  have helectrs : (aBuilder shared).electrsImage.validate = .ok () := anImage_valid
  rw [startUnder, hnode, helectrs]
  change Runs (tryBind (run "bitcoind" _ .remaining) fun _ => tryBind (run _ _ .connect) _) _ _
  exact runs_step (@runs_run .remaining _ _ (1 : Nat))
    (runs_step (@runs_run .connect _ _ (Except.ok ())) hwork)

def aNodeSpec (shared : Option String) : ContainerSpec where
  service := "bitcoind"
  image := anImage
  entrypoint := none
  name := (namesOn shared).node
  network := (namesOn shared).network
  command := Fixtures.mergeNodeArgs (nodeCmd .bitcoin) []
  exposedPorts := [18443]

theorem nodeSpec_aNodeSpec :
    nodeSpec .bitcoin anImage (namesOn shared).network (namesOn shared).node [] =
      .ok (aNodeSpec shared) := by
  rw [nodeSpec, anImage_valid]
  rfl

/-- The engine refuses the node's container, whose log is then read. -/
theorem runs_refused : Runs (startUnder textUrls .bitcoin 1 (aBuilder (some "net")) "s" "w")
    ([⟨.call .remaining, some (some 1)⟩] ++ ([⟨.call .connect, some (some (.ok ()))⟩] ++
      [⟨.call (.startContainer (aNodeSpec (some "net"))),
        some (some (.error ⟨"create", "no such image"⟩))⟩,
        ⟨.call (.logs (aNodeSpec (some "net")).name), some (some (.ok "log"))⟩]))
    (some (.error (.returned (.runtime "bitcoind" ⟨"create", "no such image"⟩
      [.read "bitcoind" "log"])))) := by
  refine runs_connected ?_
  change Runs (tryBind (tryBind (orFail (nodeSpec .bitcoin anImage
    (namesOn (some "net")).network (namesOn (some "net")).node [])) _) _) _ _
  rw [nodeSpec_aNodeSpec]
  exact .inr (.inr ⟨some (.error ⟨"create", "no such image"⟩), _, rfl,
    .inr (.inr ⟨some (.ok "log"), [], rfl, runs_done _⟩)⟩)

theorem stack_startup_order_refused : ∃ h, milestones h = [.connected, .node] ∧
    milestones h <+: plan .bitcoin (aBuilder (some "net")) (namesOn (some "net")) ∧
    ∃ containers, LogsRead (logServices .bitcoin) h containers :=
  have horder := stack_startup_order runs_refused
  ⟨_, rfl, horder.1, horder.2.2.2⟩

theorem stack_startup_tells_refused : ∃ h containers, LogsRead (logServices .bitcoin) h containers ∧
    Tells h containers (.runtime "bitcoind" ⟨"create", "no such image"⟩ [.read "bitcoind" "log"]) :=
  have ⟨containers, hlogs, htells⟩ := stack_startup_tells runs_refused
  ⟨_, containers, hlogs, htells⟩

def anElectrsSpec (shared : Option String) : ContainerSpec where
  service := "electrs"
  image := anImage
  entrypoint := none
  name := (namesOn shared).electrs
  network := (namesOn shared).network
  command := electrsCmd .bitcoin (namesOn shared).node
  exposedPorts := [30000, 50000]

theorem electrsSpec_anElectrsSpec :
    electrsSpec .bitcoin anImage (namesOn shared).network (namesOn shared).electrs
      (namesOn shared).node = .ok (anElectrsSpec shared) := by
  rw [electrsSpec, anImage_valid]
  rfl

def aNode : RunningContainer := ⟨"n1", "localhost", [(18443, 32000)]⟩

def anElectrs : RunningContainer := ⟨"e1", "localhost", [(30000, 32001), (50000, 32002)]⟩

theorem runs_startContainer {service resource text containerName : String} {spec : ContainerSpec}
    (container : RunningContainer) :
    Runs (startContainer service resource spec containerName text)
      [⟨.call (.startContainer spec), some (some (.ok container))⟩] (some (.ok container)) := by
  rw [← List.append_nil [_]]
  exact runs_step (@runs_run (.startContainer spec) _ _ (Except.ok container)) (runs_done _)

theorem runs_orFail {value : Except String α} {a : α} (ha : value = .ok a) :
    Runs (orFail value) [] (some (.ok a)) := by
  rw [ha]
  exact runs_done _

theorem runs_mappedUrl {host : String} {port : UInt16} :
    Runs (mappedUrl textUrls host port) [] (some (.ok "http://localhost/")) := ⟨rfl, .inr rfl⟩

theorem runs_waitForRootRpc : Runs (waitForRootRpc .bitcoin)
    [⟨.call .getBlockchainInfo, some (some (.ok ()))⟩] (some (.ok ())) :=
  runs_leave (.inr (.inr ⟨some (.ok ()), [], rfl, runs_done _⟩))

theorem runs_fundWallet : ∃ t, Runs (fundWallet .bitcoin) t (some (.ok ())) :=
  ⟨_, runs_step (@runs_bootstrap _ .newAddress _ _ _ _ _ (Except.ok "address") _ rfl)
    (runs_step (@runs_run .lockMiningPermit _ _ ())
      (runs_step (@runs_bootstrap _ (.generateToAddress 101 "address") _ _ _ _ _ (Except.ok []) _
        rfl) (runs_done _)))⟩

theorem runs_startNode : ∃ t, Runs (startNode textUrls .bitcoin 1 anImage
    (namesOn shared).network (namesOn shared).node ("nigiri-rs-" ++ "w") []) t
    (some (.ok ⟨aNode, fixtureRpcConfig .bitcoin "http://localhost/" 1⟩)) := by
  obtain ⟨client, hclient⟩ := @runs_fixtureClient
    (fixtureRpcConfig .bitcoin "http://localhost/" 1) Nat.zero_lt_one rfl
  obtain ⟨funding, hfunded⟩ := runs_fundWallet
  refine ⟨_, runs_step (runs_orFail nodeSpec_aNodeSpec) (runs_step (runs_startContainer aNode)
    (runs_step (@runs_orFail _ _ 32000 rfl) (runs_step runs_mappedUrl
    (runs_step (@runs_run .remaining _ _ (1 : Nat)) (runs_step hclient
    (runs_step (runs_orFailWithLogs _ runs_waitForRootRpc)
    (runs_step (@runs_bootstrap _ (.createWallet ("nigiri-rs-" ++ "w")) _ _ _ _ _
      (Except.ok ()) _ rfl)
    (runs_step (@runs_orFail _ _ "http://localhost/" rfl) (runs_step hclient
    (runs_step hfunded (runs_done _)))))))))))⟩

theorem runs_startElectrs : ∃ t, Runs (startElectrs textUrls .bitcoin anImage
    (namesOn shared).network (namesOn shared).electrs (namesOn shared).node) t
    (some (.ok ⟨anElectrs, "http://localhost/", ⟨"localhost", 32002⟩⟩)) :=
  ⟨_, runs_step (runs_orFail electrsSpec_anElectrsSpec) (runs_step (runs_startContainer anElectrs)
    (runs_step (@runs_orFail _ _ 32001 rfl) (runs_step (@runs_orFail _ _ 32002 rfl)
    (runs_step runs_mappedUrl
    (runs_step (@runs_orFail _ _ ⟨"localhost", 32002⟩ rfl) (runs_done _))))))⟩

def minedHeights : (service : TipService) → service.call.Reply
  | .node | .esplora => some (.ok 101)
  | .electrum => some (.ok 101)

/-- Every service tells the height that was mined. -/
def probesRun : StackTrace :=
  [⟨.poll ⟨.blockCount, 0⟩, some (some (some (.ok 101)))⟩,
    ⟨.poll ⟨.blockHeight, 0⟩, some (some (some (.ok 101)))⟩,
    ⟨.poll ⟨.tipHeight, 0⟩, some (some (some (.ok 101)))⟩]

theorem runs_heightProbes :
    Runs (tryJoin (heightProbes 0)) (probesRun ++ []) (some (.ok minedHeights)) := by
  obtain ⟨got, hpass, hgot⟩ : ∃ got, Runs (joinPass (heightProbes 0)
      [.node, .esplora, .electrum] fun _ => none) probesRun (some (.ok got)) ∧
      ∀ service, got service = some (minedHeights service) := by
    refine ⟨_, runs_ask (runs_ask (runs_ask (runs_done _))), fun service => ?_⟩
    cases service <;> rfl
  obtain rfl : got = fun service => some (minedHeights service) := funext hgot
  refine runs_leave (hpass.bind ?_)
  exact runs_done _

theorem runs_waitForSync : Runs waitForSync ((probesRun ++ []) ++ []) (some (.ok ())) := by
  refine runs_leave ?_
  rw [syncRound, observeHeights, ← List.append_nil ((probesRun ++ []) ++ [])]
  exact (runs_heightProbes.bind (runs_done _)).bind (runs_done _)

theorem runs_createNetwork : Runs (createNetwork (aBuilder none) (namesOn none))
    ([⟨.call (.createNetwork "nigiri-rs-fixture-s"), some (some (.ok ()))⟩] ++ [])
    (some (.ok ())) :=
  runs_step (@runs_run (.createNetwork "nigiri-rs-fixture-s") _ _ (Except.ok ())) (runs_done _)

theorem runs_ready : ∃ t fixture, Runs (startUnder textUrls .bitcoin 1 (aBuilder none) "s" "w")
    ([⟨.call .remaining, some (some 1)⟩] ++ ([⟨.call .connect, some (some (.ok ()))⟩] ++
      (([⟨.call (.createNetwork "nigiri-rs-fixture-s"), some (some (.ok ()))⟩] ++ []) ++ t)))
    (some (.ok fixture)) := by
  obtain ⟨started, hnode⟩ := @runs_startNode none
  obtain ⟨indexed, helectrs⟩ := @runs_startElectrs none
  obtain ⟨client, hclient⟩ := @runs_fixtureClient
    { fixtureRpcConfig .bitcoin "http://localhost/" 1 with
      esploraUrl := "http://localhost/"
      electrum := ⟨"localhost", 32002⟩ } Nat.zero_lt_one rfl
  exact ⟨_, _, runs_connected (runs_step runs_createNetwork (runs_step hnode
    (runs_step (runs_orFailWithLogs _ helectrs) (runs_step hclient
    (runs_step (runs_orFailWithLogs _ runs_waitForSync) (runs_done _))))))⟩

theorem stack_startup_ready_bitcoin : ∃ h fixture,
    Answered h (.createNetwork "nigiri-rs-fixture-s") (.ok ()) ∧
    StackReady textUrls .bitcoin (aBuilder none) (namesOn none) h fixture :=
  have ⟨_, fixture, hrun⟩ := runs_ready
  ⟨_, fixture, by simp [Answered], stack_startup_ready hrun⟩

end Golden

end Nigiri.Stack
