import Nigiri.LndSync
import Nigiri.LndTopology
import Nigiri.ReadinessSound

/-! What each call of an LND startup rests on: the containers that run, their own certificates and
endpoints, both wallets, and the chain that both nodes follow; and where its error comes from. -/
namespace Nigiri.Topology
open Nigiri.Process Nigiri.Polling Nigiri.WireFormat Nigiri.Lnd
open Nigiri.Fixtures (Node PairCall PairTrace PairEvent)
open Nigiri.Stack (ContainerSpec RunningContainer)
variable {Hash Invoice Client : Type} {α β : Type}

def LndCall.readsLog : LndCall Hash Invoice → Bool
  | .logs _ => true
  | _ => false

def ClientFails : (q : Await ClientCall) → Await.Answer (ClientCall.Reply Hash Client) q → Prop
  | .poll _, some (.error _) => True
  | _, _ => False

/-- The deadline has passed in a call. -/
def Elapsed : LndEvent Hash Invoice Client → Prop
  | ⟨.startContainerPair .., some none⟩ => True
  | ⟨.readContainerFile .., some none⟩ => True
  | ⟨.retryDelay, some none⟩ => True
  | _ => False

/-- The caller was seen to be gone, or went away during a phase. -/
def CalledOff : LndEvent Hash Invoice Client → Prop
  | ⟨.cancelled, some called⟩ => called = true
  | ⟨.clients _, some none⟩ => True
  | ⟨.pair .., some none⟩ => True
  | _ => False

/-- The engine has answered with an error that is not waited out. -/
def EngineFails : LndEvent Hash Invoice Client → EngineError → Prop
  | ⟨.startContainerPair .., some (some (alice, bob))⟩, source =>
    alice = .error source ∨ bob = .error source
  | ⟨.readContainerFile _ _ maxBytes, some (some reply)⟩, source =>
    boundedContents maxBytes reply = .error source ∧
      (source.isCancelled = true ∨ source.isTransientFileUnavailable = false)
  | ⟨.retryDelay, some (some reply)⟩, source => reply = .error source
  | _, _ => False

/-- There was no password, or a client could not be initialized. -/
def WalletFails : LndEvent Hash Invoice Client → Prop
  | ⟨.fillPassword _, some reply⟩ => reply = .error ()
  | ⟨.clients q, some (some reply)⟩ => ClientFails q reply
  | _ => False

/-- A reply that ends the startup. -/
def Fails (e : LndEvent Hash Invoice Client) : Prop :=
  Elapsed e ∨ CalledOff e ∨ (∃ source, EngineFails e source) ∨ WalletFails e

/-- Nothing has failed so far, and no log has been read. -/
def Clean (h : LndTrace Hash Invoice Client) : Prop :=
  ∀ e ∈ h, ¬ Fails e ∧ e.request.readsLog = false

/-- What the startup has asked for in one phase, as a history of that phase. -/
def pairEvent (phase : PairPhase) :
    LndEvent Hash Invoice Client → Option (PairEvent Hash Invoice)
  | ⟨.pair phase' q, none⟩ => if phase' = phase then some ⟨q, none⟩ else none
  | ⟨.pair phase' q, some (some reply)⟩ =>
    if phase' = phase then some ⟨q, some reply⟩ else none
  | _ => none

def pairTrace (phase : PairPhase) (h : LndTrace Hash Invoice Client) : PairTrace Hash Invoice :=
  h.filterMap (pairEvent phase)

def pick (alice bob : α) : Node → α
  | .alice => alice
  | .bob => bob

section Facts
variable (lib : TopologyLib Hash) (context : LndStartupContext)
  (h : LndTrace Hash Invoice Client)

/-- Both containers have been asked for, and this came of it. -/
def Launched (alice bob : Except EngineError RunningContainer) : Prop :=
  ∃ first second, ⟨.startContainerPair first second, some (some (alice, bob))⟩ ∈ h

def Running (alice bob : RunningContainer) : Prop := Launched h (.ok alice) (.ok bob)

/-- What was read in a container as its certificate. -/
structure Certified (container : RunningContainer) (certificate : Bytes) : Prop where
  read : ⟨.readContainerFile container.id TLS_CERT_PATH MAX_TLS_CERTIFICATE_BYTES,
    some (some (.ok certificate))⟩ ∈ h
  nonempty : certificate ≠ []
  bounded : certificate.length ≤ MAX_TLS_CERTIFICATE_BYTES

/-- A node's configuration is made of its own container's endpoint and certificate. -/
def Configured (node : Node) (config : LndBootstrapConfig) : Prop :=
  ∃ alice bob, Running h alice bob ∧ Certified h (pick alice bob node) config.tlsCertificate ∧
    Fixtures.mappedLndEndpoint lib.toMappedUrlLib
      ⟨(pick alice bob node).host, (pick alice bob node).ports⟩ = some (.ok config.endpoint) ∧
    config.timeout = context.budget

def Filled (node : Node) (password : Bytes) : Prop := ⟨.fillPassword node, some (.ok password)⟩ ∈ h

/-- A node's client comes of its own configuration and password. -/
def Initialized (node : Node) (client : Client) : Prop :=
  ∃ config password, Configured lib context h node config ∧ Filled h node password ∧
    ⟨.clients (.poll ⟨⟨config, password, node.service, initializing node⟩, 0⟩),
      some (some (some (.ok client)))⟩ ∈ h

/-- What a node's log is read by. -/
def LogOf (node : Node) (idOrName : String) : Prop :=
  (∃ alice bob container, Launched h alice bob ∧ pick alice bob node = .ok container ∧
    idOrName = container.id) ∨
  (∀ alice bob container, Launched h alice bob → pick alice bob node ≠ .ok container) ∧
    idOrName = context.names.of node

end Facts

def logTarget : LndEvent Hash Invoice Client → Option String
  | ⟨.logs idOrName, _⟩ => some idOrName
  | _ => none

/-- Nothing has failed, and the nodes have not been asked for the chain. -/
structure Early (h : LndTrace Hash Invoice Client) : Prop where
  clean : Clean h
  unasked : ∀ phase, pairTrace phase h = []

/-- The wait for the chain is over, and both nodes followed it. -/
def InSync (h : LndTrace Hash Invoice Client) : Prop :=
  Runs Fixtures.waitForLndSync (pairTrace .sync h) (some (.ok ()))

/-- No phase is under way, and none has failed. -/
structure Settled (h : LndTrace Hash Invoice Client) : Prop where
  clean : Clean h
  sync : pairTrace .sync h = [] ∨ InSync h
  channel : pairTrace .channel h = []

/-- What must have happened before a call. In its phase, a call is the next of that phase's own
run. -/
def Justified [DecidableEq Hash] (lib : TopologyLib Hash) (context : LndStartupContext)
    (before : LndTrace Hash Invoice Client) : LndCall Hash Invoice → Prop
  | .startContainerPair first second =>
    before = [] ∧ context.spec lib .alice = .ok first ∧ context.spec lib .bob = .ok second
  | .readContainerFile id path maxBytes =>
    Early before ∧ path = TLS_CERT_PATH ∧ maxBytes = MAX_TLS_CERTIFICATE_BYTES ∧
      ∃ alice bob, Running before alice bob ∧
        (id = alice.id ∨ id = bob.id ∧ ∃ certificate, Certified before alice certificate)
  | .retryDelay => Early before ∧ ∃ alice bob, Running before alice bob
  | .cancelled => Settled before ∧ ∀ node, ∃ config, Configured lib context before node config
  | .fillPassword _ =>
    Early before ∧ ∀ node, ∃ config, Configured lib context before node config
  | .clients q =>
    Early before ∧ ∃ (config : Node → LndBootstrapConfig) (password : Node → Bytes),
      (∀ node, Configured lib context before node (config node)) ∧
      (∀ node, Filled before node (password node)) ∧
      (q = .park ∨ ∃ node, q = .poll (initializeClient config password node))
  | .pair .sync q =>
    Clean before ∧ (∀ node, ∃ client, Initialized lib context before node client) ∧
      pairTrace .channel before = [] ∧
      Runs Fixtures.waitForLndSync (pairTrace .sync before ++ [⟨q, none⟩]) none
  | .pair .channel q =>
    Clean before ∧ (∀ node, ∃ client, Initialized lib context before node client) ∧
      InSync before ∧ (∃ round, Fixtures.SynchronizedAt (pairTrace .sync before) round) ∧
      Runs (Fixtures.bootstrapReadyChannel lib.pair context.names.bob context.allocation)
        (pairTrace .channel before ++ [⟨q, none⟩]) none
  | .logs idOrName =>
    (before.filterMap logTarget = [] ∧ LogOf context before .bob idOrName) ∨
      ∃ bobLog, before.filterMap logTarget = [bobLog] ∧ LogOf context before .alice idOrName

theorem Early.settled {h : LndTrace Hash Invoice Client} (hearly : Early h) : Settled h :=
  ⟨hearly.clean, .inl (hearly.unasked .sync), hearly.unasked .channel⟩

/-- A wait that is over has seen both nodes at the tip in one round. -/
theorem InSync.synchronized {h : LndTrace Hash Invoice Client} (hsync : InSync h) :
    ∃ round, Fixtures.SynchronizedAt (pairTrace .sync h) round := by
  cases (Fixtures.ensures_waitForLndSync _ _ hsync).ended _ rfl with
  | synchronized round _ hround _ => exact ⟨round, hround⟩

/-- Where the error of a startup comes from. -/
inductive Explained [DecidableEq Hash] (lib : TopologyLib Hash) (context : LndStartupContext)
    (h : LndTrace Hash Invoice Client) : LndFailure Hash → Prop where
  | configuration {node : Node} {detail : String} (hnothing : h = [])
    (hspec : context.spec lib node = .error detail) :
    Explained lib context h (.invalidConfiguration detail)
  | engine {e : LndEvent Hash Invoice Client} {service : String} {source : EngineError}
    (hmem : e ∈ h) (hfails : EngineFails e source) :
    Explained lib context h (.runtime service source)
  | calledOff {e : LndEvent Hash Invoice Client} (hmem : e ∈ h) (hgone : CalledOff e) :
    Explained lib context h (.runtime "LND pair" cancelledError)
  | deadline {e : LndEvent Hash Invoice Client} {service : String}
    {observation : CertificateObservation} (hmem : e ∈ h) (helapsed : Elapsed e) :
    Explained lib context h (.readinessTimeout service observation)
  | endpoint {node : Node} {alice bob : RunningContainer} {source : Fixtures.InvalidConfiguration}
    (hrunning : Running h alice bob) (hmapped : Fixtures.mappedLndEndpoint lib.toMappedUrlLib
      ⟨(pick alice bob node).host, (pick alice bob node).ports⟩ = some (.error source)) :
    Explained lib context h (.configuration source)
  | password {node : Node} (hmem : ⟨.fillPassword node, some (.error ())⟩ ∈ h) :
    Explained lib context h .password
  | client {f : Started ClientCall} {error : FixtureError Hash}
    (hmem : ⟨.clients (.poll f), some (some (some (.error error)))⟩ ∈ h) :
    Explained lib context h (.pair error)
  | sync {error : FixtureError Hash}
    (hrun : Runs Fixtures.waitForLndSync (pairTrace .sync h) (some (.error (.returned error)))) :
    Explained lib context h (.pair error)
  | channel {error : FixtureError Hash}
    (hrun : Runs (Fixtures.bootstrapReadyChannel lib.pair context.names.bob context.allocation)
      (pairTrace .channel h) (some (.error (.returned error)))) :
    Explained lib context h (.pair error)

/-- What a startup that has succeeded has done. -/
structure Ready [DecidableEq Hash] (lib : TopologyLib Hash) (context : LndStartupContext)
    (h : LndTrace Hash Invoice Client) (nodes : StartedLndNodes Client) : Prop where
  clean : Clean h
  running : ∃ alice bob, Running h alice bob ∧ nodes.containerIds = (alice.id, bob.id)
  alice : Initialized lib context h .alice nodes.alice
  bob : Initialized lib context h .bob nodes.bob
  inSync : InSync h
  synchronized : ∃ round, Fixtures.SynchronizedAt (pairTrace .sync h) round
  channel : Runs (Fixtures.bootstrapReadyChannel lib.pair context.names.bob context.allocation)
    (pairTrace .channel h) (some (.ok nodes.channelPoint))

section Mono
variable {lib : TopologyLib Hash} {context : LndStartupContext} {node : Node}
  {h h' : LndTrace Hash Invoice Client} {alice bob : RunningContainer}

theorem Running.mono (hrunning : Running h alice bob) (hsub : h ⊆ h') : Running h' alice bob := by
  obtain ⟨first, second, hmem⟩ := hrunning
  exact ⟨first, second, hsub hmem⟩

theorem Certified.mono {container : RunningContainer} {certificate : Bytes}
    (hcertified : Certified h container certificate) (hsub : h ⊆ h') :
    Certified h' container certificate :=
  ⟨hsub hcertified.read, hcertified.nonempty, hcertified.bounded⟩

theorem Configured.mono {config : LndBootstrapConfig}
    (hconfigured : Configured lib context h node config) (hsub : h ⊆ h') :
    Configured lib context h' node config := by
  obtain ⟨alice, bob, hrunning, hcertified, hendpoint, htimeout⟩ := hconfigured
  exact ⟨alice, bob, hrunning.mono hsub, hcertified.mono hsub, hendpoint, htimeout⟩

theorem Initialized.mono {client : Client} (hinit : Initialized lib context h node client)
    (hsub : h ⊆ h') : Initialized lib context h' node client := by
  obtain ⟨config, password, hconfigured, hfilled, hmem⟩ := hinit
  exact ⟨config, password, hconfigured.mono hsub, hsub hfilled, hsub hmem⟩

theorem Clean.append {t : LndTrace Hash Invoice Client} (hclean : Clean h) (ht : Clean t) :
    Clean (h ++ t) := fun e he => (List.mem_append.mp he).elim (hclean e) (ht e)

theorem Clean.concat {e : LndEvent Hash Invoice Client} (hclean : Clean h) (he : ¬ Fails e)
    (hkind : e.request.readsLog = false) : Clean (h ++ [e]) :=
  hclean.append fun e' he' => by
    obtain rfl := List.mem_singleton.mp he'
    exact ⟨he, hkind⟩

/-- An event of which no failure can be told. -/
theorem not_fails {e : LndEvent Hash Invoice Client} (helapsed : ¬ Elapsed e)
    (hgone : ¬ CalledOff e) (hengine : ∀ source, ¬ EngineFails e source)
    (hwallet : ¬ WalletFails e) : ¬ Fails e := by
  rintro (hfails | hfails | ⟨source, hfails⟩ | hfails)
  · exact helapsed hfails
  · exact hgone hfails
  · exact hengine source hfails
  · exact hwallet hfails

end Mono

section Rules
variable [DecidableEq Hash] {lib : TopologyLib Hash} {context : LndStartupContext}
  {h : LndTrace Hash Invoice Client}

/-- Each call so far is justified, and none has read a log. -/
structure Regular (lib : TopologyLib Hash) (context : LndStartupContext)
    (h : LndTrace Hash Invoice Client) : Prop where
  each : Each (Justified lib context) h
  unread : ∀ e ∈ h, e.request.readsLog = false

theorem Regular.concat {e : LndEvent Hash Invoice Client} (hregular : Regular lib context h)
    (hjust : Justified lib context h e.request) (hkind : e.request.readsLog = false) :
    Regular lib context (h ++ [e]) := by
  refine ⟨each_concat.mpr ⟨hregular.each, hjust⟩, fun e' he' => ?_⟩
  obtain hbefore | hlast := List.mem_append.mp he'
  · exact hregular.unread e' hbefore
  · exact List.mem_singleton.mp hlast ▸ hkind

/-- A call that is justified, whatever it brings. -/
theorem Regular.ask {q : LndCall Hash Invoice} {Φ : LndTrace Hash Invoice Client → Option β → Prop}
    {k : q.Answer Client → LndProc Hash Invoice Client β} (hregular : Regular lib context h)
    (hjust : Justified lib context h q) (hkind : q.readsLog = false)
    (hpending : ∀ h', Regular lib context h' → Φ h' none)
    (hreply : ∀ r, Regular lib context (h ++ [⟨q, some r⟩]) →
      Ensures (h ++ [⟨q, some r⟩]) (k r) Φ) : Ensures h (.ask q k) Φ := by
  have hnext (reply) : Regular lib context (h ++ [⟨q, reply⟩]) := hregular.concat hjust hkind
  exact ensures_ask (hpending h hregular) (hpending _ (hnext none)) fun r => hreply r (hnext _)

/-- What a step of the startup leaves: what is good about its result, or where its error comes
from. -/
structure Stage (lib : TopologyLib Hash) (context : LndStartupContext)
    (good : LndTrace Hash Invoice Client → α → Prop) (h : LndTrace Hash Invoice Client)
    (o : Option (Except (Stop Hash) α)) : Prop where
  regular : Regular lib context h
  good : ∀ a, o = some (.ok a) → good h a
  told : ∀ failure, o = some (.error (.returned failure)) → Explained lib context h failure

variable {good : LndTrace Hash Invoice Client → α → Prop}
  {good' : LndTrace Hash Invoice Client → β → Prop}

theorem Regular.pending (hregular : Regular lib context h) : Stage lib context good h none :=
  ⟨hregular, fun _ hsome => (by cases hsome), fun _ hsome => (by cases hsome)⟩

theorem Regular.ok {a : α} (hregular : Regular lib context h) (ha : good h a) :
    Stage lib context good h (some (.ok a)) := by
  refine ⟨hregular, fun a' hsome => ?_, fun _ hsome => (by cases hsome)⟩
  cases hsome
  exact ha

theorem Regular.failed {failure : LndFailure Hash} (hregular : Regular lib context h)
    (htold : Explained lib context h failure) :
    Stage lib context good h (some (.error (.returned failure))) := by
  refine ⟨hregular, fun _ hsome => (by cases hsome), fun failure' hsome => ?_⟩
  cases hsome
  exact htold

theorem Regular.panicked (hregular : Regular lib context h) :
    Stage lib context good h (some (.error .panicked)) :=
  ⟨hregular, fun _ hsome => (by cases hsome), fun _ hsome => (by cases hsome)⟩

/-- A step goes on from what was good about the one before it. -/
theorem Stage.andThen {p : LndTask Hash Invoice Client α} {k : α → LndTask Hash Invoice Client β}
    (hp : Ensures h p (Stage lib context good))
    (hk : ∀ h' a, Regular lib context h' → good h' a →
      Ensures h' (k a) (Stage lib context good')) :
    Ensures h (p.andThen k) (Stage lib context good') := by
  refine ensures_andThen (hp.mono fun h' o ho => ?_)
  rcases o with _ | (failure | _) | a
  · exact ho.regular.pending
  · exact ⟨ho.regular.pending, ho.regular.failed (ho.told failure rfl)⟩
  · exact ⟨ho.regular.pending, ho.regular.panicked⟩
  · exact hk h' a ho.regular (ho.good a rfl)

end Rules

end Nigiri.Topology
