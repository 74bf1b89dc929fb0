import Nigiri.AnsweredRuns
import Nigiri.LndSyncProgress
import Nigiri.StartedTopology

/-! The startup of two LND nodes for its caller: the work runs on a supervisor's thread, its result
is handed over, and one deadline is over all of it. -/
namespace Nigiri.Topology
open Nigiri.Process Nigiri.Polling Nigiri.WireFormat Nigiri.Lnd
open Nigiri.Fixtures (Node PairTrace)
open Nigiri.Stack (ContainerSpec RunningContainer)
variable {Hash Invoice Client : Type}

/-- The supervisor's thread runs, and its work has got all of these replies. -/
def begun (t : LndTrace Hash Invoice Client) : StartupTrace Hash Invoice Client :=
  ⟨.spawn, some (.ok ())⟩ :: ⟨.buildRuntime, some (some (.ok ()))⟩ ::
    (t.map Event.given).map (Event.via .work)

/-- The work has ended, and its result was handed over. -/
def ended (t : LndTrace Hash Invoice Client) : StartupTrace Hash Invoice Client :=
  begun t ++ [⟨.handOver, some (some true)⟩]

/-- The deadline of the caller has passed in this call. -/
def Passed : StartupEvent Hash Invoice Client → Prop
  | ⟨.buildRuntime, some none⟩ => True
  | ⟨.work _, some none⟩ => True
  | ⟨.handOver, some none⟩ => True
  | _ => False

section Startup
variable [DecidableEq Hash] (lib : TopologyLib Hash) (context : LndStartupContext)

/-- What must have happened before a call of the startup. -/
def Called (before : StartupTrace Hash Invoice Client) : StartupCall Hash Invoice → Prop
  | .spawn => before = []
  | .buildRuntime => before = [⟨.spawn, some (.ok ())⟩]
  | .work q => ∃ t, before = begun t ∧ Justified lib context t q
  | .handOver => ∃ t result, before = begun t ∧ Runs (work lib context) t (some result)
  | .panicMessage =>
    ∃ t, before = ended t ∧ Runs (work lib context) t (some (.error .panicked))

/-- Where the error comes from that the caller gets. -/
inductive Told (h : StartupTrace Hash Invoice Client) : Failed Hash → Prop where
  | spawn {kind : ErrorKind} {message : String}
    (hnow : h = [⟨.spawn, some (.error (kind, message))⟩]) :
    Told h (supervisorError "spawn fixture supervisor" kind message)
  | runtime {kind : ErrorKind} {message : String}
    (hnow : h = [⟨.spawn, some (.ok ())⟩, ⟨.buildRuntime, some (some (.error (kind, message)))⟩]) :
    Told h (supervisorError "start fixture supervisor" kind message)
  | stopped {t : LndTrace Hash Invoice Client}
    {result : Except (Ended Hash) (StartedLndNodes Client)}
    (hnow : h = begun t ++ [⟨.handOver, some (some false)⟩])
    (hrun : Runs (work lib context) t (some result)) :
    Told h (supervisorError "wait for fixture supervisor" .other
      "fixture supervisor stopped before startup completed")
  | panicked {t : LndTrace Hash Invoice Client} {message : String}
    (hnow : h = ended t ++ [⟨.panicMessage, some message⟩])
    (hrun : Runs (work lib context) t (some (.error .panicked))) :
    Told h (supervisorError "run fixture startup" .other message)
  | deadline {before : StartupTrace Hash Invoice Client} {e : StartupEvent Hash Invoice Client}
    (hnow : h = before ++ [e]) (hpassed : Passed e) : Told h wholeTimeout
  | work {t : LndTrace Hash Invoice Client} {failed : Failed Hash} (hnow : h = ended t)
    (htells : Tells lib context t failed) : Told h failed

/-- What came of a startup, where it has come to its end. -/
def Outcome (h : StartupTrace Hash Invoice Client) :
    Except (Failed Hash) (StartedLndNodes Client) → Prop
  | .ok nodes => ∃ t, h = ended t ∧ Ready lib context t nodes
  | .error failed => Told lib context h failed

/-- What the supervisor leaves; without a result the deadline has passed. -/
structure SupervisedPost (h : StartupTrace Hash Invoice Client)
    (o : Option (Option (Except (Failed Hash) (StartedLndNodes Client)))) : Prop where
  each : Each (Called lib context) h
  passed : o = some none → ∃ before e, h = before ++ [e] ∧ Passed e
  outcome : ∀ result, o = some (some result) → Outcome lib context h result

structure StartupPost (h : StartupTrace Hash Invoice Client)
    (o : Option (Except (Failed Hash) (StartedLndNodes Client))) : Prop where
  each : Each (Called lib context) h
  outcome : ∀ result, o = some result → Outcome lib context h result

variable {lib : TopologyLib Hash} {context : LndStartupContext}
  {h : StartupTrace Hash Invoice Client} {t : LndTrace Hash Invoice Client}

theorem SupervisedPost.pending (hall : Each (Called lib context) h) :
    SupervisedPost lib context h none :=
  ⟨hall, fun hsome => (by cases hsome), fun _ hsome => (by cases hsome)⟩

theorem SupervisedPost.expired {before : StartupTrace Hash Invoice Client}
    {e : StartupEvent Hash Invoice Client} (hall : Each (Called lib context) (before ++ [e]))
    (hpassed : Passed e) : SupervisedPost lib context (before ++ [e]) (some none) :=
  ⟨hall, fun _ => ⟨before, e, rfl, hpassed⟩, fun _ hsome => (by cases hsome)⟩

theorem SupervisedPost.result {result : Except (Failed Hash) (StartedLndNodes Client)}
    (hall : Each (Called lib context) h) (hresult : Outcome lib context h result) :
    SupervisedPost lib context h (some (some result)) := by
  refine ⟨hall, fun hsome => (by cases hsome), fun result' hsome => ?_⟩
  obtain rfl := Option.some.inj (Option.some.inj hsome)
  exact hresult

/-- A call that comes in its place, whatever it brings. -/
theorem Called.ask {q : StartupCall Hash Invoice}
    {k : q.Answer Client → StartupProc Hash Invoice Client
      (Option (Except (Failed Hash) (StartedLndNodes Client)))}
    (hall : Each (Called lib context) h) (hq : Called lib context h q)
    (hk : ∀ r, Each (Called lib context) (h ++ [⟨q, some r⟩]) →
      Ensures (h ++ [⟨q, some r⟩]) (k r) (SupervisedPost lib context)) :
    Ensures h (.ask q k) (SupervisedPost lib context) := by
  have hnext (reply) : Each (Called lib context) (h ++ [⟨q, reply⟩]) :=
    each_concat.mpr ⟨hall, hq⟩
  exact ensures_ask (.pending hall) (.pending (hnext none)) fun r => hk r (hnext _)

theorem ensures_handOver {result : Except (Ended Hash) (StartedLndNodes Client)}
    (hall : Each (Called lib context) (begun t))
    (hrun : Runs (work lib context) t (some result)) :
    Ensures (begun t) (handOver result) (SupervisedPost lib context) := by
  have hpost := ensures_work t _ hrun
  refine Called.ask hall ⟨t, result, rfl, hrun⟩ fun reply hall => ?_
  rcases reply with _ | _ | _
  · exact ensures_done (.pending hall) (.expired hall trivial)
  · exact ensures_done (.pending hall) (.result hall (.stopped rfl hrun))
  · rcases result with (failed | _) | nodes
    · exact ensures_done (.pending hall) (.result hall (.work rfl (hpost.tells failed rfl)))
    · refine Called.ask hall ⟨t, rfl, hrun⟩ fun message hall => ?_
      exact ensures_done (.pending hall) (.result hall (.panicked rfl hrun))
    · exact ensures_done (.pending hall) (.result hall ⟨t, rfl, hpost.ready nodes rfl⟩)

theorem ensures_supervise : Ensures ([] : StartupTrace Hash Invoice Client)
    (supervise (work lib context)) (SupervisedPost lib context) := by
  refine Called.ask each_nil rfl fun reply hall => ?_
  rcases reply with ⟨kind, message⟩ | u
  · exact ensures_done (.pending hall) (.result hall (.spawn rfl))
  refine Called.ask hall rfl fun reply hall => ?_
  rcases reply with _ | ⟨kind, message⟩ | u
  · exact ensures_done (.pending hall) (.expired hall trivial)
  · exact ensures_done (.pending hall) (.result hall (.runtime rfl))
  refine ensures_bind ((ensures_via hall fun t o hrun before e after hsplit => ?_).mono ?_)
  · obtain ⟨before, e, after, o, rfl, hq, hrun⟩ := hrun.within_split hsplit
    rw [hq]
    exact ⟨before, rfl, (ensures_work _ o hrun).each before e after rfl⟩
  · rintro h o ⟨hall, t, rfl, hrun⟩
    cases hrun.within_cases with
    | @own t o hown =>
      cases o with
      | none => exact .pending hall
      | some result => exact ensures_handOver hall hown
    | @calledOff t q o _ ho =>
      rcases ho with rfl | rfl
      · exact .pending hall
      · rw [List.map_append, ← List.append_assoc] at hall ⊢
        exact ensures_done (.pending hall) (.expired hall trivial)

theorem ensures_startLndNodes : Ensures ([] : StartupTrace Hash Invoice Client)
    (startLndNodes lib context) (StartupPost lib context) := by
  refine ensures_bind (ensures_supervise.mono fun h o hpost => ?_)
  have hpending : StartupPost lib context h none := ⟨hpost.each, fun _ hsome => by cases hsome⟩
  have hresult {result} (hresult : Outcome lib context h result) :
      Ensures h (.done result) (StartupPost lib context) := by
    refine ensures_done hpending ⟨hpost.each, fun result' hsome => ?_⟩
    obtain rfl := Option.some.inj hsome
    exact hresult
  rcases o with _ | _ | result
  · exact hpending
  · obtain ⟨before, e, hnow, hpassed⟩ := hpost.passed rfl
    exact hresult (.deadline hnow hpassed)
  · exact hresult (hpost.outcome result rfl)

/-- Nothing is asked for before what it rests on, and nothing but the logs after a failure. The same
holds of the work by itself, which does not stop with its caller. -/
theorem lnd_startup_justified :
    (∀ (h : StartupTrace Hash Invoice Client) o, Runs (startLndNodes lib context) h o →
      Each (Called lib context) h) ∧
    ∀ (t : LndTrace Hash Invoice Client) o, Runs (work lib context) t o →
      Each (Justified lib context) t :=
  ⟨fun h o hrun => (ensures_startLndNodes h o hrun).each,
    fun t o hrun => (ensures_work t o hrun).each⟩

/-- Success means that every step was taken: each client comes of its own container, configuration
and password, the wait saw both nodes at the tip in one round, and then the channel was made. -/
theorem lnd_startup_ready {nodes : StartedLndNodes Client}
    (hrun : Runs (startLndNodes lib context) h (some (.ok nodes))) :
    ∃ t, h = ended t ∧ Ready lib context t nodes :=
  (ensures_startLndNodes h _ hrun).outcome _ rfl

end Startup

section Golden
open Nigiri.Fixtures (localhostUrls localhostUrl localhostUrls_mapped goldenLib goldenPoint
  synchronizedRun runs_synchronized bootstrappedRun runs_bootstrapped)
variable {α β : Type} {t t' : LndTrace Unit Unit Unit}

def localTopology : TopologyLib Unit where
  toMappedUrlLib := localhostUrls
  isIpAddr _ := false
  pair := goldenLib

def localContext : LndStartupContext where
  networkName := "net"
  bitcoindName := "node"
  aliceImage := ⟨"image", "tag", none, none⟩
  bobImage := ⟨"image", "tag", none, none⟩
  names := ⟨"alice", "bob"⟩
  endpointHost := "localhost"
  budget := 1
  allocation := ⟨4000, 2000, 5000⟩

/-- Alice's container, and Bob's. -/
def started : Node → RunningContainer
  | .alice => ⟨"a", "localhost", [(Fixtures.LND_GRPC_PORT, 443)]⟩
  | .bob => ⟨"b", "localhost", [(Fixtures.LND_GRPC_PORT, 443)]⟩

theorem spec_localContext : ∃ first second, localContext.spec localTopology .alice = .ok first ∧
    localContext.spec localTopology .bob = .ok second := by
  have hvalid : (⟨"image", "tag", none, none⟩ : Fixtures.ContainerImage).validate = .ok () := by
    decide
  have hspec (name : String) : ∃ spec, lndSpec localTopology ⟨"image", "tag", none, none⟩ "net" name
      "node" "localhost" = .ok spec := by
    rw [lndSpec, hvalid]
    exact ⟨_, rfl⟩
  obtain ⟨first, hfirst⟩ := hspec "alice"
  obtain ⟨second, hsecond⟩ := hspec "bob"
  exact ⟨first, second, hfirst, hsecond⟩

theorem runs_bootstrapNodes {alice bob : Except EngineError RunningContainer}
    {result : Except (Stop Unit) (StartedLndNodes Unit)}
    (hstarted : Runs (bootstrapStarted localTopology localContext alice bob) t (some result)) :
    ∃ first second, Runs (bootstrapNodes localTopology localContext)
      (⟨.startContainerPair first second, some (some (alice, bob))⟩ :: (t ++ []))
      (some (⟨logName "alice" alice, logName "bob" bob⟩, result)) := by
  obtain ⟨first, second, hfirst, hsecond⟩ := spec_localContext
  refine ⟨first, second, ?_⟩
  rw [bootstrapNodes, hfirst]
  simp only [hsecond]
  exact runs_ask (hstarted.bind (runs_done _))

/-- The engine refuses Bob's container, and Alice's log is no longer read in time. -/
def refusedRun (first second : ContainerSpec) : LndTrace Unit Unit Unit :=
  ⟨.startContainerPair first second,
    some (some (.ok (started .alice), .error ⟨"create", none, "no such image"⟩))⟩ ::
  [⟨.logs "bob", some (some (.ok "log"))⟩, ⟨.logs "a", some none⟩]

def refused : Failed Unit :=
  ⟨.runtime "lnd-bob" ⟨"create", none, "no such image"⟩,
    [.read "lnd-bob" "log", .skipped "lnd-alice"]⟩

theorem runs_refused : ∃ first second, Runs (work localTopology localContext)
    (refusedRun first second) (some (.error (.returned refused))) := by
  have hstarted : Runs (bootstrapStarted localTopology localContext (.ok (started .alice))
      (.error ⟨"create", none, "no such image"⟩)) ([] : LndTrace Unit Unit Unit)
      (some (.error (.returned (.runtime "lnd-bob" ⟨"create", none, "no such image"⟩)))) :=
    runs_done _
  obtain ⟨first, second, hrun⟩ := runs_bootstrapNodes hstarted
  refine ⟨first, second, hrun.bind (runs_ask (runs_ask ?_))⟩
  exact runs_done _

theorem runs_ended {result : Except (Ended Unit) (StartedLndNodes Unit)}
    {outcome : Except (Failed Unit) (StartedLndNodes Unit)}
    (hp : Runs (work localTopology localContext) t (some result))
    (hlast : Runs (handOver result) ([⟨.handOver, some (some true)⟩] : StartupTrace Unit Unit Unit)
      (some (some outcome))) :
    Runs (startLndNodes localTopology localContext) (ended t) (some outcome) := by
  have hsupervised : Runs (supervise (work localTopology localContext)) (ended t)
      (some (some outcome)) := by
    refine runs_ask (runs_ask (Runs.bind hp.within.via ?_))
    exact hlast
  rw [← List.append_nil (ended t)]
  exact hsupervised.bind (runs_done _)

theorem lnd_startup_justified_refused : ∃ first second,
    Each (Called localTopology localContext) (ended (refusedRun first second)) ∧
    Each (Justified localTopology localContext) (refusedRun first second) :=
  have ⟨first, second, hrun⟩ := runs_refused
  ⟨first, second, lnd_startup_justified.1 _ _ (runs_ended hrun (runs_ask (runs_done _))),
    lnd_startup_justified.2 _ _ hrun⟩

/-- The deadline passes while Bob's log is read. -/
def expiredRun (first second : ContainerSpec) : StartupTrace Unit Unit Unit :=
  begun [⟨.startContainerPair first second,
    some (some (.ok (started .alice), .error ⟨"create", none, "no such image"⟩))⟩] ++
  [⟨.work (.logs "bob"), some none⟩]

theorem runs_expired : ∃ first second, Runs (startLndNodes localTopology localContext)
    (expiredRun first second) (some (.error wholeTimeout)) := by
  have hstarted : Runs (bootstrapStarted localTopology localContext (.ok (started .alice))
      (.error ⟨"create", none, "no such image"⟩)) ([] : LndTrace Unit Unit Unit)
      (some (.error (.returned (.runtime "lnd-bob" ⟨"create", none, "no such image"⟩)))) :=
    runs_done _
  obtain ⟨first, second, hrun⟩ := runs_bootstrapNodes hstarted
  have hasked : Runs (work localTopology localContext)
      ([⟨.startContainerPair first second,
        some (some (.ok (started .alice), .error ⟨"create", none, "no such image"⟩))⟩] ++
      [⟨.logs "bob", none⟩]) none := hrun.bind (.inr (.inl ⟨rfl, rfl⟩))
  have hsupervised : Runs (supervise (work localTopology localContext))
      (expiredRun first second ++ []) (some none) := by
    have hvia := @Runs.via _ _ (StartupCall.Answer Unit) _ StartupCall.work _ _ _ hasked.calledOff
    rw [List.map_append] at hvia
    refine runs_ask (runs_ask (Runs.bind hvia ?_))
    exact runs_done _
  refine ⟨first, second, ?_⟩
  rw [← List.append_nil (expiredRun first second), ← List.append_nil (expiredRun first second)]
  exact hsupervised.bind (runs_done _)

theorem runs_certificate {service id : String} :
    Runs (waitForTlsCertificate service id)
      ([⟨.readContainerFile id TLS_CERT_PATH MAX_TLS_CERTIFICATE_BYTES, some (some (.ok [1]))⟩] :
        LndTrace Unit Unit Unit) (some (.ok [1])) := by
  refine runs_leave (runs_ask ?_)
  exact runs_done _

theorem runs_endpoint (node : Node) : Runs (mappedLndEndpoint localTopology (started node))
    ([] : LndTrace Unit Unit Unit) (some (.ok localhostUrl)) := by
  have hmapped : Fixtures.mappedLndEndpoint localhostUrls
      ⟨"localhost", [(Fixtures.LND_GRPC_PORT, 443)]⟩ = some (.ok localhostUrl) :=
    localhostUrls_mapped
  rw [mappedLndEndpoint]
  cases node <;> exact hmapped ▸ runs_done _

theorem runs_uncancelled {p : LndProc Unit Unit Unit (Option (Except (Stop Unit) α))} {a : α}
    (hp : Runs p t (some (some (.ok a)))) :
    Runs (runUntilCancelled p) (⟨.cancelled, some false⟩ :: (t ++ [])) (some (.ok a)) :=
  runs_ask (hp.bind (runs_done _))

theorem runs_phase {phase : PairPhase} {p : Fixtures.PairTask Unit Unit α}
    {t : PairTrace Unit Unit} {a : α} (hp : Runs p t (some (.ok a))) :
    ∃ t', Runs (runPair (p.within.via (.pair phase))) (t' : LndTrace Unit Unit Unit)
      (some (.ok a)) :=
  ⟨_, runs_uncancelled (hp.within.via.bind (runs_done _))⟩

/-- Both clients are ready at their first poll. -/
def initializedRun (config : Node → LndBootstrapConfig) (password : Node → Bytes) :
    TaskTrace (ClientCall.Reply Unit Unit) :=
  [⟨.poll (initializeClient config password .alice), some (some (.ok ()))⟩,
    ⟨.poll (initializeClient config password .bob), some (some (.ok ()))⟩]

theorem runs_initializations {config : Node → LndBootstrapConfig} {password : Node → Bytes} :
    Runs (tryJoin (initializations config password)) (initializedRun config password ++ [])
      (some (.ok fun _ => ())) := by
  obtain ⟨got, hpass, hgot⟩ : ∃ got, Runs (joinPass (initializations config password)
      [.alice, .bob] fun _ => none) (initializedRun config password) (some (.ok got)) ∧
      ∀ node, got node = some () := by
    refine ⟨_, runs_ask (runs_ask (runs_done _)), fun node => ?_⟩
    cases node <;> rfl
  obtain rfl : got = fun _ => some () := funext hgot
  refine runs_leave (hpass.bind ?_)
  exact runs_done _

theorem runs_clients {config : Node → LndBootstrapConfig} :
    ∃ t, Runs (initializeLndClients config) (t : LndTrace Unit Unit Unit)
      (some (some (.ok fun _ => ()))) := by
  refine ⟨⟨.fillPassword .alice, some (.ok [1])⟩ :: ⟨.fillPassword .bob, some (.ok [2])⟩ ::
    (clientPhase (initializedRun config (pick [1] [2]) ++ []) ++ []), runs_ask (runs_ask ?_)⟩
  refine (Runs.via (Runs.within runs_initializations)).bind ?_
  exact runs_done _

def readyNodes : StartedLndNodes Unit := ⟨(), (), goldenPoint, ("a", "b")⟩

theorem runs_ready : ∃ t, Runs (work localTopology localContext) (t : LndTrace Unit Unit Unit)
    (some (.ok readyNodes)) := by
  obtain ⟨clients, hclients⟩ := @runs_clients
    (pick ⟨localhostUrl, [1], localContext.budget⟩ ⟨localhostUrl, [1], localContext.budget⟩)
  obtain ⟨waited, hsync⟩ := @runs_phase _ .sync _ _ _ runs_synchronized
  obtain ⟨opened, hchannel⟩ := @runs_phase _ .channel _ _ _ runs_bootstrapped
  have hstarted : ∃ t, Runs (bootstrapStarted localTopology localContext
      (.ok (started .alice)) (.ok (started .bob))) (t : LndTrace Unit Unit Unit)
      (some (.ok readyNodes)) :=
    ⟨_, runs_andThen runs_certificate (runs_andThen runs_certificate
      (runs_andThen (runs_endpoint .alice) (runs_andThen (runs_endpoint .bob)
      (runs_andThen (runs_uncancelled hclients) (runs_andThen hsync (runs_andThen hchannel
      (runs_done _)))))))⟩
  obtain ⟨t, hstarted⟩ := hstarted
  obtain ⟨first, second, hrun⟩ := runs_bootstrapNodes hstarted
  exact ⟨_, hrun.bind (runs_done _)⟩

theorem lnd_startup_ready_local : ∃ t : LndTrace Unit Unit Unit,
    Ready localTopology localContext t readyNodes := by
  obtain ⟨t, hrun⟩ := runs_ready
  obtain ⟨_, _, hready⟩ := lnd_startup_ready (runs_ended hrun (runs_ask (runs_done _)))
  exact ⟨_, hready⟩

end Golden

end Nigiri.Topology
