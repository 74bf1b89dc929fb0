import Nigiri.LndTopologyOrder

/-! The work of a startup of two LND nodes: every call is justified by what came before it, work
that succeeds has done every step, and work that fails tells why and reads both logs. -/
namespace Nigiri.Topology
open Nigiri.Process Nigiri.Polling Nigiri.WireFormat Nigiri.Lnd
open Nigiri.Fixtures (Node PairTrace)
open Nigiri.Stack (ContainerSpec RunningContainer)
variable {Hash Invoice Client : Type} {lib : TopologyLib Hash} {context : LndStartupContext}
  {h : LndTrace Hash Invoice Client} {alice bob : RunningContainer}

section Logs
variable [DecidableEq Hash] {node : Node}

/-- The containers are started once. -/
theorem Launched.unique {alice bob alice' bob' : Except EngineError RunningContainer}
    (hall : Each (Justified lib context) h) (hlaunched : Launched h alice bob)
    (hlaunched' : Launched h alice' bob') : alice = alice' ∧ bob = bob' := by
  have hfirst {alice bob : Except EngineError RunningContainer} (hlaunched : Launched h alice bob) :
      ∃ first second rest,
        h = ⟨.startContainerPair first second, some (some (alice, bob))⟩ :: rest := by
    obtain ⟨first, second, hmem⟩ := hlaunched
    obtain ⟨before, after, hsplit⟩ := List.append_of_mem hmem
    obtain ⟨rfl, -⟩ := hall before _ after hsplit
    exact ⟨first, second, after, hsplit⟩
  obtain ⟨first, second, rest, rfl⟩ := hfirst hlaunched
  obtain ⟨first', second', rest', hsame⟩ := hfirst hlaunched'
  cases hsame
  exact ⟨rfl, rfl⟩

omit [DecidableEq Hash] in
theorem logOf_unlaunched (hnone : ∀ alice bob, ¬ Launched h alice bob) :
    LogOf context h node (context.names.of node) :=
  .inr ⟨fun alice bob _ hlaunched _ => hnone alice bob hlaunched, rfl⟩

theorem Launched.logOf {alice bob : Except EngineError RunningContainer}
    (hlaunched : Launched h alice bob) (hall : Each (Justified lib context) h) :
    LogOf context h node (logName (context.names.of node) (pick alice bob node)) := by
  cases hreply : pick alice bob node with
  | error error =>
    refine .inr ⟨fun alice' bob' container hlaunched' hok => ?_, rfl⟩
    obtain ⟨rfl, rfl⟩ := hlaunched.unique hall hlaunched'
    rw [hreply] at hok
    cases hok
  | ok container => exact .inl ⟨alice, bob, container, hlaunched, hreply, rfl⟩

omit [DecidableEq Hash] in
/-- Reading a log starts no container. -/
theorem LogOf.concat {idOrName log : String} {reply : Option (Option (Except EngineError String))}
    (hlog : LogOf context h node idOrName) :
    LogOf context (h ++ [⟨.logs log, reply⟩]) node idOrName := by
  rcases hlog with ⟨alice, bob, container, ⟨first, second, hmem⟩, hrest⟩ | ⟨hnone, hname⟩
  · exact .inl ⟨alice, bob, container, ⟨first, second, List.mem_append_left _ hmem⟩, hrest⟩
  · refine .inr ⟨fun alice bob container hlaunched => ?_, hname⟩
    obtain ⟨first, second, hmem⟩ := hlaunched
    rcases List.mem_append.mp hmem with hmem | hlast
    · exact hnone alice bob container ⟨first, second, hmem⟩
    · cases List.mem_singleton.mp hlast

theorem Regular.unlogged (hregular : Regular lib context h) : h.filterMap logTarget = [] := by
  refine List.filterMap_eq_nil_iff.mpr fun e he => ?_
  have hunread := hregular.unread e he
  obtain ⟨q, reply⟩ := e
  cases q <;> first | rfl | cases hunread

theorem Regular.attachLndLogs {logs : LndNames} (hregular : Regular lib context h)
    (hlogs : ∀ node, LogOf context h node (logs.of node)) (failed : Failed Hash) :
    Ensures h (Topology.attachLndLogs logs failed) fun h' o =>
      Each (Justified lib context) h' ∧ ∀ failed', o = some failed' → ∃ bobReply aliceReply,
        h' = h ++ [⟨.logs logs.bob, some bobReply⟩, ⟨.logs logs.alice, some aliceReply⟩] ∧
        failed' = attachDiagnostics
          (attachDiagnostics failed (renderLogDiagnostics "lnd-bob" bobReply))
          (renderLogDiagnostics "lnd-alice" aliceReply) := by
  have hbob (reply) : Each (Justified lib context) (h ++ [⟨.logs logs.bob, reply⟩]) :=
    each_concat.mpr ⟨hregular.each, .inl ⟨hregular.unlogged, hlogs .bob⟩⟩
  have halice (bobReply reply) : Each (Justified lib context)
      (h ++ [⟨.logs logs.bob, bobReply⟩] ++ [⟨.logs logs.alice, reply⟩]) := by
    refine each_concat.mpr ⟨hbob bobReply, .inr ⟨logs.bob, ?_, (hlogs .alice).concat⟩⟩
    rw [List.filterMap_append, hregular.unlogged]
    rfl
  refine ensures_ask ⟨hregular.each, fun _ hsome => by cases hsome⟩
    ⟨hbob none, fun _ hsome => by cases hsome⟩ fun bobReply => ?_
  refine ensures_ask ⟨hbob _, fun _ hsome => by cases hsome⟩
    ⟨halice _ none, fun _ hsome => by cases hsome⟩ fun aliceReply => ?_
  refine ensures_done ⟨halice _ _, fun _ hsome => by cases hsome⟩ ⟨halice _ _, ?_⟩
  rintro failed' hsome
  cases hsome
  exact ⟨bobReply, aliceReply, List.append_assoc .., rfl⟩

end Logs

section Startup
variable [DecidableEq Hash]

theorem Regular.mappedLndEndpoint (hregular : Regular lib context h)
    (hrunning : Running h alice bob) (node : Node) :
    Ensures h (Topology.mappedLndEndpoint lib (pick alice bob node))
      (Stage lib context fun h' endpoint => h' = h ∧
        Fixtures.mappedLndEndpoint lib.toMappedUrlLib
          ⟨(pick alice bob node).host, (pick alice bob node).ports⟩ = some (.ok endpoint)) := by
  rw [Topology.mappedLndEndpoint]
  split
  next => exact ensures_done hregular.pending hregular.panicked
  next source hmapped =>
    exact ensures_done hregular.pending (hregular.failed (.endpoint hrunning hmapped))
  next endpoint hmapped =>
    exact ensures_done hregular.pending (hregular.ok ⟨rfl, hmapped⟩)

theorem Early.bootstrapContainers (hregular : Regular lib context h) (hearly : Early h)
    (hrunning : Running h alice bob) :
    Ensures h (Topology.bootstrapContainers lib context alice bob)
      (Stage lib context (Ready lib context)) := by
  refine Stage.andThen (hearly.waitForTlsCertificate hregular hrunning (.inl rfl)) ?_
  rintro h₁ aliceCertificate hregular ⟨hearly, hsub, halice⟩
  have hrunning := hrunning.mono hsub
  refine Stage.andThen (hearly.waitForTlsCertificate hregular hrunning (.inr ⟨rfl, _, halice⟩)) ?_
  rintro h₂ bobCertificate hregular ⟨hearly, hsub, hbob⟩
  have hrunning := hrunning.mono hsub
  have halice := halice.mono hsub
  refine Stage.andThen (hregular.mappedLndEndpoint hrunning .alice) ?_
  rintro _ aliceEndpoint hregular ⟨rfl, haliceEndpoint⟩
  refine Stage.andThen (hregular.mappedLndEndpoint hrunning .bob) ?_
  rintro h₂ bobEndpoint hregular ⟨rfl, hbobEndpoint⟩
  have haliceConfig : Configured lib context h₂ .alice
      ⟨aliceEndpoint, aliceCertificate, context.budget⟩ :=
    ⟨alice, bob, hrunning, halice, haliceEndpoint, rfl⟩
  have hbobConfig : Configured lib context h₂ .bob
      ⟨bobEndpoint, bobCertificate, context.budget⟩ :=
    ⟨alice, bob, hrunning, hbob, hbobEndpoint, rfl⟩
  refine Stage.andThen (hregular.runUntilCancelled hearly.settled (fun node => ?_)
    fun hregular => (hearly.concat not_fails_uncancelled rfl).initializeLndClients hregular
      fun node => ?_) ?_
  · cases node with
    | alice => exact ⟨_, haliceConfig⟩
    | bob => exact ⟨_, hbobConfig⟩
  · cases node with
    | alice => exact haliceConfig.mono (List.subset_append_left ..)
    | bob => exact hbobConfig.mono (List.subset_append_left ..)
  rintro h₃ clients hregular ⟨hearly, hsub, hinit⟩
  have hrunning := hrunning.mono (List.Subset.trans (List.subset_append_left ..) hsub)
  refine Stage.andThen (hearly.synchronize hregular fun node => ⟨_, hinit node⟩) ?_
  rintro h₄ _ hregular ⟨hsub, hsettled, hsync⟩
  have hinit (node) := (hinit node).mono hsub
  have hrunning := hrunning.mono hsub
  refine Stage.andThen
    (hsettled.readyChannel hregular (fun node => ⟨_, hinit node⟩) hsync) ?_
  rintro h₅ channelPoint hregular ⟨hclean, hsub, hsync, hchannel⟩
  exact ensures_done hregular.pending (hregular.ok ⟨hclean, ⟨alice, bob, hrunning.mono hsub, rfl⟩,
    (hinit .alice).mono hsub, (hinit .bob).mono hsub, hsync, hsync.synchronized, hchannel⟩)

theorem Regular.bootstrapStarted {alice bob : Except EngineError RunningContainer}
    {first second : ContainerSpec} (hregular : Regular lib context h)
    (hnow : h = [⟨.startContainerPair first second, some (some (alice, bob))⟩]) :
    Ensures h (Topology.bootstrapStarted lib context alice bob)
      (Stage lib context (Ready lib context)) := by
  have hmem : ⟨.startContainerPair first second, some (some (alice, bob))⟩ ∈ h :=
    hnow ▸ List.mem_singleton_self _
  rcases alice with error | alice
  · exact ensures_done hregular.pending (hregular.failed (.engine hmem (.inl rfl)))
  rcases bob with error | bob
  · exact ensures_done hregular.pending (hregular.failed (.engine hmem (.inr rfl)))
  refine Early.bootstrapContainers hregular ?_ ⟨first, second, hmem⟩
  rw [hnow]
  refine early_nil.concat (not_fails not_false not_false ?_ not_false) rfl
  rintro source (hfails | hfails)
  · cases hfails
  · cases hfails

/-- What the startup of the containers leaves, with what both logs are to be read by. -/
structure NodesPost (lib : TopologyLib Hash) (context : LndStartupContext)
    (h : LndTrace Hash Invoice Client)
    (o : Option (LndNames × Except (Stop Hash) (StartedLndNodes Client))) : Prop where
  stage : Stage lib context (Ready lib context) h (o.map Prod.snd)
  logs : ∀ names result, o = some (names, result) → ∀ node, LogOf context h node (names.of node)

theorem NodesPost.pending (hregular : Regular lib context h) : NodesPost lib context h none :=
  ⟨hregular.pending, fun _ _ hsome => by cases hsome⟩

theorem NodesPost.ended {names : LndNames} {result : Except (Stop Hash) (StartedLndNodes Client)}
    (hstage : Stage lib context (Ready lib context) h (some result))
    (hlogs : ∀ node, LogOf context h node (names.of node)) :
    NodesPost lib context h (some (names, result)) := by
  refine ⟨hstage, fun names' result' hsome => ?_⟩
  cases hsome
  exact hlogs

theorem ensures_bootstrapNodes : Ensures ([] : LndTrace Hash Invoice Client)
    (bootstrapNodes lib context) (NodesPost lib context) := by
  have hregular : Regular lib context ([] : LndTrace Hash Invoice Client) :=
    ⟨each_nil, fun _ he => by cases he⟩
  have hrefused (node : Node) (detail : String) (hspec : context.spec lib node = .error detail) :
      Ensures ([] : LndTrace Hash Invoice Client)
        (.done (context.names, .error (.returned (.invalidConfiguration detail))))
        (NodesPost lib context) := by
    refine ensures_done (.pending hregular) (.ended ?_ fun node => logOf_unlaunched ?_)
    · exact hregular.failed (.configuration rfl hspec)
    · rintro alice bob ⟨first, second, hmem⟩
      cases hmem
  rw [bootstrapNodes]
  split
  next detail hspec => exact hrefused .alice detail hspec
  next first hfirst =>
  split
  next detail hspec => exact hrefused .bob detail hspec
  next second hsecond =>
  refine hregular.ask ⟨rfl, hfirst, hsecond⟩ rfl (fun _ hnow => .pending hnow)
    fun reply hregular => ?_
  rcases reply with _ | ⟨alice, bob⟩
  · refine ensures_done (.pending hregular) (.ended ?_ fun node => logOf_unlaunched ?_)
    · exact hregular.failed (.deadline List.mem_concat_self trivial)
    · rintro alice bob ⟨first, second, hmem⟩
      cases List.mem_singleton.mp hmem
  · refine ensures_bind (((hregular.bootstrapStarted rfl).and (ensures_runs _ _)).mono ?_)
    rintro h' o ⟨hstage, t, rfl, -⟩
    rcases o with _ | result
    · exact .pending hstage.regular
    · refine ensures_done (.pending hstage.regular) (.ended hstage fun node => ?_)
      have hlaunched : Launched
          ([⟨.startContainerPair first second, some (some (alice, bob))⟩] ++ t) alice bob :=
        ⟨first, second, List.mem_cons_self⟩
      cases node with
      | alice => exact hlaunched.logOf hstage.regular.each
      | bob => exact hlaunched.logOf hstage.regular.each

/-- Failed work ends with both logs, Bob's before Alice's. Its error has its cause in what was
done before them, and carries what they brought where it has a place for it. -/
def Tells (lib : TopologyLib Hash) (context : LndStartupContext)
    (h : LndTrace Hash Invoice Client) (failed : Failed Hash) : Prop :=
  ∃ before bobLog aliceLog bobReply aliceReply,
    h = before ++ [⟨.logs bobLog, some bobReply⟩, ⟨.logs aliceLog, some aliceReply⟩] ∧
    (∀ e ∈ before, e.request.readsLog = false) ∧
    LogOf context before .bob bobLog ∧ LogOf context before .alice aliceLog ∧
    Explained lib context before failed.failure ∧
    failed.diagnostics = if failed.failure.carriesDiagnostics then
      [renderLogDiagnostics "lnd-bob" bobReply, renderLogDiagnostics "lnd-alice" aliceReply]
    else []

/-- What the work leaves, complete or not. -/
structure WorkPost (lib : TopologyLib Hash) (context : LndStartupContext)
    (h : LndTrace Hash Invoice Client)
    (o : Option (Except (Ended Hash) (StartedLndNodes Client))) : Prop where
  each : Each (Justified lib context) h
  ready : ∀ nodes, o = some (.ok nodes) → Ready lib context h nodes
  tells : ∀ failed, o = some (.error (.returned failed)) → Tells lib context h failed

theorem WorkPost.pending (hall : Each (Justified lib context) h) : WorkPost lib context h none :=
  ⟨hall, fun _ hsome => (by cases hsome), fun _ hsome => (by cases hsome)⟩

theorem ensures_work : Ensures ([] : LndTrace Hash Invoice Client) (work lib context)
    (WorkPost lib context) := by
  refine ensures_bind (ensures_bootstrapNodes.mono fun h o hpost => ?_)
  have hregular := hpost.stage.regular
  rcases o with _ | ⟨logs, (failure | _) | nodes⟩
  · exact .pending hregular.each
  · have hlogs := hpost.logs logs _ rfl
    refine ensures_bind ((hregular.attachLndLogs hlogs ⟨failure, []⟩).mono fun h' o ho => ?_)
    obtain ⟨hall, hfailed⟩ := ho
    rcases o with _ | failed
    · exact .pending hall
    · refine ensures_done (.pending hall) ⟨hall, fun _ hsome => (by cases hsome), ?_⟩
      rintro _ hsome
      cases hsome
      obtain ⟨bobReply, aliceReply, rfl, rfl⟩ := hfailed failed rfl
      refine ⟨h, logs.bob, logs.alice, bobReply, aliceReply, rfl, hregular.unread, hlogs .bob,
        hlogs .alice, ?_⟩
      rw [attachDiagnostics, attachDiagnostics]
      cases hplace : failure.carriesDiagnostics with
      | true => simpa [hplace] using hpost.stage.told failure rfl
      | false => simpa [hplace] using hpost.stage.told failure rfl
  · refine ensures_done (.pending hregular.each) ⟨hregular.each, fun _ hsome => (by cases hsome),
      fun _ hsome => (by cases hsome)⟩
  · refine ensures_done (.pending hregular.each) ⟨hregular.each, fun nodes' hsome => ?_,
      fun _ hsome => (by cases hsome)⟩
    cases hsome
    exact hpost.stage.good nodes rfl

end Startup

end Nigiri.Topology
