import Nigiri.StackSteps

/-! A startup goes by its plan: its waits end with the deadline or with what they wait for, and a
stack that has started has shown one height in one round of all three services. -/
namespace Nigiri.Stack
open Nigiri.Process Nigiri.Polling Nigiri.Core Nigiri.Config
variable {Url α σ : Type} {h t : StackTrace} {reached whole : List Milestone}

section Waits

/-- Before the next round the deadline may pass, and nothing else goes wrong. -/
theorem Going.ensures_waitBeforeRetry {service : String} {observation : Observation} {next : σ}
    {I : StackTrace → σ → Prop} {good : StackTrace → α → Prop} (hgoing : Going h reached)
    (hreached : reached <+: whole)
    (hnext : Clean (h ++ [⟨.call .retryDelay, some (some ())⟩]) reached →
      I (h ++ [⟨.call .retryDelay, some (some ())⟩]) next) :
    Ensures h (waitBeforeRetry service observation next : StackRound σ α)
      (Again I .done (StackPost whole [] good)) := by
  have hasked (reply : Option (StackCall.Reply .retryDelay)) :
      Follows whole [] (h ++ [⟨.call .retryDelay, reply⟩]) [] :=
    hgoing.asked (by simpa [StackCall.milestone] using hreached) rfl []
  refine ensures_ask (hgoing.pending hreached [] good) ⟨[], hasked none, trivial⟩ fun reply => ?_
  cases reply with
  | none =>
    refine Process.ensures_done ⟨[], hasked _, trivial⟩ (.leave ?_)
    refine Process.ensures_done ⟨[], hasked _, trivial⟩ ⟨[], hasked _, (hasked _).tells ?_ ?_⟩
    · exact .deadline service observation [] ⟨_, List.mem_concat_self, rfl⟩
    · rintro _ ⟨⟩
      rfl
  | some u => exact Process.ensures_done ⟨[], hasked _, trivial⟩ (hnext hgoing.slept)

/-- However often the node refuses to answer, only the deadline fails the wait. -/
theorem Clean.ensures_waitForRootRpc {network : NigiriNetwork} (hclean : Clean h reached)
    (hreached : reached <+: whole) :
    Ensures h (waitForRootRpc network)
      (StackPost whole [] fun h' _ => Clean h' reached) := by
  refine ensures_loop (fun h' (_ : Observation) => Clean h' reached) (fun h' last hclean => ?_)
    hclean
  have hasked (reply : Option (StackCall.Reply .getBlockchainInfo)) :
      Follows whole [] (h' ++ [⟨.call .getBlockchainInfo, reply⟩]) [] :=
    hclean.asked (by simpa [StackCall.milestone] using hreached) rfl []
  refine ensures_ask ⟨[], hclean.follows hreached [], trivial⟩ ⟨[], hasked none, trivial⟩
    fun reply => ?_
  cases reply with
  | none =>
    refine Process.ensures_done ⟨[], hasked _, trivial⟩ (.leave ?_)
    refine Process.ensures_done ⟨[], hasked _, trivial⟩ ⟨[], hasked _, (hasked _).tells ?_ ?_⟩
    · exact .deadline (nodeService network) last [] ⟨_, List.mem_concat_self, rfl⟩
    · rintro _ ⟨⟩
      rfl
  | some answer =>
    have hnow := @Clean.next h' reached .getBlockchainInfo answer hclean rfl
      (by cases answer <;> rfl)
    simp only [StackCall.milestone, Option.toList_none, List.append_nil] at hnow
    cases answer with
    | ok u =>
      refine Process.ensures_done ⟨[], hasked _, trivial⟩ (.leave ?_)
      exact Process.ensures_done ⟨[], hasked _, trivial⟩ ⟨[], hasked _, hnow⟩
    | error error => exact hnow.toGoing.ensures_waitBeforeRetry hreached fun hnext => hnext

/-- A probe of a round was ready with this reply. -/
abbrev Told (round : Nat) (t : StackTrace) (service : TipService) (reply : service.call.Reply) :
    Prop := Ready (heightProbes round) t service reply

/-- All three services told one height, in one round that was the last thing done. -/
def Synchronized (h : StackTrace) : Prop :=
  ∃ before t round height, h = before ++ t ∧ Polls (heightProbes round) t ∧
    Told round t .node (some (.ok height)) ∧ Told round t .esplora (some (.ok height)) ∧
    Told round t .electrum (some (.ok height))

theorem Going.polls {round : Nat} (hgoing : Going h reached)
    (ht : Polls (heightProbes round) t) : Going (h ++ t) reached := by
  have hkind {e : StackEvent} (he : e ∈ t) :
      milestoneOf e = none ∧ ¬ Failed e ∧ logTarget e = none := by
    obtain ⟨request, reply⟩ := e
    obtain hpark | ⟨service, hpoll⟩ := ht _ he
    · obtain rfl := hpark
      exact ⟨rfl, fun hf => hf, rfl⟩
    · obtain rfl := hpoll
      exact ⟨rfl, fun hf => hf, rfl⟩
  refine ⟨?_, fun e he => ?_, ?_⟩
  · have hnone := List.filterMap_eq_nil_iff.mpr fun e (he : e ∈ t) => (hkind he).1
    rw [milestones, List.filterMap_append, hnone, List.append_nil]
    exact hgoing.reached
  · obtain he | he := List.mem_append.mp he
    · exact hgoing.sound e he
    · exact (hkind he).2.1
  · rw [List.filterMap_append, hgoing.unread]
    exact List.filterMap_eq_nil_iff.mpr fun e he => (hkind he).2.2

/-- A round whose replies all told a height has not expired either. -/
theorem Clean.round {round : Nat} (hclean : Clean h reached) (ht : Polls (heightProbes round) t)
    (htold : ∀ service reply, Told round t service reply → reply ≠ none) :
    Clean (h ++ t) reached := by
  refine ⟨hclean.toGoing.polls ht, fun htimely e he helapsed => ?_⟩
  obtain he | he := List.mem_append.mp he
  · exact hclean.unexpired htimely.of_append e he helapsed
  · obtain ⟨request, reply⟩ := e
    obtain hpark | ⟨service, hpoll⟩ := ht _ he
    · obtain rfl := hpark
      exact helapsed
    · obtain rfl := hpoll
      rcases reply with _ | _ | reply
      · exact helapsed
      · exact helapsed
      · cases hreply : reply with
        | none => exact htold service reply he hreply
        | some answer =>
          rw [hreply] at helapsed
          exact helapsed

theorem readHeights_error {observation : Observation}
    {node esplora : Option (Except NigiriError UInt64)}
    {electrum : Option (Except ProbeFailure UInt64)} {error : FixtureError}
    (hread : readHeights observation node esplora electrum = .error error) :
    (∃ service last, error = .readinessTimeout service last []) ∧
      (node = none ∨ esplora = none ∨ electrum = none) := by
  rcases node with _ | _ | node
  · exact ⟨⟨_, _, (Except.error.inj hread).symm⟩, .inl rfl⟩
  · cases hread
  · rcases esplora with _ | _ | esplora
    · exact ⟨⟨_, _, (Except.error.inj hread).symm⟩, .inr (.inl rfl)⟩
    · cases hread
    · rcases electrum with _ | _ | electrum
      · exact ⟨⟨_, _, (Except.error.inj hread).symm⟩, .inr (.inr rfl)⟩
      · cases hread
      · cases hread

theorem readHeights_ok {observation : Observation}
    {node esplora : Option (Except NigiriError UInt64)}
    {electrum : Option (Except ProbeFailure UInt64)} {heights : Heights}
    (hread : readHeights observation node esplora electrum = .ok (.ok heights)) :
    node = some (.ok heights.node) ∧ esplora = some (.ok heights.esplora) ∧
      electrum = some (.ok heights.electrum) := by
  rcases node with _ | _ | node
  · cases hread
  · cases hread
  · rcases esplora with _ | _ | esplora
    · cases hread
    · cases hread
    · rcases electrum with _ | _ | electrum
      · cases hread
      · cases hread
      · cases hread
        exact ⟨rfl, rfl, rfl⟩

theorem heightProbes_inj {round : Nat} (service service' : TipService)
    (hsame : (heightProbes round).future service = (heightProbes round).future service') :
    service = service' := by
  have hcall : service.call = service'.call := congrArg Started.call hsame
  cases service <;> cases service' <;> first | rfl | cases hcall

/-- A round is left with the replies of all three probes, in whatever order they came, and they are
all that came. -/
theorem ensures_observeHeights {observation : Observation} {round : Nat} :
    Ensures h (observeHeights observation round) fun h' o =>
      ∃ t, h' = h ++ t ∧ Polls (heightProbes round) t ∧ ∀ result, o = some result →
        ∃ got : (service : TipService) → service.call.Reply,
          (∀ service, Told round t service (got service)) ∧
          (∀ service reply, Told round t service reply → reply = got service) ∧
          result = readHeights observation (got .node) (got .esplora) (got .electrum) := by
  have hjoin : Ensures h (tryJoin (heightProbes round)) _ := ensures_tryJoin
  refine ensures_bind ((hjoin.and (wholly_tryJoin heightProbes_inj)).mono fun h' o ho => ?_)
  obtain ⟨⟨t, rfl, hpolls, hresult⟩, t', hsame, -, hwhole⟩ := ho
  obtain rfl := List.append_cancel_left hsame
  rcases o with _ | never | got
  · exact ⟨t, rfl, hpolls, fun _ hsome => by cases hsome⟩
  · cases never
  · have hgot (service : TipService) : Told round t service (got service) := by
      obtain ⟨reply, hready, hread⟩ := hresult service
      exact Except.ok.inj hread ▸ hready
    simp only [After]
    refine Process.ensures_done ⟨t, rfl, hpolls, fun _ hsome => (by cases hsome)⟩
      ⟨t, rfl, hpolls, fun result hsome => ?_⟩
    obtain rfl := Option.some.inj hsome
    exact ⟨got, hgot, fun service reply hready =>
      Except.ok.inj (hwhole got rfl service reply hready), rfl⟩

theorem Clean.ensures_waitForSync (hclean : Clean h reached) (hreached : reached <+: whole) :
    Ensures h waitForSync
      (StackPost whole [] fun h' _ => Clean h' reached ∧ Synchronized h') := by
  refine ensures_loop (fun h' (_ : Observation × Nat) => Clean h' reached)
    (fun before state hclean => ?_) hclean
  refine ensures_bind (ensures_observeHeights.mono fun h' o ho => ?_)
  obtain ⟨t, rfl, hpolls, hresult⟩ := ho
  have hnow := hclean.toGoing.polls hpolls
  cases o with
  | none => exact ⟨[], hnow.follows hreached [], trivial⟩
  | some result =>
    obtain ⟨got, hgot, hall, rfl⟩ := hresult result rfl
    cases hread : readHeights state.1 (got .node) (got .esplora) (got .electrum) with
    | error error =>
      obtain ⟨⟨service, last, rfl⟩, hnone⟩ := readHeights_error hread
      have hfollows := hnow.follows hreached []
      refine Process.ensures_done ⟨[], hfollows, trivial⟩ (.leave ?_)
      refine Process.ensures_done ⟨[], hfollows, trivial⟩ ⟨[], hfollows, hfollows.tells ?_ ?_⟩
      · refine .deadline service last [] ?_
        have helapsed (service : TipService) (hnone : got service = none) :
            ∃ e ∈ before ++ t, Elapsed e :=
          ⟨_, List.mem_append_right _ (hgot service), by rw [hnone]; trivial⟩
        obtain hnone | hnone | hnone := hnone
        · exact helapsed .node hnone
        · exact helapsed .esplora hnone
        · exact helapsed .electrum hnone
      · rintro _ ⟨⟩
        rfl
    | ok seen =>
      cases seen with
      | error unavailable => exact hnow.ensures_waitBeforeRetry hreached fun hnext => hnext
      | ok heights =>
        obtain ⟨hnode, hesplora, helectrum⟩ := readHeights_ok hread
        simp only [After]
        split
        next hagree =>
          simp only [Heights.agree, Bool.and_eq_true, beq_iff_eq] at hagree
          rw [← hagree.1] at hesplora
          rw [← hagree.2] at helectrum
          have hdone : Clean (before ++ t) reached := by
            refine hclean.round hpolls fun service reply hready hnone => ?_
            have hnever : got service = none := (hall service reply hready).symm.trans hnone
            cases service with
            | node => rw [hnode] at hnever; cases hnever
            | esplora => rw [hesplora] at hnever; cases hnever
            | electrum => rw [helectrum] at hnever; cases hnever
          have hfollows := hnow.follows hreached []
          refine Process.ensures_done ⟨[], hfollows, trivial⟩ (.leave ?_)
          refine Process.ensures_done ⟨[], hfollows, trivial⟩ ⟨[], hfollows, hdone, ?_⟩
          exact ⟨before, t, state.2, heights.node, rfl, hpolls, hnode ▸ hgot .node,
            hesplora ▸ hgot .esplora, helectrum ▸ hgot .electrum⟩
        next => exact hnow.ensures_waitBeforeRetry hreached fun hnext => hnext

end Waits

section Funding
variable {network : NigiriNetwork} {services : List String} {good : StackTrace → α → Prop}

def initialBlocks : NigiriNetwork → UInt64
  | .bitcoin => 101
  | .liquid => 1

/-- The wallet has been funded: its blocks were mined to an address that it gave. -/
def Funded (network : NigiriNetwork) (h : StackTrace) : Prop :=
  ∃ address hashes, Answered h .newAddress (.ok address) ∧
    Answered h (.generateToAddress (initialBlocks network) address) (.ok hashes)

/-- The next milestone of a plan, and what is left of it. -/
theorem plan_next {m : Milestone} {rest : List Milestone} (hplan : reached ++ m :: rest <+: whole) :
    reached ++ [m] <+: whole ∧ reached ++ [m] ++ rest <+: whole := by
  have hrest : reached ++ [m] ++ rest <+: whole := by simpa using hplan
  exact ⟨(List.prefix_append _ rest).trans hrest, hrest⟩

theorem Clean.ensures_fundWallet {k : Unit → StackTask α} (hclean : Clean h reached)
    (hplan : reached ++ fundingPlan network <+: whole)
    (hk : ∀ t, Clean (h ++ t) (reached ++ fundingPlan network) → Funded network (h ++ t) →
      Ensures (h ++ t) (k ()) (StackPost whole services good)) :
    Ensures h (tryBind (fundWallet network) k) (StackPost whole services good) := by
  cases network with
  | bitcoin =>
    obtain ⟨haddress, hplan⟩ := plan_next hplan
    obtain ⟨hpermit, hplan⟩ := plan_next hplan
    obtain ⟨hmined, -⟩ := plan_next hplan
    rw [fundWallet, tryBind_assoc]
    refine hclean.ensures_bootstrap haddress rfl (fun answer => by cases answer <;> rfl)
      fun answer address ha hclean => ?_
    obtain rfl : answer = .ok address := ha
    rw [tryBind_assoc]
    refine hclean.ensures_call hpermit rfl fun u _ => ?_
    have hheld := @Clean.next _ _ .lockMiningPermit u hclean rfl rfl
    rw [tryBind_assoc]
    refine hheld.ensures_bootstrap hmined rfl (fun answer => by cases answer <;> rfl)
      fun answer hashes hh hclean => ?_
    obtain rfl : answer = .ok hashes := hh
    simp only [List.append_assoc] at hclean ⊢
    exact hk _ hclean ⟨address, hashes, by simp [Answered], by simp [Answered, initialBlocks]⟩
  | liquid =>
    obtain ⟨hrescanned, hplan⟩ := plan_next hplan
    obtain ⟨haddress, hplan⟩ := plan_next hplan
    obtain ⟨hmined, -⟩ := plan_next hplan
    rw [fundWallet, tryBind_assoc]
    refine hclean.ensures_bootstrap hrescanned rfl (fun answer => by cases answer <;> rfl)
      fun answer u _ hclean => ?_
    rw [tryBind_assoc]
    refine hclean.ensures_bootstrap haddress rfl (fun answer => by cases answer <;> rfl)
      fun answer address ha hclean => ?_
    obtain rfl : answer = .ok address := ha
    rw [tryBind_assoc]
    refine hclean.ensures_bootstrap hmined rfl (fun answer => by cases answer <;> rfl)
      fun answer hashes hh hclean => ?_
    obtain rfl : answer = .ok hashes := hh
    simp only [List.append_assoc] at hclean ⊢
    exact hk _ hclean ⟨address, hashes, by simp [Answered], by simp [Answered, initialBlocks]⟩

end Funding

section Start
variable {lib : UrlLib Url} {network : NigiriNetwork}

theorem nodeSpec_ok {image : Fixtures.ContainerImage} {networkName name : String}
    {extraArgs : List Fixtures.Argument} {spec : ContainerSpec}
    (hspec : nodeSpec network image networkName name extraArgs = .ok spec) :
    spec.service = nodeService network ∧ spec.name = name := by
  rw [nodeSpec] at hspec
  split at hspec
  · cases hspec
  · cases hspec
    exact ⟨rfl, rfl⟩

theorem electrsSpec_ok {image : Fixtures.ContainerImage} {networkName name nodeName : String}
    {spec : ContainerSpec}
    (hspec : electrsSpec network image networkName name nodeName = .ok spec) :
    spec.service = "electrs" ∧ spec.name = name := by
  rw [electrsSpec] at hspec
  split at hspec
  · cases hspec
  · cases hspec
    exact ⟨rfl, rfl⟩

theorem nodeService_ne : nodeService network ≠ "electrs" := by cases network <;> decide

/-- A node that has started: its container runs, its wallet is funded. -/
structure NodeStarted (network : NigiriNetwork) (image : Fixtures.ContainerImage)
    (networkName containerName : String) (extraArgs : List Fixtures.Argument) (h : StackTrace)
    (container : RunningContainer) : Prop where
  started : ∃ spec, nodeSpec network image networkName containerName extraArgs = .ok spec ∧
    Answered h (.startContainer spec) (.ok container)
  funded : Funded network h

/-- Both of an indexer's ports are mapped, and lead to its two endpoints. -/
structure ElectrsStarted (lib : UrlLib Url) (network : NigiriNetwork)
    (image : Fixtures.ContainerImage) (networkName containerName nodeName : String)
    (h : StackTrace) (electrs : StartedElectrs Url) : Prop where
  started : ∃ spec, electrsSpec network image networkName containerName nodeName = .ok spec ∧
    Answered h (.startContainer spec) (.ok electrs.container)
  esplora : ∃ port, electrs.container.ports.lookup (electrsHttpPort network) = some port ∧
    mappedHttpUrl lib electrs.container.host port = some (.ok electrs.esploraUrl)
  electrum : electrs.electrumEndpoint.host = electrs.container.host ∧
    electrs.container.ports.lookup (electrsElectrumPort network) =
      some electrs.electrumEndpoint.port

theorem mappedPort_ok {service : String} {container : RunningContainer} {port mapped : UInt16}
    (hport : mappedPort service container port = .ok mapped) :
    container.ports.lookup port = some mapped := by
  rw [mappedPort] at hport
  split at hport
  · cases hport
  · next hlookup =>
    cases hport
    exact hlookup

theorem electrumEndpoint_ok {host : String} {port : UInt16} {endpoint : ElectrumEndpoint}
    (hendpoint : electrumEndpoint host port = .ok endpoint) :
    endpoint.host = host ∧ endpoint.port = port := by
  rw [electrumEndpoint, ElectrumEndpoint.new] at hendpoint
  split_ifs at hendpoint
  cases hendpoint
  exact ⟨rfl, rfl⟩

theorem Clean.ensures_startNode {budget : Nat} {image : Fixtures.ContainerImage}
    {networkName containerName walletName : String} {extraArgs : List Fixtures.Argument}
    (hclean : Clean h reached) (hplan : reached ++ nodePlan network <+: whole) :
    Ensures h (startNode lib network budget image networkName containerName walletName extraArgs)
      (StackPost whole [nodeService network] fun h' node =>
        Clean h' (reached ++ nodePlan network) ∧
          NodeStarted network image networkName containerName extraArgs h' node.container) := by
  have hreached : reached <+: whole := (List.prefix_append _ _).trans hplan
  obtain ⟨hnode, hplan⟩ := plan_next hplan
  obtain ⟨hwallet, hplan⟩ := plan_next hplan
  refine hclean.ensures_orFail hreached fun spec hspec => ?_
  obtain ⟨hservice, hname⟩ := nodeSpec_ok hspec
  have hmilestone : (StackCall.startContainer spec).milestone.toList = [.node] := by
    rw [StackCall.milestone, hservice, if_neg nodeService_ne]
    rfl
  have hstart : ∀ {resource text : String},
      startContainer (nodeService network) resource spec containerName text =
        startContainer spec.service resource spec spec.name text := by
    intro resource text
    rw [hservice, hname]
  rw [hstart, ← hservice]
  refine hclean.ensures_startContainer (hmilestone ▸ hnode) fun container hclean => ?_
  rw [hmilestone] at hclean
  refine hclean.ensures_orFail hnode fun port _ => ?_
  refine hclean.ensures_mappedUrl hnode fun rootUrl _ => ?_
  refine hclean.ensures_call (by simpa [StackCall.milestone] using hnode) rfl fun left _ => ?_
  have hasked := @Clean.next _ _ .remaining left hclean rfl rfl
  simp only [StackCall.milestone, Option.toList_none, List.append_nil, List.append_assoc] at hasked
  rw [List.append_assoc]
  refine hasked.ensures_fixtureClient hnode fun _ _ => ?_
  refine ensures_orFailWithLogs (hasked.ensures_waitForRootRpc hnode) ?_ (List.Sublist.refl _)
    fun t u hclean => ?_
  · exact List.forall_mem_singleton.mpr ⟨spec, rfl, .inr ⟨container, by simp [Answered], rfl⟩⟩
  · refine hclean.ensures_bootstrap hwallet rfl (fun answer => by cases answer <;> rfl)
      fun answer u _ hclean => ?_
    refine hclean.ensures_orFail hwallet fun walletUrl _ => ?_
    refine hclean.ensures_fixtureClient hwallet fun _ _ => ?_
    refine hclean.ensures_fundWallet hplan fun t' hclean hfunded => ?_
    refine hclean.ensures_done hplan ⟨?_, ⟨spec, hspec, ?_⟩, hfunded⟩
    · simpa [nodePlan, StackCall.milestone] using hclean
    · simp [Answered]

theorem Clean.ensures_startElectrs {image : Fixtures.ContainerImage}
    {networkName containerName nodeName : String}
    (hclean : Clean h reached) (hplan : reached ++ [.indexer] <+: whole) :
    Ensures h (startElectrs lib network image networkName containerName nodeName)
      (StackPost whole ["electrs"] fun h' electrs =>
        Clean h' (reached ++ [.indexer]) ∧
          ElectrsStarted lib network image networkName containerName nodeName h' electrs) := by
  have hreached : reached <+: whole := (List.prefix_append _ _).trans hplan
  refine hclean.ensures_orFail hreached fun spec hspec => ?_
  obtain ⟨hservice, hname⟩ := electrsSpec_ok hspec
  have hmilestone : (StackCall.startContainer spec).milestone.toList = [.indexer] := by
    rw [StackCall.milestone, hservice]
    rfl
  have hstart : ∀ {resource text : String},
      startContainer "electrs" resource spec containerName text =
        startContainer spec.service resource spec spec.name text := by
    intro resource text
    rw [hservice, hname]
  rw [hstart, ← hservice]
  refine hclean.ensures_startContainer (hmilestone ▸ hplan) fun container hclean => ?_
  rw [hmilestone] at hclean
  refine hclean.ensures_orFail hplan fun esploraPort hesplora => ?_
  refine hclean.ensures_orFail hplan fun electrumPort helectrum => ?_
  refine hclean.ensures_mappedUrl hplan fun esploraUrl hurl => ?_
  refine hclean.ensures_orFail hplan fun endpoint hendpoint => ?_
  obtain ⟨hhost, hport⟩ := electrumEndpoint_ok hendpoint
  refine hclean.ensures_done hplan ⟨hclean, ⟨spec, hspec, List.mem_concat_self⟩,
    ⟨esploraPort, mappedPort_ok hesplora, hurl⟩, hhost, ?_⟩
  rw [hport]
  exact mappedPort_ok helectrum

end Start

section Whole
variable {lib : UrlLib Url} {network : NigiriNetwork} {budget : Nat} {builder : FixtureBuilder}

theorem NodeStarted.append {image : Fixtures.ContainerImage} {networkName containerName : String}
    {extraArgs : List Fixtures.Argument} {container : RunningContainer}
    (hnode : NodeStarted network image networkName containerName extraArgs h container)
    (t : StackTrace) :
    NodeStarted network image networkName containerName extraArgs (h ++ t) container := by
  obtain ⟨⟨spec, hspec, hstarted⟩, address, hashes, haddress, hmined⟩ := hnode
  exact ⟨⟨spec, hspec, hstarted.append t⟩, address, hashes, haddress.append t, hmined.append t⟩

theorem NodeStarted.containerOf {image : Fixtures.ContainerImage}
    {networkName containerName : String} {extraArgs : List Fixtures.Argument}
    {container : RunningContainer}
    (hnode : NodeStarted network image networkName containerName extraArgs h container) :
    ContainerOf h (nodeService network, container.id) := by
  obtain ⟨spec, hspec, hstarted⟩ := hnode.started
  exact ⟨spec, (nodeSpec_ok hspec).1, .inr ⟨container, hstarted, rfl⟩⟩

theorem ElectrsStarted.append {image : Fixtures.ContainerImage}
    {networkName containerName nodeName : String} {electrs : StartedElectrs Url}
    (helectrs : ElectrsStarted lib network image networkName containerName nodeName h electrs)
    (t : StackTrace) :
    ElectrsStarted lib network image networkName containerName nodeName (h ++ t) electrs := by
  obtain ⟨⟨spec, hspec, hstarted⟩, hesplora, helectrum⟩ := helectrs
  exact ⟨⟨spec, hspec, hstarted.append t⟩, hesplora, helectrum⟩

theorem ElectrsStarted.containerOf {image : Fixtures.ContainerImage}
    {networkName containerName nodeName : String} {electrs : StartedElectrs Url}
    (helectrs : ElectrsStarted lib network image networkName containerName nodeName h electrs) :
    ContainerOf h ("electrs", electrs.container.id) := by
  obtain ⟨spec, hspec, hstarted⟩ := helectrs.started
  exact ⟨spec, (electrsSpec_ok hspec).1, .inr ⟨electrs.container, hstarted, rfl⟩⟩

/-- What a started fixture has shown: the whole plan without a failure or an expired probe, a
funded node and an indexer whose endpoints the client uses, and at last one height of all three
services. -/
structure StackReady (lib : UrlLib Url) (network : NigiriNetwork) (builder : FixtureBuilder)
    (names : TopologyNames) (h : StackTrace) (fixture : Fixture Url) : Prop where
  planned : milestones h = plan network builder names
  sound : ∀ e ∈ h, ¬ Failed e
  unexpired : Timely h → ∀ e ∈ h, ¬ Elapsed e
  named : fixture.names = names
  node : ∃ container, NodeStarted network builder.nodeImage names.network names.node
    builder.extraNodeArgs h container ∧ fixture.nodeId = container.id
  electrs : ∃ electrs, ElectrsStarted lib network builder.electrsImage names.network names.electrs
    names.node h electrs ∧ fixture.electrsId = electrs.container.id ∧
      fixture.client.esploraUrl = normalizeBaseUrl lib electrs.esploraUrl ∧
      fixture.client.electrum = electrs.electrumEndpoint
  synchronized : Synchronized h

/-- The services whose logs may explain a failure, the node's last. -/
def logServices (network : NigiriNetwork) : List String := ["electrs", nodeService network]

theorem Clean.ensures_createNetwork {names : TopologyNames} {k : Unit → StackTask α}
    {good : StackTrace → α → Prop} {services : List String} (hclean : Clean h reached)
    (hplan : reached ++ ownNetwork builder names <+: whole)
    (hk : ∀ t, Clean (h ++ t) (reached ++ ownNetwork builder names) →
      Ensures (h ++ t) (k ()) (StackPost whole services good)) :
    Ensures h (tryBind (createNetwork builder names) k) (StackPost whole services good) := by
  rw [createNetwork]
  rw [ownNetwork] at hplan hk
  cases hnetwork : builder.network with
  | some name =>
    simp only [hnetwork, Option.isSome_some, if_true, List.append_nil] at hk
    have hnow := hk [] (by rwa [List.append_nil])
    rwa [List.append_nil] at hnow
  | none =>
    simp only [hnetwork, Option.isSome_none, Bool.false_eq_true, if_false] at hplan hk
    rw [tryBind_assoc]
    refine hclean.ensures_call hplan rfl fun answer hfollows => ?_
    cases answer with
    | error error =>
      refine Process.ensures_done ⟨[], hfollows, trivial⟩ ⟨[], hfollows, hfollows.tells ?_ ?_⟩
      · exact .engine (q := .createNetwork names.network) _ [] (Except.error error)
          List.mem_concat_self rfl
      · rintro _ ⟨⟩
        rfl
    | ok u => exact hk _ (@Clean.next _ _ (.createNetwork names.network) (.ok u) hclean rfl rfl)

theorem Clean.ensures_work {names : TopologyNames} {walletName : String}
    (hclean : Clean h [.connected]) :
    Ensures h (work lib network budget builder names walletName)
      (StackPost (plan network builder names) (logServices network)
        (StackReady lib network builder names)) := by
  have hplan : [.connected] ++ ownNetwork builder names ++ nodePlan network ++ [.indexer] <+:
      plan network builder names := List.prefix_rfl
  have hnodePlan := (List.prefix_append _ _).trans hplan
  refine hclean.ensures_createNetwork ((List.prefix_append _ _).trans hnodePlan) fun t hclean => ?_
  refine ensures_tryStep ((hclean.ensures_startNode hnodePlan).mono fun h' o hpost =>
    hpost.widen (by simp [logServices])) fun h' node hnode => ?_
  obtain ⟨hclean, hnode⟩ := hnode
  refine ensures_orFailWithLogs (hclean.ensures_startElectrs hplan) ?_ (List.Sublist.refl _)
    fun t electrs helectrs => ?_
  · exact List.forall_mem_singleton.mpr hnode.containerOf
  obtain ⟨hclean, helectrs⟩ := helectrs
  refine hclean.ensures_fixtureClient hplan fun client hclient => ?_
  refine ensures_orFailWithLogs (hclean.ensures_waitForSync hplan) ?_ (List.Sublist.refl _)
    fun t' u hsync => ?_
  · refine List.forall_mem_cons.mpr ⟨helectrs.containerOf, List.forall_mem_singleton.mpr ?_⟩
    exact (hnode.append t).containerOf
  obtain ⟨hclean, hsync⟩ := hsync
  obtain ⟨-, rfl⟩ := validateAndNormalize_ok_iff.mp hclient
  refine hclean.ensures_done hplan ⟨?_, hclean.sound, hclean.unexpired, rfl,
    ⟨node.container, ?_, rfl⟩,
    ⟨electrs, helectrs.append t', rfl, rfl, rfl⟩, hsync⟩
  · exact hclean.reached
  · exact (hnode.append t).append t'

theorem clean_nil : Clean [] [] :=
  ⟨⟨rfl, fun _ hmem => (by cases hmem), rfl⟩, fun _ _ hmem => by cases hmem⟩

theorem ensures_startUnder {scope walletScope : String} :
    Ensures [] (startUnder lib network budget builder scope walletScope)
      (StackPost (plan network builder (topologyNamesOn network builder.network scope))
        (logServices network)
        (StackReady lib network builder (topologyNamesOn network builder.network scope))) := by
  refine clean_nil.ensures_orFail List.nil_prefix fun _ _ => ?_
  refine clean_nil.ensures_orFail List.nil_prefix fun _ _ => ?_
  refine clean_nil.ensures_call List.nil_prefix rfl fun left _ => ?_
  have hclean : Clean _ [] := @Clean.next _ _ .remaining left clean_nil rfl rfl
  have hconnected : [.connected] <+:
      plan network builder (topologyNamesOn network builder.network scope) :=
    ⟨ownNetwork builder _ ++ nodePlan network ++ [.indexer], rfl⟩
  refine hclean.ensures_call hconnected rfl fun answer hfollows => ?_
  cases answer with
  | error error =>
    refine Process.ensures_done ⟨[], hfollows, trivial⟩ ⟨[], hfollows, hfollows.tells ?_ ?_⟩
    · exact .engine (q := .connect) _ [] (Except.error error) List.mem_concat_self rfl
    · rintro _ ⟨⟩
      rfl
  | ok u => exact (@Clean.next _ _ .connect (.ok u) hclean rfl rfl).ensures_work

end Whole

end Nigiri.Stack
