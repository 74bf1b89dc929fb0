import Nigiri.StackStartup

/-! How far a startup has come, and what a failed one has to tell: the milestones are reached in the
order of a plan, after a failure only logs are read, and the error names its cause with the logs
that were read for it. -/
namespace Nigiri.Stack
open Nigiri.Process Nigiri.Polling Nigiri.Core Nigiri.Config
variable {α β : Type} {h t : StackTrace}

/-- The steps that a startup takes once. -/
inductive Milestone where
  | connected
  | network (name : String)
  | node
  | wallet
  | rescanned
  | address
  | permit
  | mined
  | indexer
  deriving DecidableEq, Repr

def StackCall.milestone : StackCall → Option Milestone
  | .connect => some .connected
  | .createNetwork name => some (.network name)
  | .startContainer spec => some (if spec.service = "electrs" then .indexer else .node)
  | .createWallet _ => some .wallet
  | .rescanBlockchain => some .rescanned
  | .newAddress => some .address
  | .lockMiningPermit => some .permit
  | .generateToAddress .. => some .mined
  | _ => none

def fundingPlan : NigiriNetwork → List Milestone
  | .bitcoin => [.address, .permit, .mined]
  | .liquid => [.rescanned, .address, .mined]

def nodePlan (network : NigiriNetwork) : List Milestone :=
  [.node, .wallet] ++ fundingPlan network

/-- The network of a startup's own, which its containers join. -/
def ownNetwork (builder : FixtureBuilder) (names : TopologyNames) : List Milestone :=
  if builder.network.isSome then [] else [.network names.network]

/-- The milestones of a startup, with or without a network of its own. -/
def plan (network : NigiriNetwork) (builder : FixtureBuilder) (names : TopologyNames) :
    List Milestone :=
  [.connected] ++ ownNetwork builder names ++ nodePlan network ++ [.indexer]

def milestoneOf : StackEvent → Option Milestone
  | ⟨.call q, _⟩ => q.milestone
  | _ => none

def milestones (h : StackTrace) : List Milestone := h.filterMap milestoneOf

/-- The error of an answer that ends the startup. -/
def StackCall.failure : (q : StackCall) → q.Answer → Option (EngineError ⊕ NigiriError)
  | .connect, .error error => some (.inl error)
  | .createNetwork _, .error error => some (.inl error)
  | .startContainer _, .error error => some (.inl error)
  | .createWallet _, .error error => some (.inr error)
  | .rescanBlockchain, .error error => some (.inr error)
  | .newAddress, .error error => some (.inr error)
  | .generateToAddress .., .error error => some (.inr error)
  | _, _ => none

def StackCall.readsLog : StackCall → Bool
  | .logs _ => true
  | _ => false

/-- A step has failed, or the deadline has passed in it. -/
def Failed : StackEvent → Prop
  | ⟨.call q, some none⟩ => q.readsLog = false
  | ⟨.call q, some (some answer)⟩ => (q.failure answer).isSome = true
  | _ => False

/-- The deadline has passed in a step or in a probe. -/
def Elapsed : StackEvent → Prop
  | ⟨.call q, some none⟩ => q.readsLog = false
  | ⟨.poll _, some (some none)⟩ => True
  | _ => False

def ReadsLog : StackEvent → Prop
  | ⟨.call q, _⟩ => q.readsLog = true
  | _ => False

def logTarget : StackEvent → Option String
  | ⟨.call (.logs idOrName), _⟩ => some idOrName
  | _ => none

def logReply : StackEvent → Option (Option (Except EngineError String))
  | ⟨.call (.logs _), reply⟩ => reply
  | _ => none

def Answered (h : StackTrace) (q : StackCall) (answer : q.Answer) : Prop :=
  (⟨.call q, some (some answer)⟩ : StackEvent) ∈ h

/-- A service's container, by the name it was asked for with or the id it was started under. -/
def ContainerOf (h : StackTrace) (container : String × String) : Prop :=
  ∃ spec, spec.service = container.1 ∧ ((∃ reply, (⟨.call (.startContainer spec), reply⟩ :
    StackEvent) ∈ h ∧ container.2 = spec.name) ∨
    ∃ started, Answered h (.startContainer spec) (.ok started) ∧ container.2 = started.id)

def LogReport.service : LogReport → String
  | .read service _ => service
  | .unreadable service _ => service
  | .skipped service => service

def LogReport.content : LogReport → Option (Except EngineError String)
  | .read _ logs => some (.ok logs)
  | .unreadable _ failure => some (.error failure)
  | .skipped _ => none

/-- The diagnostics of an error that can carry any. -/
def FixtureError.diagnostics : FixtureError → Option (List LogReport)
  | .runtime _ _ diagnostics => some diagnostics
  | .bootstrap _ _ _ diagnostics => some diagnostics
  | .readinessTimeout _ _ diagnostics => some diagnostics
  | _ => none

/-- The containers whose logs have been read, of these services and in their order. -/
structure LogsRead (services : List String) (h : StackTrace) (containers : List (String × String)) :
    Prop where
  order : (containers.map Prod.fst).Sublist services
  started : ∀ container ∈ containers, ContainerOf h container
  targets : h.filterMap logTarget = containers.map Prod.snd

/-- The startup follows its plan, and once a step has failed it only reads logs. -/
structure Follows (whole : List Milestone) (services : List String) (h : StackTrace)
    (containers : List (String × String)) : Prop where
  order : milestones h <+: whole
  last : ∀ before e after, h = before ++ e :: after → Failed e → ∀ e' ∈ after, ReadsLog e'
  logs : LogsRead services h containers

/-- The cause of an error is in the history. -/
inductive Explained (h : StackTrace) : FixtureError → Prop where
  | configuration (detail : String) (hsound : ∀ e ∈ h, ¬ Failed e) :
    Explained h (.invalidConfiguration detail)
  | rejected (source : NigiriError) (hsound : ∀ e ∈ h, ¬ Failed e) :
    Explained h (.rejectedClient source)
  | engine {q : StackCall} (resource : String) {source : EngineError}
    (diagnostics : List LogReport) (answer : q.Answer) (hmem : Answered h q answer)
    (hfailure : q.failure answer = some (.inl source)) :
    Explained h (.runtime resource source diagnostics)
  | node {q : StackCall} (chain operation : String) {source : NigiriError}
    (diagnostics : List LogReport) (answer : q.Answer) (hmem : Answered h q answer)
    (hfailure : q.failure answer = some (.inr source)) :
    Explained h (.bootstrap chain operation source diagnostics)
  | deadline (service : String) (observation : Observation) (diagnostics : List LogReport)
    (helapsed : ∃ e ∈ h, Elapsed e) :
    Explained h (.readinessTimeout service observation diagnostics)

/-- An error tells its cause, and carries the logs that were read in the order they were read. -/
structure Tells (h : StackTrace) (containers : List (String × String)) (error : FixtureError) :
    Prop where
  explained : Explained h error
  reported : ∀ diagnostics, error.diagnostics = some diagnostics →
    diagnostics.map LogReport.service = containers.map Prod.fst ∧
      diagnostics.map LogReport.content = h.filterMap logReply

/-- What a part of the startup leaves, whether or not it has come to its end. -/
def StackPost (whole : List Milestone) (services : List String) (good : StackTrace → α → Prop)
    (h : StackTrace) (o : Option (Except Stop α)) : Prop :=
  ∃ containers, Follows whole services h containers ∧
    match o with
    | none => True
    | some (.error .panicked) => True
    | some (.error (.returned error)) => Tells h containers error
    | some (.ok a) => good h a

/-- No sleep that began behind the deadline has come to its end. -/
def Timely (h : StackTrace) : Prop :=
  ∀ before after, h = before ++ ⟨.call .retryDelay, some (some ())⟩ :: after →
    ∀ e ∈ before, ¬ Elapsed e

/-- No step has failed so far. -/
structure Going (h : StackTrace) (reached : List Milestone) : Prop where
  reached : milestones h = reached
  sound : ∀ e ∈ h, ¬ Failed e
  unread : h.filterMap logTarget = []

/-- Everything has succeeded so far, and no probe has expired. -/
structure Clean (h : StackTrace) (reached : List Milestone) : Prop extends Going h reached where
  unexpired : Timely h → ∀ e ∈ h, ¬ Elapsed e

section Histories
variable {target : String} {reached whole : List Milestone} {services : List String} {q : StackCall}
  {containers : List (String × String)} {e : StackEvent}

theorem milestones_concat : milestones (h ++ [e]) = milestones h ++ (milestoneOf e).toList := by
  rw [milestones, milestones, List.filterMap_append]
  cases hm : milestoneOf e <;> simp [hm]

theorem Answered.append {answer : q.Answer} (ha : Answered h q answer) (t : StackTrace) :
    Answered (h ++ t) q answer := List.mem_append_left _ ha

theorem ContainerOf.append {container : String × String} (hc : ContainerOf h container)
    (t : StackTrace) : ContainerOf (h ++ t) container := by
  obtain ⟨spec, hservice, ⟨reply, hmem, hname⟩ | ⟨started, hstarted, hid⟩⟩ := hc
  · exact ⟨spec, hservice, .inl ⟨reply, List.mem_append_left _ hmem, hname⟩⟩
  · exact ⟨spec, hservice, .inr ⟨started, hstarted.append t, hid⟩⟩

theorem Timely.of_append (htimely : Timely (h ++ t)) : Timely h := fun before after hsplit =>
  htimely before (after ++ t) (by rw [hsplit, List.append_assoc, List.cons_append])

theorem Going.logsRead (hgoing : Going h reached) (services : List String) :
    LogsRead services h [] :=
  ⟨List.nil_sublist _, fun _ hmem => (by cases hmem), hgoing.unread⟩

theorem Going.follows (hgoing : Going h reached) (hreached : reached <+: whole)
    (services : List String) : Follows whole services h [] := by
  refine ⟨hgoing.reached ▸ hreached, fun before e after hsplit hfailed => ?_,
    hgoing.logsRead services⟩
  exact absurd hfailed (hgoing.sound e (hsplit ▸ by simp))

/-- One more request of a startup that has not failed, whatever its reply. -/
theorem Going.asked {reply : Option q.Reply} (hgoing : Going h reached)
    (hnext : reached ++ q.milestone.toList <+: whole) (hlog : q.readsLog = false)
    (services : List String) : Follows whole services (h ++ [⟨.call q, reply⟩]) [] := by
  refine ⟨?_, fun before e after hsplit hfailed => ?_, List.nil_sublist _,
    fun _ hmem => (by cases hmem), ?_⟩
  · rw [milestones_concat, hgoing.reached]
    exact hnext
  · obtain rfl | ⟨after', last, rfl⟩ := List.eq_nil_or_concat after
    · exact fun _ hmem => by cases hmem
    · rw [List.concat_eq_append, ← List.cons_append, ← List.append_assoc] at hsplit
      have hbefore := (List.append_inj' hsplit rfl).1
      exact absurd hfailed (hgoing.sound e (hbefore ▸ by simp))
  · rw [List.filterMap_append, hgoing.unread]
    cases q <;> first | rfl | cases hlog

theorem Going.next {answer : q.Answer} (hgoing : Going h reached)
    (hlog : q.readsLog = false) (hsucceeded : q.failure answer = none) :
    Going (h ++ [⟨.call q, some (some answer)⟩]) (reached ++ q.milestone.toList) := by
  refine ⟨?_, fun e he => ?_, ?_⟩
  · rw [milestones_concat, hgoing.reached]
    rfl
  · obtain he | he := List.mem_append.mp he
    · exact hgoing.sound e he
    · rw [List.mem_singleton.mp he]
      exact fun hfailed : (q.failure answer).isSome = true => by
        rw [hsucceeded] at hfailed
        cases hfailed
  · rw [List.filterMap_append, hgoing.unread]
    cases q <;> first | rfl | cases hlog

theorem Clean.next {answer : q.Answer} (hclean : Clean h reached)
    (hlog : q.readsLog = false) (hsucceeded : q.failure answer = none) :
    Clean (h ++ [⟨.call q, some (some answer)⟩]) (reached ++ q.milestone.toList) := by
  refine ⟨hclean.toGoing.next hlog hsucceeded, fun htimely e he => ?_⟩
  obtain he | he := List.mem_append.mp he
  · exact hclean.unexpired htimely.of_append e he
  · rw [List.mem_singleton.mp he]
    exact not_false

/-- A sleep that has come to its end shows that nothing had expired before it. -/
theorem Going.slept (hgoing : Going h reached) :
    Clean (h ++ [⟨.call .retryDelay, some (some ())⟩]) reached := by
  have hnext := @Going.next h reached .retryDelay () hgoing rfl rfl
  refine ⟨by simpa [StackCall.milestone] using hnext, fun htimely e he => ?_⟩
  obtain he | he := List.mem_append.mp he
  · exact htimely h [] rfl e he
  · rw [List.mem_singleton.mp he]
    exact not_false

/-- The log of one more container is read, whatever comes of it. -/
theorem Follows.readsLog {reply : Option (StackCall.Reply (.logs target))}
    {service : String} (hs : Follows whole services h containers)
    (hcontainer : ContainerOf h (service, target)) :
    Follows whole (services ++ [service]) (h ++ [⟨.call (.logs target), reply⟩])
      (containers ++ [(service, target)]) := by
  refine ⟨?_, fun before e after hsplit hfailed e' he' => ?_, ?_, fun container hmem => ?_, ?_⟩
  · rw [milestones_concat]
    simpa [milestoneOf, StackCall.milestone] using hs.order
  · obtain rfl | ⟨after', last, rfl⟩ := List.eq_nil_or_concat after
    · cases he'
    · rw [List.concat_eq_append] at hsplit he'
      rw [← List.cons_append, ← List.append_assoc] at hsplit
      obtain ⟨hbefore, hlast⟩ := List.append_inj' hsplit rfl
      obtain he' | he' := List.mem_append.mp he'
      · exact hs.last before e after' hbefore hfailed e' he'
      · rw [List.mem_singleton.mp he', ← (List.cons.inj hlast).1]
        rfl
  · rw [List.map_append]
    exact hs.logs.order.append (List.Sublist.refl _)
  · obtain hmem | hmem := List.mem_append.mp hmem
    · exact (hs.logs.started container hmem).append _
    · rw [List.mem_singleton.mp hmem]
      exact hcontainer.append _
  · rw [List.filterMap_append, hs.logs.targets, List.map_append]
    rfl

theorem Explained.readsLog {error : FixtureError} {addition : LogReport}
    {reply : Option (StackCall.Reply (.logs target))} (hexplained : Explained h error) :
    Explained (h ++ [⟨.call (.logs target), reply⟩]) (attachDiagnostics error addition) := by
  have hsound (hs : ∀ e ∈ h, ¬ Failed e) :
      ∀ e ∈ h ++ [⟨.call (.logs target), reply⟩], ¬ Failed e := by
    intro e he
    obtain he | he := List.mem_append.mp he
    · exact hs e he
    · rw [List.mem_singleton.mp he]
      cases reply with
      | none => exact fun hf => hf
      | some reply => cases reply <;> exact fun hf => by cases hf
  cases hexplained with
  | configuration detail hs => exact .configuration detail (hsound hs)
  | rejected source hs => exact .rejected source (hsound hs)
  | engine resource diagnostics answer hmem hfailure =>
    exact .engine resource _ answer (hmem.append _) hfailure
  | node chain operation diagnostics answer hmem hfailure =>
    exact .node chain operation _ answer (hmem.append _) hfailure
  | deadline service observation diagnostics helapsed =>
    obtain ⟨e, he, helapsed⟩ := helapsed
    exact .deadline service observation _ ⟨e, List.mem_append_left _ he, helapsed⟩

theorem attachDiagnostics_diagnostics (error : FixtureError) (addition : LogReport) :
    (attachDiagnostics error addition).diagnostics =
      error.diagnostics.map fun diagnostics => diagnostics ++ [addition] := by
  cases error <;> rfl

theorem renderLogDiagnostics_service (service : String)
    (reply : StackCall.Reply (.logs target)) :
    (renderLogDiagnostics service reply).service = service := by
  cases reply with
  | none => rfl
  | some answer => cases answer <;> rfl

theorem renderLogDiagnostics_content (service : String)
    (reply : StackCall.Reply (.logs target)) :
    (renderLogDiagnostics service reply).content = reply := by
  cases reply with
  | none => rfl
  | some answer => cases answer <;> rfl

/-- No log has been read for an error that is new. -/
theorem Follows.tells {error : FixtureError} (hs : Follows whole services h [])
    (hexplained : Explained h error)
    (hnew : ∀ diagnostics, error.diagnostics = some diagnostics → diagnostics = []) :
    Tells h [] error := by
  refine ⟨hexplained, fun diagnostics hdiagnostics => ?_⟩
  rw [hnew diagnostics hdiagnostics]
  refine ⟨rfl, (List.filterMap_eq_nil_iff.mpr fun e he => ?_).symm⟩
  have hunread := List.filterMap_eq_nil_iff.mp hs.logs.targets e he
  obtain ⟨request, reply⟩ := e
  cases request with
  | call q => cases q <;> first | rfl | cases hunread
  | poll f => rfl
  | park => rfl

theorem Tells.readsLog {error : FixtureError} {service : String}
    (reply : StackCall.Reply (.logs target)) (htells : Tells h containers error) :
    Tells (h ++ [⟨.call (.logs target), some reply⟩]) (containers ++ [(service, target)])
      (attachDiagnostics error (renderLogDiagnostics service reply)) := by
  refine ⟨htells.explained.readsLog, fun diagnostics hdiagnostics => ?_⟩
  rw [attachDiagnostics_diagnostics, Option.map_eq_some_iff] at hdiagnostics
  obtain ⟨before, hbefore, rfl⟩ := hdiagnostics
  obtain ⟨hservice, hcontent⟩ := htells.reported before hbefore
  constructor
  · rw [List.map_append, List.map_append, hservice]
    simp [@renderLogDiagnostics_service target]
  · rw [List.map_append, hcontent, List.filterMap_append]
    simp [logReply, @renderLogDiagnostics_content target]

end Histories

section Parts
variable {target : String} {reached whole : List Milestone} {services : List String}
  {good : StackTrace → α → Prop} {good' : StackTrace → β → Prop} {q : StackCall}

/-- With more services, no less is allowed. -/
theorem StackPost.widen {more : List String} {o : Option (Except Stop α)}
    (hpost : StackPost whole services good h o) (hmore : services.Sublist more) :
    StackPost whole more good h o := by
  obtain ⟨containers, ⟨horder, hlast, hlogs⟩, ho⟩ := hpost
  exact ⟨containers, ⟨horder, hlast, hlogs.order.trans hmore, hlogs.started, hlogs.targets⟩, ho⟩

theorem Going.pending (hgoing : Going h reached) (hreached : reached <+: whole)
    (services : List String) (good : StackTrace → α → Prop) :
    StackPost whole services good h none := ⟨[], hgoing.follows hreached services, trivial⟩

theorem ensures_tryStep {p : StackTask α} {k : α → StackTask β}
    (hp : Ensures h p (StackPost whole services good))
    (hk : ∀ h a, good h a → Ensures h (k a) (StackPost whole services good')) :
    Ensures h (tryBind p k) (StackPost whole services good') := by
  refine ensures_tryBind (hp.mono fun h' o hpost => ?_)
  obtain ⟨containers, hfollows, ho⟩ := hpost
  rcases o with _ | (error | error) | a
  · exact ⟨containers, hfollows, trivial⟩
  · exact ⟨⟨containers, hfollows, trivial⟩, containers, hfollows, ho⟩
  · exact ⟨⟨containers, hfollows, trivial⟩, containers, hfollows, trivial⟩
  · exact hk h' a ho

theorem Clean.ensures_done {a : α} (hclean : Clean h reached) (hreached : reached <+: whole)
    (hgood : good h a) :
    Ensures h (.done (.ok a) : StackTask α) (StackPost whole services good) :=
  Process.ensures_done (hclean.pending hreached services good)
    ⟨[], hclean.follows hreached services, hgood⟩

/-- An error of the configuration ends a startup that has not failed. -/
theorem Clean.ensures_fail {error : FixtureError} (hclean : Clean h reached)
    (hreached : reached <+: whole) (hexplained : Explained h error)
    (hnew : error.diagnostics = none) :
    Ensures h (fail error : StackTask α) (StackPost whole services good) := by
  have hfollows := hclean.follows hreached services
  refine Process.ensures_done (hclean.pending hreached services good) ⟨[], hfollows, ?_⟩
  refine hfollows.tells hexplained fun diagnostics hdiagnostics => ?_
  rw [hnew] at hdiagnostics
  cases hdiagnostics

theorem Clean.ensures_orFail {value : Except String α} {k : α → StackTask β}
    (hclean : Clean h reached) (hreached : reached <+: whole)
    (hk : ∀ a, value = .ok a → Ensures h (k a) (StackPost whole services good')) :
    Ensures h (tryBind (orFail value) k) (StackPost whole services good') := by
  cases value with
  | error detail => exact hclean.ensures_fail hreached (.configuration detail hclean.sound) rfl
  | ok a => exact hk a rfl

theorem Clean.ensures_fixtureClient {Url : Type} {lib : UrlLib Url} {config : NigiriConfig Url}
    {k : NigiriConfig Url → StackTask β} (hclean : Clean h reached) (hreached : reached <+: whole)
    (hk : ∀ client, config.validateAndNormalize lib = .ok client →
      Ensures h (k client) (StackPost whole services good')) :
    Ensures h (tryBind (fixtureClient lib config) k) (StackPost whole services good') := by
  rw [fixtureClient]
  cases hclient : config.validateAndNormalize lib with
  | error source => exact hclean.ensures_fail hreached (.rejected source hclean.sound) rfl
  | ok client => exact hk client hclient

theorem Clean.ensures_mappedUrl {Url : Type} {lib : UrlLib Url} {host : String} {port : UInt16}
    {k : Url → StackTask β} (hclean : Clean h reached) (hreached : reached <+: whole)
    (hk : ∀ url, mappedHttpUrl lib host port = some (.ok url) →
      Ensures h (k url) (StackPost whole services good')) :
    Ensures h (tryBind (mappedUrl lib host port) k) (StackPost whole services good') := by
  rw [mappedUrl]
  cases hmapped : mappedHttpUrl lib host port with
  | none =>
    have hfollows := hclean.follows hreached services
    exact Process.ensures_done ⟨[], hfollows, trivial⟩ ⟨[], hfollows, trivial⟩
  | some value => exact hclean.ensures_orFail hreached fun url hurl => hk url (hurl ▸ hmapped)

/-- A call under the deadline: it ends with the deadline's error, or its answer is gone on from. -/
theorem Clean.ensures_call {service : String} {observation : Observation}
    {k : q.Answer → StackTask α} (hclean : Clean h reached)
    (hnext : reached ++ q.milestone.toList <+: whole) (hlog : q.readsLog = false)
    (hk : ∀ answer, Follows whole services (h ++ [⟨.call q, some (some answer)⟩]) [] →
      Ensures (h ++ [⟨.call q, some (some answer)⟩]) (k answer) (StackPost whole services good)) :
    Ensures h (tryBind (run service observation q) k) (StackPost whole services good) := by
  have hreached := (List.prefix_append reached _).trans hnext
  have hasked (reply : Option q.Reply) :
      Follows whole services (h ++ [⟨.call q, reply⟩]) [] := hclean.asked hnext hlog services
  refine ensures_ask (hclean.pending hreached services good) ⟨[], hasked none, trivial⟩
    fun reply => ?_
  cases reply with
  | none =>
    refine Process.ensures_done ⟨[], hasked _, trivial⟩ ⟨[], hasked _, (hasked _).tells ?_ ?_⟩
    · exact .deadline service observation [] ⟨_, List.mem_concat_self, hlog⟩
    · rintro _ ⟨⟩
      rfl
  | some answer => exact hk answer (hasked _)

def refusal : Except NigiriError α → Option (EngineError ⊕ NigiriError)
  | .error error => some (.inr error)
  | .ok _ => none

/-- A step of the wallet's bootstrap ends with the error of its answer, or succeeds. -/
theorem Clean.ensures_bootstrap {service chain text operation : String}
    {read : q.Answer → Except NigiriError α} {k : α → StackTask β} (hclean : Clean h reached)
    (hnext : reached ++ q.milestone.toList <+: whole) (hlog : q.readsLog = false)
    (hread : ∀ answer, q.failure answer = refusal (read answer))
    (hk : ∀ answer a, read answer = .ok a →
      Clean (h ++ [⟨.call q, some (some answer)⟩]) (reached ++ q.milestone.toList) →
      Ensures (h ++ [⟨.call q, some (some answer)⟩]) (k a) (StackPost whole services good')) :
    Ensures h (tryBind (bootstrap service chain text operation q read) k)
      (StackPost whole services good') := by
  rw [bootstrap, tryBind_assoc]
  refine hclean.ensures_call hnext hlog fun answer hfollows => ?_
  cases hanswer : read answer with
  | error source =>
    refine Process.ensures_done ⟨[], hfollows, trivial⟩ ⟨[], hfollows, hfollows.tells ?_ ?_⟩
    · refine .node chain operation [] answer List.mem_concat_self ?_
      rw [hread, hanswer]
      rfl
    · rintro _ ⟨⟩
      rfl
  | ok a => exact hk answer a hanswer (hclean.next hlog (by rw [hread, hanswer]; rfl))

/-- The log of a container that was asked for is added to the error it has to explain. -/
theorem ensures_attachContainerLog {service : String} {error : FixtureError}
    {containers : List (String × String)} (hfollows : Follows whole services h containers)
    (htells : Tells h containers error) (hcontainer : ContainerOf h (service, target)) :
    Ensures h (attachContainerLog service target error) fun h' o =>
      ∃ containers', Follows whole (services ++ [service]) h' containers' ∧
        ∀ error', o = some error' → Tells h' containers' error' := by
  have hnow : Follows whole (services ++ [service]) h containers :=
    ⟨hfollows.order, hfollows.last, hfollows.logs.order.trans (List.sublist_append_left _ _),
      hfollows.logs.started, hfollows.logs.targets⟩
  have hread (reply : Option (StackCall.Reply (.logs target))) :=
    @Follows.readsLog h target whole services containers reply service hfollows hcontainer
  have hnone {h' : StackTrace} {containers' : List (String × String)} {error' : FixtureError}
      (hsome : none = some error') : Tells h' containers' error' := by cases hsome
  refine ensures_ask ⟨containers, hnow, fun _ => hnone⟩ ⟨_, hread none, fun _ => hnone⟩
    fun reply => ?_
  refine Process.ensures_done ⟨_, hread _, fun _ => hnone⟩ ⟨_, hread _, fun error' herror => ?_⟩
  obtain rfl := Option.some.inj herror
  exact htells.readsLog reply

theorem ensures_failWithLogs {logged : List (String × String)} {error : FixtureError}
    {containers : List (String × String)} (hfollows : Follows whole services h logged)
    (htells : Tells h logged error)
    (hcontainers : ∀ container ∈ containers, ContainerOf h container) :
    Ensures h (failWithLogs containers error : StackTask α)
      (StackPost whole (services ++ containers.map Prod.fst) good) := by
  induction containers generalizing h services logged error with
  | nil =>
    rw [List.map_nil, List.append_nil]
    exact Process.ensures_done ⟨logged, hfollows, trivial⟩ ⟨logged, hfollows, htells⟩
  | cons container containers ih =>
    have hread := ensures_attachContainerLog hfollows htells
      (hcontainers container List.mem_cons_self)
    refine ensures_bind ((hread.and (ensures_runs h _)).mono fun h' o ho => ?_)
    obtain ⟨⟨logged', hfollows', herror⟩, t, rfl, -⟩ := ho
    rw [List.map_cons, ← List.singleton_append, ← List.append_assoc]
    cases o with
    | none =>
      have hpending : StackPost whole (services ++ [container.1]) good (h ++ t) none :=
        ⟨logged', hfollows', trivial⟩
      exact hpending.widen (List.sublist_append_left _ _)
    | some error' =>
      refine ih hfollows' (herror error' rfl) fun container' hmem => ?_
      exact (hcontainers container' (List.mem_cons_of_mem _ hmem)).append t

/-- A part fails with the logs of some containers, or is gone on from. -/
theorem ensures_orFailWithLogs {p : StackTask α} {k : α → StackTask β} {all : List String}
    {containers : List (String × String)} (hp : Ensures h p (StackPost whole services good))
    (hcontainers : ∀ container ∈ containers, ContainerOf h container)
    (hall : (services ++ containers.map Prod.fst).Sublist all)
    (hk : ∀ t a, good (h ++ t) a → Ensures (h ++ t) (k a) (StackPost whole all good')) :
    Ensures h (tryBind (orFailWithLogs p containers) k) (StackPost whole all good') := by
  refine @ensures_tryStep _ _ _ whole all (fun h' a => good h' a ∧ ∃ t, h' = h ++ t) good' _ _ ?_
    fun h' a hdone => ?_
  · refine ensures_bind ((hp.and (ensures_runs h p)).mono fun h' o ho => ?_)
    obtain ⟨⟨logged, hfollows, ho⟩, t, rfl, -⟩ := ho
    have hwide : Follows whole all (h ++ t) logged :=
      ⟨hfollows.order, hfollows.last,
        hfollows.logs.order.trans ((List.sublist_append_left _ _).trans hall),
        hfollows.logs.started, hfollows.logs.targets⟩
    rcases o with _ | (error | _) | a
    · exact ⟨logged, hwide, trivial⟩
    · have hlogged := fun container hmem => (hcontainers container hmem).append t
      have hfailed := @ensures_failWithLogs α _ whole _ (fun h' a => good h' a ∧ ∃ t, h' = h ++ t) _
        _ _ hfollows ho hlogged
      exact hfailed.mono fun h' o hpost => hpost.widen hall
    · exact Process.ensures_done ⟨logged, hwide, trivial⟩ ⟨logged, hwide, trivial⟩
    · exact Process.ensures_done ⟨logged, hwide, trivial⟩ ⟨logged, hwide, ho, t, rfl⟩
  · obtain ⟨hgood, t, rfl⟩ := hdone
    exact hk t a hgood

/-- A container of a service is started, or its name's log is read. -/
theorem Clean.ensures_startContainer {resource text : String} {spec : ContainerSpec}
    {k : RunningContainer → StackTask β} (hclean : Clean h reached)
    (hnext : reached ++ (StackCall.startContainer spec).milestone.toList <+: whole)
    (hk : ∀ container,
      Clean (h ++ [⟨.call (.startContainer spec), some (some (.ok container))⟩])
        (reached ++ (StackCall.startContainer spec).milestone.toList) →
      Ensures (h ++ [⟨.call (.startContainer spec), some (some (.ok container))⟩]) (k container)
        (StackPost whole [spec.service] good')) :
    Ensures h (tryBind (startContainer spec.service resource spec spec.name text) k)
      (StackPost whole [spec.service] good') := by
  rw [startContainer, tryBind_assoc]
  refine hclean.ensures_call hnext rfl fun answer _ => ?_
  cases answer with
  | error error =>
    have hfollows :
        Follows whole [] (h ++ [⟨.call (.startContainer spec), some (some (.error error))⟩]) [] :=
      hclean.asked hnext rfl []
    -- what would follow is never reached
    refine @ensures_tryStep _ _ _ whole [spec.service] (fun _ _ => False) good' _ _
      (ensures_failWithLogs hfollows (hfollows.tells ?_ ?_) ?_) fun _ _ hnever => hnever.elim
    · exact .engine (q := .startContainer spec) resource [] (Except.error error)
        List.mem_concat_self rfl
    · rintro _ ⟨⟩
      rfl
    · rintro _ ⟨⟩
      · exact ⟨spec, rfl, .inl ⟨_, List.mem_concat_self, rfl⟩⟩
      · contradiction
  | ok container =>
    exact hk container
      (@Clean.next h reached (.startContainer spec) (Except.ok container) hclean rfl rfl)

end Parts

end Nigiri.Stack
