import Nigiri.LndTopologySteps

/-! Two LND nodes are started step by step: nothing is asked for before what it rests on, nothing
but logs after a failure, and a channel only comes behind a round in which both followed the
chain. -/
namespace Nigiri.Topology
open Nigiri.Process Nigiri.Polling Nigiri.WireFormat Nigiri.Lnd
open Nigiri.Fixtures (Node PairCall PairTrace PairEvent)
open Nigiri.Stack (ContainerSpec RunningContainer)
variable {Hash Invoice Client : Type} {α β : Type}

def LndCall.isEarly : LndCall Hash Invoice → Bool
  | .pair .. | .logs _ => false
  | _ => true

variable {lib : TopologyLib Hash} {context : LndStartupContext}
  {h : LndTrace Hash Invoice Client} {alice bob : RunningContainer}

theorem early_nil : Early ([] : LndTrace Hash Invoice Client) :=
  ⟨fun _ he => (by cases he), fun _ => rfl⟩

theorem Early.concat {e : LndEvent Hash Invoice Client} (hearly : Early h) (he : ¬ Fails e)
    (hkind : e.request.isEarly = true) : Early (h ++ [e]) := by
  obtain ⟨q, reply⟩ := e
  have hnone (phase) : q.readsLog = false ∧
      pairEvent phase (⟨q, reply⟩ : LndEvent Hash Invoice Client) = none := by
    cases q <;> first | exact ⟨rfl, rfl⟩ | cases hkind
  refine ⟨hearly.clean.concat he (hnone .sync).1, fun phase => ?_⟩
  rw [pairTrace, List.filterMap_append, ← pairTrace, hearly.unasked phase, List.nil_append]
  exact List.filterMap_eq_nil_iff.mpr fun e he => List.mem_singleton.mp he ▸ (hnone phase).2

theorem boundedContents_ok {maxBytes : Nat} {reply : Except EngineError Bytes} {contents : Bytes}
    (hread : boundedContents maxBytes reply = .ok contents) :
    reply = .ok contents ∧ contents.length ≤ maxBytes := by
  cases reply with
  | error error => cases hread
  | ok contents' =>
    rw [boundedContents] at hread
    split at hread
    next => cases hread
    next hbounded =>
      obtain rfl := Except.ok.inj hread
      exact ⟨rfl, Nat.le_of_not_lt hbounded⟩

section Certificate
variable [DecidableEq Hash] {good : LndTrace Hash Invoice Client → Bytes → Prop}
  {I : LndTrace Hash Invoice Client → CertificateObservation → Prop}

theorem Regular.leaveWith {failure : LndFailure Hash} (hregular : Regular lib context h)
    (htold : Explained lib context h failure) :
    Ensures h (Topology.leaveWith failure) (Again I .done (Stage lib context good)) :=
  ensures_done hregular.pending (.leave (ensures_done hregular.pending (hregular.failed htold)))

theorem Early.certificateRetry {service : String} {observation : CertificateObservation}
    (hregular : Regular lib context h) (hearly : Early h) (hrunning : Running h alice bob)
    (hnext : Regular lib context (h ++ [⟨.retryDelay, some (some (.ok ()))⟩]) →
      Early (h ++ [⟨.retryDelay, some (some (.ok ()))⟩]) →
      I (h ++ [⟨.retryDelay, some (some (.ok ()))⟩]) observation) :
    Ensures h (Topology.certificateRetry service observation)
      (Again I .done (Stage lib context good)) := by
  refine hregular.ask ⟨hearly, alice, bob, hrunning⟩ rfl (fun _ h => h.pending)
    fun reply hregular => ?_
  rcases reply with _ | error | u
  · exact hregular.leaveWith (.deadline List.mem_concat_self trivial)
  · exact hregular.leaveWith (.engine List.mem_concat_self rfl)
  · refine ensures_done hregular.pending (hnext hregular (hearly.concat ?_ rfl))
    exact not_fails not_false not_false (fun _ hfails => by cases hfails) not_false

/-- A certificate is read in the container that it is for, until there is one. -/
theorem Early.waitForTlsCertificate {service : String} {container : RunningContainer}
    (hregular : Regular lib context h) (hearly : Early h) (hrunning : Running h alice bob)
    (hown : container = alice ∨
      container = bob ∧ ∃ certificate, Certified h alice certificate) :
    Ensures h (Topology.waitForTlsCertificate service container.id)
      (Stage lib context fun h' certificate =>
        Early h' ∧ h ⊆ h' ∧ Certified h' container certificate) := by
  refine ensures_loop (fun h' (_ : CertificateObservation) =>
    Regular lib context h' ∧ Early h' ∧ h ⊆ h') ?_ ⟨hregular, hearly, List.Subset.refl h⟩
  rintro h' observation ⟨hregular, hearly, hsub⟩
  have hid : container.id = alice.id ∨
      container.id = bob.id ∧ ∃ certificate, Certified h' alice certificate := by
    rcases hown with rfl | ⟨rfl, certificate, hcertified⟩
    · exact .inl rfl
    · exact .inr ⟨rfl, certificate, hcertified.mono hsub⟩
  refine hregular.ask ⟨hearly, rfl, rfl, alice, bob, hrunning.mono hsub, hid⟩ rfl
    (fun _ h => h.pending) fun reply hregular => ?_
  rcases reply with _ | reply
  · exact hregular.leaveWith (.deadline List.mem_concat_self trivial)
  have hread (hok : ∀ source, boundedContents MAX_TLS_CERTIFICATE_BYTES reply = .error source →
      source.isCancelled = false ∧ source.isTransientFileUnavailable = true) :
      Early (h' ++ [⟨.readContainerFile container.id TLS_CERT_PATH MAX_TLS_CERTIFICATE_BYTES,
        some (some reply)⟩]) := by
    refine hearly.concat (not_fails not_false not_false ?_ not_false) rfl
    rintro source ⟨hsource, hlast⟩
    obtain ⟨hgone, hwaits⟩ := hok source hsource
    rcases hlast with hlast | hlast
    · exact Bool.false_ne_true (hgone.symm.trans hlast)
    · exact Bool.false_ne_true (hlast.symm.trans hwaits)
  have hmem : ⟨.readContainerFile container.id TLS_CERT_PATH MAX_TLS_CERTIFICATE_BYTES,
      some (some reply)⟩ ∈ h' ++ [_] := List.mem_concat_self
  have hsub' := List.Subset.trans hsub (List.subset_append_left h' [⟨.readContainerFile
    container.id TLS_CERT_PATH MAX_TLS_CERTIFICATE_BYTES, some (some reply)⟩])
  generalize h' ++ [_] = now at hregular hread hmem hsub'
  have hretry (hearly : Early now) (observation : CertificateObservation) :
      Ensures now (Topology.certificateRetry service observation)
        (Again (fun h' _ => Regular lib context h' ∧ Early h' ∧ h ⊆ h') .done
          (Stage lib context fun h' certificate =>
            Early h' ∧ h ⊆ h' ∧ Certified h' container certificate)) :=
    hearly.certificateRetry hregular (hrunning.mono hsub') fun hregular hearly =>
      ⟨hregular, hearly, List.Subset.trans hsub' (List.subset_append_left ..)⟩
  cases hreply : boundedContents MAX_TLS_CERTIFICATE_BYTES reply with
  | error source =>
    simp only [hreply]
    split
    next hgone => exact hregular.leaveWith (.engine hmem ⟨hreply, .inl hgone⟩)
    next hgone =>
      split
      next hwaits =>
        refine hretry (hread fun source' hsource => ?_) _
        obtain rfl := Except.error.inj (hreply.symm.trans hsource)
        exact ⟨Bool.eq_false_iff.mpr hgone, hwaits⟩
      next hwaits =>
        exact hregular.leaveWith (.engine hmem ⟨hreply, .inr (Bool.eq_false_iff.mpr hwaits)⟩)
  | ok certificate =>
    have hearly := hread fun source hsource => by rw [hreply] at hsource; cases hsource
    simp only [hreply]
    split
    next => exact hretry hearly _
    next hnonempty =>
      obtain ⟨rfl, hbounded⟩ := boundedContents_ok hreply
      refine ensures_done hregular.pending (.leave (ensures_done hregular.pending ?_))
      refine hregular.ok ⟨hearly, hsub', hmem, ?_, hbounded⟩
      exact fun hnil => hnonempty (by rw [hnil]; rfl)

end Certificate

section CallingOff
variable {good : LndTrace Hash Invoice Client → α → Prop}

theorem not_fails_uncancelled :
    ¬ Fails (⟨.cancelled, some false⟩ : LndEvent Hash Invoice Client) :=
  not_fails not_false Bool.false_ne_true (fun _ => not_false) not_false

variable [DecidableEq Hash]

/-- A phase ends with a result, or it was called off. -/
def Until (lib : TopologyLib Hash) (context : LndStartupContext)
    (good : LndTrace Hash Invoice Client → α → Prop) (h : LndTrace Hash Invoice Client) :
    Option (Option (Except (Stop Hash) α)) → Prop
  | none => Regular lib context h
  | some none => Regular lib context h ∧ ∃ e ∈ h, CalledOff e
  | some (some result) => Stage lib context good h (some result)

theorem Regular.runUntilCancelled
    {p : LndProc Hash Invoice Client (Option (Except (Stop Hash) α))}
    (hregular : Regular lib context h) (hsettled : Settled h)
    (hconfigured : ∀ node, ∃ config, Configured lib context h node config)
    (hp : Regular lib context (h ++ [⟨.cancelled, some false⟩]) →
      Ensures (h ++ [⟨.cancelled, some false⟩]) p (Until lib context good)) :
    Ensures h (Topology.runUntilCancelled p) (Stage lib context good) := by
  refine hregular.ask ⟨hsettled, hconfigured⟩ rfl (fun _ h => h.pending) fun called hregular => ?_
  cases called with
  | true =>
    refine ensures_done hregular.pending (hregular.failed ?_)
    exact .calledOff (e := ⟨.cancelled, some true⟩) List.mem_concat_self rfl
  | false =>
    refine ensures_bind ((hp hregular).mono fun h' o ho => ?_)
    rcases o with _ | _ | result
    · exact Regular.pending ho
    · obtain ⟨hregular, e, hmem, hgone⟩ := ho
      exact ensures_done hregular.pending (hregular.failed (.calledOff hmem hgone))
    · exact ensures_done (Stage.regular ho).pending ho

end CallingOff

section Clients
variable {config : Node → LndBootstrapConfig} {password : Node → Bytes}

/-- What the initialization of the clients asks for, as a part of the startup. -/
def clientPhase (t : TaskTrace (ClientCall.Reply Hash Client)) : LndTrace Hash Invoice Client :=
  (t.map Event.given).map (Event.via .clients)

theorem early_clientPhase {t : TaskTrace (ClientCall.Reply Hash Client)} (hearly : Early h)
    (hpolls : Polls (initializations config password) t)
    (hunfailed : Unfailed (initializations config password) t) :
    Early (h ++ clientPhase t) := by
  induction t using List.reverseRecOn with
  | nil => rwa [clientPhase, List.map_nil, List.map_nil, List.append_nil]
  | append_singleton t e ih =>
    have hbefore := ih (fun e he => hpolls e (List.mem_append_left _ he))
      fun node reply error hready => hunfailed node reply error (List.mem_append_left _ hready)
    rw [clientPhase, List.map_append, List.map_append, ← List.append_assoc]
    refine Early.concat hbefore ?_ rfl
    obtain ⟨q, reply⟩ := e
    refine not_fails not_false ?_ (fun _ => not_false) ?_
    · cases reply <;> exact not_false
    · rcases hpolls ⟨q, reply⟩ List.mem_concat_self with hpark | ⟨node, hpoll⟩
      · obtain rfl := hpark
        cases reply <;> exact not_false
      · obtain rfl := hpoll
        rcases reply with _ | _ | error | client
        · exact not_false
        · exact not_false
        · exact fun _ => hunfailed node _ error List.mem_concat_self rfl
        · exact not_false

theorem initializeClient_inj (node node' : Node)
    (hsame : initializeClient config password node = initializeClient config password node') :
    node = node' := by
  have hservice : node.service = node'.service :=
    congrArg (fun f : Started ClientCall => f.call.service) hsame
  cases node <;> cases node' <;> first | rfl | exact absurd hservice (by decide)

/-- The initialization of both clients: it asks for nothing after an error, and succeeds with what
each of them has come to. -/
structure ClientsRun (config : Node → LndBootstrapConfig) (password : Node → Bytes)
    (t : TaskTrace (ClientCall.Reply Hash Client))
    (o : Option (Except (FixtureError Hash) (Node → Client))) : Prop where
  polls : Polls (initializations config password) t
  each : Each (fun before _ => Unfailed (initializations config password) before) t
  failed : ∀ error, o = some (.error error) →
    ∃ node, Polling.Ready (initializations config password) t node (.error error)
  ready : ∀ clients, o = some (.ok clients) → Unfailed (initializations config password) t ∧
    ∀ node, Polling.Ready (initializations config password) t node (.ok (clients node))

theorem clientsRun {t : TaskTrace (ClientCall.Reply Hash Client)}
    {o : Option (Except (FixtureError Hash) (Node → Client))}
    (hrun : Runs (tryJoin (initializations config password)) t o) :
    ClientsRun config password t o := by
  obtain ⟨t', hsame, hpolls, hresult⟩ :=
    ensures_tryJoin (j := initializations config password) (h := []) t o hrun
  obtain rfl : t = t' := hsame
  obtain ⟨t', hsame, hall, hunfailed⟩ := failFast_tryJoin
    (j := initializations config password) (h := []) initializeClient_inj t o hrun
  obtain rfl : t = t' := hsame
  refine ⟨hpolls, hall, ?_, ?_⟩
  · rintro error rfl
    obtain ⟨node, reply, hready, hread⟩ := hresult
    obtain rfl : reply = .error error := hread
    exact ⟨node, hready⟩
  · rintro clients rfl
    refine ⟨hunfailed clients rfl, fun node => ?_⟩
    obtain ⟨reply, hready, hread⟩ := hresult node
    obtain rfl : reply = .ok (clients node) := hread
    exact hready

theorem not_fails_fillPassword (node : Node) (password : Bytes) :
    ¬ Fails (⟨.fillPassword node, some (.ok password)⟩ : LndEvent Hash Invoice Client) :=
  not_fails not_false not_false (fun _ => not_false) fun hfails => by cases hfails

variable [DecidableEq Hash]

theorem Regular.append (hregular : Regular lib context h) {t : LndTrace Hash Invoice Client}
    (hall : Each (Justified lib context) (h ++ t)) (ht : ∀ e ∈ t, e.request.readsLog = false) :
    Regular lib context (h ++ t) :=
  ⟨hall, fun e he => (List.mem_append.mp he).elim (hregular.unread e) (ht e)⟩

/-- Each client comes of its own configuration and password, and when one fails nothing more is
asked for. -/
theorem Early.clients (hregular : Regular lib context h) (hearly : Early h)
    (hconfig : ∀ node, Configured lib context h node (config node))
    (hfilled : ∀ node, Filled h node (password node)) :
    Ensures h ((tryJoin (initializations config password)).within.via .clients)
      fun h' (o : Option (Option (Except (FixtureError Hash) (Node → Client)))) =>
        Regular lib context h' ∧ match o with
          | none => True
          | some none => ∃ e ∈ h', CalledOff e
          | some (some (.error error)) => Explained lib context h' (.pair error)
          | some (some (.ok clients)) =>
            Early h' ∧ h ⊆ h' ∧ ∀ node, Initialized lib context h' node (clients node) := by
  refine (ensures_via hregular.each fun t o hrun before e after hsplit => ?_).mono ?_
  · obtain ⟨before, e, after, o, rfl, hq, hrun⟩ := hrun.within_split hsplit
    have hclients := clientsRun hrun
    have hbefore : Early (h ++ clientPhase before) :=
      early_clientPhase hearly (fun e he => hclients.polls e (List.mem_append_left _ he))
        (hclients.each before e after rfl)
    rw [hq]
    refine ⟨hbefore, config, password,
      fun node => (hconfig node).mono (List.subset_append_left ..),
      fun node => List.mem_append_left _ (hfilled node), ?_⟩
    exact hclients.polls e (List.mem_append_right _ List.mem_cons_self)
  · rintro h' o ⟨hall, t, rfl, hrun⟩
    have hnow := hregular.append hall fun e he => by
      obtain ⟨_, -, rfl⟩ := List.mem_map.mp he
      rfl
    refine ⟨hnow, ?_⟩
    cases hrun.within_cases with
    | @own t o hown =>
      have hin {e} (he : e ∈ t) : Event.via LndCall.clients e.given ∈ h ++ clientPhase t :=
        List.mem_append_right _ (List.mem_map_of_mem (List.mem_map_of_mem he))
      have hclients := clientsRun hown
      rcases o with _ | error | clients
      · trivial
      · obtain ⟨node, hready⟩ := hclients.failed error rfl
        exact .client (hin hready)
      · obtain ⟨hunfailed, hready⟩ := hclients.ready clients rfl
        exact ⟨early_clientPhase hearly hclients.polls hunfailed, List.subset_append_left ..,
          fun node => ⟨config node, password node,
            (hconfig node).mono (List.subset_append_left ..),
            List.mem_append_left _ (hfilled node), hin (hready node)⟩⟩
    | @calledOff t q o _ ho =>
      rcases ho with rfl | rfl
      · trivial
      · rw [List.map_append]
        exact ⟨_, List.mem_append_right _ (List.mem_append_right _ List.mem_cons_self), trivial⟩

theorem Early.initializeLndClients (hregular : Regular lib context h) (hearly : Early h)
    (hconfig : ∀ node, Configured lib context h node (config node)) :
    Ensures h (Topology.initializeLndClients config) (Until lib context fun h' clients =>
      Early h' ∧ h ⊆ h' ∧ ∀ node, Initialized lib context h' node (clients node)) := by
  refine hregular.ask ⟨hearly, fun node => ⟨config node, hconfig node⟩⟩ rfl (fun _ h => h)
    fun reply hregular => ?_
  rcases reply with _ | alicePassword
  · exact ensures_done hregular (hregular.failed (.password List.mem_concat_self))
  have hearly' := hearly.concat (not_fails_fillPassword .alice alicePassword) rfl
  have hsub := List.subset_append_left h [⟨.fillPassword .alice, some (.ok alicePassword)⟩]
  refine hregular.ask ⟨hearly', fun node => ⟨config node, (hconfig node).mono hsub⟩⟩ rfl
    (fun _ h => h) fun reply hregular => ?_
  rcases reply with _ | bobPassword
  · exact ensures_done hregular (hregular.failed (.password List.mem_concat_self))
  have hearly'' := hearly'.concat (not_fails_fillPassword .bob bobPassword) rfl
  have hsub' := List.Subset.trans hsub (List.subset_append_left _
    [⟨.fillPassword .bob, some (.ok bobPassword)⟩])
  refine ensures_bind ((hearly''.clients hregular (fun node => (hconfig node).mono hsub')
    fun node => ?_).mono fun h' o ho => ?_)
  · cases node with
    | alice => exact List.mem_append_left _ List.mem_concat_self
    | bob => exact List.mem_concat_self
  · obtain ⟨hregular, hresult⟩ := ho
    rcases o with _ | _ | error | clients
    · exact hregular
    · exact ensures_done hregular ⟨hregular, hresult⟩
    · exact ensures_done hregular (hregular.failed hresult)
    · obtain ⟨hearly, hmore, hinit⟩ := hresult
      exact ensures_done hregular (hregular.ok ⟨hearly, List.Subset.trans hsub' hmore, hinit⟩)

end Clients

section Chain

/-- What a phase asks for, as a part of the startup. -/
def phaseTrace (phase : PairPhase) (t : PairTrace Hash Invoice) : LndTrace Hash Invoice Client :=
  (t.map Event.given).map (Event.via (.pair phase))

variable {t : PairTrace Hash Invoice} {phase : PairPhase}

theorem clean_phaseTrace : Clean (phaseTrace phase t : LndTrace Hash Invoice Client) := by
  intro e he
  obtain ⟨_, hgiven, rfl⟩ := List.mem_map.mp he
  obtain ⟨⟨q, reply⟩, -, rfl⟩ := List.mem_map.mp hgiven
  refine ⟨not_fails not_false ?_ (fun _ => not_false) not_false, rfl⟩
  cases reply <;> exact not_false

theorem pairEvent_given (e : PairEvent Hash Invoice) : pairEvent phase
    (Event.via (.pair phase) e.given : LndEvent Hash Invoice Client) = some e := by
  obtain ⟨q, reply⟩ := e
  cases reply <;> exact if_pos rfl

theorem pairTrace_phaseTrace :
    pairTrace phase (phaseTrace phase t : LndTrace Hash Invoice Client) = t := by
  rw [pairTrace, phaseTrace, List.filterMap_map, List.filterMap_map]
  exact (List.filterMap_congr fun e _ => pairEvent_given e).trans List.filterMap_some

theorem pairTrace_other {other : PairPhase} (hother : phase ≠ other) :
    pairTrace other (phaseTrace phase t : LndTrace Hash Invoice Client) = [] := by
  refine List.filterMap_eq_nil_iff.mpr fun e he => ?_
  obtain ⟨_, hgiven, rfl⟩ := List.mem_map.mp he
  obtain ⟨⟨q, reply⟩, -, rfl⟩ := List.mem_map.mp hgiven
  cases reply <;> exact if_neg hother

theorem pairTrace_append {h t : LndTrace Hash Invoice Client} :
    pairTrace phase (h ++ t) = pairTrace phase h ++ pairTrace phase t := List.filterMap_append

/-- Since a phase began, nothing has failed, and only that phase has asked the nodes. -/
structure Amid (phase : PairPhase) (h h' : LndTrace Hash Invoice Client)
    (t : PairTrace Hash Invoice) : Prop where
  clean : Clean h'
  sub : h ⊆ h'
  asked : pairTrace phase h' = pairTrace phase h ++ t
  other : ∀ other, phase ≠ other → pairTrace other h' = pairTrace other h

theorem Clean.amid (hclean : Clean h) (t : PairTrace Hash Invoice) :
    Amid phase h (h ++ [⟨.cancelled, some false⟩] ++ phaseTrace phase t) t := by
  have hnext : Clean (h ++ [⟨.cancelled, some false⟩]) :=
    hclean.concat not_fails_uncancelled rfl
  have hsame (other) : pairTrace other (h ++ [⟨.cancelled, some false⟩]) = pairTrace other h :=
    pairTrace_append.trans (List.append_nil _)
  refine ⟨hnext.append clean_phaseTrace, ?_, ?_, fun other hother => ?_⟩
  · rw [List.append_assoc]
    exact List.subset_append_left ..
  · rw [pairTrace_append, hsame, pairTrace_phaseTrace]
  · rw [pairTrace_append, hsame, pairTrace_other hother, List.append_nil]

theorem Initialized.configured {node : Node} {client : Client}
    (hinit : Initialized lib context h node client) :
    ∃ config, Configured lib context h node config :=
  have ⟨config, _, hconfigured, _⟩ := hinit
  ⟨config, hconfigured⟩

variable [DecidableEq Hash] {good : LndTrace Hash Invoice Client → α → Prop}

/-- A phase asks for nothing that is not justified, and ends as its own run does, unless it is
called off. -/
theorem Regular.runPair {p : Fixtures.PairTask Hash Invoice α} (hregular : Regular lib context h)
    (hsettled : Settled h) (hinit : ∀ node, ∃ client, Initialized lib context h node client)
    (hjust : ∀ h' t q, Amid phase h h' t → Runs p (t ++ [⟨q, none⟩]) none →
      Justified lib context h' (.pair phase q))
    (herror : ∀ h' t error, Amid phase h h' t → Runs p t (some (.error (.returned error))) →
      Explained lib context h' (.pair error))
    (hok : ∀ h' t a, Amid phase h h' t → Runs p t (some (.ok a)) → good h' a) :
    Ensures h (Topology.runPair (p.within.via (.pair phase))) (Stage lib context good) := by
  have hconfigured (node) : ∃ config, Configured lib context h node config :=
    have ⟨_, hinit⟩ := hinit node
    hinit.configured
  have hclean := hsettled.clean
  refine hregular.runUntilCancelled hsettled hconfigured fun hregular => ensures_bind ?_
  refine (ensures_via hregular.each fun t o hrun before e after hsplit => ?_).mono ?_
  · obtain ⟨before, e, after, o, rfl, hq, hrun⟩ := hrun.within_split hsplit
    rw [hq]
    exact hjust _ before e.request (hclean.amid before) hrun.asking
  · rintro h' o ⟨hall, t, rfl, hrun⟩
    have hnow := hregular.append hall fun e he => by
      obtain ⟨_, -, rfl⟩ := List.mem_map.mp he
      rfl
    cases hrun.within_cases with
    | @own t o hown =>
      rcases o with _ | (error | _) | a
      · exact hnow
      · exact ensures_done hnow (hnow.failed (herror _ t error (hclean.amid t) hown))
      · exact ensures_done hnow hnow.panicked
      · exact ensures_done hnow (hnow.ok (hok _ t a (hclean.amid t) hown))
    | @calledOff t q o _ ho =>
      rcases ho with rfl | rfl
      · exact hnow
      · refine ensures_done hnow ⟨hnow, ⟨.pair phase q, some none⟩, ?_, trivial⟩
        rw [List.map_append]
        exact List.mem_append_right _ (List.mem_append_right _ List.mem_cons_self)

theorem Early.synchronize (hregular : Regular lib context h) (hearly : Early h)
    (hinit : ∀ node, ∃ client, Initialized lib context h node client) :
    Ensures h Topology.synchronize (Stage lib context fun h' _ => h ⊆ h' ∧ Settled h' ∧
      InSync h') := by
  have hasked {h' : LndTrace Hash Invoice Client} {t : PairTrace Hash Invoice}
      (hamid : Amid .sync h h' t) : pairTrace .sync h' = t := by
    rw [hamid.asked, hearly.unasked, List.nil_append]
  have hunasked {h' : LndTrace Hash Invoice Client} {t : PairTrace Hash Invoice}
      (hamid : Amid .sync h h' t) : pairTrace .channel h' = [] := by
    rw [hamid.other .channel (by decide), hearly.unasked]
  refine hregular.runPair hearly.settled hinit (fun h' t q hamid hrun => ?_)
    (fun h' t error hamid hrun => ?_) fun h' t _ hamid hrun => ?_
  · refine ⟨hamid.clean, fun node => (hinit node).imp fun _ hinit => hinit.mono hamid.sub,
      hunasked hamid, ?_⟩
    rwa [hasked hamid]
  · refine .sync ?_
    rwa [hasked hamid]
  · have hsync : InSync h' := by rwa [InSync, hasked hamid]
    exact ⟨hamid.sub, ⟨hamid.clean, .inr hsync, hunasked hamid⟩, hsync⟩

theorem Settled.readyChannel (hregular : Regular lib context h) (hsettled : Settled h)
    (hinit : ∀ node, ∃ client, Initialized lib context h node client) (hsync : InSync h) :
    Ensures h (Topology.readyChannel lib.pair context.names.bob context.allocation)
      (Stage lib context fun h' channelPoint => Clean h' ∧ h ⊆ h' ∧ InSync h' ∧
        Runs (Fixtures.bootstrapReadyChannel lib.pair context.names.bob context.allocation)
          (pairTrace .channel h') (some (.ok channelPoint))) := by
  have hasked {h' : LndTrace Hash Invoice Client} {t : PairTrace Hash Invoice}
      (hamid : Amid .channel h h' t) : pairTrace .channel h' = t := by
    rw [hamid.asked, hsettled.channel, List.nil_append]
  have hsame {h' : LndTrace Hash Invoice Client} {t : PairTrace Hash Invoice}
      (hamid : Amid .channel h h' t) : InSync h' := by
    rwa [InSync, hamid.other .sync (by decide)]
  refine hregular.runPair hsettled hinit (fun h' t q hamid hrun => ?_)
    (fun h' t error hamid hrun => ?_) fun h' t channelPoint hamid hrun => ?_
  · refine ⟨hamid.clean, fun node => (hinit node).imp fun _ hinit => hinit.mono hamid.sub,
      hsame hamid, (hsame hamid).synchronized, ?_⟩
    rwa [hasked hamid]
  · refine .channel ?_
    rwa [hasked hamid]
  · refine ⟨hamid.clean, hamid.sub, hsame hamid, ?_⟩
    rwa [hasked hamid]

end Chain

end Nigiri.Topology
