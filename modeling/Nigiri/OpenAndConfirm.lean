import Nigiri.PairRules

/-! Opening and confirming a channel: one mining call at most, for a transaction that the mempool
did not hold before, and none when the opening fails first. -/
namespace Nigiri.Fixtures
open Nigiri.WireFormat Nigiri.Process Nigiri.Polling Nigiri.Lnd
variable {Hash Invoice : Type} {request : OpenChannelRequest}

/-- The opening has ended in an error. -/
def OpenFailed (request : OpenChannelRequest) (e : PairEvent Hash Invoice) : Prop :=
  ∃ reply error, e = ⟨.poll (opening request), some (some reply)⟩ ∧
    flattenOpen reply = (.error error : Except (FixtureError Hash) OutPoint)

def minesBlocks : PairEvent Hash Invoice → Option UInt64
  | ⟨.call (.mineBlocks blocks), _⟩ => some blocks
  | _ => none

/-- The mining calls of a history. -/
def mined (h : PairTrace Hash Invoice) : List UInt64 := h.filterMap minesBlocks

/-- The mempool before the opening, and the last snapshot of it, which holds something new. -/
structure Triggered (h : PairTrace Hash Invoice) (baseline current : List Txid) : Prop where
  seen : ∃ t round, h = ⟨.call .mempoolTransactions, some (some (.ok baseline))⟩ :: t ++
    [⟨.poll ⟨.mempoolTransactions, round⟩, some (some (some (.ok current)))⟩]
  new : newlyObserved baseline current ≠ []

/-- What must hold of the history when a request is made: the opening has not failed, and blocks
are mined once, behind a snapshot with a new transaction. -/
structure Confirming (request : OpenChannelRequest) (h : PairTrace Hash Invoice)
    (q : Await (PairCall Hash Invoice)) : Prop where
  unfailed : ∀ e ∈ h, ¬ OpenFailed request e
  mining : ∀ blocks, q = .call (.mineBlocks blocks) → mined h = [] ∧
    blocks = CHANNEL_CONFIRMATIONS ∧ ∃ baseline current, Triggered h baseline current

/-- The channel's funding transaction was new in the snapshot behind which blocks were mined. -/
def Funded (h : PairTrace Hash Invoice) (channelPoint : OutPoint) : Prop :=
  ∃ before baseline current reply after, h
      = before ++ ⟨.call (.mineBlocks CHANNEL_CONFIRMATIONS), reply⟩ :: after ∧
    Triggered before baseline current ∧ channelPoint.txid ∈ current ∧ channelPoint.txid ∉ baseline

structure OpenPost (request : OpenChannelRequest) (h : PairTrace Hash Invoice)
    (o : Option (Except (Stop Hash) OutPoint)) : Prop where
  each : Each (Confirming request) h
  unpanicked : o ≠ some (.error .panicked)
  funded : ∀ channelPoint, o = some (.ok channelPoint) → Funded h channelPoint
  failed : ∀ reply error,
    (⟨.poll (opening request), some (some reply)⟩ : PairEvent Hash Invoice) ∈ h →
    flattenOpen reply = (.error error : Except (FixtureError Hash) OutPoint) →
    ∀ r, o = some r → r = .error (.returned error)

variable {h t : PairTrace Hash Invoice} {baseline : List Txid}

theorem not_openFailed_of_idle {S : Started (PairCall Hash Invoice) → Prop}
    {e : PairEvent Hash Invoice} (he : Idle S e) : ¬ OpenFailed request e := by
  rintro ⟨reply, error, rfl, -⟩
  exact he.2 reply rfl

theorem mined_append : mined (h ++ t) = mined h ++ mined t := List.filterMap_append ..

/-- The history while a new transaction is waited for. -/
structure OpenInv (request : OpenChannelRequest) (baseline : List Txid)
    (h : PairTrace Hash Invoice) : Prop where
  each : Each (Confirming request) h
  started : ∃ t, h = ⟨.call .mempoolTransactions, some (some (.ok baseline))⟩ :: t
  unfailed : ∀ e ∈ h, ¬ OpenFailed request e
  unmined : mined h = []

theorem OpenInv.concat (hinv : OpenInv request baseline h) {q : Await (PairCall Hash Invoice)}
    {reply : Option (Await.Answer (@PairCall.Reply Hash Invoice) q)}
    (hmine : minesBlocks ⟨q, reply⟩ = none) (hlast : ¬ OpenFailed request ⟨q, reply⟩) :
    OpenInv request baseline (h ++ [⟨q, reply⟩]) := by
  refine ⟨each_concat.mpr ⟨hinv.each, hinv.unfailed, fun blocks hq => ?_⟩, ?_, fun e he => ?_, ?_⟩
  · subst hq
    cases hmine
  · obtain ⟨t, rfl⟩ := hinv.started
    exact ⟨t ++ [⟨q, reply⟩], rfl⟩
  · rcases List.mem_append.mp he with he | he
    · exact hinv.unfailed e he
    · rwa [List.mem_singleton.mp he]
  · rw [mined_append, hinv.unmined]
    simp [mined, hmine]

theorem OpenInv.idle (hinv : OpenInv request baseline h)
    {S : Started (PairCall Hash Invoice) → Prop} (ht : AllIdle S t) :
    OpenInv request baseline (h ++ t) := by
  induction t using List.reverseRecOn with
  | nil => rwa [List.append_nil]
  | append_singleton t e ih =>
    have hbefore := ih fun e' he' => ht e' (List.mem_append_left _ he')
    have he : Idle S e := ht e List.mem_concat_self
    rw [← List.append_assoc]
    refine hbefore.concat ?_ (not_openFailed_of_idle he)
    obtain ⟨request, reply⟩ := e
    cases request with
    | call q => exact he.elim
    | poll f => rfl
    | park => rfl

/-- Awaited calls are no failure of the opening. -/
theorem not_openFailed_call {q : PairCall Hash Invoice} {reply : Option q.Reply} :
    ¬ OpenFailed request (⟨.call q, reply⟩ : PairEvent Hash Invoice) := by
  rintro ⟨_, _, hevent, -⟩
  cases hevent

theorem OpenPost.pending (hall : Each (Confirming request) h) : OpenPost request h none :=
  ⟨hall, (by simp), (fun _ ho => by cases ho), fun _ _ _ _ _ ho => by cases ho⟩

/-- While the opening has not failed, the task may end in an error of its own. -/
theorem OpenPost.stopped (hall : Each (Confirming request) h)
    (hunfailed : ∀ e ∈ h, ¬ OpenFailed request e) (error : FixtureError Hash) :
    OpenPost request h (some (.error (.returned error))) := by
  refine ⟨hall, (by simp), (fun _ ho => by cases ho), fun reply error' he hfail => ?_⟩
  exact absurd ⟨reply, error', rfl, hfail⟩ (hunfailed _ he)

/-- Nothing follows the failure of the opening, and it is what the task returns. -/
theorem OpenPost.openFailed {reply : Option (Except (LndError Hash) OutPoint)}
    {error : FixtureError Hash}
    (hall : Each (Confirming request) (h ++ [⟨.poll (opening request), some (some reply)⟩]))
    (hfail : flattenOpen reply = .error error) :
    OpenPost request (h ++ [⟨.poll (opening request), some (some reply)⟩])
      (some (.error (.returned error))) := by
  refine ⟨hall, (by simp), (fun _ ho => by cases ho), fun reply' error' he hfail' r hr => ?_⟩
  obtain rfl := Option.some.inj hr
  rcases List.mem_append.mp he with hbefore | hlast
  · exact absurd ⟨reply', error', rfl, hfail'⟩ ((each_concat.mp hall).2.unfailed _ hbefore)
  · obtain rfl := ready_inj (List.mem_singleton.mp hlast)
    rw [hfail] at hfail'
    rw [Except.error.inj hfail']

theorem OpenPost.mayStop (hall : Each (Confirming request) h)
    (hunfailed : ∀ e ∈ h, ¬ OpenFailed request e) : MayStop (OpenPost request) h :=
  ⟨.pending hall, .stopped hall hunfailed⟩

theorem OpenInv.mayStop (hinv : OpenInv request baseline h) : MayStop (OpenPost request) h :=
  OpenPost.mayStop hinv.each hinv.unfailed

theorem flattenMempool_ok {observation : Observation Hash} {current : List Txid}
    {reply : Option (Except (FixtureError Hash) (List Txid))}
    (h : flattenMempool observation reply = .ok current) : reply = some (.ok current) := by
  match reply with
  | none => cases h
  | some (.error error) => cases h
  | some (.ok current') => rw [Except.ok.inj h]

theorem not_openFailed_of_ok {reply : Option (Except (LndError Hash) OutPoint)}
    {channelPoint : OutPoint}
    (hopen : flattenOpen reply = (.ok channelPoint : Except (FixtureError Hash) OutPoint)) :
    ¬ OpenFailed request
      (⟨.poll (opening request), some (some reply)⟩ : PairEvent Hash Invoice) := by
  rintro ⟨reply', error, hevent, hfail⟩
  obtain rfl := @ready_inj _ PairCall.Reply (opening request) _ _ hevent
  rw [hopen] at hfail
  cases hfail

/-- The opening is awaited to its end, where it has not ended yet. -/
theorem ensures_awaitOpened (hall : Each (Confirming request) h)
    (hunfailed : ∀ e ∈ h, ¬ OpenFailed request e) (opened : Option OutPoint)
    {k : OutPoint → PairTask Hash Invoice OutPoint}
    (hk : ∀ t channelPoint, Each (Confirming request) (h ++ t) →
      (∀ e ∈ h ++ t, ¬ OpenFailed request e) →
      Ensures (h ++ t) (k channelPoint) (OpenPost request)) :
    Ensures h (tryBind (awaitOpened request opened) k) (OpenPost request) := by
  refine ensures_tryBind ?_
  cases opened with
  | some channelPoint =>
    have hnow := hk [] channelPoint
    rw [List.append_nil] at hnow
    exact ensures_done (OpenPost.pending hall) (hnow hall hunfailed)
  | none =>
    refine ensures_bind ((ensures_finish (opening request)).mono fun h' o ho => ?_)
    obtain ⟨t, ht, ho⟩ := ho
    have hclean (t' : PairTrace Hash Invoice) (ht' : AllIdle (· = opening request) t') :
        ∀ e ∈ h ++ t', ¬ OpenFailed request e := by
      intro e he
      rcases List.mem_append.mp he with he | he
      · exact hunfailed e he
      · exact not_openFailed_of_idle (ht' e he)
    have hidle : Each (Confirming request) (h ++ t) :=
      each_idle hall ht (fun t' f ht' _ => ⟨hclean t' ht', fun _ hq => by cases hq⟩)
        fun t' ht' => ⟨hclean t' ht', fun _ hq => by cases hq⟩
    rcases ho with ⟨rfl, rfl⟩ | ⟨reply, rfl, ho⟩
    · exact OpenPost.pending hidle
    · have hall' : Each (Confirming request)
          (h ++ t ++ [⟨.poll (opening request), some (some reply)⟩]) :=
        each_concat.mpr ⟨hidle, hclean t ht, fun _ hq => by cases hq⟩
      rcases ho with rfl | rfl
      · exact OpenPost.pending hall'
      · cases hopen : (flattenOpen reply : Except (FixtureError Hash) OutPoint) with
        | error error =>
          simp only [After, hopen]
          exact ensures_done (OpenPost.pending hall')
            ⟨OpenPost.pending hall', .openFailed hall' hopen⟩
        | ok channelPoint =>
          simp only [After, hopen]
          refine ensures_done (OpenPost.pending hall') ?_
          rw [List.append_assoc] at hall' ⊢
          refine hk _ channelPoint hall' fun e he => ?_
          rw [← List.append_assoc] at he
          rcases List.mem_append.mp he with he | he
          · exact hclean t ht e he
          · rw [List.mem_singleton.mp he]
            exact not_openFailed_of_ok hopen

theorem mem_newlyObserved {current : List Txid} {txid : Txid}
    (h : txid ∈ newlyObserved baseline current) : txid ∈ current ∧ txid ∉ baseline := by
  simpa [newlyObserved] using h

/-- Six blocks behind the snapshot that triggered, and then the check of the funding. -/
theorem ensures_confirmOpened (hinv : OpenInv request baseline h) {current : List Txid}
    (htriggered : Triggered h baseline current) (opened : Option OutPoint) :
    Ensures h (confirmOpened request (opened, newlyObserved baseline current) :
      PairTask Hash Invoice OutPoint) (OpenPost request) := by
  have hmining (reply) : Each (Confirming request)
      (h ++ [⟨.call (.mineBlocks CHANNEL_CONFIRMATIONS), reply⟩]) := by
    refine each_concat.mpr ⟨hinv.each, hinv.unfailed, fun blocks hq => ⟨hinv.unmined, ?_,
      baseline, current, htriggered⟩⟩
    cases hq
    rfl
  have hunfailed (reply) : ∀ e ∈ h ++ [⟨.call (.mineBlocks CHANNEL_CONFIRMATIONS), reply⟩],
      ¬ OpenFailed request e := by
    intro e he
    rcases List.mem_append.mp he with he | he
    · exact hinv.unfailed e he
    · rw [List.mem_singleton.mp he]
      exact not_openFailed_call
  refine ensures_bitcoinOperation (.pending hinv.each) (fun reply =>
    OpenPost.mayStop (hmining reply) (hunfailed reply)) fun result u _ => ?_
  refine ensures_awaitOpened (hmining _) (hunfailed _) opened fun t channelPoint hall hclean => ?_
  split
  next hmem =>
    refine ensures_done (.pending hall) ⟨hall, (by simp), fun p hp => ?_, ?_⟩
    · obtain rfl := Except.ok.inj (Option.some.inj hp)
      obtain ⟨hcurrent, hbaseline⟩ := mem_newlyObserved hmem
      exact ⟨h, baseline, current, some (some result), t, by simp, htriggered, hcurrent, hbaseline⟩
    · intro reply error he hfail
      exact absurd ⟨reply, error, rfl, hfail⟩ (hclean _ he)
  next => exact (OpenPost.mayStop hall hclean).fail _

theorem ensures_openRound (hinv : OpenInv request baseline h) (state : OpenState Hash) :
    Ensures h (openRound request baseline state : PairRound Hash Invoice (OpenState Hash) _)
      (Again (fun h' _ => OpenInv request baseline h') .done
        (TryAfter (confirmOpened request) (OpenPost request))) := by
  have hlive : (openBranches request state : List (Branch (@PairCall.Reply Hash Invoice) _)).any
      Branch.enabled = true := by simp [openBranches]
  refine ensures_bind ((ensures_select hlive).mono fun h' o hselected => ?_)
  cases hselected with
  | idle ht _ => exact OpenPost.pending (hinv.idle ht).each
  | @ready t _ b reply ht hb henabled ho _ =>
    have hidle := hinv.idle ht
    simp only [openBranches, List.mem_cons, List.not_mem_nil, or_false] at hb
    rcases hb with rfl | rfl
    -- the opening has ended
    · have hall : Each (Confirming request)
          (h ++ t ++ [⟨.poll (opening request), some (some reply)⟩]) :=
        each_concat.mpr ⟨hidle.each, hidle.unfailed, fun _ hq => by cases hq⟩
      rcases ho with rfl | rfl
      · exact OpenPost.pending hall
      · cases hopen : (flattenOpen reply : Except (FixtureError Hash) OutPoint) with
        | error error =>
          simp only [After, hopen, Except.map]
          exact ensures_leave (OpenPost.pending hall)
            ⟨.pending hall, OpenPost.openFailed hall hopen⟩
        | ok channelPoint =>
          simp only [After, hopen, Except.map]
          exact ensures_done (OpenPost.pending hall) (hidle.concat rfl (not_openFailed_of_ok hopen))
    -- a snapshot of the mempool has come
    · have hseen : OpenInv request baseline (h ++ t ++
          [⟨.poll ⟨.mempoolTransactions, state.round⟩, some (some reply)⟩]) := by
        refine hidle.concat rfl ?_
        rintro ⟨_, _, hevent, -⟩
        cases hevent
      rcases ho with rfl | rfl
      · exact OpenPost.pending hseen.each
      · cases hmempool : flattenMempool state.observation reply with
        | error error =>
          simp only [After, hmempool, Except.map]
          exact (hseen.mayStop.tryAfter _).leave error
        | ok current =>
          simp only [After, hmempool, Except.map]
          split
          next =>
            have hdelay (delay) : OpenInv request baseline (h ++ t ++
                [⟨.poll ⟨.mempoolTransactions, state.round⟩, some (some reply)⟩] ++
                [⟨.call .retryDelay, delay⟩]) := hseen.concat rfl not_openFailed_call
            exact ensures_retryAfterDelay (OpenPost.pending hseen.each)
              (fun delay => (hdelay delay).mayStop.tryAfter _) (hdelay _)
          next hnew =>
            obtain rfl := flattenMempool_ok hmempool
            have htriggered : Triggered (h ++ t ++ [⟨.poll ⟨.mempoolTransactions, state.round⟩,
                some (some (some (.ok current)))⟩]) baseline current := by
              obtain ⟨t', rfl⟩ := hinv.started
              exact ⟨⟨t' ++ t, state.round, by simp⟩, hnew⟩
            exact ensures_leave (OpenPost.pending hseen.each)
              (ensures_confirmOpened hseen htriggered state.opened)

theorem ensures_openAndConfirmChannel : Ensures []
    (openAndConfirmChannel request : PairTask Hash Invoice OutPoint) (OpenPost request) := by
  have hcaptured (reply) : Each (Confirming request)
      ([] ++ [⟨.call .mempoolTransactions, reply⟩] : PairTrace Hash Invoice) :=
    each_concat.mpr ⟨each_nil, (fun _ he => by cases he), fun _ hq => by cases hq⟩
  have hunfailed (reply) : ∀ e ∈ ([] ++ [⟨.call .mempoolTransactions, reply⟩] :
      PairTrace Hash Invoice), ¬ OpenFailed request e := by
    intro e he
    rw [List.mem_singleton.mp he]
    exact not_openFailed_call
  refine ensures_bitcoinOperation (.pending each_nil) (fun reply =>
    OpenPost.mayStop (hcaptured reply) (hunfailed reply)) fun result baseline hresult => ?_
  obtain rfl : result = .ok baseline := hresult
  refine ensures_tryBind (ensures_loop (fun h' _ => OpenInv request baseline h')
    (fun h state hinv => ensures_openRound hinv state) ?_)
  exact ⟨hcaptured _, ⟨[], rfl⟩, hunfailed _, rfl⟩

theorem productive_openRound (state : OpenState Hash) :
    Productive (openRound request baseline state : PairRound Hash Invoice (OpenState Hash) _) := by
  refine productive_select.bind fun result => ?_
  rcases result with _ | error | channelPoint | current
  · exact trivial
  · exact trivial
  · exact trivial
  · simp only
    split
    next =>
      intro reply
      cases reply <;> exact trivial
    next => exact trivial

theorem productive_awaitOpened (opened : Option OutPoint) :
    Productive (awaitOpened request opened : PairTask Hash Invoice OutPoint) := by
  cases opened with
  | some channelPoint => exact trivial
  | none =>
    refine (productive_finish _).bind fun reply => ?_
    split <;> exact trivial

theorem productive_bitcoinOperation {α : Type} (operation : String) (q : PairCall Hash Invoice)
    (answer : q.Answer → Except (FixtureError Hash) α) :
    Productive (bitcoinOperation operation q answer) := by
  intro reply
  cases reply with
  | none => exact trivial
  | some result =>
    simp only
    split <;> exact trivial

/-- The opening and its confirmation never stand still. -/
theorem productive_openAndConfirmChannel :
    Productive (openAndConfirmChannel request : PairTask Hash Invoice OutPoint) := by
  refine productive_tryBind (productive_bitcoinOperation _ _ _) fun baseline =>
    productive_tryBind ⟨fun state => ⟨productive_openRound state, fun state' hrun => ?_⟩,
      fun _ => trivial⟩ fun triggered => ?_
  · obtain ⟨result, hselect, hleft⟩ := hrun.silent_bind
    cases result with
    | none => cases hleft.of_done.2
    | some result => exact not_silent_select result hselect
  · refine productive_tryBind (productive_bitcoinOperation _ _ _) fun _ =>
      productive_tryBind (productive_awaitOpened _) fun channelPoint => ?_
    split <;> exact trivial

theorem mined_length_le (hall : Each (Confirming request) h) : (mined h).length ≤ 1 := by
  refine hall.length_filterMap_le fun h ⟨q, reply⟩ hjust hsome => ?_
  cases q with
  | call q =>
    cases q with
    | mineBlocks blocks =>
      have hnone : mined h = [] := (hjust.mining blocks rfl).1
      exact Nat.lt_one_iff.mpr (List.length_eq_zero_iff.mpr hnone)
    | _ => cases hsome
  | poll f => cases hsome
  | park => cases hsome

/-- Blocks are mined behind a trigger, so without one there are none. -/
theorem mined_eq_nil (hall : Each (Confirming request) h)
    (hnone : ¬ ∃ before after baseline current, h = before ++ after ∧
      Triggered before baseline current) : mined h = [] := by
  refine List.filterMap_eq_nil_iff.mpr fun e he => ?_
  obtain ⟨before, after, rfl⟩ := List.append_of_mem he
  have hjust := hall before e after rfl
  obtain ⟨q, reply⟩ := e
  cases q with
  | call q =>
    cases q with
    | mineBlocks blocks =>
      obtain ⟨-, -, baseline, current, htriggered⟩ := hjust.mining blocks rfl
      exact absurd ⟨before, _, baseline, current, rfl, htriggered⟩ hnone
    | _ => rfl
  | poll f => rfl
  | park => rfl

section Golden

def fundingTxid : Txid := ⟨List.replicate 32 7, by decide⟩

def goldenRequest : OpenChannelRequest := ⟨[], 1000, 0, by decide, by decide⟩

/-- The mempool shows the funding before the opening is reported. -/
def openedRun : PairTrace Unit Unit :=
  ⟨.call .mempoolTransactions, some (some (.ok []))⟩ ::
    ([⟨.poll (opening goldenRequest), some none⟩,
      ⟨.poll ⟨.mempoolTransactions, 0⟩, some (some (some (.ok [fundingTxid])))⟩] ++
    ⟨.call (.mineBlocks 6), some (some (.ok ()))⟩ ::
    ([⟨.poll (opening goldenRequest), some (some (some (.ok ⟨fundingTxid, 0⟩)))⟩] ++ []))

theorem runs_opened :
    Runs (openAndConfirmChannel goldenRequest) openedRun (some (.ok ⟨fundingTxid, 0⟩)) := by
  have hround (observation : Observation Unit) : Runs (openRound goldenRequest []
      ⟨none, observation, 0⟩ : PairRound Unit Unit (OpenState Unit) _)
      ([⟨.poll (opening goldenRequest), some none⟩,
        ⟨.poll ⟨.mempoolTransactions, 0⟩, some (some (some (.ok [fundingTxid])))⟩] ++ [])
      (some (.inr (.ok (none, [fundingTxid])))) := by
    refine (runs_select (b := .ok (.inr [fundingTxid])) rfl ?_).bind ?_
    · refine .inr (.inr ⟨none, _, rfl, ?_⟩)
      exact .inr (.inr ⟨some (some (.ok [fundingTxid])), _, rfl, rfl, .inr rfl⟩)
    · exact ⟨rfl, .inr rfl⟩
  refine .inr (.inr ⟨some (.ok []), _, rfl, .leave (hround _) ?_⟩)
  refine .inr (.inr ⟨some (.ok ()), _, rfl, .leave (b := some (.ok ⟨fundingTxid, 0⟩)) ?_ ?_⟩)
  · exact .inr (.inr ⟨some (some (.ok ⟨fundingTxid, 0⟩)), _, rfl, rfl, .inr rfl⟩)
  · exact ⟨rfl, .inr rfl⟩

end Golden

end Nigiri.Fixtures
