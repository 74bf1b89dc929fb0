import Nigiri.AnsweredPolling
import Nigiri.LndSync

/-! The synchronization wait goes on as long as it is answered: with probes that are ready in the
end its rounds are completed one after another, until one ends the wait or the deadline passes. -/
namespace Nigiri.Fixtures
open Nigiri.WireFormat Nigiri.Process Nigiri.Polling Nigiri.Lnd
variable {Hash Invoice : Type}

section Productive
variable {service : String} {observation : Observation Hash} {round : Nat}

theorem productive_probeRound : Productive (probeRound service observation round :
    PairTask Hash Invoice (ProbeResults Hash)) := by
  refine ⟨fun got => ⟨productive_select.bind fun result => ?_, fun got' hrun => ?_⟩,
    fun _ => trivial⟩
  · rcases result with _ | error | got' <;> exact trivial
  · obtain ⟨result, hselect, hleft⟩ := hrun.silent_bind
    cases result with
    | none => cases hleft.of_done.2
    | some result => exact not_silent_select result hselect

/-- The wait never stands still. -/
theorem productive_waitForLndSync :
    Productive (waitForLndSync : PairTask Hash Invoice Unit) := by
  refine ⟨fun state => ⟨productive_probeRound.bind fun result => ?_, fun state' hrun => ?_⟩,
    fun _ => trivial⟩
  · rcases result with stop | ⟨alice, bob, bitcoin⟩
    · exact trivial
    · simp only
      split
      next => exact trivial
      next => exact trivial
      next =>
        intro reply
        cases reply <;> exact trivial
  · obtain ⟨result, -, hleft⟩ := hrun.silent_bind
    rcases result with stop | ⟨alice, bob, bitcoin⟩
    · cases hleft.of_done.2
    · simp only at hleft
      split at hleft
      next => cases hleft.of_done.2
      next => cases hleft.of_done.2
      next =>
        obtain ⟨_, _, hnil, -⟩ := hleft.of_ask
        cases hnil

end Productive

section Prompt
variable {env : Environment (Await (PairCall Hash Invoice))
    (Await.Answer (@PairCall.Reply Hash Invoice))}
  {h : PairTrace Hash Invoice} {service : String} {observation : Observation Hash} {round : Nat}
  {got : SyncRound Hash}

/-- How many probes of a round have not completed. -/
def awaited (got : SyncRound Hash) : Nat :=
  got.aliceInfo.isNone.toNat + got.bobInfo.isNone.toNat + got.bitcoinHeight.isNone.toNat

theorem takeResults_inl {got' : SyncRound Hash} (h : takeResults got = .inl got') :
    got' = got ∧ Waiting got' := by
  unfold takeResults at h
  split at h
  next => cases h
  next hnone =>
    obtain rfl := Sum.inl.inj h
    refine ⟨rfl, ?_⟩
    cases ha : got.aliceInfo with
    | none => exact .inl ha
    | some a =>
      cases hb : got.bobInfo with
      | none => exact .inr (.inl hb)
      | some b =>
        cases hc : got.bitcoinHeight with
        | none => exact .inr (.inr hc)
        | some c => exact (hnone a b c ha hb hc).elim

/-- The handler of a live branch fills the slot of its probe. -/
theorem awaited_handler {b : Branch (@PairCall.Reply Hash Invoice) _}
    (hb : b ∈ syncBranches service observation round got) (henabled : b.enabled = true)
    {reply : PairCall.Reply b.future.call} {got' : SyncRound Hash}
    (hkept : b.handler reply = .ok got') : awaited got' < awaited got := by
  have kept {operation : String} {result : InfoResult Hash} {f : InfoResult Hash → SyncRound Hash}
      (h : (settleInfo operation result).map f = .ok got') : ∃ result', f result' = got' := by
    cases hs : settleInfo operation result with
    | error error =>
      rw [hs] at h
      cases h
    | ok result' =>
      rw [hs] at h
      exact ⟨result', Except.ok.inj h⟩
  simp only [syncBranches, List.mem_cons, List.not_mem_nil, or_false] at hb
  rcases hb with rfl | rfl | rfl
  · obtain ⟨result, rfl⟩ := kept hkept
    have hnone : got.aliceInfo.isNone = true := henabled
    simp [awaited, hnone]
  · obtain ⟨result, rfl⟩ := kept hkept
    have hnone : got.bobInfo.isNone = true := henabled
    simp [awaited, hnone]
  · obtain rfl := Except.ok.inj hkept
    have hnone : got.bitcoinHeight.isNone = true := henabled
    simp [awaited, hnone]

theorem returns_probeStep (hprompt : Prompt env) (hwaiting : Waiting got) :
    Returns env h (probeStep service observation round got) (Closer env (fun _ => Waiting)
      (fun _ => awaited) (.done : _ → PairTask Hash Invoice (ProbeResults Hash))
      (fun _ _ => True) (awaited got)) := by
  have hlive : (syncBranches service observation round got :
      List (Branch (@PairCall.Reply Hash Invoice) _)).any Branch.enabled = true :=
    hwaiting.any_enabled service observation round
  have hselect := (ensures_select (h := h) hlive).returns (returns_select hprompt hlive)
  refine returns_bind (hselect.mono fun h' result hresult => ?_)
  obtain ⟨hselected, x, rfl⟩ := hresult
  cases hselected with
  | @ready t _ b reply ht hb henabled ho _ =>
    obtain hx := (Option.some.inj (ho.resolve_left fun hnone => by cases hnone))
    obtain rfl := Option.some.inj hx
    cases hkept : b.handler reply with
    | error error => exact returns_done (returns_done trivial)
    | ok got' =>
      refine returns_done ?_
      cases htaken : takeResults got' with
      | inr results => exact returns_done trivial
      | inl got'' =>
        obtain ⟨rfl, hwaiting'⟩ := takeResults_inl htaken
        exact ⟨hwaiting', awaited_handler hb henabled hkept⟩

/-- With probes that are ready in the end a round is completed, or ends in a fatal error. -/
theorem returns_probeRound (hprompt : Prompt env) :
    Returns env h (probeRound service observation round :
      PairTask Hash Invoice (ProbeResults Hash)) fun _ _ => True :=
  returns_loop (fun _ got => Waiting got) (fun _ got => awaited got)
    (fun _ _ hwaiting => returns_probeStep hprompt hwaiting) (.inl rfl)

/-- What a round has come to: the next one behind a pause, or the end of the wait. -/
def RoundEnded (env : Environment (Await (PairCall Hash Invoice))
    (Await.Answer (@PairCall.Reply Hash Invoice))) (h : PairTrace Hash Invoice) (round : Nat)
    (h' : PairTrace Hash Invoice) :
    (String × Observation Hash × Nat) ⊕ Except (Stop Hash) Unit → Prop
  | .inl next => next.2.2 = round + 1 ∧ ∃ t, env (h ++ t) (.call .retryDelay) = some () ∧
    h' = h ++ t ++ [⟨.call .retryDelay, some (some ())⟩]
  | .inr _ => True

theorem returns_syncRound (hprompt : Prompt env) (state : String × Observation Hash × Nat) :
    Returns env h (syncRound state) (RoundEnded env h state.2.2) := by
  have hround := (ensures_runs h (probeRound state.1 state.2.1 state.2.2)).returns
    (returns_probeRound hprompt)
  refine returns_bind (hround.mono fun h' result hresult => ?_)
  obtain ⟨⟨t, rfl, -⟩, -⟩ := hresult
  rcases result with stop | ⟨alice, bob, bitcoin⟩
  · exact returns_done trivial
  · simp only
    split
    next => exact returns_done trivial
    next => exact returns_done trivial
    next =>
      refine returns_ask ?_
      cases hdelay : env (h ++ t) (.call .retryDelay) with
      | none => exact returns_done trivial
      | some u => exact returns_done ⟨rfl, t, hdelay, rfl⟩

/-- One round after another is completed, as long as none ends the wait. -/
theorem reaches_rounds (hprompt : Prompt env) (n : Nat) :
    Reaches env [] (waitForLndSync : PairTask Hash Invoice Unit) fun h o => o.isSome = true ∨
      ∀ k < n, ∃ alice bob bitcoin, RoundCompleted h k alice bob bitcoin := by
  refine reaches_loop (fun h state => SyncInv h state.2.2) (fun _ state => n - state.2.2)
    (fun h state hinv => ?_) .start
  by_cases hn : n ≤ state.2.2
  · refine ⟨[], none, runs_nil _, trivial, .inr fun k hk => ?_⟩
    rw [List.append_nil]
    exact hinv.earlier k (Nat.lt_of_lt_of_le hk hn)
  · have hround := (ensures_syncRound state hinv).returns (returns_syncRound hprompt state)
    refine Reaches.mono hround fun h' o ho => ?_
    obtain ⟨x, rfl, hinv', hx⟩ := ho
    cases x with
    | inl next =>
      have hnext : next.2.2 = state.2.2 + 1 := hx.1
      exact ⟨hinv', by simp only [hnext]; omega⟩
    | inr result =>
      rw [Nearer]
      exact reaches_done (.inl rfl)

def isPause : Await (PairCall Hash Invoice) → Bool
  | .call .retryDelay => true
  | _ => false

/-- How often the task has paused before a next attempt. -/
def pauses (h : PairTrace Hash Invoice) : Nat := h.countP fun e => isPause e.request

/-- The deadline passes in one of the pauses, if it does not pass before. -/
def Expiring (env : Environment (Await (PairCall Hash Invoice))
    (Await.Answer (@PairCall.Reply Hash Invoice))) : Prop :=
  ∃ n, ∀ h, n ≤ pauses h → env h (.call .retryDelay) = none

theorem returns_waitForLndSync (hprompt : Prompt env) (hexpiring : Expiring env) :
    Returns env [] (waitForLndSync : PairTask Hash Invoice Unit) fun _ _ => True := by
  obtain ⟨n, hn⟩ := hexpiring
  refine returns_loop (fun _ _ => True) (fun h _ => n - pauses h) (fun h state _ => ?_) trivial
  refine (returns_syncRound hprompt state).mono fun h' x hx => ?_
  cases x with
  | inl next =>
    obtain ⟨-, t, hdelay, rfl⟩ := hx
    refine ⟨trivial, ?_⟩
    have hearly : pauses (h ++ t) < n := by
      refine Nat.lt_of_not_le fun hlate => ?_
      rw [hn _ hlate] at hdelay
      cases hdelay
    have hone : pauses ([⟨.call .retryDelay, some (some ())⟩] : PairTrace Hash Invoice) = 1 := rfl
    simp only [pauses, List.countP_append] at hearly hone ⊢
    omega
  | inr result => exact returns_done trivial

end Prompt

section Ends
variable {h : PairTrace Hash Invoice} {o : Option (Except (Stop Hash) Unit)}

/-- Nothing is asked for behind the round that has synchronized the nodes, and the wait succeeds. -/
theorem runs_synchronizedAt (hrun : Runs waitForLndSync h o) {k : Nat}
    (hsync : SynchronizedAt h k) : Runs waitForLndSync h (some (.ok ())) := by
  have last {h : PairTrace Hash Invoice} {o : Option (Except (Stop Hash) Unit)}
      (hrun : Runs waitForLndSync h o) (hsync : SynchronizedAt h k) : JustCompleted h k := by
    obtain ⟨a, b, height, hcompleted, ha, hb⟩ := hsync
    obtain ⟨service, observation, before, after, rfl, hlast, -, harm⟩ :=
      (ensures_waitForLndSync h o hrun).left k _ _ _ hcompleted (fun _ he => by cases he)
        (fun _ he => by cases he)
    rw [armOf_synchronized_of ha hb] at harm
    obtain ⟨rfl, -⟩ := harm
    rwa [List.append_nil]
  obtain ⟨before, f, hf, reply, rfl⟩ := last hrun hsync
  obtain ⟨r, hr⟩ := productive_waitForLndSync.ends hrun (Option.some_ne_none _) fun q hq => by
    obtain ⟨a, b, height, hcompleted, hsync⟩ := hsync
    obtain ⟨before', f', -, reply', hsplit⟩ := last hq ⟨a, b, height, hcompleted.append _, hsync⟩
    cases (List.cons.inj (List.append_inj' hsplit rfl).2).1
  obtain rfl := (ensures_waitForLndSync _ _ hr).synchronized hsync rfl
  exact hr

theorem runs_fatal {before : PairTrace Hash Invoice} {e : PairEvent Hash Invoice}
    (hrun : Runs waitForLndSync (before ++ [e]) o) (hfatal : Fatal e) :
    ∃ operation error, isTransientLndReadiness error = false ∧
      Runs waitForLndSync (before ++ [e])
        (some (.error (.returned (.bootstrap operation error)))) := by
  have hreply : e.reply ≠ none := by
    obtain ⟨request, reply⟩ := e
    cases reply with
    | some r => exact Option.some_ne_none r
    | none =>
      cases request with
      | poll f =>
        obtain ⟨call, round⟩ := f
        cases call <;> exact hfatal.elim
      | park => exact hfatal.elim
      | call q => exact hfatal.elim
  obtain ⟨r, hr⟩ := productive_waitForLndSync.ends hrun hreply fun q hq =>
    (each_concat.mp (ensures_waitForLndSync _ _ hq).each).2.unfailed e List.mem_concat_self hfatal
  cases (ensures_waitForLndSync _ _ hr).ended r rfl with
  | synchronized k _ _ hclean => exact absurd hfatal (hclean e List.mem_concat_self).1
  | elapsed _ _ _ _ _ hclean => exact absurd hfatal (hclean e List.mem_concat_self)
  | paused _ _ _ _ hclean => exact absurd hfatal (hclean e List.mem_concat_self)
  | fatal operation _ hfatal => exact ⟨operation, _, hfatal, hr⟩

end Ends

/-- What holds of every run of the wait, whether it has ended or not. -/
structure SyncRun (h : PairTrace Hash Invoice) (o : Option (Except (Stop Hash) Unit)) : Prop where
  each : Each Polled h
  unpanicked : o ≠ some (.error .panicked)
  left : ∀ k alice bob bitcoin, RoundCompleted h k alice bob bitcoin → Settled alice →
    Settled bob → LeftThrough h o k alice bob bitcoin
  goesOn : Answered h → GoesOn waitForLndSync h
  ended : ∀ r, o = some r → SyncEnd h r
  ok_iff : ∀ r, o = some r → (r = .ok () ↔
    (∃ k, SynchronizedAt h k) ∧ ∀ e ∈ h, ¬ Fatal e ∧ ¬ Elapsed e)
  synchronized : ∀ k, SynchronizedAt h k → Runs waitForLndSync h (some (.ok ()))
  fatal : ∀ before e after, h = before ++ e :: after → Fatal e → after = [] ∧
    ∃ operation error, isTransientLndReadiness error = false ∧
      Runs waitForLndSync h (some (.error (.returned (.bootstrap operation error))))

/-- However the probes of each round interleave: a probe is polled until it has completed, and
never again; the selection never panics; a completed round is left at once through the arm of its
own results; the wait succeeds exactly in a synchronized round, with no deadline error and no fatal
error before it; a fatal error ends it at once, and nothing else but the deadline fails it. It goes
on as long as it is answered: when each probe is ready in the end, its rounds are completed one
after another until it ends, as it does when the deadline passes. -/
theorem wait_for_lnd_sync_rounds :
    (∀ (h : PairTrace Hash Invoice) o, Runs waitForLndSync h o → SyncRun h o) ∧
    ∀ env : Environment (Await (PairCall Hash Invoice)) (Await.Answer PairCall.Reply), Prompt env →
      (∀ n, Reaches env [] waitForLndSync fun h o => o.isSome = true ∨
        ∀ k < n, ∃ alice bob bitcoin, RoundCompleted h k alice bob bitcoin) ∧
      (Expiring env → Returns env [] waitForLndSync fun _ _ => True) := by
  refine ⟨fun h o hrun => ?_, fun env hprompt =>
    ⟨reaches_rounds hprompt, returns_waitForLndSync hprompt⟩⟩
  have hpost : SyncPost h o := ensures_waitForLndSync h o hrun
  refine ⟨hpost.each, ?_, hpost.left, ?_, hpost.ended, ?_, fun k => runs_synchronizedAt hrun, ?_⟩
  · intro hpanic
    cases hpost.ended _ hpanic
  · intro hanswered
    cases o with
    | none => exact productive_waitForLndSync.goesOn hrun hanswered
    | some r => exact .inl ⟨r, hrun⟩
  · intro r hr
    constructor
    · rintro rfl
      cases hpost.ended _ hr with
      | synchronized k _ hsync hclean => exact ⟨⟨k, hsync⟩, hclean⟩
    · rintro ⟨⟨k, hsync⟩, -⟩
      exact hpost.synchronized hsync hr
  · intro before e after hsplit hfatal
    have hlast : after = [] := by
      cases after with
      | nil => rfl
      | cons e' after =>
        have hlater := hpost.each (before ++ [e]) e' after (by rw [hsplit]; simp)
        exact absurd hfatal (hlater.unfailed e List.mem_concat_self)
    subst hlast hsplit
    exact ⟨rfl, runs_fatal hrun hfatal⟩

section Golden

def tip : LndSyncStatus := ⟨[], 7, true, true, false⟩

/-- Bitcoin answers first, and then both nodes, at its height. -/
def synchronizedRun : PairTrace Unit Unit :=
  [⟨.poll (aliceProbe 0), some none⟩, ⟨.poll (bobProbe 0), some none⟩,
    ⟨.poll (bitcoinProbe 0), some (some (some (.ok 7)))⟩] ++
  ([⟨.poll (aliceProbe 0), some (some (some (.ok tip)))⟩] ++
    ([⟨.poll (bobProbe 0), some (some (some (.ok tip)))⟩] ++ []))

theorem runs_probeStep {service : String} {observation : Observation Hash} {round : Nat}
    {got : SyncRound Hash} {t : PairTrace Hash Invoice} (x : SyncRound Hash)
    (hlive : (syncBranches service observation round got :
      List (Branch (@PairCall.Reply Hash Invoice) _)).any Branch.enabled = true)
    (hpass : Runs (pollPass (syncBranches service observation round got)) t
      (some (.inr (.ok x)))) :
    Runs (probeStep service observation round got) t (some (takeResults x)) := by
  rw [← List.append_nil t]
  exact (runs_select hlive hpass).bind ⟨rfl, .inr rfl⟩

theorem runs_synchronized : Runs waitForLndSync synchronizedRun (some (.ok ())) := by
  have hprobe (observation : Observation Unit) :
      Runs (probeRound "lnd-alice" observation 0 : PairTask Unit Unit _) synchronizedRun
        (some (.ok (.ok (.ok tip), .ok (.ok tip), .ok (.ok 7)))) := by
    refine .again (runs_probeStep ⟨none, none, some (.ok (.ok 7))⟩ rfl ?_)
      (.again (runs_probeStep ⟨some (.ok (.ok tip)), none, some (.ok (.ok 7))⟩ rfl ?_)
        (.leave (runs_probeStep ⟨some (.ok (.ok tip)), some (.ok (.ok tip)),
          some (.ok (.ok 7))⟩ rfl ?_) ⟨rfl, .inr rfl⟩))
    · refine .inr (.inr ⟨none, _, rfl, .inr (.inr ⟨none, _, rfl, ?_⟩)⟩)
      exact .inr (.inr ⟨some (some (.ok 7)), _, rfl, rfl, .inr rfl⟩)
    · exact .inr (.inr ⟨some (some (.ok tip)), _, rfl, rfl, .inr rfl⟩)
    · exact .inr (.inr ⟨some (some (.ok tip)), _, rfl, rfl, .inr rfl⟩)
  have hround (observation : Observation Unit) :
      Runs (syncRound ("lnd-alice", observation, 0)) (synchronizedRun ++ [])
        (some (.inr (.ok ()))) := by
    unfold syncRound
    refine (hprobe observation).bind ?_
    exact ⟨rfl, .inr rfl⟩
  rw [← List.append_nil synchronizedRun]
  exact .leave (hround _) ⟨rfl, .inr rfl⟩

/-- Every probe is ready at once, and the deadline passes in the first pause. -/
def caughtUp : Environment (Await (PairCall Unit Unit)) (Await.Answer PairCall.Reply)
  | _, .poll ⟨.getInfo _, _⟩ => some (some (.ok tip))
  | _, .poll ⟨.blockHeight, _⟩ => some (some (.ok 7))
  | _, .poll _ => some none
  | _, .call _ => none
  | _, .park => ()

theorem prompt_caughtUp : Prompt caughtUp := by
  rintro h ⟨call, round⟩
  refine ⟨0, fun t _ _ => ?_⟩
  cases call <;> exact Option.some_ne_none _

/-- The run succeeded in its first round, and among nodes that have caught up the wait returns. -/
theorem wait_for_lnd_sync_rounds_first :
    ((∃ k, SynchronizedAt synchronizedRun k) ∧
      ∀ e ∈ synchronizedRun, ¬ Fatal e ∧ ¬ Elapsed e) ∧
    Returns caughtUp [] waitForLndSync fun _ _ => True :=
  ⟨((wait_for_lnd_sync_rounds.1 synchronizedRun _ runs_synchronized).ok_iff _ rfl).mp rfl,
    (wait_for_lnd_sync_rounds.2 caughtUp prompt_caughtUp).2 ⟨0, fun _ _ => rfl⟩⟩

end Golden

end Nigiri.Fixtures
