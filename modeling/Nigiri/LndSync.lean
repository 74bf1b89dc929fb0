import Nigiri.LndPair

/-! The synchronization wait, whatever the order in which its probes complete: each is polled
until it has completed, a round is left with the results of all three, and only a deadline or an
LND error that is not transient ends the wait before both nodes stand at the tip. As long as its
probes are answered, the wait goes on. -/
namespace Nigiri.Fixtures
open Nigiri.WireFormat Nigiri.Process Nigiri.Polling Nigiri.Lnd
variable {Hash Invoice : Type}

abbrev Probe (Hash Invoice : Type) := Started (PairCall Hash Invoice)

def aliceProbe (round : Nat) : Probe Hash Invoice := ⟨.getInfo .alice, round⟩
def bobProbe (round : Nat) : Probe Hash Invoice := ⟨.getInfo .bob, round⟩
def bitcoinProbe (round : Nat) : Probe Hash Invoice := ⟨.blockHeight, round⟩

/-- The probe has been polled and was ready with this reply. -/
def Completed (h : PairTrace Hash Invoice) (f : Probe Hash Invoice) (reply : f.call.Reply) : Prop :=
  (⟨.poll f, some (some reply)⟩ : PairEvent Hash Invoice) ∈ h

/-- An LND error that is not transient. -/
def Fatal : PairEvent Hash Invoice → Prop
  | ⟨.poll ⟨.getInfo _, _⟩, some (some (some (.error error)))⟩ =>
    isTransientLndReadiness error = false
  | _ => False

/-- The deadline has passed during a probe or between two rounds. -/
def Elapsed : PairEvent Hash Invoice → Prop
  | ⟨.poll _, some (some none)⟩ => True
  | ⟨.call _, some none⟩ => True
  | _ => False

/-- All three probes of a round have completed, with these replies. -/
structure RoundCompleted (h : PairTrace Hash Invoice) (round : Nat)
    (alice bob : Option (Except (LndError Hash) LndSyncStatus))
    (bitcoin : Option (Except (FixtureError Hash) UInt64)) : Prop where
  alice : Completed h (aliceProbe round) alice
  bob : Completed h (bobProbe round) bob
  bitcoin : Completed h (bitcoinProbe round) bitcoin

def probes (round : Nat) : List (Probe Hash Invoice) :=
  [aliceProbe round, bobProbe round, bitcoinProbe round]

/-- The arm through which a round is left, for the replies of its three probes. -/
def armOf (service : String) (observation : Observation Hash)
    (alice bob : Option (Except (LndError Hash) LndSyncStatus))
    (bitcoin : Option (Except (FixtureError Hash) UInt64)) : SyncArm Hash :=
  leaveRound (deadlineReply service observation alice) (deadlineReply "lnd-bob" observation bob)
    (deadlineReply "bitcoind" observation bitcoin)

def Incomplete (h : PairTrace Hash Invoice) (f : Probe Hash Invoice) : Prop :=
  ∀ reply, ¬ Completed h f reply

/-- A probe of this round has completed last. -/
def JustCompleted (h : PairTrace Hash Invoice) (round : Nat) : Prop :=
  ∃ before, ∃ f ∈ probes round, ∃ reply, h = before ++ [⟨.poll f, some (some reply)⟩]

/-- A round is incomplete, and since the last sleep each of its probes that has not completed was
polled in vain. -/
structure Stalled (h : PairTrace Hash Invoice) (round : Nat) : Prop where
  incomplete : ∃ f ∈ probes round, Incomplete h f
  polled : ∀ f ∈ probes round, Incomplete h f → PolledSince h f

/-- A round has just been completed, and its replies leave it for another one. -/
def ToRepeat (h : PairTrace Hash Invoice) (round : Nat) : Prop :=
  JustCompleted h round ∧ ∃ service observation service' observation' alice bob bitcoin,
    RoundCompleted h round alice bob bitcoin ∧
    armOf service observation alice bob bitcoin = .again service' observation'

/-- What must hold of the history when a request is made: no fatal error has come; what is polled
is a probe that has not completed, of a round behind completed ones; the task sleeps when it has
to wait for the probes of a round, and pauses when a round has to be repeated. -/
structure Polled (h : PairTrace Hash Invoice) (q : Await (PairCall Hash Invoice)) : Prop where
  unfailed : ∀ e ∈ h, ¬ Fatal e
  incomplete : ∀ f, q = .poll f → f ∈ probes f.round ∧ Incomplete h f
  earlier : ∀ f, q = .poll f → ∀ k < f.round, ∃ alice bob bitcoin,
    RoundCompleted h k alice bob bitcoin
  slept : q = .park → ∃ round, Stalled h round ∧ ∀ k < round, ∃ alice bob bitcoin,
    RoundCompleted h k alice bob bitcoin
  paused : ∀ c, q = .call c → c = .retryDelay ∧ ∃ round, ToRepeat h round

/-- A completed round is left through the arm of its own replies, at once: the wait ends there, or
pauses before the next round. -/
def LeftThrough (h : PairTrace Hash Invoice) (o : Option (Except (Stop Hash) Unit)) (round : Nat)
    (alice bob : Option (Except (LndError Hash) LndSyncStatus))
    (bitcoin : Option (Except (FixtureError Hash) UInt64)) : Prop :=
  ∃ service observation before after, h = before ++ after ∧ JustCompleted before round ∧
    RoundCompleted before round alice bob bitcoin ∧
    match armOf service observation alice bob bitcoin with
    | .synchronized => after = [] ∧ (o = none ∨ o = some (.ok ()))
    | .failed error => after = [] ∧ (o = none ∨ o = some (.error (.returned error)))
    | .again service observation => (after = [] ∧ o = none) ∨
      ∃ reply rest, after = ⟨.call .retryDelay, reply⟩ :: rest ∧
        (reply = some (some ()) ∨ rest = [] ∧ (o = none ∨ reply = some none ∧
          o = some (.error (.returned (.readinessTimeout service observation)))))

/-- Both nodes are on regtest, synchronized, and at the height Bitcoin reported in this round. -/
def SynchronizedAt (h : PairTrace Hash Invoice) (round : Nat) : Prop :=
  ∃ alice bob bitcoinHeight,
    RoundCompleted h round (some (.ok alice)) (some (.ok bob)) (some (.ok bitcoinHeight)) ∧
    chainSynchronized alice bitcoinHeight = true ∧ chainSynchronized bob bitcoinHeight = true

/-- How a wait has ended: in the arm of a round just completed, in the pause behind one, or with a
fatal error. -/
inductive SyncEnd (h : PairTrace Hash Invoice) : Except (Stop Hash) Unit → Prop where
  | synchronized (round : Nat) (hlast : JustCompleted h round) (hsync : SynchronizedAt h round)
    (hclean : ∀ e ∈ h, ¬ Fatal e ∧ ¬ Elapsed e) : SyncEnd h (.ok ())
  | elapsed {round : Nat} {alice bob : Option (Except (LndError Hash) LndSyncStatus)}
    {bitcoin : Option (Except (FixtureError Hash) UInt64)} (service : String)
    (observation : Observation Hash) (hlast : JustCompleted h round)
    (hcompleted : RoundCompleted h round alice bob bitcoin)
    (helapsed : alice = none ∨ bob = none ∨ bitcoin = none) (hclean : ∀ e ∈ h, ¬ Fatal e) :
    SyncEnd h (.error (.returned (.readinessTimeout service observation)))
  | paused {before : PairTrace Hash Invoice} {round : Nat} (service : String)
    (observation : Observation Hash) (hlast : h = before ++ [⟨.call .retryDelay, some none⟩])
    (hrepeat : ToRepeat before round) (hclean : ∀ e ∈ h, ¬ Fatal e) :
    SyncEnd h (.error (.returned (.readinessTimeout service observation)))
  | fatal {before : PairTrace Hash Invoice} {node : Node} {round : Nat} (operation : String)
    {error : LndError Hash}
    (hlast : h = before ++ [⟨.poll ⟨.getInfo node, round⟩, some (some (some (.error error)))⟩])
    (hfatal : isTransientLndReadiness error = false) :
    SyncEnd h (.error (.returned (.bootstrap operation error)))

/-- A node's reply that does not end the wait by itself. -/
def Settled (reply : Option (Except (LndError Hash) LndSyncStatus)) : Prop :=
  ∀ error, reply = some (.error error) → isTransientLndReadiness error = true

structure SyncPost (h : PairTrace Hash Invoice) (o : Option (Except (Stop Hash) Unit)) :
    Prop where
  each : Each Polled h
  left : ∀ k alice bob bitcoin, RoundCompleted h k alice bob bitcoin → Settled alice →
    Settled bob → LeftThrough h o k alice bob bitcoin
  ended : ∀ r, o = some r → SyncEnd h r

variable {h t : PairTrace Hash Invoice}

theorem Completed.append {f : Probe Hash Invoice} {reply : f.call.Reply} (hc : Completed h f reply)
    (t : PairTrace Hash Invoice) : Completed (h ++ t) f reply := List.mem_append_left _ hc

theorem RoundCompleted.append {k : Nat}
    {alice bob : Option (Except (LndError Hash) LndSyncStatus)}
    {bitcoin : Option (Except (FixtureError Hash) UInt64)}
    (hr : RoundCompleted h k alice bob bitcoin) (t : PairTrace Hash Invoice) :
    RoundCompleted (h ++ t) k alice bob bitcoin :=
  ⟨hr.alice.append t, hr.bob.append t, hr.bitcoin.append t⟩

/-- A call completes no probe. -/
theorem RoundCompleted.of_call {k : Nat}
    {alice bob : Option (Except (LndError Hash) LndSyncStatus)}
    {bitcoin : Option (Except (FixtureError Hash) UInt64)} {q : PairCall Hash Invoice}
    {reply : Option q.Reply} (hr : RoundCompleted (h ++ [⟨.call q, reply⟩]) k alice bob bitcoin) :
    RoundCompleted h k alice bob bitcoin := by
  have hsplit {f : Probe Hash Invoice} {answer : f.call.Reply}
      (hc : Completed (h ++ [⟨.call q, reply⟩]) f answer) : Completed h f answer :=
    (List.mem_append.mp hc).resolve_right fun hlast => by
      have hcall := congrArg Event.request (List.mem_singleton.mp hlast)
      cases hcall
  exact ⟨hsplit hr.alice, hsplit hr.bob, hsplit hr.bitcoin⟩

/-- A probe completes once. -/
theorem Completed.unique (hall : Each Polled h) {f : Probe Hash Invoice}
    {reply reply' : f.call.Reply} (hc : Completed h f reply) (hc' : Completed h f reply') :
    reply = reply' := by
  obtain ⟨before, after, rfl⟩ := List.append_of_mem hc
  rcases List.mem_append.mp hc' with hbefore | hafter
  · exact absurd hbefore (((hall before _ after rfl).incomplete f rfl).2 reply')
  · rcases List.mem_cons.mp hafter with hsame | hafter
    · simpa using hsame.symm
    · obtain ⟨between, rest, rfl⟩ := List.append_of_mem hafter
      have hlater := hall (before ++ ⟨.poll f, some (some reply)⟩ :: between)
        ⟨.poll f, some (some reply')⟩ rest (by simp)
      have hbefore : Completed (before ++ ⟨.poll f, some (some reply)⟩ :: between) f reply :=
        List.mem_append_right _ List.mem_cons_self
      exact absurd hbefore ((hlater.incomplete f rfl).2 reply)

theorem RoundCompleted.unique (hall : Each Polled h) {k : Nat}
    {alice bob alice' bob' : Option (Except (LndError Hash) LndSyncStatus)}
    {bitcoin bitcoin' : Option (Except (FixtureError Hash) UInt64)}
    (hr : RoundCompleted h k alice bob bitcoin) (hr' : RoundCompleted h k alice' bob' bitcoin') :
    alice = alice' ∧ bob = bob' ∧ bitcoin = bitcoin' :=
  ⟨hr.alice.unique hall hr'.alice, hr.bob.unique hall hr'.bob, hr.bitcoin.unique hall hr'.bitcoin⟩

theorem not_fatal_of_idle {S : Probe Hash Invoice → Prop} {e : PairEvent Hash Invoice}
    (he : Idle S e) : ¬ Fatal e := by
  obtain ⟨request, reply⟩ := e
  cases request with
  | call q => exact he.elim
  | park => exact fun hf => hf
  | poll f =>
    intro hf
    obtain ⟨call, round⟩ := f
    cases call with
    | getInfo node =>
      match reply with
      | none => exact hf
      | some none => exact hf
      | some (some reply) => exact he.2 reply rfl
    | _ => exact hf

theorem RoundCompleted.complete {k : Nat}
    {alice bob : Option (Except (LndError Hash) LndSyncStatus)}
    {bitcoin : Option (Except (FixtureError Hash) UInt64)}
    (hr : RoundCompleted h k alice bob bitcoin) {f : Probe Hash Invoice} (hf : f ∈ probes k) :
    ¬ Incomplete h f := by
  simp only [probes, List.mem_cons, List.not_mem_nil, or_false] at hf
  rcases hf with rfl | rfl | rfl
  · exact fun hnone => hnone _ hr.alice
  · exact fun hnone => hnone _ hr.bob
  · exact fun hnone => hnone _ hr.bitcoin

theorem JustCompleted.append {k : Nat} (ht : JustCompleted t k) (h : PairTrace Hash Invoice) :
    JustCompleted (h ++ t) k := by
  obtain ⟨before, f, hf, reply, rfl⟩ := ht
  exact ⟨h ++ before, f, hf, reply, (List.append_assoc ..).symm⟩

theorem not_completed_of_idle {S : Probe Hash Invoice → Prop} (ht : AllIdle S t)
    {f : Probe Hash Invoice} (reply : f.call.Reply) : ¬ Completed t f reply :=
  fun hc => (ht _ hc).2 reply rfl

section Arms
variable {service : String} {observation : Observation Hash}
  {alice bob : Option (Except (LndError Hash) LndSyncStatus)}
  {bitcoin : Option (Except (FixtureError Hash) UInt64)}

theorem armOf_synchronized (harm : armOf service observation alice bob bitcoin = .synchronized) :
    ∃ a b height, alice = some (.ok a) ∧ bob = some (.ok b) ∧ bitcoin = some (.ok height) ∧
      chainSynchronized a height = true ∧ chainSynchronized b height = true := by
  rcases alice with _ | ⟨_ | a⟩ <;> rcases bob with _ | ⟨_ | b⟩ <;>
    rcases bitcoin with _ | ⟨_ | height⟩ <;>
    simp only [armOf, deadlineReply, leaveRound, reduceCtorEq] at harm
  split at harm
  next hsync => exact ⟨a, b, height, rfl, rfl, rfl, Bool.and_eq_true_iff.mp hsync⟩
  next => cases harm

theorem armOf_synchronized_of {a b : LndSyncStatus} {height : UInt64}
    (ha : chainSynchronized a height = true) (hb : chainSynchronized b height = true) :
    armOf service observation (some (.ok a) : Option (Except (LndError Hash) LndSyncStatus))
      (some (.ok b)) (some (.ok height)) = .synchronized := by
  simp only [armOf, deadlineReply, leaveRound, ha, hb, Bool.and_self, if_true]

/-- A deadline error of a probe, once the round is complete, ends the wait. -/
theorem armOf_failed {error : FixtureError Hash}
    (harm : armOf service observation alice bob bitcoin = .failed error) :
    (∃ service' observation', error = .readinessTimeout service' observation') ∧
      (alice = none ∨ bob = none ∨ bitcoin = none) := by
  rcases alice with _ | ⟨_ | a⟩ <;> rcases bob with _ | ⟨_ | b⟩ <;>
    rcases bitcoin with _ | ⟨_ | height⟩ <;>
    simp only [armOf, deadlineReply, leaveRound, reduceCtorEq, SyncArm.failed.injEq] at harm
  all_goals first
    | exact ⟨⟨_, _, harm.symm⟩, by simp⟩
    | (split at harm <;> cases harm)

theorem armOf_again {service' : String} {observation' : Observation Hash}
    (harm : armOf service observation alice bob bitcoin = .again service' observation') :
    alice ≠ none ∧ bob ≠ none ∧ bitcoin ≠ none := by
  rcases alice with _ | ⟨_ | a⟩ <;> rcases bob with _ | ⟨_ | b⟩ <;>
    rcases bitcoin with _ | ⟨_ | height⟩ <;>
    simp_all [armOf, deadlineReply, leaveRound]

end Arms

/-- A round was completed and left for the next one. -/
def Retried (h : PairTrace Hash Invoice) (round : Nat)
    (alice bob : Option (Except (LndError Hash) LndSyncStatus))
    (bitcoin : Option (Except (FixtureError Hash) UInt64)) : Prop :=
  ∃ service observation service' observation' before rest,
    h = before ++ ⟨.call .retryDelay, some (some ())⟩ :: rest ∧ JustCompleted before round ∧
    RoundCompleted before round alice bob bitcoin ∧
    armOf service observation alice bob bitcoin = .again service' observation'

/-- The history when a round begins. -/
structure SyncInv (h : PairTrace Hash Invoice) (round : Nat) : Prop where
  each : Each Polled h
  clean : ∀ e ∈ h, ¬ Fatal e ∧ ¬ Elapsed e
  polls : ∀ e ∈ h, ∀ f, e.request = .poll f → f.round < round
  earlier : ∀ k < round, ∃ alice bob bitcoin, RoundCompleted h k alice bob bitcoin
  left : ∀ k alice bob bitcoin, RoundCompleted h k alice bob bitcoin →
    Retried h k alice bob bitcoin

/-- What a round adds to the history: polls of its own probes, and no other request. -/
def OwnPolls (round : Nat) (t : PairTrace Hash Invoice) : Prop :=
  ∀ e ∈ t, e.request = .park ∨ ∃ f ∈ probes round, e.request = .poll f

theorem OwnPolls.round_eq {round : Nat} (ht : OwnPolls round t) {f : Probe Hash Invoice}
    {reply : f.call.Reply} (hc : Completed t f reply) : f.round = round := by
  rcases ht _ hc with hpark | ⟨f', hf', hpoll⟩
  · cases hpark
  · obtain rfl := Await.poll.inj hpoll
    simp only [probes, List.mem_cons, List.not_mem_nil, or_false] at hf'
    rcases hf' with rfl | rfl | rfl <;> rfl

theorem OwnPolls.append {round : Nat} {t' : PairTrace Hash Invoice} (ht : OwnPolls round t)
    (ht' : OwnPolls round t') : OwnPolls round (t ++ t') :=
  fun e he => (List.mem_append.mp he).elim (ht e) (ht' e)

theorem Retried.leftThrough {k : Nat} {alice bob : Option (Except (LndError Hash) LndSyncStatus)}
    {bitcoin : Option (Except (FixtureError Hash) UInt64)} (hr : Retried h k alice bob bitcoin)
    (t : PairTrace Hash Invoice) (o : Option (Except (Stop Hash) Unit)) :
    LeftThrough (h ++ t) o k alice bob bitcoin := by
  obtain ⟨service, observation, _, _, before, rest, rfl, hlast, hcompleted, harm⟩ := hr
  refine ⟨service, observation, before, ⟨.call .retryDelay, some (some ())⟩ :: (rest ++ t),
    by simp, hlast, hcompleted, ?_⟩
  rw [harm]
  exact .inr ⟨_, _, rfl, .inl rfl⟩

/-- While nothing follows the completion of a round, any arm may still be taken. -/
theorem RoundCompleted.leftThrough {k : Nat}
    {alice bob : Option (Except (LndError Hash) LndSyncStatus)}
    {bitcoin : Option (Except (FixtureError Hash) UInt64)}
    (hr : RoundCompleted h k alice bob bitcoin) (hlast : JustCompleted h k) :
    LeftThrough h none k alice bob bitcoin := by
  refine ⟨"lnd-alice", .operation "", h, [], (List.append_nil h).symm, hlast, hr, ?_⟩
  split
  · exact ⟨rfl, .inl rfl⟩
  · exact ⟨rfl, .inl rfl⟩
  · exact .inl ⟨rfl, rfl⟩

/-- Rounds that completed before this one began are in the history it began with. -/
theorem SyncInv.completed_or {round k : Nat} (hinv : SyncInv h round) (ht : OwnPolls round t)
    {alice bob : Option (Except (LndError Hash) LndSyncStatus)}
    {bitcoin : Option (Except (FixtureError Hash) UInt64)}
    (hr : RoundCompleted (h ++ t) k alice bob bitcoin) :
    RoundCompleted h k alice bob bitcoin ∨ k = round ∧ RoundCompleted t k alice bob bitcoin := by
  have hpart {f : Probe Hash Invoice} {reply : f.call.Reply} (hc : Completed (h ++ t) f reply) :
      (Completed h f reply ∧ f.round < round) ∨ (Completed t f reply ∧ f.round = round) :=
    (List.mem_append.mp hc).imp (fun hc => ⟨hc, hinv.polls _ hc f rfl⟩)
      fun hc => ⟨hc, ht.round_eq hc⟩
  rcases hpart hr.alice with ⟨ha, hlt⟩ | ⟨ha, heq⟩
  · have hb := (hpart hr.bob).resolve_right fun hb => absurd hb.2 (Nat.ne_of_lt hlt)
    have hc := (hpart hr.bitcoin).resolve_right fun hc => absurd hc.2 (Nat.ne_of_lt hlt)
    exact .inl ⟨ha, hb.1, hc.1⟩
  · have hb := (hpart hr.bob).resolve_left fun hb => absurd heq (Nat.ne_of_lt hb.2)
    have hc := (hpart hr.bitcoin).resolve_left fun hc => absurd heq (Nat.ne_of_lt hc.2)
    exact .inr ⟨heq, ha, hb.1, hc.1⟩

/-- A round is incomplete, or its last probe has just completed. -/
def InRound (t : PairTrace Hash Invoice) (round : Nat) : Prop :=
  (∃ f ∈ probes round, Incomplete t f) ∨ JustCompleted t round

theorem SyncInv.pending {round : Nat} (hinv : SyncInv h round) (hall : Each Polled (h ++ t))
    (ht : OwnPolls round t) (hround : InRound t round) : SyncPost (h ++ t) none := by
  refine ⟨hall, fun k alice bob bitcoin hr _ _ => ?_, fun r hr => by cases hr⟩
  rcases hinv.completed_or ht hr with hearlier | ⟨rfl, hnow⟩
  · exact (hinv.left k _ _ _ hearlier).leftThrough t none
  · refine hr.leftThrough ((hround.resolve_left ?_).append h)
    rintro ⟨f, hf, hnone⟩
    exact hnow.complete hf hnone

/-- A slot holds the result of its probe, once that has completed. -/
def Slot {β : Type} (t : PairTrace Hash Invoice) (f : Probe Hash Invoice)
    (conv : f.call.Reply → β) : Option β → Prop
  | none => Incomplete t f
  | some x => ∃ reply, Completed t f reply ∧ conv reply = x

theorem Slot.append {β : Type} {f : Probe Hash Invoice} {conv : f.call.Reply → β}
    {slot : Option β} (hslot : Slot t f conv slot) {t' : PairTrace Hash Invoice}
    (ht' : ∀ reply, ¬ Completed t' f reply) : Slot (t ++ t') f conv slot := by
  cases slot with
  | none => exact fun reply hc => (List.mem_append.mp hc).elim (hslot reply) (ht' reply)
  | some x =>
    obtain ⟨reply, hc, hx⟩ := hslot
    exact ⟨reply, hc.append t', hx⟩

section Round
variable {service : String} {observation : Observation Hash} {round : Nat} {got : SyncRound Hash}

/-- Within a round: no fatal error yet, and every result is kept in its slot. -/
structure Probing (service : String) (observation : Observation Hash) (round : Nat)
    (h t : PairTrace Hash Invoice) (got : SyncRound Hash) : Prop where
  each : Each Polled (h ++ t)
  unfailed : ∀ e ∈ t, ¬ Fatal e
  polls : OwnPolls round t
  alice : Slot t (aliceProbe round) (deadlineReply service observation) got.aliceInfo
  bob : Slot t (bobProbe round) (deadlineReply "lnd-bob" observation) got.bobInfo
  bitcoin : Slot t (bitcoinProbe round) (deadlineReply "bitcoind" observation) got.bitcoinHeight

/-- A probe that has not completed. -/
def Waiting (got : SyncRound Hash) : Prop :=
  got.aliceInfo = none ∨ got.bobInfo = none ∨ got.bitcoinHeight = none

/-- A round ends with an LND error that is not transient, or with the results of all probes. -/
def ProbePost (service : String) (observation : Observation Hash) (round : Nat)
    (h h' : PairTrace Hash Invoice)
    (o : Option (Except (Stop Hash) (ProbeResults Hash))) : Prop :=
  ∃ t, h' = h ++ t ∧ Each Polled h' ∧ OwnPolls round t ∧ InRound t round ∧ match o with
    | none => True
    | some (.error stop) => ∃ operation node error before,
      stop = .returned (.bootstrap operation error) ∧ isTransientLndReadiness error = false ∧
      h' = before ++ [⟨.poll ⟨.getInfo node, round⟩, some (some (some (.error error)))⟩]
    | some (.ok (a, b, c)) => (∀ e ∈ t, ¬ Fatal e) ∧ JustCompleted t round ∧ ∃ alice bob bitcoin,
      RoundCompleted t round alice bob bitcoin ∧ deadlineReply service observation alice = a ∧
      deadlineReply "lnd-bob" observation bob = b ∧ deadlineReply "bitcoind" observation bitcoin = c

theorem settleInfo_cases (service operation : String) (observation : Observation Hash)
    (reply : Option (Except (LndError Hash) LndSyncStatus)) :
    (∃ error, reply = some (.error error) ∧ isTransientLndReadiness error = false ∧
      settleInfo operation (deadlineReply service observation reply)
        = .error (.bootstrap operation error)) ∨
    (settleInfo operation (deadlineReply service observation reply)
        = .ok (deadlineReply service observation reply) ∧
      ∀ node round, ¬ Fatal (⟨.poll ⟨.getInfo node, round⟩, some (some reply)⟩ :
        PairEvent Hash Invoice)) := by
  match reply with
  | none => exact .inr ⟨rfl, fun _ _ hf => hf⟩
  | some (.ok status) => exact .inr ⟨rfl, fun _ _ hf => hf⟩
  | some (.error error) =>
    cases ht : isTransientLndReadiness error with
    | true =>
      refine .inr ⟨?_, fun _ _ hf => ?_⟩
      · simp only [settleInfo, deadlineReply, ht, if_true]
      · have hfalse : isTransientLndReadiness error = false := hf
        rw [ht] at hfalse
        cases hfalse
    | false =>
      refine .inl ⟨error, rfl, ht, ?_⟩
      simp [settleInfo, deadlineReply, ht]

/-- A branch is live for a probe that has not completed. -/
theorem Probing.live (hprobing : Probing service observation round h t got)
    {f : Probe Hash Invoice} (hf : Live (syncBranches service observation round got) f) :
    f ∈ probes round ∧ ∀ reply, ¬ Completed t f reply := by
  obtain ⟨b, hb, henabled, rfl⟩ := hf
  simp only [syncBranches, List.mem_cons, List.not_mem_nil, or_false] at hb
  rcases hb with rfl | rfl | rfl
  · have hslot := hprobing.alice
    rw [Option.isNone_iff_eq_none.mp henabled] at hslot
    exact ⟨by simp [probes, aliceProbe], hslot⟩
  · have hslot := hprobing.bob
    rw [Option.isNone_iff_eq_none.mp henabled] at hslot
    exact ⟨by simp [probes, bobProbe], hslot⟩
  · have hslot := hprobing.bitcoin
    rw [Option.isNone_iff_eq_none.mp henabled] at hslot
    exact ⟨by simp [probes, bitcoinProbe], hslot⟩

/-- So a probe that has not completed is live. -/
theorem Probing.live_of_incomplete (hprobing : Probing service observation round h t got)
    {f : Probe Hash Invoice} (hf : f ∈ probes round) (hnone : Incomplete t f) :
    Live (syncBranches service observation round got) f := by
  simp only [probes, List.mem_cons, List.not_mem_nil, or_false] at hf
  rcases hf with rfl | rfl | rfl
  · have hslot := hprobing.alice
    cases ha : got.aliceInfo with
    | none => exact ⟨_, List.mem_cons_self, by rw [ha]; rfl, rfl⟩
    | some a =>
      rw [ha] at hslot
      obtain ⟨reply, hc, -⟩ := hslot
      exact absurd hc (hnone reply)
  · have hslot := hprobing.bob
    cases hb : got.bobInfo with
    | none => exact ⟨_, List.mem_cons_of_mem _ List.mem_cons_self, by rw [hb]; rfl, rfl⟩
    | some b =>
      rw [hb] at hslot
      obtain ⟨reply, hc, -⟩ := hslot
      exact absurd hc (hnone reply)
  · have hslot := hprobing.bitcoin
    cases hc : got.bitcoinHeight with
    | none => exact ⟨_, List.mem_cons_of_mem _ (List.mem_cons_of_mem _ List.mem_cons_self),
        by rw [hc]; rfl, rfl⟩
    | some c =>
      rw [hc] at hslot
      obtain ⟨reply, hc, -⟩ := hslot
      exact absurd hc (hnone reply)

/-- While a slot is empty, its probe is what the round waits for. -/
theorem Probing.incomplete (hprobing : Probing service observation round h t got)
    (hwaiting : Waiting got) : ∃ f ∈ probes round, Incomplete t f := by
  have halice := hprobing.alice
  have hbob := hprobing.bob
  have hbitcoin := hprobing.bitcoin
  rcases hwaiting with hnone | hnone | hnone
  · rw [hnone] at halice
    exact ⟨_, List.mem_cons_self, halice⟩
  · rw [hnone] at hbob
    exact ⟨_, List.mem_cons_of_mem _ List.mem_cons_self, hbob⟩
  · rw [hnone] at hbitcoin
    exact ⟨_, List.mem_cons_of_mem _ (List.mem_cons_of_mem _ List.mem_cons_self), hbitcoin⟩

theorem probes_round {f : Probe Hash Invoice} (hf : f ∈ probes round) : f.round = round := by
  simp only [probes, List.mem_cons, List.not_mem_nil, or_false] at hf
  rcases hf with rfl | rfl | rfl <;> rfl

theorem Incomplete.idle {f : Probe Hash Invoice} (hf : Incomplete t f)
    {S : Probe Hash Invoice → Prop} {t' : PairTrace Hash Invoice} (ht' : AllIdle S t') :
    Incomplete (t ++ t') f := fun reply hc =>
  (List.mem_append.mp hc).elim (hf reply) (not_completed_of_idle ht' reply)

/-- No earlier round has completed a probe of this one. -/
theorem Probing.fresh (hprobing : Probing service observation round h t got)
    (hinv : SyncInv h round) {S : Probe Hash Invoice → Prop} {t' : PairTrace Hash Invoice}
    (ht' : AllIdle S t') {f : Probe Hash Invoice} (hf : f ∈ probes round)
    (hfresh : Incomplete t f) :
    (∀ e ∈ h ++ t ++ t', ¬ Fatal e) ∧ Incomplete (h ++ t ++ t') f := by
  constructor
  · intro e he
    rcases List.mem_append.mp he with he | he
    · exact (List.mem_append.mp he).elim (fun he => (hinv.clean e he).1) (hprobing.unfailed e)
    · exact not_fatal_of_idle (ht' e he)
  · refine Incomplete.idle (fun reply hc => ?_) ht'
    rcases List.mem_append.mp hc with hc | hc
    · exact absurd (hinv.polls _ hc f rfl) (by rw [probes_round hf]; exact Nat.lt_irrefl _)
    · exact hfresh reply hc

theorem SyncInv.completed_before (hinv : SyncInv h round) (t : PairTrace Hash Invoice) {k : Nat}
    (hk : k < round) : ∃ alice bob bitcoin, RoundCompleted (h ++ t) k alice bob bitcoin := by
  obtain ⟨alice, bob, bitcoin, hr⟩ := hinv.earlier k hk
  exact ⟨alice, bob, bitcoin, hr.append t⟩

theorem Probing.polled (hprobing : Probing service observation round h t got)
    (hinv : SyncInv h round) {S : Probe Hash Invoice → Prop} {t' : PairTrace Hash Invoice}
    (ht' : AllIdle S t') {f : Probe Hash Invoice} (hf : f ∈ probes round)
    (hfresh : Incomplete t f) : Polled (h ++ t ++ t') (.poll f) := by
  obtain ⟨hunfailed, hincomplete⟩ := hprobing.fresh hinv ht' hf hfresh
  refine ⟨hunfailed, fun f' hpoll => ?_, fun f' hpoll k hk => ?_, fun hpark => (by cases hpark),
    fun c hcall => by cases hcall⟩
  · obtain rfl := Await.poll.inj hpoll
    refine ⟨?_, hincomplete⟩
    rwa [probes_round hf]
  · obtain rfl := Await.poll.inj hpoll
    rw [probes_round hf] at hk
    rw [List.append_assoc]
    exact hinv.completed_before _ hk

/-- The task sleeps in a round once every probe that has not completed was polled. -/
theorem Probing.slept (hprobing : Probing service observation round h t got)
    (hwaiting : Waiting got) (hinv : SyncInv h round) {t' : PairTrace Hash Invoice}
    (ht' : AllIdle (Live (syncBranches service observation round got)) t')
    (hall : ∀ f, Live (syncBranches service observation round got) f → PolledSince t' f) :
    Polled (h ++ t ++ t') .park := by
  obtain ⟨f, hf, hnone⟩ := hprobing.incomplete hwaiting
  obtain ⟨hunfailed, hincomplete⟩ := hprobing.fresh hinv ht' hf hnone
  refine ⟨hunfailed, fun f hpoll => (by cases hpoll), fun f hpoll => (by cases hpoll),
    fun _ => ⟨round, ⟨⟨f, hf, hincomplete⟩, fun f' hf' hnone' => ?_⟩, fun k hk => ?_⟩,
    fun c hcall => by cases hcall⟩
  · refine (hall f' (hprobing.live_of_incomplete hf' fun reply hc => ?_)).append _
    exact hnone' reply (List.mem_append_left _ (List.mem_append_right _ hc))
  · rw [List.append_assoc]
    exact hinv.completed_before _ hk

/-- Idle events of a round keep the history of the round. -/
theorem Probing.idle (hprobing : Probing service observation round h t got)
    (hwaiting : Waiting got) (hinv : SyncInv h round) {t' : PairTrace Hash Invoice}
    (ht' : AllIdle (Live (syncBranches service observation round got)) t')
    (hs : Attentive (Live (syncBranches service observation round got)) t') :
    Each Polled (h ++ (t ++ t')) ∧ OwnPolls round (t ++ t') ∧ InRound (t ++ t') round := by
  refine ⟨?_, ?_, ?_⟩
  · rw [← List.append_assoc]
    refine each_attentive hprobing.each ht' hs (fun t' f ht' hf => ?_) fun t' ht' hall => ?_
    · obtain ⟨hf, hfresh⟩ := hprobing.live hf
      exact hprobing.polled hinv ht' hf hfresh
    · exact hprobing.slept hwaiting hinv ht' hall
  · refine hprobing.polls.append fun e he => ?_
    have hidle := ht' e he
    obtain ⟨request, _⟩ := e
    cases request with
    | poll f => exact .inr ⟨f, (hprobing.live hidle.1).1, rfl⟩
    | park => exact .inl rfl
    | call q => exact hidle.elim
  · obtain ⟨f, hf, hnone⟩ := hprobing.incomplete hwaiting
    exact .inl ⟨f, hf, hnone.idle ht'⟩

/-- So does the completion of a probe that was still awaited. -/
theorem Probing.ready (hprobing : Probing service observation round h t got)
    (hwaiting : Waiting got) (hinv : SyncInv h round) {t' : PairTrace Hash Invoice}
    (ht' : AllIdle (Live (syncBranches service observation round got)) t')
    (hs : Attentive (Live (syncBranches service observation round got)) t')
    {f : Probe Hash Invoice} (hf : Live (syncBranches service observation round got) f)
    (reply : f.call.Reply) :
    Each Polled (h ++ (t ++ t' ++ [⟨.poll f, some (some reply)⟩])) ∧
      OwnPolls round (t ++ t' ++ [⟨.poll f, some (some reply)⟩]) ∧
      JustCompleted (t ++ t' ++ [⟨.poll f, some (some reply)⟩]) round := by
  obtain ⟨hall, hpolls, -⟩ := hprobing.idle hwaiting hinv ht' hs
  obtain ⟨hf, hfresh⟩ := hprobing.live hf
  refine ⟨?_, ?_, t ++ t', f, hf, reply, rfl⟩
  · rw [← List.append_assoc]
    refine each_concat.mpr ⟨hall, ?_⟩
    rw [← List.append_assoc]
    exact hprobing.polled hinv ht' hf hfresh
  · refine hpolls.append fun e he => ?_
    rw [List.mem_singleton.mp he]
    exact .inr ⟨f, hf, rfl⟩

/-- The slots after the event by which `f` has completed. -/
theorem Slot.concat {β : Type} {f f' : Probe Hash Invoice} {conv : f'.call.Reply → β}
    {slot : Option β} (hslot : Slot t f' conv slot) {S : Probe Hash Invoice → Prop}
    {t' : PairTrace Hash Invoice} (ht' : AllIdle S t') (reply : f.call.Reply) (hne : f' ≠ f) :
    Slot (t ++ t' ++ [⟨.poll f, some (some reply)⟩]) f' conv slot := by
  refine (hslot.append (not_completed_of_idle ht')).append fun reply' hc => ?_
  have hpoll := congrArg Event.request (List.mem_singleton.mp hc)
  exact hne (Await.poll.inj hpoll)

theorem Slot.taken {β : Type} {f : Probe Hash Invoice} (conv : f.call.Reply → β)
    (reply : f.call.Reply) :
    Slot (t ++ [⟨.poll f, some (some reply)⟩]) f conv (some (conv reply)) :=
  ⟨reply, List.mem_concat_self, rfl⟩

/-- What a loop of one round keeps up. -/
def ProbeInv (service : String) (observation : Observation Hash) (round : Nat)
    (h h' : PairTrace Hash Invoice) (got : SyncRound Hash) : Prop :=
  ∃ t, h' = h ++ t ∧ Probing service observation round h t got ∧ Waiting got

/-- What follows a selection whose result was kept. -/
theorem Probing.step (hprobing : Probing service observation round h t got)
    (hlast : JustCompleted t round) :
    Ensures (h ++ t) (.done (takeResults got) : Task (@PairCall.Reply Hash Invoice) _)
      (Again (ProbeInv service observation round h) .done
        (ProbePost service observation round h)) := by
  have hpending : ProbePost service observation round h (h ++ t) none :=
    ⟨t, rfl, hprobing.each, hprobing.polls, .inr hlast, trivial⟩
  refine ensures_done hpending ?_
  unfold takeResults
  split
  next a b c ha hb hc =>
    have halice := hprobing.alice
    have hbob := hprobing.bob
    have hbitcoin := hprobing.bitcoin
    rw [ha] at halice
    rw [hb] at hbob
    rw [hc] at hbitcoin
    obtain ⟨alice, halice, ha⟩ := halice
    obtain ⟨bob, hbob, hb⟩ := hbob
    obtain ⟨bitcoin, hbitcoin, hc⟩ := hbitcoin
    refine ensures_done hpending ?_
    exact ⟨t, rfl, hprobing.each, hprobing.polls, .inr hlast, hprobing.unfailed, hlast, alice, bob,
      bitcoin, ⟨halice, hbob, hbitcoin⟩, ha, hb, hc⟩
  next hnone =>
    refine ⟨t, rfl, hprobing, ?_⟩
    cases ha : got.aliceInfo with
    | none => exact .inl ha
    | some a =>
      cases hb : got.bobInfo with
      | none => exact .inr (.inl hb)
      | some b =>
        cases hc : got.bitcoinHeight with
        | none => exact .inr (.inr hc)
        | some c => exact (hnone a b c ha hb hc).elim

theorem Waiting.any_enabled (service : String) (observation : Observation Hash) (round : Nat)
    (hwaiting : Waiting got) : ((syncBranches service observation round got :
      List (Branch (@PairCall.Reply Hash Invoice) _)).any Branch.enabled) = true := by
  rcases hwaiting with hnone | hnone | hnone <;> simp [syncBranches, hnone]

/-- A fatal error of a node ends the round with its own event. -/
theorem ensures_fatal {node : Node} {operation : String} {error : LndError Hash}
    (hfatal : isTransientLndReadiness error = false)
    (hall : Each Polled
      (h ++ (t ++ [⟨.poll ⟨.getInfo node, round⟩, some (some (some (.error error)))⟩])))
    (hlast : JustCompleted
      (t ++ [⟨.poll ⟨.getInfo node, round⟩, some (some (some (.error error)))⟩]) round)
    (hpolls : OwnPolls round
      (t ++ [⟨.poll ⟨.getInfo node, round⟩, some (some (some (.error error)))⟩])) :
    Ensures (h ++ (t ++ [⟨.poll ⟨.getInfo node, round⟩, some (some (some (.error error)))⟩]))
      (.done (.error (.returned (.bootstrap operation error))) : PairTask Hash Invoice _)
      (ProbePost service observation round h) := by
  refine ensures_done ⟨_, rfl, hall, hpolls, .inr hlast, trivial⟩
    ⟨_, rfl, hall, hpolls, .inr hlast, ?_⟩
  exact ⟨operation, node, error, h ++ t, rfl, hfatal, (List.append_assoc ..).symm⟩

theorem ensures_probeRound (hinv : SyncInv h round) :
    Ensures h (probeRound service observation round : PairTask Hash Invoice _)
      (ProbePost service observation round h) := by
  refine ensures_loop (ProbeInv service observation round h) ?_ ?_
  · rintro _ got ⟨t, rfl, hprobing, hwaiting⟩
    have hlive : (syncBranches service observation round got :
        List (Branch (@PairCall.Reply Hash Invoice) _)).any Branch.enabled = true :=
      hwaiting.any_enabled service observation round
    refine ensures_bind ((ensures_select hlive).mono fun h' o hselected => ?_)
    cases hselected with
    | @idle t' ht' hs =>
      obtain ⟨hall, hpolls, hround⟩ := hprobing.idle hwaiting hinv ht' hs
      rw [List.append_assoc]
      exact ⟨_, rfl, hall, hpolls, hround, trivial⟩
    | @ready t' _ b reply ht' hb henabled ho hs =>
      obtain ⟨hall, hpolls, hlast⟩ :=
        hprobing.ready hwaiting hinv ht' hs ⟨b, hb, henabled, rfl⟩ reply
      have hpending : ProbePost service observation round h
          (h ++ (t ++ t' ++ [⟨.poll b.future, some (some reply)⟩])) none :=
        ⟨_, rfl, hall, hpolls, .inr hlast, trivial⟩
      have hunfailed (hclean : ¬ Fatal (⟨.poll b.future, some (some reply)⟩ :
          PairEvent Hash Invoice)) :
          ∀ e ∈ t ++ t' ++ [⟨.poll b.future, some (some reply)⟩], ¬ Fatal e := by
        intro e he
        rcases List.mem_append.mp he with he | he
        · exact (List.mem_append.mp he).elim (hprobing.unfailed e)
            fun he => not_fatal_of_idle (ht' e he)
        · rwa [List.mem_singleton.mp he]
      rw [List.append_assoc, List.append_assoc, ← List.append_assoc t]
      rcases ho with rfl | rfl
      · exact hpending
      · simp only [syncBranches, List.mem_cons, List.not_mem_nil, or_false] at hb
        rcases hb with rfl | rfl | rfl
        · simp only [After]
          rcases settleInfo_cases service "query Alice synchronization" observation reply with
            ⟨error, rfl, hfatal, hsettle⟩ | ⟨hsettle, hclean⟩
          · simp only [hsettle, Except.map]
            exact ensures_done hpending (ensures_fatal hfatal hall hlast hpolls)
          · simp only [hsettle, Except.map]
            have hnext : Probing service observation round h _
                { got with aliceInfo := some (deadlineReply service observation reply) } :=
              ⟨hall, hunfailed (hclean _ _), hpolls, .taken _ reply,
                hprobing.bob.concat ht' reply (by simp [bobProbe]),
                hprobing.bitcoin.concat ht' reply (by simp [bitcoinProbe])⟩
            exact hnext.step hlast
        · simp only [After]
          rcases settleInfo_cases "lnd-bob" "query Bob synchronization" observation reply with
            ⟨error, rfl, hfatal, hsettle⟩ | ⟨hsettle, hclean⟩
          · simp only [hsettle, Except.map]
            exact ensures_done hpending (ensures_fatal hfatal hall hlast hpolls)
          · simp only [hsettle, Except.map]
            have hnext : Probing service observation round h _
                { got with bobInfo := some (deadlineReply "lnd-bob" observation reply) } :=
              ⟨hall, hunfailed (hclean _ _), hpolls,
                hprobing.alice.concat ht' reply (by simp [aliceProbe]), .taken _ reply,
                hprobing.bitcoin.concat ht' reply (by simp [bitcoinProbe])⟩
            exact hnext.step hlast
        · simp only [After]
          have hnext : Probing service observation round h _
              { got with bitcoinHeight := some (deadlineReply "bitcoind" observation reply) } :=
            ⟨hall, hunfailed (fun hf => hf), hpolls,
              hprobing.alice.concat ht' reply (by simp [aliceProbe]),
              hprobing.bob.concat ht' reply (by simp [bobProbe]), .taken _ reply⟩
          exact hnext.step hlast
  · have hnone (f : Probe Hash Invoice) (reply : f.call.Reply) : ¬ Completed [] f reply :=
      fun hc => by cases hc
    refine ⟨[], (List.append_nil h).symm, ⟨?_, fun _ he => (by cases he), fun _ he => (by cases he),
      hnone _, hnone _, hnone _⟩, .inl rfl⟩
    rw [List.append_nil]
    exact hinv.each

end Round

section Wait
variable {service : String} {observation : Observation Hash} {round : Nat}
  {alice bob : Option (Except (LndError Hash) LndSyncStatus)}
  {bitcoin : Option (Except (FixtureError Hash) UInt64)}

/-- A completed round in which no arm reports a deadline has seen none. -/
theorem unelapsed (hinv : SyncInv h round) (hall : Each Polled (h ++ t)) (ht : OwnPolls round t)
    (hr : RoundCompleted t round alice bob bitcoin) (ha : alice ≠ none) (hb : bob ≠ none)
    (hc : bitcoin ≠ none) : ∀ e ∈ h ++ t, ¬ Elapsed e := by
  intro e he helapsed
  rcases List.mem_append.mp he with hbefore | he
  · exact (hinv.clean e hbefore).2 helapsed
  · obtain ⟨request, reply⟩ := e
    cases request with
    | call q => rcases ht _ he with hpark | ⟨f, -, hpoll⟩ <;> contradiction
    | park => exact helapsed
    | poll f =>
      match reply with
      | none => exact helapsed
      | some none => exact helapsed
      | some (some (some answer)) => exact helapsed
      | some (some none) =>
        have hmem : Completed (h ++ t) f none := List.mem_append_right _ he
        obtain ⟨f', hf, hpoll⟩ := (ht _ he).resolve_left fun hpark => by cases hpark
        obtain rfl := Await.poll.inj hpoll
        simp only [probes, List.mem_cons, List.not_mem_nil, or_false] at hf
        have hround (reply) : Completed t f reply → Completed (h ++ t) f reply :=
          List.mem_append_right _
        rcases hf with rfl | rfl | rfl
        · exact ha (Completed.unique hall (hround _ hr.alice) hmem)
        · exact hb (Completed.unique hall (hround _ hr.bob) hmem)
        · exact hc (Completed.unique hall (hround _ hr.bitcoin) hmem)

/-- Every completed round so far was left through its arm, and so is this one. -/
theorem SyncInv.leftThrough (hinv : SyncInv h round) (hall : Each Polled (h ++ t))
    (ht : OwnPolls round t) {o : Option (Except (Stop Hash) Unit)} (t' : PairTrace Hash Invoice)
    (hr : RoundCompleted t round alice bob bitcoin)
    (hcurrent : LeftThrough (h ++ t ++ t') o round alice bob bitcoin)
    {k : Nat} {alice' bob' : Option (Except (LndError Hash) LndSyncStatus)}
    {bitcoin' : Option (Except (FixtureError Hash) UInt64)}
    (hr' : RoundCompleted (h ++ t) k alice' bob' bitcoin') :
    LeftThrough (h ++ t ++ t') o k alice' bob' bitcoin' := by
  rcases hinv.completed_or ht hr' with hbefore | ⟨rfl, hnow⟩
  · rw [List.append_assoc]
    exact (hinv.left k _ _ _ hbefore).leftThrough _ _
  · have hr : RoundCompleted (h ++ t) k alice bob bitcoin :=
      ⟨List.mem_append_right _ hr.alice, List.mem_append_right _ hr.bob,
        List.mem_append_right _ hr.bitcoin⟩
    obtain ⟨rfl, rfl, rfl⟩ := hr.unique hall hr'
    exact hcurrent

/-- The event that ends a wait at once. -/
theorem SyncInv.fatal (hinv : SyncInv h round) (hall : Each Polled (h ++ t))
    (ht : OwnPolls round t) {before : PairTrace Hash Invoice} {node : Node} {error : LndError Hash}
    (operation : String) (hfatal : isTransientLndReadiness error = false)
    (hlast : h ++ t
      = before ++ [⟨.poll ⟨.getInfo node, round⟩, some (some (some (.error error)))⟩]) :
    SyncPost (h ++ t) (some (.error (.returned (.bootstrap operation error)))) := by
  refine ⟨hall, fun k a b c hk ha hb => ?_, fun r hr => ?_⟩
  · rcases hinv.completed_or ht hk with hearlier | ⟨rfl, -⟩
    · exact (hinv.left k a b c hearlier).leftThrough t _
    · have hcompleted : Completed (h ++ t) ⟨.getInfo node, k⟩ (some (.error error)) := by
        rw [hlast]
        exact List.mem_concat_self
      have herror : a = some (.error error) ∨ b = some (.error error) := by
        cases node with
        | alice => exact .inl (hk.alice.unique hall hcompleted)
        | bob => exact .inr (hk.bob.unique hall hcompleted)
      have htransient := herror.elim (ha error) (hb error)
      rw [hfatal] at htransient
      cases htransient
  · obtain rfl := Option.some.inj hr
    exact .fatal operation hlast hfatal

/-- A round that has to be repeated hands a longer history to the next one. -/
theorem SyncInv.next (hinv : SyncInv h round)
    (hall : Each Polled (h ++ t ++ [⟨.call .retryDelay, some (some ())⟩])) (ht : OwnPolls round t)
    (hclean : ∀ e ∈ h ++ t, ¬ Fatal e ∧ ¬ Elapsed e)
    (hr : RoundCompleted t round alice bob bitcoin) (hlast : JustCompleted t round)
    {service' : String} {observation' : Observation Hash}
    (harm : armOf service observation alice bob bitcoin = .again service' observation') :
    SyncInv (h ++ t ++ [⟨.call .retryDelay, some (some ())⟩]) (round + 1) := by
  have hbefore : Each Polled (h ++ t) := (each_concat.mp hall).1
  have hcompleted : RoundCompleted (h ++ t) round alice bob bitcoin :=
    ⟨List.mem_append_right _ hr.alice, List.mem_append_right _ hr.bob,
      List.mem_append_right _ hr.bitcoin⟩
  refine ⟨hall, fun e he => ?_, fun e he f hpoll => ?_, fun k hk => ?_, ?_⟩
  · rcases List.mem_append.mp he with he | he
    · exact hclean e he
    · rw [List.mem_singleton.mp he]
      exact ⟨fun hf => hf, fun hf => hf⟩
  · rcases List.mem_append.mp he with he | he
    · rcases List.mem_append.mp he with he | he
      · exact Nat.lt_succ_of_lt (hinv.polls e he f hpoll)
      · obtain ⟨f', hf, hpoll'⟩ := (ht e he).resolve_left fun hpark => by
          rw [hpoll] at hpark
          cases hpark
        rw [hpoll] at hpoll'
        obtain rfl := Await.poll.inj hpoll'
        rw [probes_round hf]
        exact Nat.lt_succ_self round
    · rw [List.mem_singleton.mp he] at hpoll
      cases hpoll
  · rcases Nat.lt_succ_iff_lt_or_eq.mp hk with hlt | rfl
    · obtain ⟨a, b, c, hearlier⟩ := hinv.earlier k hlt
      exact ⟨a, b, c, (hearlier.append t).append _⟩
    · exact ⟨alice, bob, bitcoin, hcompleted.append _⟩
  · intro k a b c hk
    have hk' : RoundCompleted (h ++ t) k a b c := hk.of_call
    rcases hinv.completed_or ht hk' with hearlier | ⟨rfl, hnow⟩
    · obtain ⟨s, o, s', o', before, rest, rfl, hretried⟩ := hinv.left k a b c hearlier
      exact ⟨s, o, s', o', before, rest ++ t ++ [⟨.call .retryDelay, some (some ())⟩], by simp,
        hretried⟩
    · obtain ⟨rfl, rfl, rfl⟩ := hcompleted.unique hbefore hk'
      exact ⟨service, observation, service', observation', h ++ t, [], rfl, hlast.append h,
        hk', harm⟩

/-- The pause behind a round that has to be repeated. -/
theorem SyncInv.delayed (hinv : SyncInv h round) (hall : Each Polled (h ++ t))
    (ht : OwnPolls round t) (hfatal : ∀ e ∈ h ++ t, ¬ Fatal e)
    (hr : RoundCompleted t round alice bob bitcoin) (hlast : JustCompleted t round)
    {service' : String} {observation' : Observation Hash}
    (harm : armOf service observation alice bob bitcoin = .again service' observation')
    (reply : Option (Option Unit)) :
    Each Polled (h ++ t ++ [⟨.call .retryDelay, reply⟩]) ∧ ToRepeat (h ++ t) round ∧
    SyncPost (h ++ t ++ [⟨.call .retryDelay, reply⟩]) none ∧
    (reply = some none → SyncPost (h ++ t ++ [⟨.call .retryDelay, reply⟩])
      (some (.error (.returned (.readinessTimeout service' observation'))))) := by
  have hcompleted : RoundCompleted (h ++ t) round alice bob bitcoin :=
    ⟨List.mem_append_right _ hr.alice, List.mem_append_right _ hr.bob,
      List.mem_append_right _ hr.bitcoin⟩
  have hrepeat : ToRepeat (h ++ t) round :=
    ⟨hlast.append h, service, observation, service', observation', alice, bob, bitcoin, hcompleted,
      harm⟩
  have hdelay : Each Polled (h ++ t ++ [⟨.call .retryDelay, reply⟩]) := by
    refine each_concat.mpr ⟨hall, hfatal, fun _ hpoll => (by cases hpoll),
      fun _ hpoll => (by cases hpoll), fun hpark => (by cases hpark), fun c hcall => ?_⟩
    cases hcall
    exact ⟨rfl, round, hrepeat⟩
  have hleft (o : Option (Except (Stop Hash) Unit)) (ho : o = none ∨ reply = some none ∧
      o = some (.error (.returned (.readinessTimeout service' observation')))) :
      LeftThrough (h ++ t ++ [⟨.call .retryDelay, reply⟩]) o round alice bob bitcoin := by
    refine ⟨service, observation, h ++ t, _, rfl, hlast.append h, hcompleted, ?_⟩
    rw [harm]
    exact .inr ⟨_, [], rfl, .inr ⟨rfl, ho⟩⟩
  refine ⟨hdelay, hrepeat, ⟨hdelay, fun k a b c hk _ _ => ?_, fun r hr => (by cases hr)⟩,
    fun hnone => ⟨hdelay, fun k a b c hk _ _ => ?_, fun r hresult => ?_⟩⟩
  · exact hinv.leftThrough hall ht _ hr (hleft none (.inl rfl)) hk.of_call
  · exact hinv.leftThrough hall ht _ hr (hleft _ (.inr ⟨hnone, rfl⟩)) hk.of_call
  · obtain rfl := Option.some.inj hresult
    refine .paused service' observation' (hnone ▸ rfl) hrepeat fun e he => ?_
    rcases List.mem_append.mp he with he | he
    · exact hfatal e he
    · rw [List.mem_singleton.mp he]
      exact fun hf => hf

/-- A round keeps the history of the rounds, or ends the wait as it may end. -/
theorem ensures_syncRound (state : String × Observation Hash × Nat)
    (hinv : SyncInv h state.2.2) : Ensures h (syncRound state)
      (Again (fun h state => SyncInv h state.2.2)
        (.done : _ → PairTask Hash Invoice Unit) SyncPost) := by
  obtain ⟨service, observation, round⟩ := state
  refine ensures_bind ((ensures_probeRound hinv).mono fun h' o ho => ?_)
  obtain ⟨t, rfl, hall, ht, hround, hresult⟩ := ho
  have hpending : SyncPost (h ++ t) none := hinv.pending hall ht hround
  match o with
  | none => exact hpending
  | some (.error stop) =>
    obtain ⟨operation, node, error, before, rfl, hfatal, hlast⟩ := hresult
    exact ensures_done hpending
      (.leave (ensures_done hpending (hinv.fatal hall ht operation hfatal hlast)))
  | some (.ok (a, b, c)) =>
    obtain ⟨hunfailed, hlast, alice, bob, bitcoin, hr, rfl, rfl, rfl⟩ := hresult
    have hfatal : ∀ e ∈ h ++ t, ¬ Fatal e := fun e he =>
      (List.mem_append.mp he).elim (fun he => (hinv.clean e he).1) (hunfailed e)
    have hcompleted : RoundCompleted (h ++ t) round alice bob bitcoin :=
      ⟨List.mem_append_right _ hr.alice, List.mem_append_right _ hr.bob,
        List.mem_append_right _ hr.bitcoin⟩
    simp only [After]
    split
    -- the round is left through its arm, and every earlier one was
    next harm =>
      have hleft : LeftThrough (h ++ t) (some (.ok ())) round alice bob bitcoin := by
        refine ⟨service, observation, h ++ t, [], (List.append_nil _).symm, hlast.append h,
          hcompleted, ?_⟩
        rw [armOf, harm]
        exact ⟨rfl, .inr rfl⟩
      refine ensures_done hpending (.leave (ensures_done hpending
        ⟨hall, fun k a b c hk _ _ => ?_, fun r hresult => ?_⟩))
      · have hpast := hinv.leftThrough hall ht [] hr (by rwa [List.append_nil]) hk
        rwa [List.append_nil] at hpast
      · obtain rfl := Option.some.inj hresult
        obtain ⟨a, b, height, rfl, rfl, rfl, ha, hb⟩ := armOf_synchronized harm
        have helapsed := unelapsed hinv hall ht hr (by simp) (by simp) (by simp)
        exact .synchronized round (hlast.append h) ⟨a, b, height, hcompleted, ha, hb⟩
          fun e he => ⟨hfatal e he, helapsed e he⟩
    next error harm =>
      have hleft : LeftThrough (h ++ t) (some (.error (.returned error))) round alice bob
          bitcoin := by
        refine ⟨service, observation, h ++ t, [], (List.append_nil _).symm, hlast.append h,
          hcompleted, ?_⟩
        rw [armOf, harm]
        exact ⟨rfl, .inr rfl⟩
      refine ensures_done hpending (.leave (ensures_done hpending
        ⟨hall, fun k a b c hk _ _ => ?_, fun r hresult => ?_⟩))
      · have hpast := hinv.leftThrough hall ht [] hr (by rwa [List.append_nil]) hk
        rwa [List.append_nil] at hpast
      · obtain rfl := Option.some.inj hresult
        obtain ⟨⟨service', observation', rfl⟩, hnone⟩ := armOf_failed harm
        exact .elapsed service' observation' (hlast.append h) hcompleted hnone hfatal
    next service' observation' harm =>
      obtain ⟨ha, hb, hc⟩ := armOf_again harm
      have helapsed := unelapsed hinv hall ht hr ha hb hc
      have hdelayed := hinv.delayed hall ht hfatal hr hlast harm
      refine ensures_ask hpending (hdelayed none).2.2.1 fun reply => ?_
      obtain ⟨hdelay, -, hcut, hfailed⟩ := hdelayed (some reply)
      cases reply with
      | some u =>
        refine ensures_done hcut ?_
        exact hinv.next hdelay ht (fun e he => ⟨hfatal e he, helapsed e he⟩) hr hlast harm
      | none => exact ensures_done hcut (.leave (ensures_done hcut (hfailed rfl)))

theorem SyncInv.start : SyncInv ([] : PairTrace Hash Invoice) 0 := by
  refine ⟨each_nil, fun _ he => (by cases he), fun _ he => (by cases he),
    fun _ hk => absurd hk (Nat.not_lt_zero _), fun _ _ _ _ hr => ?_⟩
  exact absurd hr.alice (by simp [Completed])

theorem ensures_waitForLndSync :
    Ensures [] (waitForLndSync : PairTask Hash Invoice Unit) SyncPost :=
  ensures_loop (fun h state => SyncInv h state.2.2)
    (fun _ state hinv => ensures_syncRound state hinv) .start

end Wait

/-- A synchronized round ends the wait with success, wherever it stands. -/
theorem SyncPost.synchronized {o : Option (Except (Stop Hash) Unit)} (hpost : SyncPost h o)
    {k : Nat} (hsync : SynchronizedAt h k)
    {r : Except (Stop Hash) Unit} (hr : o = some r) : r = .ok () := by
  obtain ⟨a, b, height, hcompleted, ha, hb⟩ := hsync
  obtain ⟨service, observation, before, after, -, -, -, harm⟩ :=
    hpost.left k _ _ _ hcompleted (fun _ he => by cases he) (fun _ he => by cases he)
  rw [armOf_synchronized_of ha hb] at harm
  subst hr
  rcases harm.2 with hnone | hok
  · cases hnone
  · exact Option.some.inj hok

end Nigiri.Fixtures
