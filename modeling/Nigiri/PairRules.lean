import Nigiri.ReadyChannel

/-! Rules for the awaited calls of a pair fixture: each may be cut off, end in an error, or bring
the answer that the rest goes on with. -/
namespace Nigiri.Fixtures
open Nigiri.WireFormat Nigiri.Process Nigiri.Polling Nigiri.Lnd
variable {Hash Invoice : Type} {α β σ : Type} {h : PairTrace Hash Invoice}

/-- The histories in which a task may stop: cut off, or with an error of its own. -/
structure MayStop (Φ : PairTrace Hash Invoice → Option (Except (Stop Hash) β) → Prop)
    (h : PairTrace Hash Invoice) : Prop where
  cut : Φ h none
  failed : ∀ error, Φ h (some (.error (.returned error)))

variable {Φ : PairTrace Hash Invoice → Option (Except (Stop Hash) β) → Prop}

theorem MayStop.fail (hstop : MayStop Φ h) (error : FixtureError Hash) :
    Ensures h (Fixtures.fail error : PairTask Hash Invoice β) Φ :=
  ensures_done hstop.cut (hstop.failed error)

theorem MayStop.tryFail (hstop : MayStop Φ h) (error : FixtureError Hash)
    (k : α → PairTask Hash Invoice β) :
    Ensures h (tryBind (Fixtures.fail error : PairTask Hash Invoice α) k) Φ :=
  ensures_done hstop.cut (hstop.failed error)

theorem MayStop.tryAfter (hstop : MayStop Φ h) (k : α → PairTask Hash Invoice β) :
    MayStop (TryAfter k Φ) h := ⟨hstop.cut, fun error => ⟨hstop.cut, hstop.failed error⟩⟩

/-- An operation asks its call once; the rest goes on from what its answer stands for. -/
theorem ensures_bitcoinOperation {operation : String} {q : PairCall Hash Invoice}
    {answer : q.Answer → Except (FixtureError Hash) α} {k : α → PairTask Hash Invoice β}
    (hbefore : Φ h none) (hasked : ∀ reply, MayStop Φ (h ++ [⟨.call q, reply⟩]))
    (hok : ∀ result a, answer result = .ok a →
      Ensures (h ++ [⟨.call q, some (some result)⟩]) (k a) Φ) :
    Ensures h (tryBind (bitcoinOperation operation q answer) k) Φ := by
  refine ensures_ask hbefore (hasked none).cut fun reply => ?_
  cases reply with
  | none => exact (hasked _).tryFail _ k
  | some result =>
    cases ha : answer result with
    | error error =>
      simp only [ha]
      exact (hasked _).tryFail _ k
    | ok a =>
      simp only [ha]
      exact hok result a ha

section Rounds
variable {I : PairTrace Hash Invoice → σ → Prop}

theorem MayStop.leave (hstop : MayStop Φ h) (error : FixtureError Hash) :
    Ensures h (leaveWith error : PairRound Hash Invoice σ β) (Again I .done Φ) :=
  ensures_done hstop.cut (.leave (hstop.fail error))

theorem ensures_leave {r : Except (Stop Hash) β} (hnone : Φ h none) (hr : Φ h (some r)) :
    Ensures h (leave r : PairRound Hash Invoice σ β) (Again I .done Φ) :=
  ensures_done hnone (.leave (ensures_done hnone hr))

theorem ensures_runOrLeave {service : String} {observation : Observation Hash}
    {q : PairCall Hash Invoice} {k : q.Answer → PairRound Hash Invoice σ β}
    (hbefore : Φ h none) (hasked : ∀ reply, MayStop Φ (h ++ [⟨.call q, reply⟩]))
    (hok : ∀ answer, Ensures (h ++ [⟨.call q, some (some answer)⟩]) (k answer)
      (Again I .done Φ)) :
    Ensures h (runOrLeave service observation q k) (Again I .done Φ) := by
  refine ensures_ask hbefore (hasked none).cut fun reply => ?_
  cases reply with
  | none => exact (hasked _).leave _
  | some answer => exact hok answer

theorem ensures_retryAfterDelay {service : String} {observation : Observation Hash} {next : σ}
    (hbefore : Φ h none)
    (hasked : ∀ reply, MayStop Φ (h ++ [⟨.call .retryDelay, reply⟩]))
    (hnext : I (h ++ [⟨.call .retryDelay, some (some ())⟩]) next) :
    Ensures h (retryAfterDelay service observation next : PairRound Hash Invoice σ β)
      (Again I .done Φ) :=
  ensures_runOrLeave hbefore hasked fun () => ensures_done (hasked _).cut hnext

/-- What a part of a round must ensure when its error ends the loop. -/
def LeaveAfter (k : α → PairRound Hash Invoice σ β) (I : PairTrace Hash Invoice → σ → Prop)
    (Φ : PairTrace Hash Invoice → Option (Except (Stop Hash) β) → Prop) :
    PairTrace Hash Invoice → Option (Except (Stop Hash) α) → Prop
  | h, none => Φ h none
  | h, some (.error stop) => Φ h none ∧ Φ h (some (.error stop))
  | h, some (.ok a) => Ensures h (k a) (Again I .done Φ)

theorem ensures_orLeave {p : PairTask Hash Invoice α} {k : α → PairRound Hash Invoice σ β}
    (hp : Ensures h p (LeaveAfter k I Φ)) : Ensures h (orLeave p k) (Again I .done Φ) := by
  refine ensures_bind (hp.mono fun h' o ho => ?_)
  match o with
  | none => exact ho
  | some (.error stop) => exact ensures_leave ho.1 ho.2
  | some (.ok a) => exact ho

theorem ensures_lndOrLeave {service operation : String} {q : PairCall Hash Invoice}
    {answer : q.Answer → Except (LndError Hash) α} {k : α → PairRound Hash Invoice σ β}
    (hbefore : Φ h none) (hasked : ∀ reply, MayStop Φ (h ++ [⟨.call q, reply⟩]))
    (hok : ∀ result a, answer result = .ok a →
      Ensures (h ++ [⟨.call q, some (some result)⟩]) (k a) (Again I .done Φ)) :
    Ensures h (orLeave (lndOperation service operation q answer) k) (Again I .done Φ) := by
  refine ensures_ask hbefore (hasked none).cut fun reply => ?_
  cases reply with
  | none => exact (hasked _).leave _
  | some result =>
    cases ha : answer result with
    | error error =>
      simp only [ha]
      exact (hasked _).leave _
    | ok a =>
      simp only [ha]
      exact hok result a ha

end Rounds

section Kinds
variable {S : Await (PairCall Hash Invoice) → Prop}

theorem asks_runOrLeave {service : String} {observation : Observation Hash}
    {q : PairCall Hash Invoice} {k : q.Answer → PairRound Hash Invoice σ β} (hq : S (.call q))
    (hk : ∀ answer, Asks S (k answer)) : Asks S (runOrLeave service observation q k) := by
  refine ⟨hq, fun reply => ?_⟩
  cases reply with
  | none => exact trivial
  | some answer => exact hk answer

theorem asks_retryAfterDelay {service : String} {observation : Observation Hash} {next : σ}
    (hdelay : S (.call .retryDelay)) :
    Asks S (retryAfterDelay service observation next : PairRound Hash Invoice σ β) :=
  asks_runOrLeave hdelay fun _ => trivial

theorem asks_orLeave {p : PairTask Hash Invoice α} {k : α → PairRound Hash Invoice σ β}
    (hp : Asks S p) (hk : ∀ a, Asks S (k a)) : Asks S (orLeave p k) := by
  refine hp.bind fun x => ?_
  cases x with
  | error stop => exact trivial
  | ok a => exact hk a

theorem asks_ensurePeerConnected (lib : PairLib Hash) (ends : ChannelEnds)
    (hconnected : S (.call (.peerConnected .alice ends.bobPublicKey)))
    (hconnect : ∀ peer, S (.call (.connectPeer .alice peer))) (hdelay : S (.call .retryDelay)) :
    Asks S (ensurePeerConnected lib ends : PairTask Hash Invoice Unit) := by
  have attempt (peer : PeerAddress) (observation : Observation Hash) :
      Asks S (connectPeer peer observation : PairRound Hash Invoice (Observation Hash) Unit) := by
    refine asks_runOrLeave (hconnect peer) fun answer => ?_
    cases answer with
    | ok u => exact asks_retryAfterDelay hdelay
    | error error =>
      simp only
      split
      next => exact asks_retryAfterDelay hdelay
      next => exact trivial
  unfold ensurePeerConnected
  split
  next => exact trivial
  next peer _ =>
    refine ⟨fun observation => asks_runOrLeave hconnected fun answer => ?_, fun _ => trivial⟩
    match answer with
    | .ok true => exact trivial
    | .ok false => exact attempt peer observation
    | .error error =>
      simp only
      split
      next => exact attempt peer _
      next => exact trivial

theorem asks_waitForActiveChannel (channelPoint : OutPoint) (ends : ChannelEnds)
    (lib : PairLib Hash) (hconnected : S (.call (.peerConnected .alice ends.bobPublicKey)))
    (hconnect : ∀ peer, S (.call (.connectPeer .alice peer))) (hdelay : S (.call .retryDelay))
    (hpark : S .park) (hprobe : ∀ probe round, S (.poll ⟨ChannelProbe.call channelPoint ends probe,
      round⟩)) :
    Asks S (waitForActiveChannel channelPoint ends lib : PairTask Hash Invoice Unit) := by
  refine ⟨fun state => ?_, fun _ => trivial⟩
  refine asks_orLeave (asks_ensurePeerConnected lib ends hconnected hconnect hdelay) fun _ => ?_
  have hjoin : Asks S (tryJoin (channelProbes channelPoint ends state.1 state.2)) :=
    asks_tryJoin hpark fun probe => hprobe probe state.2
  refine hjoin.bind fun x => ?_
  cases x with
  | error error => exact trivial
  | ok outs =>
    simp only
    split
    next => exact trivial
    next => exact asks_retryAfterDelay hdelay

theorem asks_waitForSettledInvoice (lib : PairLib Hash) (receiver : Node) (paymentHash : Hash)
    (hstate : S (.call (.invoiceState receiver paymentHash))) (hdelay : S (.call .retryDelay)) :
    Asks S (waitForSettledInvoice lib receiver paymentHash : PairTask Hash Invoice Unit) := by
  refine ⟨fun observation => asks_runOrLeave hstate fun answer => ?_, fun _ => trivial⟩
  match answer with
  | .ok .settled => exact trivial
  | .ok .opened | .ok .accepted => exact asks_retryAfterDelay hdelay
  | .ok .canceled | .ok (.unknown _) => exact trivial
  | .error error =>
    simp only
    split
    next => exact asks_retryAfterDelay hdelay
    next => exact trivial

end Kinds

/-- An invoice is waited for until its receiver reports it settled. -/
theorem ensures_waitForSettledInvoice (lib : PairLib Hash) (receiver : Node) (paymentHash : Hash) :
    Ensures h (waitForSettledInvoice lib receiver paymentHash : PairTask Hash Invoice Unit)
      fun h' o => o = some (.ok ()) → ∃ t, h' = h ++ t ++
        [⟨.call (.invoiceState receiver paymentHash), some (some (.ok .settled))⟩] := by
  have hstop (h' : PairTrace Hash Invoice) : MayStop (fun h' o => o = some (.ok ()) →
      ∃ t, h' = h ++ t ++ [⟨.call (.invoiceState receiver paymentHash),
        some (some (.ok .settled))⟩]) h' :=
    ⟨fun ho => (by cases ho), fun _ ho => by cases ho⟩
  refine ensures_loop (fun h' _ => ∃ t, h' = h ++ t) ?_ ⟨[], (List.append_nil h).symm⟩
  rintro _ observation ⟨t, rfl⟩
  have hretry (answer : Except (LndError Hash) InvoiceState) (observation : Observation Hash) :
      Ensures (h ++ t ++ [⟨.call (.invoiceState receiver paymentHash), some (some answer)⟩])
        (retryAfterDelay receiver.service observation observation)
        (Again (fun h' _ => ∃ t, h' = h ++ t) .done _) :=
    ensures_retryAfterDelay (hstop _).cut (fun _ => hstop _)
      ⟨t ++ [_] ++ [_], by rw [← List.append_assoc, ← List.append_assoc]⟩
  refine ensures_runOrLeave (hstop _).cut (fun _ => hstop _) fun answer => ?_
  match answer with
  | .ok .settled => exact ensures_leave (hstop _).cut fun _ => ⟨t, rfl⟩
  | .ok .opened | .ok .accepted => exact hretry _ _
  | .ok .canceled | .ok (.unknown _) => exact (hstop _).leave _
  | .error error =>
    simp only
    split
    next => exact hretry _ _
    next => exact (hstop _).leave _

end Nigiri.Fixtures
