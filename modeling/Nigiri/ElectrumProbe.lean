import Nigiri.AnsweredRuns
import Nigiri.AsciiCase
import Nigiri.StackStartup

/-! The probe of the Electrum port. One line is read within a bound, however it arrives, and what is
told of an answer that cannot be used is its length and the kind of its fault. -/
namespace Nigiri.Electrum
open Nigiri.Process
open Nigiri.Utf8 (Bytes)
open Nigiri.AsciiCase (ascii)
open Nigiri.Stack (ProbeFailure)

def PROBE_ID : String := "nigiri-fixtures"
def PROBE_OPERATION : String := "blockchain.headers.subscribe"
def MAX_RESPONSE_BYTES : Nat := 64 * 1024

def requestLine : Bytes :=
  ascii s!"\x7b\"id\":\"{PROBE_ID}\",\"method\":\"{PROBE_OPERATION}\",\"params\":[]\x7d\n"

/-- What is asked of the connection. A buffer without bytes means that it is closed. -/
inductive ProbeCall where
  | connect (host : String) (port : UInt16)
  | writeAll (bytes : Bytes)
  | flush
  | fillBuf
  deriving DecidableEq

abbrev ProbeCall.Reply : ProbeCall → Type
  | .fillBuf => Except Unit Bytes
  | _ => Except Unit Unit

abbrev ProbeTask (α : Type) : Type 1 := Proc ProbeCall ProbeCall.Reply (Except ProbeFailure α)

abbrev ProbeTrace := Trace ProbeCall ProbeCall.Reply

abbrev ProbeEvent := Event ProbeCall ProbeCall.Reply

/-- Why the JSON library refuses a text. -/
inductive Category where
  | io
  | malformed
  | data
  | eof
  deriving DecidableEq, Repr

def Category.text : Category → String
  | .io => "transport"
  | .malformed => "malformed JSON"
  | .data => "unexpected shape"
  | .eof => "truncated"

/-- The bytes up to the first line feed and with it, or all of them. -/
def firstLine : Bytes → Bytes
  | [] => []
  | b :: bytes => if b = 10 then [b] else b :: firstLine bytes

/-- The state is what may still be taken and what was read. Once nothing more may be taken, the
connection is not asked any more. -/
def readRound (state : Nat × Bytes) :
    Proc ProbeCall ProbeCall.Reply ((Nat × Bytes) ⊕ Except ProbeFailure Bytes) :=
  if state.1 = 0 then .done (.inr (.ok state.2))
  else .ask .fillBuf fun
    | .error () => .done (.inr (.error (.transport "reading the Electrum response")))
    | .ok buffered =>
      let available := buffered.take state.1
      if 10 ∈ available then .done (.inr (.ok (state.2 ++ firstLine available)))
      else if buffered.isEmpty then .done (.inr (.ok state.2))
      else .done (.inl (state.1 - available.length, state.2 ++ available))

def readUntil (limit : Nat) : ProbeTask Bytes := repeatUntil readRound (limit, [])

section Probe
variable (parse : Bytes → Except Category UInt64)

def tipOf (response : Bytes) : Except ProbeFailure UInt64 :=
  if MAX_RESPONSE_BYTES < response.length then .error (.oversized response.length)
  else if response.isEmpty then .error .closed
  else
    match parse response with
    | .error category => .error (.unusable response.length category.text)
    | .ok height => .ok height

/-- One byte past the bound is read, to recognise a line that is too long. -/
def probe (host : String) (port : UInt16) : ProbeTask UInt64 :=
  .ask (.connect host port) fun
    | .error () => .done (.error (.transport "connecting to the Electrum port"))
    | .ok () => .ask (.writeAll requestLine) fun
      | .error () => .done (.error (.transport "sending the Electrum request"))
      | .ok () => .ask .flush fun
        | .error () => .done (.error (.transport "sending the Electrum request"))
        | .ok () => (readUntil (MAX_RESPONSE_BYTES + 1)).andThen fun response =>
          .done (tipOf parse response)

end Probe

section Line
variable {front rest : Bytes}

theorem firstLine_append (hfront : 10 ∉ front) :
    firstLine (front ++ rest) = front ++ firstLine rest := by
  induction front with
  | nil => rfl
  | cons b front ih =>
    obtain ⟨hb, hfront⟩ := not_or.mp fun hmem => hfront (List.mem_cons.mpr hmem)
    rw [List.cons_append, firstLine, if_neg (Ne.symm hb), ih hfront, List.cons_append]

theorem firstLine_of_not_mem (hfront : 10 ∉ front) : firstLine front = front := by
  have happend := @firstLine_append front [] hfront
  rwa [List.append_nil, firstLine, List.append_nil] at happend

theorem firstLine_length_le : (firstLine front).length ≤ front.length := by
  induction front with
  | nil => exact Nat.le_refl 0
  | cons b front ih =>
    rw [firstLine]
    split
    next => exact Nat.succ_le_succ (Nat.zero_le _)
    next => exact Nat.succ_le_succ ih

theorem mem_firstLine (hmem : 10 ∈ front) : 10 ∈ firstLine front := by
  induction front with
  | nil => cases hmem
  | cons b front ih =>
    rw [firstLine]
    split
    next hb => exact List.mem_singleton.mpr hb.symm
    next hb =>
      exact List.mem_cons_of_mem _ (ih ((List.mem_cons.mp hmem).resolve_left (Ne.symm hb)))

end Line

def chunk : ProbeEvent → Bytes
  | ⟨.fillBuf, some (.ok buffered)⟩ => buffered
  | _ => []

/-- What has arrived, however it was split. -/
def received (h : ProbeTrace) : Bytes := h.flatMap chunk

/-- The line that a probe goes by: the first of what it may take. -/
def answer (h : ProbeTrace) : Bytes := firstLine ((received h).take (MAX_RESPONSE_BYTES + 1))

/-- Reading has come to the end of the line, to the bound, or to the end of the connection. -/
def LineEnded (h : ProbeTrace) : Prop :=
  10 ∈ answer h ∨ (answer h).length = MAX_RESPONSE_BYTES + 1 ∨
    ∃ before, h = before ++ [⟨.fillBuf, some (.ok [])⟩]

def Refused : ProbeEvent → Prop
  | ⟨.fillBuf, some (.error ())⟩ => True
  | ⟨.connect .., some (.error ())⟩ => True
  | ⟨.writeAll _, some (.error ())⟩ => True
  | ⟨.flush, some (.error ())⟩ => True
  | _ => False

/-- The connection is made and has taken the request. -/
def sent (host : String) (port : UInt16) : ProbeTrace :=
  [⟨.connect host port, some (.ok ())⟩, ⟨.writeAll requestLine, some (.ok ())⟩,
    ⟨.flush, some (.ok ())⟩]

/-- What must have happened before a call. More is only read while the line may go on. -/
def Justified (host : String) (port : UInt16) (before : ProbeTrace) : ProbeCall → Prop
  | .connect host' port' => before = [] ∧ host' = host ∧ port' = port
  | .writeAll bytes => before = (sent host port).take 1 ∧ bytes = requestLine
  | .flush => before = (sent host port).take 2
  | .fillBuf => sent host port <+: before ∧ 10 ∉ received before ∧
      (received before).length ≤ MAX_RESPONSE_BYTES

theorem received_concat {h : ProbeTrace} {e : ProbeEvent} :
    received (h ++ [e]) = received h ++ chunk e := by
  rw [received, List.flatMap_append, List.flatMap_singleton, ← received]

section Runs
variable {host : String} {port : UInt16} {h : ProbeTrace} {α : Type}
  {result : Bytes → Except ProbeFailure α}

/-- The request was sent and its answer read to the end. -/
structure AnswerRead (host : String) (port : UInt16) (h : ProbeTrace) : Prop where
  served : ∀ e ∈ h, ¬ Refused e
  sent : sent host port <+: h
  ended : LineEnded h

/-- A probe has failed with the connection, or has ended with a result for the line it has read. -/
structure ProbePost (host : String) (port : UInt16) (result : Bytes → Except ProbeFailure α)
    (h : ProbeTrace) (o : Option (Except ProbeFailure α)) : Prop where
  each : Each (Justified host port) h
  ended : ∀ r, o = some r →
    (∃ operation before e, r = .error (.transport operation) ∧ h = before ++ [e] ∧ Refused e) ∨
      AnswerRead host port h ∧ r = result (answer h)

theorem ProbePost.pending (hall : Each (Justified host port) h) :
    ProbePost host port result h none := ⟨hall, fun _ hsome => by cases hsome⟩

theorem ProbePost.refused {operation : String} {e : ProbeEvent}
    (hall : Each (Justified host port) (h ++ [e])) (he : Refused e) :
    ProbePost host port result (h ++ [e]) (some (.error (.transport operation))) := by
  refine ⟨hall, fun r hsome => .inl ⟨operation, h, e, ?_, rfl, he⟩⟩
  exact (Option.some.inj hsome).symm

theorem ProbePost.answered {r : Except ProbeFailure α} (hall : Each (Justified host port) h)
    (hanswered : AnswerRead host port h) (hr : r = result (answer h)) :
    ProbePost host port result h (some r) := by
  refine ⟨hall, fun r' hsome => .inr ⟨hanswered, ?_⟩⟩
  rw [← Option.some.inj hsome, hr]

/-- An answer is being read whose first line goes on. -/
structure Reading (host : String) (port : UInt16) (h : ProbeTrace) (state : Nat × Bytes) :
    Prop where
  each : Each (Justified host port) h
  sent : sent host port <+: h
  served : ∀ e ∈ h, ¬ Refused e
  read : state.2 = (received h).take (MAX_RESPONSE_BYTES + 1)
  left : state.1 = MAX_RESPONSE_BYTES + 1 - state.2.length
  going : 10 ∉ state.2

theorem Reading.answer {state : Nat × Bytes} (hreading : Reading host port h state) :
    answer h = state.2 := by
  rw [Electrum.answer, ← hreading.read, firstLine_of_not_mem hreading.going]

/-- While more may be taken, everything that has arrived was read. -/
theorem Reading.received {state : Nat × Bytes} (hreading : Reading host port h state)
    (hroom : state.1 ≠ 0) :
    received h = state.2 ∧ state.2.length ≤ MAX_RESPONSE_BYTES := by
  have hlength : state.2.length ≤ MAX_RESPONSE_BYTES := by
    have hleft := hreading.left
    omega
  have hshort : (Electrum.received h).length ≤ MAX_RESPONSE_BYTES + 1 := by
    have hread := congrArg List.length hreading.read
    rw [List.length_take] at hread
    omega
  exact ⟨(hreading.read.trans (List.take_of_length_le hshort)).symm, hlength⟩

theorem Reading.readRound {state : Nat × Bytes} (hreading : Reading host port h state) :
    Ensures h (Electrum.readRound state)
      (Again (Reading host port) .done (ProbePost host port .ok)) := by
  have hnow := @ProbePost.pending host port h Bytes .ok hreading.each
  rw [Electrum.readRound]
  split
  next hused =>
    refine ensures_done hnow (.leave (ensures_done hnow ?_))
    have hfull : (Electrum.answer h).length = MAX_RESPONSE_BYTES + 1 := by
      have hleft := hreading.left
      have hread := congrArg List.length hreading.read
      rw [List.length_take] at hread
      rw [hreading.answer]
      omega
    exact .answered hreading.each ⟨hreading.served, hreading.sent, .inr (.inl hfull)⟩
      (by rw [hreading.answer])
  next hroom =>
    obtain ⟨hreceived, hlength⟩ := hreading.received hroom
    have hjust : Justified host port h .fillBuf :=
      ⟨hreading.sent, hreceived ▸ hreading.going, by rw [hreceived]; exact hlength⟩
    have hall (reply) : Each (Justified host port) (h ++ [⟨.fillBuf, reply⟩]) :=
      each_concat.mpr ⟨hreading.each, hjust⟩
    refine ensures_ask hnow (.pending (hall _)) fun reply => ?_
    have hpending := @ProbePost.pending _ _ _ Bytes .ok (hall (some reply))
    rcases reply with ⟨⟩ | buffered
    · exact ensures_done hpending (.leave (ensures_done hpending (.refused (hall _) trivial)))
    have hserved : ∀ e ∈ h ++ [(⟨.fillBuf, some (.ok buffered)⟩ : ProbeEvent)], ¬ Refused e := by
      intro e he
      rcases List.mem_append.mp he with hbefore | hlast
      · exact hreading.served e hbefore
      · exact List.mem_singleton.mp hlast ▸ not_false
    have htaken : (Electrum.received (h ++ [(⟨.fillBuf, some (.ok buffered)⟩ : ProbeEvent)])).take
        (MAX_RESPONSE_BYTES + 1) = state.2 ++ buffered.take state.1 := by
      rw [received_concat, hreceived, chunk, List.take_append,
        List.take_of_length_le (by omega), hreading.left]
    have hsent := hreading.sent.trans
      (List.prefix_append h [(⟨.fillBuf, some (.ok buffered)⟩ : ProbeEvent)])
    dsimp only
    split
    next hline =>
      have hanswer : Electrum.answer (h ++ [(⟨.fillBuf, some (.ok buffered)⟩ : ProbeEvent)])
          = state.2 ++ firstLine (buffered.take state.1) := by
        rw [Electrum.answer, htaken, firstLine_append hreading.going]
      refine ensures_done hpending (.leave (ensures_done hpending ?_))
      refine .answered (hall _) ⟨hserved, hsent, .inl ?_⟩ (by rw [hanswer])
      rw [hanswer]
      exact List.mem_append_right _ (mem_firstLine hline)
    next hline =>
    split
    next hclosed =>
      refine ensures_done hpending (.leave (ensures_done hpending ?_))
      refine .answered (hall _) ⟨hserved, hsent, .inr (.inr ⟨h, ?_⟩)⟩ ?_
      · rw [List.isEmpty_iff.mp hclosed]
      · rw [Electrum.answer, htaken, List.isEmpty_iff.mp hclosed, List.take_nil, List.append_nil,
          firstLine_of_not_mem hreading.going]
    next =>
      refine ensures_done hpending ⟨hall _, hsent, hserved, htaken.symm, ?_, ?_⟩
      · rw [List.length_append, hreading.left]
        omega
      · exact List.not_mem_append hreading.going hline

theorem ensures_readUntil (hreading : Reading host port h (MAX_RESPONSE_BYTES + 1, [])) :
    Ensures h (readUntil (MAX_RESPONSE_BYTES + 1)) (ProbePost host port .ok) :=
  ensures_loop (Reading host port) (fun _ _ hreading => hreading.readRound) hreading

variable {parse : Bytes → Except Category UInt64}

theorem ensures_probe :
    Ensures [] (probe parse host port) (ProbePost host port (tipOf parse)) := by
  have hnone : Each (Justified host port) [] := each_nil
  have hconnect (reply) : Each (Justified host port) ([] ++ [⟨.connect host port, reply⟩]) :=
    each_concat.mpr ⟨hnone, rfl, rfl, rfl⟩
  have hwrite (reply) : Each (Justified host port)
      ([] ++ [⟨.connect host port, some (.ok ())⟩] ++ [⟨.writeAll requestLine, reply⟩]) :=
    each_concat.mpr ⟨hconnect _, rfl, rfl⟩
  have hflush (reply) : Each (Justified host port)
      ([] ++ [⟨.connect host port, some (.ok ())⟩] ++
        [⟨.writeAll requestLine, some (.ok ())⟩] ++ [⟨.flush, reply⟩]) :=
    each_concat.mpr ⟨hwrite _, rfl⟩
  refine ensures_ask (.pending hnone) (.pending (hconnect _)) fun reply => ?_
  rcases reply with ⟨⟩ | ⟨⟩
  · exact ensures_done (.pending (hconnect _)) (.refused (hconnect _) trivial)
  refine ensures_ask (.pending (hconnect _)) (.pending (hwrite _)) fun reply => ?_
  rcases reply with ⟨⟩ | ⟨⟩
  · exact ensures_done (.pending (hwrite _)) (.refused (hwrite _) trivial)
  refine ensures_ask (.pending (hwrite _)) (.pending (hflush _)) fun reply => ?_
  rcases reply with ⟨⟩ | ⟨⟩
  · exact ensures_done (.pending (hflush _)) (.refused (hflush _) trivial)
  have hreading : Reading host port (sent host port) (MAX_RESPONSE_BYTES + 1, []) := by
    refine ⟨hflush _, List.prefix_refl _, fun e he => ?_, rfl, rfl, List.not_mem_nil⟩
    simp only [sent, List.mem_cons, List.not_mem_nil, or_false] at he
    rcases he with rfl | rfl | rfl
    · exact not_false
    · exact not_false
    · exact not_false
  refine ensures_andThen ((ensures_readUntil hreading).mono fun h' o hpost => ?_)
  rcases o with _ | failure | response
  · exact .pending hpost.each
  · refine ⟨.pending hpost.each, hpost.each, fun r hsome => ?_⟩
    obtain ⟨operation, before, e, hr, hlast⟩ | ⟨-, hr⟩ := hpost.ended _ rfl
    · cases hr
      exact .inl ⟨operation, before, e, (Option.some.inj hsome).symm, hlast⟩
    · cases hr
  · obtain ⟨operation, before, e, hr, -⟩ | ⟨hanswered, hr⟩ := hpost.ended _ rfl
    · cases hr
    · cases hr
      exact ensures_done (.pending hpost.each) (.answered hpost.each hanswered rfl)

/-- Every chunk leaves less to be read. -/
theorem returns_readUntil {peer : Environment ProbeCall ProbeCall.Reply} (limit : Nat) :
    Returns peer h (readUntil limit) fun _ _ => True := by
  refine returns_loop (fun _ _ => True) (fun _ state => state.1) (fun h state _ => ?_) trivial
  rw [Electrum.readRound]
  split
  next => exact returns_done (returns_done trivial)
  next hroom =>
    refine returns_ask ?_
    rcases peer h .fillBuf with ⟨⟩ | buffered
    · exact returns_done (returns_done trivial)
    dsimp only
    split
    next => exact returns_done (returns_done trivial)
    next =>
    split
    next => exact returns_done (returns_done trivial)
    next hsome =>
      have hpos : 0 < buffered.length :=
        List.length_pos_iff.mpr fun hnil => hsome (List.isEmpty_iff.mpr hnil)
      refine returns_done ⟨trivial, ?_⟩
      simp only [List.length_take]
      omega

theorem returns_probe {peer : Environment ProbeCall ProbeCall.Reply} :
    Returns peer [] (probe parse host port) fun _ _ => True := by
  refine returns_ask ?_
  rcases peer _ (.connect host port) with ⟨⟩ | ⟨⟩
  · exact returns_done trivial
  refine returns_ask ?_
  rcases peer _ (.writeAll requestLine) with ⟨⟩ | ⟨⟩
  · exact returns_done trivial
  refine returns_ask ?_
  rcases peer _ .flush with ⟨⟩ | ⟨⟩
  · exact returns_done trivial
  refine returns_bind ((returns_readUntil _).mono fun h' response _ => ?_)
  cases response <;> exact returns_done trivial

theorem answer_length : (answer h).length ≤ MAX_RESPONSE_BYTES + 1 :=
  firstLine_length_le.trans (List.length_take_le ..)

/-- The request is sent once and whole, and nothing is read behind the first line or past the bound;
unless the connection fails, the line is read until it ends, however it arrives, and the result is
that of the whole line. Whatever the peer replies, the probe comes to a result. -/
theorem probe_reads_one_line (parse : Bytes → Except Category UInt64) (host : String)
    (port : UInt16) :
    (∀ h o, Runs (probe parse host port) h o →
      Each (Justified host port) h ∧ (answer h).length ≤ MAX_RESPONSE_BYTES + 1 ∧
      ∀ r, o = some r →
        (∃ operation before e, r = .error (.transport operation) ∧ h = before ++ [e] ∧
          Refused e) ∨
        AnswerRead host port h ∧ r = tipOf parse (answer h)) ∧
    ∀ peer, Returns peer [] (probe parse host port) fun _ _ => True := by
  refine ⟨fun h o hrun => ?_, fun peer => returns_probe⟩
  have hpost : ProbePost host port (tipOf parse) h o := ensures_probe h o hrun
  exact ⟨hpost.each, answer_length, hpost.ended⟩

/-- Why a line tells no height. -/
theorem tipOf_error {response : Bytes} {failure : ProbeFailure}
    (herror : tipOf parse response = .error failure) :
    (MAX_RESPONSE_BYTES < response.length ∧ failure = .oversized response.length) ∨
    (response = [] ∧ failure = .closed) ∨
    (response ≠ [] ∧ response.length ≤ MAX_RESPONSE_BYTES ∧ ∃ category,
      parse response = .error category ∧ failure = .unusable response.length category.text) := by
  rw [tipOf] at herror
  split at herror
  next hlong => exact .inl ⟨hlong, (Except.error.inj herror).symm⟩
  next hbounded =>
    split at herror
    next hempty => exact .inr (.inl ⟨List.isEmpty_iff.mp hempty, (Except.error.inj herror).symm⟩)
    next hsome =>
      have hne : response ≠ [] := fun hnil => hsome (List.isEmpty_iff.mpr hnil)
      cases hparse : parse response with
      | error category =>
        rw [hparse] at herror
        exact .inr (.inr ⟨hne, Nat.le_of_not_lt hbounded, category, rfl,
          (Except.error.inj herror).symm⟩)
      | ok height =>
        rw [hparse] at herror
        cases herror

/-- Of an answer that cannot be used, an error tells how long its line is, and, where it is short
enough to be read, the kind of its fault. Nothing else of it can be told from the error. -/
theorem probe_tells_length_only {parse' : Bytes → Except Category UInt64} {host' : String}
    {port' : UInt16} {h' : ProbeTrace} {failure failure' : ProbeFailure}
    (hrun : Runs (probe parse host port) h (some (.error failure)))
    (hrun' : Runs (probe parse' host' port') h' (some (.error failure')))
    (hserved : ∀ e ∈ h, ¬ Refused e) (hserved' : ∀ e ∈ h', ¬ Refused e)
    (hlength : (answer h).length = (answer h').length)
    (hkind : (answer h).length ≤ MAX_RESPONSE_BYTES → ∀ category,
      parse (answer h) = .error category ↔ parse' (answer h') = .error category) :
    failure = failure' := by
  have htip {parse : Bytes → Except Category UInt64} {host : String} {port : UInt16}
      {h : ProbeTrace} {failure : ProbeFailure}
      (hrun : Runs (probe parse host port) h (some (.error failure)))
      (hserved : ∀ e ∈ h, ¬ Refused e) : tipOf parse (answer h) = .error failure := by
    obtain ⟨_, _, e, -, rfl, he⟩ | ⟨-, hr⟩ := (ensures_probe h _ hrun).ended _ rfl
    · exact absurd he (hserved e List.mem_concat_self)
    · exact hr.symm
  have hfirst := htip hrun hserved
  have hsecond := htip hrun' hserved'
  rcases tipOf_error hfirst with ⟨hlong, rfl⟩ | ⟨hempty, rfl⟩ |
    ⟨hne, hbounded, category, hparse, rfl⟩
  · rw [tipOf, if_pos (hlength ▸ hlong), ← hlength] at hsecond
    exact Except.error.inj hsecond
  · have hempty' : answer h' = [] := List.eq_nil_of_length_eq_zero (by rw [← hlength, hempty]; rfl)
    rw [hempty'] at hsecond
    exact Except.error.inj hsecond
  · have hparse' := (hkind hbounded category).mp hparse
    rcases tipOf_error hsecond with ⟨hlong, -⟩ | ⟨hempty, -⟩ | ⟨-, -, category', hsame, rfl⟩
    · omega
    · rw [hempty] at hlength
      exact absurd (List.eq_nil_of_length_eq_zero hlength) hne
    · obtain rfl := Except.error.inj (hparse'.symm.trans hsame)
      rw [hlength]

end Runs

section Golden

def lineLength : Bytes → Except Category UInt64 := fun line => .ok (UInt64.ofNat line.length)

/-- A line that arrives in two parts, the second with what follows the line. -/
def splitRun : ProbeTrace :=
  ⟨.connect "localhost" 50001, some (.ok ())⟩ :: ⟨.writeAll requestLine, some (.ok ())⟩ ::
    ⟨.flush, some (.ok ())⟩ ::
      (([⟨.fillBuf, some (.ok [1])⟩] ++ [⟨.fillBuf, some (.ok [2, 10, 3])⟩]) ++ [])

theorem runs_split : Runs (probe lineLength "localhost" 50001) splitRun (some (.ok 3)) := by
  have hfirst : Runs (readRound (MAX_RESPONSE_BYTES + 1, [])) [⟨.fillBuf, some (.ok [1])⟩]
      (some (.inl (MAX_RESPONSE_BYTES, [1]))) := by
    rw [readRound, if_neg (Nat.succ_ne_zero _)]
    exact runs_ask (runs_done _)
  have hsecond : Runs (readRound (MAX_RESPONSE_BYTES, [1])) [⟨.fillBuf, some (.ok [2, 10, 3])⟩]
      (some (.inr (.ok [1, 2, 10]))) := by
    rw [readRound, if_neg (by decide)]
    exact runs_ask (runs_done _)
  refine runs_ask (runs_ask (runs_ask ?_))
  exact Runs.bind (runs_again hfirst (runs_leave hsecond)) (runs_done _)

/-- The result is that of the whole line, and of nothing behind it. -/
theorem probe_reads_one_line_split :
    AnswerRead "localhost" 50001 splitRun ∧ .ok 3 = tipOf lineLength (answer splitRun) := by
  have hrun := (probe_reads_one_line lineLength "localhost" 50001).1 splitRun _ runs_split
  refine (hrun.2.2 _ rfl).resolve_left ?_
  rintro ⟨operation, before, e, herror, -⟩
  cases herror

/-- A line that arrives at once. -/
def answeredRun (line : Bytes) : ProbeTrace :=
  ⟨.connect "localhost" 50001, some (.ok ())⟩ :: ⟨.writeAll requestLine, some (.ok ())⟩ ::
    ⟨.flush, some (.ok ())⟩ :: ([⟨.fillBuf, some (.ok line)⟩] ++ [])

def refuseAll : Bytes → Except Category UInt64 := fun _ => .error .malformed

theorem runs_answered {line : Bytes} (hline : 10 ∈ line)
    (hshort : line.length ≤ MAX_RESPONSE_BYTES + 1) :
    Runs (probe refuseAll "localhost" 50001) (answeredRun line)
      (some (tipOf refuseAll (firstLine line))) := by
  have hround : Runs (readRound (MAX_RESPONSE_BYTES + 1, [])) [⟨.fillBuf, some (.ok line)⟩]
      (some (.inr (.ok (firstLine line)))) := by
    rw [readRound, if_neg (Nat.succ_ne_zero _)]
    refine runs_ask ?_
    dsimp only
    rw [List.take_of_length_le hshort, if_pos hline]
    exact runs_done _
  exact runs_ask (runs_ask (runs_ask ((runs_leave hround).bind (runs_done _))))

def malformedPair : ProbeFailure := .unusable 2 "malformed JSON"

theorem answered_served {line : Bytes} : ∀ e ∈ answeredRun line, ¬ Refused e := by
  intro e he
  simp only [answeredRun, List.append_nil, List.mem_cons, List.not_mem_nil, or_false] at he
  rcases he with rfl | rfl | rfl | rfl <;> exact not_false

theorem runs_malformed (b : UInt8) (hb : b ≠ 10) :
    Runs (probe refuseAll "localhost" 50001) (answeredRun [b, 10])
      (some (.error malformedPair)) := by
  have hline : firstLine [b, 10] = [b, 10] := by rw [firstLine, if_neg hb]; rfl
  have hrun := @runs_answered [b, 10] (List.mem_cons_of_mem _ List.mem_cons_self) (by
    rw [MAX_RESPONSE_BYTES]; simp)
  rwa [hline] at hrun

/-- Two answers of one length, both malformed. -/
theorem probe_tells_length_only_malformed : malformedPair = .unusable 2 "malformed JSON" :=
  probe_tells_length_only (runs_malformed 1 (by decide)) (runs_malformed 2 (by decide))
    answered_served answered_served (by decide) fun _ _ => Iff.rfl

end Golden

end Nigiri.Electrum
