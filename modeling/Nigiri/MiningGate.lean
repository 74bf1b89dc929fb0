import Mathlib.Logic.Function.Basic
import Nigiri.FairPermit
import Nigiri.Machine

/-! The gate before the initial mining of Bitcoin fixtures: one permit for a whole process, which
any number of startups ask for, each under its own deadline, and which each gives back whichever
way its mining ends. -/
namespace Nigiri.Mining
open Nigiri.Queued Nigiri.Machine
variable {P T M : Type}

inductive Outcome (T : Type) where
  | returned (value : T)
  | timedOut (lastObservation : String)
  | cancelled
  deriving DecidableEq, Repr

inductive Phase (T : Type) where
  | before
  | waiting
  | mining
  | after (outcome : Outcome T)
  deriving DecidableEq, Repr

def waitingStage : String := "waiting for the initial mining permit"

def miningStage : String := "mining the initial 101 blocks"

def Phase.isWaiting : Phase T → Bool
  | .waiting => true
  | _ => false

/-- Whether the mining was begun, where the phase tells it. A dropped startup tells nobody. -/
def Phase.begun : Phase T → Option Bool
  | .before | .waiting => some false
  | .mining | .after (.returned _) => some true
  | .after (.timedOut lastObservation) => some (lastObservation = miningStage)
  | .after .cancelled => none

/-- The permit and its startups, with a record of who asked and who went on to mine. -/
structure Gate (P T M : Type) where
  permit : M
  phase : P → Phase T
  asked : List P
  entered : List P

def Gate.waits (gate : Gate P T M) (p : P) : Bool := (gate.phase p).isWaiting

inductive Move (P T : Type) where
  | ask (p : P)
  | wake (p : P)
  | finish (p : P) (value : T)
  | expire (p : P)
  | cancel (p : P)

variable {gate gate' : Gate P T M} {p q : P}

theorem filter_waits {line : List P} (hphase : ∀ q ≠ p, gate'.phase q = gate.phase q)
    (hp : p ∉ line) : line.filter gate'.waits = line.filter gate.waits := by
  refine List.filter_congr fun q hq => ?_
  have hne : q ≠ p := fun hsame => hp (hsame ▸ hq)
  rw [Gate.waits, Gate.waits, hphase q hne]

section Steps
variable [DecidableEq P]

def Gate.initial (mutex : FairMutex P M) : Gate P T M := ⟨mutex.free, fun _ => .before, [], []⟩

section Moves
variable (mutex : FairMutex P M)

def Gate.request (gate : Gate P T M) (p : P) : Gate P T M :=
  { gate with
    permit := mutex.ask gate.permit p
    phase := Function.update gate.phase p .waiting
    asked := gate.asked ++ [p] }

def Gate.enter (gate : Gate P T M) (p : P) : Gate P T M :=
  { gate with
    phase := Function.update gate.phase p .mining
    entered := gate.entered ++ [p] }

/-- The guard is dropped, or the place in the line. -/
def Gate.quit (gate : Gate P T M) (p : P) (outcome : Outcome T) : Gate P T M :=
  { gate with
    permit := mutex.leave gate.permit p
    phase := Function.update gate.phase p (.after outcome) }

/-- A free permit is taken in the poll that asks for it. A deadline is only looked at after what it
bounds, so that who has been handed the permit takes it, even late. -/
def Gate.step (gate : Gate P T M) : Move P T → Option (Gate P T M)
  | .ask p =>
    match gate.phase p, mutex.holder gate.permit with
    | .before, none => some ((gate.request mutex p).enter p)
    | .before, some _ => some (gate.request mutex p)
    | _, _ => none
  | .wake p =>
    match gate.phase p with
    | .waiting => if mutex.holder gate.permit = some p then some (gate.enter p) else none
    | _ => none
  | .finish p value =>
    match gate.phase p with
    | .mining => some (gate.quit mutex p (.returned value))
    | _ => none
  | .expire p =>
    match gate.phase p with
    | .waiting =>
      if mutex.holder gate.permit = some p then none
      else some (gate.quit mutex p (.timedOut waitingStage))
    | .mining => some (gate.quit mutex p (.timedOut miningStage))
    | _ => none
  | .cancel p =>
    match gate.phase p with
    | .waiting | .mining => some (gate.quit mutex p .cancelled)
    | _ => none

end Moves

/-- What a phase and an outcome have to agree on. -/
def Fits : Phase T → Outcome T → Prop
  | .waiting, outcome => outcome = .timedOut waitingStage ∨ outcome = .cancelled
  | .mining, outcome =>
    (∃ value, outcome = .returned value) ∨ outcome = .timedOut miningStage ∨ outcome = .cancelled
  | _, _ => False

/-- All that a move can do. -/
inductive Steps (mutex : FairMutex P M) (gate : Gate P T M) : Gate P T M → Prop where
  | request (p : P) (hbefore : gate.phase p = .before) : Steps mutex gate (gate.request mutex p)
  | take (p : P) (hbefore : gate.phase p = .before) (hfree : mutex.holder gate.permit = none) :
      Steps mutex gate ((gate.request mutex p).enter p)
  | enter (p : P) (hwaiting : gate.phase p = .waiting)
      (hholder : mutex.holder gate.permit = some p) :
      Steps mutex gate (gate.enter p)
  | quit (p : P) (outcome : Outcome T) (hfits : Fits (gate.phase p) outcome) :
      Steps mutex gate (gate.quit mutex p outcome)

/-- Who waits or mines is in the line, who mines is first in it, and those who have mined and those
who wait stand in the order in which they asked. -/
structure Served (mutex : FairMutex P M) (gate : Gate P T M) : Prop where
  nodup : (mutex.line gate.permit).Nodup
  inLine : ∀ p, p ∈ mutex.line gate.permit ↔ gate.phase p = .waiting ∨ gate.phase p = .mining
  first : ∀ p, gate.phase p = .mining → mutex.holder gate.permit = some p
  order : (gate.entered ++ (mutex.line gate.permit).filter gate.waits).Sublist gate.asked
  asked : ∀ p, p ∈ gate.asked ↔ gate.phase p ≠ .before
  once : gate.asked.Nodup
  begun : ∀ p begun, (gate.phase p).begun = some begun → (begun = true ↔ p ∈ gate.entered)

variable {mutex : FairMutex P M}

theorem line_initial : mutex.line (Gate.initial mutex : Gate P T M).permit = [] :=
  FairMutex.line_unheld mutex.unheld

theorem served_initial : Served mutex (Gate.initial mutex : Gate P T M) where
  nodup := by
    rw [line_initial]
    exact List.nodup_nil
  inLine p := by
    rw [line_initial]
    simp [Gate.initial]
  first p h := by cases h
  order := by
    rw [line_initial]
    exact List.Sublist.refl _
  asked p := by simp [Gate.initial]
  once := List.nodup_nil
  begun p begun h := by
    obtain rfl := Option.some.inj h
    simp [Gate.initial]

theorem step_cases {m : Move P T} (hstep : gate.step mutex m = some gate') :
    Steps mutex gate gate' := by
  cases m with
  | ask p =>
    rw [Gate.step] at hstep
    split at hstep
    next hbefore hfree =>
      obtain rfl := Option.some.inj hstep
      exact .take p hbefore hfree
    next hbefore _ =>
      obtain rfl := Option.some.inj hstep
      exact .request p hbefore
    next => cases hstep
  | wake p =>
    rw [Gate.step] at hstep
    split at hstep
    next hwaiting =>
      obtain ⟨hholder, hnext⟩ := Option.ite_none_right_eq_some.mp hstep
      obtain rfl := Option.some.inj hnext
      exact .enter p hwaiting hholder
    next => cases hstep
  | finish p value =>
    rw [Gate.step] at hstep
    split at hstep
    next hmining =>
      obtain rfl := Option.some.inj hstep
      exact .quit p _ (hmining ▸ .inl ⟨value, rfl⟩)
    next => cases hstep
  | expire p =>
    rw [Gate.step] at hstep
    split at hstep
    next hwaiting =>
      obtain ⟨_, hnext⟩ := Option.ite_none_left_eq_some.mp hstep
      obtain rfl := Option.some.inj hnext
      exact .quit p _ (hwaiting ▸ .inl rfl)
    next hmining =>
      obtain rfl := Option.some.inj hstep
      exact .quit p _ (hmining ▸ .inr (.inl rfl))
    next => cases hstep
  | cancel p =>
    rw [Gate.step] at hstep
    split at hstep
    next hwaiting =>
      obtain rfl := Option.some.inj hstep
      exact .quit p _ (hwaiting ▸ .inr rfl)
    next hmining =>
      obtain rfl := Option.some.inj hstep
      exact .quit p _ (hmining ▸ .inr (.inr rfl))
    next => cases hstep

theorem Served.request (h : Served mutex gate) (hbefore : gate.phase p = .before) :
    Served mutex (gate.request mutex p) := by
  have hsame : (gate.request mutex p).phase p = .waiting := Function.update_self ..
  have hother : ∀ q ≠ p, (gate.request mutex p).phase q = gate.phase q :=
    fun q hne => Function.update_of_ne hne ..
  have hline : p ∉ mutex.line gate.permit := by
    rw [h.inLine, hbefore]
    simp
  have hasked : p ∉ gate.asked := fun hmem => (h.asked p).mp hmem hbefore
  have hnext : mutex.line (gate.request mutex p).permit = mutex.line gate.permit ++ [p] :=
    FairMutex.line_ask
  refine ⟨?_, fun q => ?_, fun q hq => ?_, ?_, fun q => ?_, ?_,
    fun q begun hq => ?_⟩
  · rw [hnext]
    exact List.concat_eq_append ▸ h.nodup.concat hline
  · rw [hnext, List.mem_append, List.mem_singleton]
    by_cases hqp : q = p
    · rw [hqp, hsame]
      simp
    · rw [hother q hqp, h.inLine]
      simp [hqp]
  · have hqp : q ≠ p := by
      rintro rfl
      rw [hsame] at hq
      cases hq
    rw [hother q hqp] at hq
    exact (mutex.queued _ p q (h.first q hq)).1
  · rw [hnext, List.filter_append, filter_waits hother hline, ← List.append_assoc]
    refine h.order.append ?_
    exact List.filter_sublist
  · change q ∈ gate.asked ++ [p] ↔ _
    rw [List.mem_append, List.mem_singleton]
    by_cases hqp : q = p
    · rw [hqp, hsame]
      simp
    · rw [hother q hqp, h.asked]
      simp [hqp]
  · change (gate.asked ++ [p]).Nodup
    exact List.concat_eq_append ▸ h.once.concat hasked
  · by_cases hqp : q = p
    · subst hqp
      rw [hsame] at hq
      obtain rfl := Option.some.inj hq
      exact h.begun q false (by rw [hbefore]; rfl)
    · rw [hother q hqp] at hq
      exact h.begun q begun hq

theorem Served.enter (h : Served mutex gate) (hwaiting : gate.phase p = .waiting)
    (hholder : mutex.holder gate.permit = some p) : Served mutex (gate.enter p) := by
  have hsame : (gate.enter p).phase p = .mining := Function.update_self ..
  have hother : ∀ q ≠ p, (gate.enter p).phase q = gate.phase q :=
    fun q hne => Function.update_of_ne hne ..
  have hline : mutex.line gate.permit = p :: mutex.waiters gate.permit :=
    FairMutex.line_held hholder
  have hbehind : p ∉ mutex.waiters gate.permit := (List.nodup_cons.mp (hline ▸ h.nodup)).1
  refine ⟨h.nodup, fun q => ?_, fun q hq => ?_, ?_, fun q => ?_, h.once,
    fun q begun hq => ?_⟩
  · change q ∈ mutex.line gate.permit ↔ _
    by_cases hqp : q = p
    · rw [hqp, hsame, hline]
      simp
    · rw [hother q hqp, h.inLine]
  · by_cases hqp : q = p
    · exact hqp ▸ hholder
    · rw [hother q hqp] at hq
      exact h.first q hq
  · have horder := h.order
    have hlast : (gate.enter p).waits p = false := by rw [Gate.waits, hsame]; rfl
    have hfirst : gate.waits p = true := by rw [Gate.waits, hwaiting]; rfl
    change ((gate.entered ++ [p]) ++ (mutex.line gate.permit).filter (gate.enter p).waits).Sublist _
    rw [hline, List.filter_cons_of_pos hfirst] at horder
    rw [hline, List.filter_cons_of_neg (by simp [hlast]), filter_waits hother hbehind,
      List.append_assoc]
    exact horder
  · by_cases hqp : q = p
    · rw [hqp, hsame]
      have hasked := (h.asked p).mpr (by rw [hwaiting]; simp)
      exact iff_of_true hasked (by simp)
    · rw [hother q hqp]
      exact h.asked q
  · change begun = true ↔ q ∈ gate.entered ++ [p]
    by_cases hqp : q = p
    · rw [hqp, hsame] at hq
      obtain rfl := Option.some.inj hq
      simp [hqp]
    · rw [hother q hqp] at hq
      rw [h.begun q begun hq]
      simp [hqp]

theorem Fits.waits {phase : Phase T} {outcome : Outcome T} (hfits : Fits phase outcome) :
    phase = .waiting ∨ phase = .mining := by
  cases phase with
  | waiting => exact .inl rfl
  | mining => exact .inr rfl
  | before => exact hfits.elim
  | after => exact hfits.elim

/-- An outcome tells no other story than the phase it ends. -/
theorem Fits.begun {phase : Phase T} {outcome : Outcome T} {begun : Bool}
    (hfits : Fits phase outcome) (htold : (Phase.after outcome).begun = some begun) :
    phase.begun = some begun := by
  cases phase with
  | before => exact hfits.elim
  | after => exact hfits.elim
  | waiting =>
    obtain rfl | rfl := hfits
    · exact htold
    · cases htold
  | mining =>
    obtain ⟨value, rfl⟩ | rfl | rfl := hfits
    · exact htold
    · exact htold
    · cases htold

theorem Served.quit {outcome : Outcome T} (h : Served mutex gate)
    (hfits : Fits (gate.phase p) outcome) : Served mutex (gate.quit mutex p outcome) := by
  have hsame : (gate.quit mutex p outcome).phase p = .after outcome := Function.update_self ..
  have hother : ∀ q ≠ p, (gate.quit mutex p outcome).phase q = gate.phase q :=
    fun q hne => Function.update_of_ne hne ..
  have hnext : mutex.line (gate.quit mutex p outcome).permit =
      (mutex.line gate.permit).erase p := FairMutex.line_leave
  have hgone : p ∉ (mutex.line gate.permit).erase p := h.nodup.not_mem_erase
  refine ⟨?_, fun q => ?_, fun q hq => ?_, ?_, fun q => ?_, h.once,
    fun q begun hq => ?_⟩
  · rw [hnext]
    exact h.nodup.erase p
  · rw [hnext]
    by_cases hqp : q = p
    · rw [hqp, hsame]
      simp [hgone]
    · rw [hother q hqp, List.mem_erase_of_ne hqp, h.inLine]
  · by_cases hqp : q = p
    · rw [hqp, hsame] at hq
      cases hq
    · rw [hother q hqp] at hq
      exact FairMutex.leave_holder (h.first q hq) hqp
  · rw [hnext, filter_waits hother hgone]
    have hless : ((mutex.line gate.permit).erase p).Sublist (mutex.line gate.permit) :=
      List.erase_sublist
    exact ((List.Sublist.refl _).append (hless.filter _)).trans h.order
  · by_cases hqp : q = p
    · rw [hqp, hsame]
      have hphase : gate.phase p ≠ .before := by
        rintro hbefore
        rw [hbefore] at hfits
        exact hfits
      exact iff_of_true ((h.asked p).mpr hphase) (by simp)
    · rw [hother q hqp]
      exact h.asked q
  · by_cases hqp : q = p
    · subst hqp
      rw [hsame] at hq
      exact h.begun q begun (hfits.begun hq)
    · rw [hother q hqp] at hq
      exact h.begun q begun hq

theorem Served.step {m : Move P T} (h : Served mutex gate)
    (hstep : gate.step mutex m = some gate') : Served mutex gate' := by
  cases step_cases hstep with
  | request p hbefore => exact h.request hbefore
  | take p hbefore hfree =>
    refine (h.request hbefore).enter (Function.update_self ..) ?_
    exact (mutex.taken _ p hfree).1
  | enter p hwaiting hholder => exact h.enter hwaiting hholder
  | quit p outcome hfits => exact h.quit hfits

theorem served_run {moves : List (Move P T)}
    (hrun : run (Gate.step mutex) (Gate.initial mutex) moves = some gate) : Served mutex gate :=
  run_invariant (fun _ _ _ h hstep => h.step hstep) served_initial hrun

/-- Who mines at the head of the line makes room for the next. -/
theorem Served.headLeaves {rest : List P} (h : Served mutex gate)
    (hline : mutex.line gate.permit = q :: rest) (value : T) :
    ∃ next, Served mutex next ∧ mutex.line next.permit = rest ∧
      (∀ p ≠ q, next.phase p = gate.phase p) ∧
      Reaches (Gate.step mutex) (fun m => m = .wake q ∨ m = .finish q value) gate next := by
  have hholder : mutex.holder gate.permit = some q := by
    rw [FairMutex.holder_eq_head?, hline]
    rfl
  have hfinish {gate : Gate P T M} (h : Served mutex gate)
      (hline : mutex.line gate.permit = q :: rest) (hmining : gate.phase q = .mining) :
      ∃ next, gate.step mutex (.finish q value) = some next ∧ Served mutex next ∧
        mutex.line next.permit = rest ∧ ∀ p ≠ q, next.phase p = gate.phase p := by
    have hstep : gate.step mutex (.finish q value) =
        some (gate.quit mutex q (.returned value)) := by
      rw [Gate.step, hmining]
    refine ⟨_, hstep, h.step hstep, ?_, fun p hne => Function.update_of_ne hne ..⟩
    change mutex.line (mutex.leave gate.permit q) = rest
    rw [FairMutex.line_leave, hline, List.erase_cons_head]
  rcases (h.inLine q).mp (by rw [hline]; exact List.mem_cons_self) with hwaiting | hmining
  · have hwake : gate.step mutex (.wake q) = some (gate.enter q) := by
      rw [Gate.step, hwaiting]
      exact if_pos hholder
    obtain ⟨next, hnext, hserved, hrest, hkeeps⟩ :=
      hfinish (h.step hwake) hline (Function.update_self ..)
    refine ⟨next, hserved, hrest, fun p hne => ?_,
      .head (.inl rfl) hwake (.head (.inr rfl) hnext .refl)⟩
    rw [hkeeps p hne]
    exact Function.update_of_ne hne ..
  · obtain ⟨next, hnext, hserved, hrest, hkeeps⟩ := hfinish h hline hmining
    exact ⟨next, hserved, hrest, hkeeps, .head (.inr rfl) hnext .refl⟩

/-- Nobody has to give up for another to get its turn. -/
theorem Served.turn (h : Served mutex gate) (hwaiting : gate.phase p = .waiting) (value : T) :
    ∃ next, next.phase p = .mining ∧
      Reaches (Gate.step mutex) (fun m => ∃ q, m = .wake q ∨ m = .finish q value) gate next := by
  have hmem : p ∈ mutex.line gate.permit := (h.inLine p).mpr (.inl hwaiting)
  generalize hline : mutex.line gate.permit = line at hmem
  induction line generalizing gate with
  | nil => cases hmem
  | cons q rest ih =>
    by_cases hpq : p = q
    · have hholder : mutex.holder gate.permit = some p := by
        rw [FairMutex.holder_eq_head?, hline, hpq]
        rfl
      have hwake : gate.step mutex (.wake p) = some (gate.enter p) := by
        rw [Gate.step, hwaiting]
        exact if_pos hholder
      exact ⟨_, Function.update_self .., .head ⟨p, .inl rfl⟩ hwake .refl⟩
    · obtain ⟨next, hserved, hrest, hkeeps, hreach⟩ := h.headLeaves hline value
      have hstill : next.phase p = .waiting := (hkeeps p hpq).trans hwaiting
      have hlater : p ∈ rest := (List.mem_cons.mp hmem).resolve_left hpq
      obtain ⟨last, hmining, hlast⟩ := ih hserved hstill hrest hlater
      exact ⟨last, hmining, (hreach.mono fun m hm => ⟨q, hm⟩).trans hlast⟩

/-- What the gate promises of every state that its startups bring about. -/
structure Gate.Fair (mutex : FairMutex P M) (gate : Gate P T M) : Prop where
  alone : ∀ p q, gate.phase p = .mining → gate.phase q = .mining → p = q
  free : mutex.holder gate.permit = none → ∀ p, gate.phase p ≠ .waiting ∧ gate.phase p ≠ .mining
  held : ∀ p, mutex.holder gate.permit = some p → gate.phase p = .waiting ∨ gate.phase p = .mining
  firstCome : gate.entered.Sublist gate.asked
  inOrder : ∀ p q, [p, q].Sublist gate.asked → gate.phase p = .waiting → q ∉ gate.entered
  once : gate.entered.Nodup
  told : ∀ p begun, (gate.phase p).begun = some begun → (begun = true ↔ p ∈ gate.entered)
  turn : ∀ p value, gate.phase p = .waiting → ∃ next, next.phase p = .mining ∧
    Reaches (Gate.step mutex) (fun m => ∃ q, m = .wake q ∨ m = .finish q value) gate next

/-- Startups of fixtures mine one at a time and in the order in which they asked to, whichever of
them run out of time or are dropped at whatever point, and none of them can be left behind. -/
theorem gate_fair {moves : List (Move P T)}
    (hrun : run (Gate.step mutex) (Gate.initial mutex) moves = some gate) : gate.Fair mutex := by
  have h := served_run hrun
  have hcome : gate.entered.Sublist gate.asked := (List.sublist_append_left ..).trans h.order
  refine ⟨fun p q hp hq => ?_, fun hfree p => ?_, fun p hheld => ?_, hcome,
    fun p q hasked hwaiting hq => ?_, hcome.nodup h.once, h.begun,
    fun p value hwaiting => h.turn hwaiting value⟩
  · exact Option.some.inj ((h.first p hp).symm.trans (h.first q hq))
  · have hline : p ∉ mutex.line gate.permit := by
      rw [FairMutex.line_unheld hfree]
      exact List.not_mem_nil
    exact not_or.mp fun hin => hline ((h.inLine p).mpr hin)
  · refine (h.inLine p).mp ?_
    rw [FairMutex.line_held hheld]
    exact List.mem_cons_self
  · have hp : p ∈ (mutex.line gate.permit).filter gate.waits := by
      refine List.mem_filter.mpr ⟨(h.inLine p).mpr (.inl hwaiting), ?_⟩
      rw [Gate.waits, hwaiting]
      rfl
    have hlate : [q, p].Sublist (gate.entered ++ (mutex.line gate.permit).filter gate.waits) :=
      (List.singleton_sublist.mpr hq).append (List.singleton_sublist.mpr hp)
    exact not_sublist_swap h.once hasked (hlate.trans h.order)

end Steps

/-- The first is dropped while it mines and the second runs out of time, so the third mines. -/
theorem gate_fair_dropped : ∃ gate : Gate Nat Unit (Permit Nat),
    run (Gate.step (fairPermit Nat)) (Gate.initial (fairPermit Nat))
      [.ask 0, .ask 1, .ask 2, .expire 1, .cancel 0, .wake 2] = some gate ∧
      gate.entered = [0, 2] ∧ gate.Fair (fairPermit Nat) :=
  ⟨_, rfl, rfl, @gate_fair _ _ _ _ _ (fairPermit Nat)
    [.ask 0, .ask 1, .ask 2, .expire 1, .cancel 0, .wake 2] rfl⟩

end Nigiri.Mining
