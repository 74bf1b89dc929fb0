import Nigiri.MutationRecords

/-! A startup leaves nothing behind: whichever way its work ends, the supervisor removes what was
reserved, in the reverse order, when no creating request is on its way any more. -/
namespace Nigiri.Supervisor
open Nigiri.History Nigiri.Machine Nigiri.Runtime
variable {α ξ ε : Type}

section Stages

def MutationStatus.isSettled : MutationStatus ε → Bool
  | .settled _ => true
  | _ => false

/-- Nothing has been cleaned up, and every request is registered. -/
structure Open (log : List (Event ε)) (ledger : ResourceLedger) (mutations : List (Mutation ε))
    (registry : List Nat) : Prop where
  cleanup : .cleanup ∉ log
  removals : removals log = []
  returned : returned log = []
  ledger : ledger = ledgerOf log
  registry : ∀ index < mutations.length, index ∈ registry

/-- The cleanup waits for the requests. -/
structure Settling (log : List (Event ε)) (ledger : ResourceLedger) (mutations : List (Mutation ε))
    (pending : List Nat) : Prop where
  cleanup : .cleanup ∈ log
  removals : removals log = []
  returned : returned log = []
  ledger : ledger = ledgerOf log
  settled : ∀ index (mutation : Mutation ε), mutations[index]? = some mutation →
    mutation.status.isSettled = false → index ∈ pending

/-- What is left of the ledger is to be removed. -/
structure Removing (log : List (Event ε)) (mutations : List (Mutation ε))
    (left : List OwnedResource) : Prop where
  cleanup : .cleanup ∈ log
  settled : ∀ mutation ∈ mutations, mutation.status.isSettled = true
  removals : removals log ++ left.map OwnedResource.removal =
    (ledgerOf log).reverse.map OwnedResource.removal

/-- How far the cleanup is in each phase. -/
def Stage (c : Core α ξ ε) : Prop :=
  match c.phase with
  | .unspawned | .building | .unbuilt =>
    c.log = [] ∧ c.ledger = [] ∧ c.mutations = [] ∧ c.branches = []
  | .working => Open c.log c.ledger c.mutations c.registry
  | .deciding _ | .serving => Open c.log c.ledger c.mutations c.registry ∧ c.branches = []
  | .settling pending _ => Settling c.log c.ledger c.mutations pending ∧ c.branches = []
  | .removing left _ _ =>
    Removing c.log c.mutations left ∧ (removals c.log).map Prod.fst = returned c.log ∧
      c.branches = []
  | .awaitingRemoval owned left _ _ =>
    Removing c.log c.mutations left ∧
      (removals c.log).map Prod.fst = returned c.log ++ [owned.resource] ∧ c.branches = []
  | .cleaned _ _ | .finished =>
    Removing c.log c.mutations [] ∧ (removals c.log).map Prod.fst = returned c.log ∧
      c.branches = []

structure Kept (c : Core α ξ ε) : Prop where
  recorded : Recorded c.mutations c.log
  counted : Counted c
  stage : Stage c

end Stages

section Stage
variable {c : Core α ξ ε}

theorem Stage.working_of_branch {index : Nat} {branch : Branch} (hc : Stage c)
    (hb : c.branches[index]? = some branch) : c.phase = .working := by
  have hne : c.branches ≠ [] := by
    rintro h
    rw [h] at hb
    cases hb
  cases hphase : c.phase with
  | working => rfl
  | unspawned | building | unbuilt =>
    simp only [Stage, hphase] at hc
    exact absurd hc.2.2.2 hne
  | deciding | serving | settling =>
    simp only [Stage, hphase] at hc
    exact absurd hc.2 hne
  | removing | awaitingRemoval | cleaned | finished =>
    simp only [Stage, hphase] at hc
    exact absurd hc.2.2 hne

/-- Nothing has been removed while a request may still be on its way. -/
theorem Stage.no_removals {index : Nat} {mutation : Mutation ε} (hc : Stage c)
    (hm : c.mutations[index]? = some mutation) (hunsettled : mutation.status.isSettled = false) :
    removals c.log = [] := by
  have hmem := List.mem_of_getElem? hm
  have hremoving : ∀ left, Removing c.log c.mutations left → removals c.log = [] := by
    intro left h
    have hsettled := h.settled mutation hmem
    rw [hunsettled] at hsettled
    cases hsettled
  cases hphase : c.phase with
  | unspawned | building | unbuilt =>
    simp only [Stage, hphase] at hc
    rw [hc.1]
    rfl
  | working =>
    simp only [Stage, hphase] at hc
    exact hc.removals
  | deciding | serving | settling =>
    simp only [Stage, hphase] at hc
    exact hc.1.removals
  | removing | awaitingRemoval | cleaned | finished =>
    simp only [Stage, hphase] at hc
    exact hremoving _ hc.1

theorem Stage.leaves (hc : Stage c) : Stage { c with branches := [] } := by
  cases hphase : c.phase with
  | unspawned | building | unbuilt =>
    simp only [Stage, hphase] at hc ⊢
    exact ⟨hc.1, hc.2.1, hc.2.2.1, trivial⟩
  | working =>
    simp only [Stage, hphase] at hc ⊢
    exact hc
  | deciding | serving | settling =>
    simp only [Stage, hphase] at hc ⊢
    exact ⟨hc.1, trivial⟩
  | removing | awaitingRemoval | cleaned | finished =>
    simp only [Stage, hphase] at hc ⊢
    exact ⟨hc.1, hc.2.1, trivial⟩

/-- A startup whose work has ended has not been cleaned up yet. -/
theorem Stage.open_of_ending (hc : Stage c)
    (hphase : (∃ outcome, c.phase = .deciding outcome) ∨ c.phase = .serving) :
    Open c.log c.ledger c.mutations c.registry ∧ c.branches = [] := by
  obtain ⟨outcome, hphase⟩ | hphase := hphase <;> simp only [Stage, hphase] at hc <;> exact hc

theorem stage_of_working (hphase : c.phase = .working)
    (hopen : Open c.log c.ledger c.mutations c.registry) : Stage c := by
  simp only [Stage, hphase]
  exact hopen

end Stage

section Events
variable {log : List (Event ε)} {ledger : ResourceLedger} {mutations mutations' : List (Mutation ε)}
  {registry registry' pending : List Nat} {left : List OwnedResource} {e : Event ε}

/-- The event is not one of the cleanup. -/
def Event.quiet : Event ε → Bool
  | .cleanup | .removing _ _ | .removed _ _ => false
  | _ => true

theorem removals_quiet (he : e.quiet = true) : removals (log ++ [e]) = removals log := by
  rw [removals_concat]
  cases e with
  | removing => cases he
  | _ => exact List.append_nil _

theorem returned_quiet (he : e.quiet = true) : returned (log ++ [e]) = returned log := by
  rw [returned_concat]
  cases e with
  | removed => cases he
  | _ => exact List.append_nil _

theorem cleanup_quiet (he : e.quiet = true) : .cleanup ∈ log ++ [e] ↔ .cleanup ∈ log := by
  rw [List.mem_append, List.mem_singleton]
  refine or_iff_left fun h => ?_
  rw [← h] at he
  cases he

theorem Open.concat (h : Open log ledger mutations registry) (he : e.quiet = true)
    (hregistry : ∀ index < mutations'.length, index ∈ registry') :
    Open (log ++ [e]) (e.record ledger) mutations' registry' where
  cleanup := by rw [cleanup_quiet he]; exact h.cleanup
  removals := by rw [removals_quiet he, h.removals]
  returned := by rw [returned_quiet he, h.returned]
  ledger := by rw [ledgerOf_concat, h.ledger]
  registry := hregistry

theorem Settling.concat (h : Settling log ledger mutations pending) (he : e.quiet = true)
    (hsettled : ∀ index (mutation : Mutation ε), mutations'[index]? = some mutation →
      mutation.status.isSettled = false → index ∈ pending) :
    Settling (log ++ [e]) (e.record ledger) mutations' pending where
  cleanup := by rw [cleanup_quiet he]; exact h.cleanup
  removals := by rw [removals_quiet he, h.removals]
  returned := by rw [returned_quiet he, h.returned]
  ledger := by rw [ledgerOf_concat, h.ledger]
  settled := hsettled

theorem Open.reserve (h : Open log ledger mutations registry) (branches : List Branch) :
    Open (log ++ branches.map fun branch => .reserved branch.resource)
      (branches.foldl (fun ledger branch => expect ledger branch.resource) ledger) mutations
      registry := by
  induction branches generalizing log ledger with
  | nil => simpa using h
  | cons branch branches ih =>
    rw [List.map_cons, List.append_cons, List.foldl_cons]
    exact ih (h.concat rfl h.registry)

theorem Removing.concat (h : Removing log mutations left) (he : e.quiet = true)
    (hrecord : ∀ ledger, e.record ledger = ledger) : Removing (log ++ [e]) mutations left where
  cleanup := (cleanup_quiet he).mpr h.cleanup
  settled := h.settled
  removals := by rw [removals_quiet he, ledgerOf_concat, hrecord, h.removals]

theorem Open.cleanup_settling (h : Open log ledger mutations registry) :
    Settling (log ++ [.cleanup]) ledger mutations registry where
  cleanup := List.mem_concat_self
  removals := by rw [removals_concat, h.removals]; rfl
  returned := by rw [returned_concat, h.returned]; rfl
  ledger := by rw [ledgerOf_concat, h.ledger]; rfl
  settled index _ hm _ := h.registry index (List.getElem?_eq_some_iff.mp hm).1

theorem Settling.join {index : Nat} {resource : Resource} {reply : Option (Except ε String)}
    (h : Settling log ledger mutations (index :: pending))
    (hm : mutations[index]? = some ⟨resource, .settled reply⟩) :
    Settling log ledger mutations pending where
  cleanup := h.cleanup
  removals := h.removals
  returned := h.returned
  ledger := h.ledger
  settled index' mutation hm' hunsettled := by
    obtain rfl | hmem := List.mem_cons.mp (h.settled index' mutation hm' hunsettled)
    · cases hm.symm.trans hm'
      cases hunsettled
    · exact hmem

theorem Settling.takeOrder (h : Settling log ledger mutations []) :
    Removing log mutations ledger.reverse where
  cleanup := h.cleanup
  settled mutation hmem := by
    obtain ⟨index, hm⟩ := List.mem_iff_getElem?.mp hmem
    cases hsettled : mutation.status.isSettled with
    | true => rfl
    | false => cases h.settled index mutation hm hsettled
  removals := by rw [h.removals, h.ledger, List.nil_append]

theorem Removing.remove {owned : OwnedResource} (h : Removing log mutations (owned :: left)) :
    Removing (log ++ [.removing owned.resource owned.target]) mutations left where
  cleanup := List.mem_append_left _ h.cleanup
  settled := h.settled
  removals := by
    rw [removals_concat, ledgerOf_concat]
    change Supervisor.removals log ++ [owned.removal] ++ _ = (ledgerOf log).reverse.map _
    rw [← h.removals, List.append_assoc, List.map_cons, List.singleton_append]

theorem Removing.return {resource : Resource} (h : Removing log mutations left)
    (result : Except ε Unit) : Removing (log ++ [.removed resource result]) mutations left where
  cleanup := List.mem_append_left _ h.cleanup
  settled := h.settled
  removals := by
    rw [removals_concat, ledgerOf_concat]
    change Supervisor.removals log ++ [] ++ _ = (ledgerOf log).reverse.map _
    rw [List.append_nil, h.removals]

end Events

section Steps
variable {c c' : Core α ξ ε}

/-- A request that has not settled is brought on before anything is removed. -/
theorem Stage.set {index : Nat} {resource : Resource} {status status' : MutationStatus ε}
    {e : Event ε} (hc : Stage c) (hm : c.mutations[index]? = some ⟨resource, status⟩)
    (hunsettled : status.isSettled = false) (he : e.quiet = true) :
    Stage { c with
      mutations := c.mutations.set index ⟨resource, status'⟩
      ledger := e.record c.ledger
      log := c.log ++ [e] } := by
  have hmem := List.mem_of_getElem? hm
  have hopen : Open c.log c.ledger c.mutations c.registry →
      Open (c.log ++ [e]) (e.record c.ledger) (c.mutations.set index ⟨resource, status'⟩)
        c.registry := by
    intro h
    refine h.concat he ?_
    rw [List.length_set]
    exact h.registry
  have hremoving : ∀ left, ¬ Removing c.log c.mutations left := by
    intro left h
    have hsettled := h.settled _ hmem
    rw [hunsettled] at hsettled
    cases hsettled
  cases hphase : c.phase with
  | unspawned | building | unbuilt =>
    simp only [Stage, hphase] at hc
    rw [hc.2.2.1] at hmem
    cases hmem
  | working =>
    simp only [Stage, hphase] at hc ⊢
    exact hopen hc
  | deciding | serving =>
    simp only [Stage, hphase] at hc ⊢
    exact ⟨hopen hc.1, hc.2⟩
  | settling pending after =>
    simp only [Stage, hphase] at hc ⊢
    refine ⟨hc.1.concat he ?_, hc.2⟩
    intro index' mutation hm' hmutation
    by_cases hindex : index = index'
    · subst hindex
      exact hc.1.settled index _ hm hunsettled
    · rw [List.getElem?_set_ne hindex] at hm'
      exact hc.1.settled index' mutation hm' hmutation
  | removing | awaitingRemoval | cleaned | finished =>
    simp only [Stage, hphase] at hc
    exact absurd hc.1 (hremoving _)

theorem Stage.commit {index : Nat} {mutation : Mutation ε} (hc : Stage c)
    (hm : c.mutations[index]? = some mutation) :
    Stage { c with log := c.log ++ [.committed index mutation.resource] } := by
  have hmem := List.mem_of_getElem? hm
  have hreturned : returned (c.log ++ [.committed index mutation.resource]) = returned c.log :=
    returned_quiet rfl
  have hremovals : removals (c.log ++ [.committed index mutation.resource]) = removals c.log :=
    removals_quiet rfl
  cases hphase : c.phase with
  | unspawned | building | unbuilt =>
    simp only [Stage, hphase] at hc
    rw [hc.2.2.1] at hmem
    cases hmem
  | working =>
    simp only [Stage, hphase] at hc ⊢
    exact hc.concat rfl hc.registry
  | deciding | serving =>
    simp only [Stage, hphase] at hc ⊢
    exact ⟨hc.1.concat rfl hc.1.registry, hc.2⟩
  | settling =>
    simp only [Stage, hphase] at hc ⊢
    exact ⟨hc.1.concat rfl hc.1.settled, hc.2⟩
  | removing | awaitingRemoval | cleaned | finished =>
    simp only [Stage, hphase, hreturned, hremovals] at hc ⊢
    exact ⟨hc.1.concat rfl fun _ => rfl, hc.2⟩

theorem settleMutation_eq (index : Nat) (resource : Resource)
    (reply : Option (Except ε String)) :
    c.settleMutation index resource reply = { c with
      mutations := c.mutations.set index ⟨resource, .settled reply⟩
      ledger := Event.record c.ledger (.reported index resource reply)
      log := c.log ++ [.reported index resource reply] } := by
  cases reply with
  | none => rfl
  | some reply => cases reply <;> rfl

theorem CoreStep.stage (h : CoreStep c c') (hc : Kept c) : Stage c' := by
  have hstage := hc.stage
  cases h with
  | stays => exact hstage
  | spawned hphase =>
    simp only [Stage, hphase] at hstage
    exact hstage
  | built hphase =>
    simp only [Stage, hphase] at hstage
    obtain ⟨hlog, hledger, hmutations, _⟩ := hstage
    refine ⟨?_, ?_, ?_, ?_, ?_⟩ <;> simp [hlog, hledger, hmutations, removals, returned, ledgerOf]
  | unbuilt hphase =>
    simp only [Stage, hphase] at hstage
    exact hstage
  | begins call hphase hb =>
    simp only [Stage, hphase] at hstage
    exact stage_of_working hphase (hstage.reserve call.branches)
  | progresses hb hw =>
    have hphase := hstage.working_of_branch hb
    simp only [Stage, hphase] at hstage
    exact stage_of_working hphase hstage
  | spawns hb hw =>
    have hphase := hstage.working_of_branch hb
    simp only [Stage, hphase] at hstage
    refine stage_of_working hphase (hstage.concat rfl ?_)
    intro index hlt
    simp only [Core.setProgress, Core.spawnMutation, List.length_append, List.length_singleton]
      at hlt ⊢
    obtain hlt | rfl := Nat.lt_succ_iff_lt_or_eq.mp hlt
    · exact List.mem_append_left _ (hstage.registry index hlt)
    · exact List.mem_concat_self
  | leaves => exact hstage.leaves
  | decides outcome hphase hb =>
    simp only [Stage, hphase] at hstage
    exact ⟨hstage, hb⟩
  | serves hphase =>
    simp only [Stage, hphase] at hstage
    exact hstage
  | cleansUp after hphase =>
    obtain ⟨hopen, hb⟩ := hstage.open_of_ending hphase
    exact ⟨hopen.cleanup_settling, hb⟩
  | joins hphase hm =>
    simp only [Stage, hphase] at hstage
    exact ⟨hstage.1.join hm, hstage.2⟩
  | takesOrder hphase =>
    simp only [Stage, hphase] at hstage
    obtain ⟨hsettling, hb⟩ := hstage
    refine ⟨hsettling.takeOrder, ?_, hb⟩
    change (removals c.log).map Prod.fst = returned c.log
    rw [hsettling.removals, hsettling.returned, List.map_nil]
  | removes hphase =>
    simp only [Stage, hphase] at hstage
    obtain ⟨hremoving, hreturned, hb⟩ := hstage
    refine ⟨hremoving.remove, ?_, hb⟩
    simp [Core.remove, Event.removal, Event.returned, hreturned]
  | cleans hphase =>
    simp only [Stage, hphase] at hstage
    exact hstage
  | finishes hphase =>
    simp only [Stage, hphase] at hstage
    exact hstage
  | polls hm => exact hstage.set hm rfl rfl
  | replies reply hm =>
    rw [settleMutation_eq]
    exact hstage.set hm rfl rfl
  | commits hm hi => exact hstage.commit hm
  | removed result hphase =>
    simp only [Stage, hphase] at hstage
    obtain ⟨hremoving, hreturned, hb⟩ := hstage
    refine ⟨hremoving.return result, ?_, hb⟩
    simp [Core.removed, Event.removal, Event.returned, hreturned]

theorem map_resource_set {mutations : List (Mutation ε)} {index : Nat} {resource : Resource}
    {status : MutationStatus ε} (status' : MutationStatus ε)
    (hm : mutations[index]? = some ⟨resource, status⟩) :
    (mutations.set index ⟨resource, status'⟩).map Mutation.resource =
      mutations.map Mutation.resource := by
  rw [List.map_set]
  refine List.ext_getElem? fun index' => ?_
  by_cases hindex : index = index'
  · subst hindex
    have hlt := (List.getElem?_eq_some_iff.mp hm).1
    rw [List.getElem?_set_self (by rwa [List.length_map]), List.getElem?_map, hm]
    rfl
  · rw [List.getElem?_set_ne hindex]

theorem Counted.of_eq (hc : Counted c)
    (hm : c'.mutations.map Mutation.resource = c.mutations.map Mutation.resource)
    (hb : c'.branches = c.branches ∨ c'.branches = [])
    (hlog : reservations c'.log = reservations c.log) : Counted c' := by
  intro resource
  have hle := hc resource
  rw [hm, hlog]
  obtain hb | hb := hb
  · rw [hb]
    exact hle
  · rw [hb, List.countP_nil]
    omega

theorem CoreStep.counted (h : CoreStep c c') (hc : Counted c) : Counted c' := by
  have hconcat : ∀ {e : Event ε}, e.reservation = none →
      reservations (c.log ++ [e]) = reservations c.log := by
    intro e he
    rw [reservations_concat, he, Option.toList_none, List.append_nil]
  cases h with
  | begins call => exact hc.begin
  | progresses hb hw => exact hc.setProgress hb hw
  | spawns hb hw => exact hc.spawn hb hw
  | leaves => exact hc.of_eq rfl (.inr rfl) rfl
  | decides outcome hphase hb => exact hc.of_eq rfl (.inr hb) rfl
  | cleansUp => exact hc.of_eq rfl (.inl rfl) (hconcat rfl)
  | removes => exact hc.of_eq rfl (.inl rfl) (hconcat rfl)
  | removed => exact hc.of_eq rfl (.inl rfl) (hconcat rfl)
  | commits => exact hc.of_eq rfl (.inl rfl) (hconcat rfl)
  | polls hm => exact hc.of_eq (map_resource_set _ hm) (.inl rfl) (hconcat rfl)
  | replies reply hm => exact hc.of_eq (map_resource_set _ hm) (.inl rfl) (hconcat rfl)
  | _ => exact hc

theorem CoreStep.recorded (h : CoreStep c c') (hc : Kept c) : Recorded c'.mutations c'.log := by
  have hstage := hc.stage
  have hrecorded := hc.recorded
  cases h with
  | begins call hphase hb =>
    simp only [Stage, hphase] at hstage
    exact hrecorded.reserve hstage.cleanup call.branches
  | spawns hb hw =>
    have hphase := hstage.working_of_branch hb
    simp only [Stage, hphase] at hstage
    exact hrecorded.spawn (hc.counted.reserved hb hw) hstage.cleanup
  | cleansUp after hphase =>
    exact hrecorded.concat (hstage.open_of_ending hphase).1.cleanup (by simp) (by simp)
  | removes hphase =>
    simp only [Stage, hphase] at hstage
    obtain ⟨hremoving, hreturned, _⟩ := hstage
    refine hrecorded.concat ⟨hremoving.cleanup, ?_, hreturned⟩ (by simp) (by simp)
    intro index resource hspawned
    obtain ⟨status, hm⟩ := hrecorded.spawned index resource hspawned
    have hsettled := hremoving.settled _ (List.mem_of_getElem? hm)
    cases status with
    | settled reply => exact ⟨reply, (hrecorded.mutation index _ hm).reported reply rfl⟩
    | _ => cases hsettled
  | removed result hphase =>
    simp only [Stage, hphase] at hstage
    exact hrecorded.concat hstage.2.1 (by simp) (by simp)
  | polls hm => exact hrecorded.poll hm (hstage.no_removals hm rfl)
  | replies reply hm => exact hrecorded.settle reply hm (hstage.no_removals hm rfl)
  | commits hm hi =>
    have hmutation := hrecorded.mutation _ _ hm
    exact hrecorded.concat ⟨hmutation.issued hi, hmutation.reserved⟩ (by simp) (by simp)
  | _ => exact hrecorded

theorem CoreStep.kept (h : CoreStep c c') (hc : Kept c) : Kept c' :=
  ⟨h.recorded hc, h.counted hc.counted, h.stage hc⟩

end Steps

section Runs
variable {wait : CancellationWait} {s : State α ξ ε} {moves : List (Move α ξ ε)}

theorem kept_initial : Kept (initial : State α ξ ε).toCore where
  recorded := recorded_nil
  counted := fun _ => Nat.le_refl _
  stage := ⟨rfl, rfl, rfl, rfl⟩

theorem run_kept (hrun : run (step wait) initial moves = some s) : Kept s.toCore :=
  run_invariant (I := fun s => Kept s.toCore) (fun _ _ _ hs h => (step_core h).kept hs)
    kept_initial hrun

end Runs

section Reports
variable {mutations : List (Mutation ε)} {log : List (Event ε)} {resource resource' : Resource}
  {index index' : Nat}

theorem two_le_count {β : Type} [DecidableEq β] {l : List β} {b : β} (hlt : index < index')
    (hb : l[index]? = some b) (hb' : l[index']? = some b) : 2 ≤ l.count b := by
  have htake : b ∈ l.take index' :=
    List.mem_of_getElem? (i := index) (by rw [List.getElem?_take_of_lt hlt, hb])
  have hdrop : b ∈ l.drop index' :=
    List.mem_of_getElem? (i := 0) (by rw [List.getElem?_drop, Nat.add_zero, hb'])
  rw [← List.take_append_drop index' l, List.count_append]
  have hpos := List.count_pos_iff.mpr htake
  have hpos' := List.count_pos_iff.mpr hdrop
  omega

theorem index_unique {β : Type} [DecidableEq β] {l : List β} {b : β} (hcount : l.count b ≤ 1)
    (hb : l[index]? = some b) (hb' : l[index']? = some b) : index = index' := by
  obtain hlt | heq | hlt := Nat.lt_trichotomy index index'
  · have htwo := two_le_count hlt hb hb'
    omega
  · exact heq
  · have htwo := two_le_count hlt hb' hb
    omega

theorem resource_unique
    (hcount : ((reservations log).map Resource.name).count resource.name = 1)
    (hr : resource ∈ reservations log) (hr' : resource' ∈ reservations log)
    (hname : resource'.name = resource.name) : resource' = resource := by
  obtain ⟨index, hindex⟩ := List.mem_iff_getElem?.mp hr
  obtain ⟨index', hindex'⟩ := List.mem_iff_getElem?.mp hr'
  have hsame : index = index' := by
    refine index_unique (Nat.le_of_eq hcount) ?_ ?_
    · rw [List.getElem?_map, hindex]
      rfl
    · rw [List.getElem?_map, hindex', ← hname]
      rfl
  subst hsame
  exact Option.some.inj (hindex'.symm.trans hindex)

theorem Recorded.confirms_reserved (h : Recorded mutations log) : Always ConfirmsReserved log := by
  intro before e after hsplit name hconfirms
  have hlawful := h.lawful before e after hsplit
  cases e with
  | reported index resource reply =>
    cases reply with
    | none => exact absurd rfl hconfirms
    | some reply =>
      cases reply with
      | error error => exact absurd rfl hconfirms
      | ok id =>
        have hname : resource.name = name := by
          by_contra hname
          exact hconfirms (if_neg hname)
        rw [← hname]
        exact List.mem_map_of_mem hlawful.2.1
  | _ => exact absurd rfl hconfirms

/-- The create of a resource whose name no other has been given confirms one id at most. -/
theorem Kept.confirmed {c : Core α ξ ε} {id id' : String} (hc : Kept c)
    (hcount : ((reservations c.log).map Resource.name).count resource.name = 1)
    (hreported : .reported index resource (some (.ok id)) ∈ c.log)
    (hid' : id' ∈ confirmations resource.name c.log) : id' = id := by
  obtain ⟨index', resource', hreported', hname⟩ := mem_confirmations.mp hid'
  have hm := hc.recorded.reported _ _ _ hreported
  have hm' := hc.recorded.reported _ _ _ hreported'
  have hr : resource ∈ reservations c.log := (hc.recorded.mutation _ _ hm).reserved
  have hr' : resource' ∈ reservations c.log := (hc.recorded.mutation _ _ hm').reserved
  obtain rfl := resource_unique hcount hr hr' hname
  have hle : (c.mutations.map Mutation.resource).count resource' ≤ 1 := by
    have hcounted := hc.counted resource'
    have hnames : (reservations c.log).count resource' ≤
        ((reservations c.log).map Resource.name).count resource'.name := List.count_le_count_map
    omega
  have hsame : index = index' := by
    refine index_unique hle ?_ ?_
    · rw [List.getElem?_map, hm]
      rfl
    · rw [List.getElem?_map, hm']
      rfl
  subst hsame
  cases hm.symm.trans hm'
  rfl

theorem cleanup_once (hlog : Always Lawful log) (hcleanup : .cleanup ∈ log) :
    log.countP Event.isCleanup = 1 := by
  obtain ⟨before, after, rfl, hbefore⟩ := hlog.mem hcleanup
  have hafter : .cleanup ∉ after := by
    intro hmem
    obtain ⟨between, rest, rfl⟩ := List.append_of_mem hmem
    have hlater : Lawful (before ++ .cleanup :: between) .cleanup :=
      hlog _ .cleanup rest (by simp)
    exact hlater (List.mem_append_right _ List.mem_cons_self)
  have hnone : ∀ {log : List (Event ε)}, .cleanup ∉ log → log.countP Event.isCleanup = 0 := by
    intro log hlog
    refine List.countP_eq_zero.mpr fun e he htrue => ?_
    cases e with
    | cleanup => exact hlog he
    | _ => cases htrue
  rw [List.countP_append, List.countP_cons, hnone hbefore, hnone hafter]
  rfl

end Reports

section Claim
variable {wait : CancellationWait} {s : State α ξ ε} {moves : List (Move α ξ ε)}

theorem Kept.target {c : Core α ξ ε} {resource : Resource} {target : String} (hc : Kept c)
    (hremovals : removals c.log = (ledgerOf c.log).reverse.map OwnedResource.removal)
    (hremoval : (resource, target) ∈ removals c.log)
    (hcount : ((reservations c.log).map Resource.name).count resource.name = 1) :
    (∀ index id, .reported index resource (some (.ok id)) ∈ c.log → target = id) ∧
    ((∀ index id, .reported index resource (some (.ok id)) ∉ c.log) → target = resource.name) := by
  rw [hremovals, List.mem_map] at hremoval
  obtain ⟨owned, howned, hremoval⟩ := hremoval
  obtain ⟨rfl, rfl⟩ := Prod.mk.inj hremoval
  have hid := ledgerOf_id hc.recorded.confirms_reserved (List.mem_reverse.mp howned) hcount
  refine ⟨fun index id hreported => ?_, fun hnone => ?_⟩
  · have hmem := mem_confirmations.mpr ⟨index, _, hreported, rfl⟩
    cases hlast : (confirmations owned.resource.name c.log).getLast? with
    | none =>
      rw [List.getLast?_eq_none_iff.mp hlast] at hmem
      cases hmem
    | some last =>
      rw [OwnedResource.target, hid, hlast]
      exact hc.confirmed hcount hreported (List.mem_of_getLast? hlast)
  · cases hlast : (confirmations owned.resource.name c.log).getLast? with
    | none =>
      rw [OwnedResource.target, hid, hlast]
      rfl
    | some last =>
      obtain ⟨index, resource, hreported, hname⟩ :=
        mem_confirmations.mp (List.mem_of_getLast? hlast)
      have hr : resource ∈ reservations c.log :=
        (hc.recorded.mutation _ _ (hc.recorded.reported _ _ _ hreported)).reserved
      have howned' : owned.resource ∈ reservations c.log := by
        rw [← ledgerOf_resources]
        exact List.mem_map_of_mem (List.mem_reverse.mp howned)
      obtain rfl := resource_unique hcount howned' hr hname
      exact absurd hreported (hnone index last)

/-- Whatever the work does, and whenever the caller goes away: requests are made only for reserved
names, none is on its way when the first removal begins, and in the end everything that was reserved
has been removed once, in the reverse order, by the id that its request confirmed or else by its
name. Where no two reservations have the same name, as where a startup scopes them all by one
identifier, the id is that of the resource itself. -/
theorem supervisor_no_leak (hrun : run (step wait) initial moves = some s) :
    Always Lawful s.log ∧
    (s.phase = .unspawned ∨ s.phase = .unbuilt → s.log = []) ∧
    (s.phase = .finished →
      s.log.countP Event.isCleanup = 1 ∧
      removals s.log = (ledgerOf s.log).reverse.map OwnedResource.removal ∧
      (removals s.log).map Prod.fst = (reservations s.log).reverse ∧
      returned s.log = (reservations s.log).reverse ∧
      (∀ index resource, .committed index resource ∈ s.log → resource ∈ reservations s.log) ∧
      ∀ resource target, (resource, target) ∈ removals s.log →
        ((reservations s.log).map Resource.name).count resource.name = 1 →
        (∀ index id, .reported index resource (some (.ok id)) ∈ s.log → target = id) ∧
        ((∀ index id, .reported index resource (some (.ok id)) ∉ s.log) →
          target = resource.name)) := by
  have hkept := run_kept hrun
  have hstage := hkept.stage
  refine ⟨hkept.recorded.lawful, ?_, ?_⟩
  · rintro (hphase | hphase) <;> simp only [Stage, hphase] at hstage <;> exact hstage.1
  · intro hphase
    simp only [Stage, hphase] at hstage
    obtain ⟨hremoving, hreturned, _⟩ := hstage
    have hremovals := hremoving.removals
    rw [List.map_nil, List.append_nil] at hremovals
    have hreverse : (removals s.log).map Prod.fst = (reservations s.log).reverse := by
      rw [hremovals, ← ledgerOf_resources, List.map_map, ← List.map_reverse]
      rfl
    refine ⟨cleanup_once hkept.recorded.lawful hremoving.cleanup, hremovals, hreverse,
      hreturned.symm.trans hreverse, ?_, fun _ _ => hkept.target hremovals⟩
    intro index resource hcommitted
    obtain ⟨before, after, hsplit, hlawful⟩ := hkept.recorded.lawful.mem hcommitted
    rw [hsplit, reservations, List.filterMap_append]
    exact List.mem_append_left _ hlawful.2

/-- The caller of a pair goes away while both creates are on their way; the second commits and
reports an error all the same, and so does its removal. -/
def leavingRun : List (Move Nat Unit Unit) :=
  [.spawn none, .build none, .asks (.createNetwork "net"), .advance 0 .succeeds, .poll 0, .commit 0,
    .reply 0 (some (.ok "n1")), .advance 0 .succeeds, .returns,
    .asks (.startContainerPair "alice" "bob"), .advance 0 .succeeds, .advance 1 .succeeds,
    .advance 0 .succeeds, .advance 1 .succeeds, .poll 1, .drop, .call, .call, .poll 2, .cancelWork,
    .supervise, .commit 1, .reply 1 (some (.ok "a1")), .commit 2, .reply 2 (some (.error ())),
    .supervise, .supervise, .supervise, .supervise,
    .supervise, .removed (.error ()), .supervise, .removed (.ok ()), .supervise, .removed (.ok ()),
    .supervise, .supervise]

theorem supervisor_no_leak_leaving :
    ∃ s : State Nat Unit Unit, run (step .deadline) initial leavingRun = some s ∧
      removals s.log = [(⟨.container, "bob"⟩, "bob"), (⟨.container, "alice"⟩, "a1"),
        (⟨.network, "net"⟩, "n1")] ∧
      returned s.log = (reservations s.log).reverse :=
  have hrun : ∃ s, run (step .deadline) initial leavingRun = some s ∧ s.phase = .finished ∧
      removals s.log = [(⟨.container, "bob"⟩, "bob"), (⟨.container, "alice"⟩, "a1"),
        (⟨.network, "net"⟩, "n1")] :=
    ⟨_, rfl, rfl, rfl⟩
  have ⟨s, hrun, hphase, hremovals⟩ := hrun
  ⟨s, hrun, hremovals, ((supervisor_no_leak hrun).2.2 hphase).2.2.2.1⟩

end Claim

end Nigiri.Supervisor
