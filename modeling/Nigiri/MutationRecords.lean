import Nigiri.CleanupOrder
import Nigiri.SupervisorSteps

/-! The creating requests of a startup against the record of what happened. -/
namespace Nigiri.Supervisor
open Nigiri.History
variable {α ξ ε : Type}

section Records

/-- What must have happened before an event. -/
def Lawful (before : List (Event ε)) : Event ε → Prop
  | .reserved _ => .cleanup ∉ before
  | .spawned _ resource => resource ∈ reservations before ∧ .cleanup ∉ before
  | .issued mutation resource =>
    .spawned mutation resource ∈ before ∧ resource ∈ reservations before ∧ removals before = []
  | .committed mutation resource =>
    .issued mutation resource ∈ before ∧ resource ∈ reservations before
  | .reported mutation resource _ =>
    .issued mutation resource ∈ before ∧ resource ∈ reservations before ∧ removals before = []
  | .cleanup => .cleanup ∉ before
  | .removing _ _ =>
    .cleanup ∈ before ∧
      (∀ mutation resource, .spawned mutation resource ∈ before →
        ∃ reply, .reported mutation resource reply ∈ before) ∧
      (removals before).map Prod.fst = returned before
  | .removed resource _ => (removals before).map Prod.fst = returned before ++ [resource]

structure Mutation.Recorded (log : List (Event ε)) (index : Nat) (mutation : Mutation ε) :
    Prop where
  reserved : mutation.resource ∈ reservations log
  spawned : .spawned index mutation.resource ∈ log
  issued : mutation.status.issued = true → .issued index mutation.resource ∈ log
  reported : ∀ reply, mutation.status = .settled reply →
    .reported index mutation.resource reply ∈ log

/-- The requests are those the record tells of, each as far as the record tells. -/
structure Recorded (mutations : List (Mutation ε)) (log : List (Event ε)) : Prop where
  lawful : Always Lawful log
  mutation : ∀ index (mutation : Mutation ε), mutations[index]? = some mutation →
    mutation.Recorded log index
  spawned : ∀ index resource, .spawned index resource ∈ log →
    ∃ status, mutations[index]? = some ⟨resource, status⟩
  reported : ∀ index resource reply, .reported index resource reply ∈ log →
    mutations[index]? = some ⟨resource, .settled reply⟩

end Records

section Log
variable {mutations : List (Mutation ε)} {log : List (Event ε)} {e : Event ε} {index : Nat}
  {resource : Resource}

theorem reservations_mono (h : resource ∈ reservations log) :
    resource ∈ reservations (log ++ [e]) := by
  rw [reservations_concat]
  exact List.mem_append_left _ h

theorem Mutation.Recorded.concat {mutation : Mutation ε} (h : mutation.Recorded log index) :
    mutation.Recorded (log ++ [e]) index where
  reserved := reservations_mono h.reserved
  spawned := List.mem_append_left _ h.spawned
  issued hi := List.mem_append_left _ (h.issued hi)
  reported reply hr := List.mem_append_left _ (h.reported reply hr)

theorem recorded_nil : Recorded ([] : List (Mutation ε)) [] where
  lawful := always_nil
  mutation := by simp
  spawned := by simp
  reported := by simp

/-- Where an event is not about a request, the requests stay as they are recorded. -/
theorem Recorded.concat (h : Recorded mutations log) (he : Lawful log e)
    (hspawned : ∀ index resource, e ≠ .spawned index resource)
    (hreported : ∀ index resource reply, e ≠ .reported index resource reply) :
    Recorded mutations (log ++ [e]) where
  lawful := always_concat.mpr ⟨h.lawful, he⟩
  mutation index mutation hm := (h.mutation index mutation hm).concat
  spawned index resource hmem := by
    obtain hmem | hmem := List.mem_append.mp hmem
    · exact h.spawned index resource hmem
    · exact absurd (List.mem_singleton.mp hmem).symm (hspawned index resource)
  reported index resource reply hmem := by
    obtain hmem | hmem := List.mem_append.mp hmem
    · exact h.reported index resource reply hmem
    · exact absurd (List.mem_singleton.mp hmem).symm (hreported index resource reply)

/-- A request that is spawned is the next of the requests. -/
theorem Recorded.spawn (h : Recorded mutations log) (hresource : resource ∈ reservations log)
    (hcleanup : .cleanup ∉ log) :
    Recorded (mutations ++ [⟨resource, .spawned⟩])
      (log ++ [.spawned mutations.length resource]) where
  lawful := always_concat.mpr ⟨h.lawful, hresource, hcleanup⟩
  mutation index mutation hm := by
    obtain hlt | hle := Nat.lt_or_ge index mutations.length
    · rw [List.getElem?_append_left hlt] at hm
      exact (h.mutation index mutation hm).concat
    · rw [List.getElem?_append_right hle] at hm
      obtain ⟨hzero, rfl⟩ := List.getElem?_eq_some_iff.mp hm
      rw [List.length_singleton] at hzero
      obtain rfl : index = mutations.length := by omega
      refine ⟨reservations_mono ?_, ?_, ?_, ?_⟩ <;> simp [hresource, MutationStatus.issued]
  spawned index resource' hmem := by
    obtain hmem | hmem := List.mem_append.mp hmem
    · obtain ⟨status, hm⟩ := h.spawned index resource' hmem
      have hlt := (List.getElem?_eq_some_iff.mp hm).1
      exact ⟨status, by rw [List.getElem?_append_left hlt, hm]⟩
    · cases List.mem_singleton.mp hmem
      exact ⟨_, List.getElem?_concat_length⟩
  reported index resource' reply hmem := by
    obtain hmem | hmem := List.mem_append.mp hmem
    · have hm := h.reported index resource' reply hmem
      have hlt := (List.getElem?_eq_some_iff.mp hm).1
      rw [List.getElem?_append_left hlt, hm]
    · cases List.mem_singleton.mp hmem

/-- A request that has not settled is brought on. -/
theorem Recorded.set {status status' : MutationStatus ε} (h : Recorded mutations log)
    (hm : mutations[index]? = some ⟨resource, status⟩)
    (hunsettled : ∀ reply, status ≠ .settled reply) (he : Lawful log e)
    (hspawned : ∀ index resource, e ≠ .spawned index resource)
    (hreported : ∀ index' resource' reply, e = .reported index' resource' reply →
      index' = index ∧ resource' = resource ∧ status' = .settled reply)
    (hnew : Mutation.Recorded (log ++ [e]) index ⟨resource, status'⟩) :
    Recorded (mutations.set index ⟨resource, status'⟩) (log ++ [e]) := by
  have hlt := (List.getElem?_eq_some_iff.mp hm).1
  have hset : (mutations.set index ⟨resource, status'⟩)[index]? = some ⟨resource, status'⟩ :=
    List.getElem?_set_self hlt
  constructor
  · exact always_concat.mpr ⟨h.lawful, he⟩
  · intro index' mutation hm'
    by_cases hindex : index = index'
    · subst hindex
      obtain rfl := Option.some.inj (hset.symm.trans hm')
      exact hnew
    · rw [List.getElem?_set_ne hindex] at hm'
      exact (h.mutation index' mutation hm').concat
  · intro index' resource' hmem
    obtain hmem | hmem := List.mem_append.mp hmem
    · obtain ⟨status'', hm'⟩ := h.spawned index' resource' hmem
      by_cases hindex : index = index'
      · subst hindex
        cases hm.symm.trans hm'
        exact ⟨status', hset⟩
      · exact ⟨status'', by rw [List.getElem?_set_ne hindex, hm']⟩
    · exact absurd (List.mem_singleton.mp hmem).symm (hspawned index' resource')
  · intro index' resource' reply hmem
    obtain hmem | hmem := List.mem_append.mp hmem
    · have hm' := h.reported index' resource' reply hmem
      by_cases hindex : index = index'
      · subst hindex
        cases hm.symm.trans hm'
        exact absurd rfl (hunsettled reply)
      · rw [List.getElem?_set_ne hindex, hm']
    · obtain ⟨rfl, rfl, rfl⟩ := hreported index' resource' reply (List.mem_singleton.mp hmem).symm
      exact hset

theorem Recorded.poll (h : Recorded mutations log)
    (hm : mutations[index]? = some ⟨resource, .spawned⟩) (hremovals : removals log = []) :
    Recorded (mutations.set index ⟨resource, .inFlight⟩) (log ++ [.issued index resource]) := by
  have hrecorded := h.mutation index _ hm
  refine h.set hm (by simp) ⟨hrecorded.spawned, hrecorded.reserved, hremovals⟩ (by simp) (by simp)
    ⟨reservations_mono hrecorded.reserved, List.mem_append_left _ hrecorded.spawned, ?_, ?_⟩
  · exact fun _ => List.mem_concat_self
  · intro reply hstatus
    cases hstatus

theorem Recorded.settle (h : Recorded mutations log) (reply : Option (Except ε String))
    (hm : mutations[index]? = some ⟨resource, .inFlight⟩) (hremovals : removals log = []) :
    Recorded (mutations.set index ⟨resource, .settled reply⟩)
      (log ++ [.reported index resource reply]) := by
  have hrecorded := h.mutation index _ hm
  have hissued := hrecorded.issued rfl
  refine h.set hm (by simp) ⟨hissued, hrecorded.reserved, hremovals⟩ (by simp) (by simp)
    ⟨reservations_mono hrecorded.reserved, List.mem_append_left _ hrecorded.spawned, ?_, ?_⟩
  · exact fun _ => List.mem_append_left _ hissued
  · intro reply' hstatus
    cases hstatus
    exact List.mem_concat_self

theorem Recorded.reserve (h : Recorded mutations log) (hcleanup : .cleanup ∉ log)
    (branches : List Branch) :
    Recorded mutations (log ++ branches.map fun branch => .reserved branch.resource) := by
  induction branches generalizing log with
  | nil => simpa using h
  | cons branch branches ih =>
    rw [List.map_cons, List.append_cons]
    refine ih (h.concat hcleanup (by simp) (by simp)) ?_
    simpa using hcleanup

end Log

section Counted
variable {c : Core α ξ ε} {resource : Resource}

/-- The branch is to create the resource and has not asked for it. -/
def Branch.creates (resource : Resource) (branch : Branch) : Bool :=
  branch.progress.waiting && branch.resource == resource

/-- A resource has at most as many requests, spawned or to come, as it has reservations. -/
def Counted (c : Core α ξ ε) : Prop :=
  ∀ resource, (c.mutations.map Mutation.resource).count resource +
    c.branches.countP (Branch.creates resource) ≤ (reservations c.log).count resource

theorem Counted.reserved {index : Nat} {branch : Branch} (hc : Counted c)
    (hb : c.branches[index]? = some branch) (hw : branch.progress.waiting = true) :
    branch.resource ∈ reservations c.log := by
  have hmem := List.mem_of_getElem? hb
  have hpos : 0 < c.branches.countP (Branch.creates branch.resource) :=
    List.countP_pos_iff.mpr ⟨branch, hmem, by simp [Branch.creates, hw]⟩
  have hle := hc branch.resource
  exact List.count_pos_iff.mp (by omega)

theorem countP_setProgress {branches : List Branch} {index : Nat} {branch : Branch}
    {progress : Progress} (hb : branches[index]? = some branch) :
    (branches.set index { branch with progress := progress }).countP (Branch.creates resource) +
        (if Branch.creates resource branch then 1 else 0) =
      branches.countP (Branch.creates resource) +
        (if Branch.creates resource { branch with progress := progress } then 1 else 0) := by
  obtain ⟨hlt, hget⟩ := List.getElem?_eq_some_iff.mp hb
  rw [List.countP_set hlt, hget]
  have hle : (if Branch.creates resource branch then 1 else 0) ≤
      branches.countP (Branch.creates resource) := by
    split
    · next hcreates =>
      exact List.countP_pos_iff.mpr ⟨branch, List.mem_of_getElem? hb, hcreates⟩
    · exact Nat.zero_le _
  omega

theorem Counted.setProgress {index : Nat} {branch : Branch} {progress : Progress}
    (hc : Counted c) (hb : c.branches[index]? = some branch)
    (hw : progress.waiting = true → branch.progress.waiting = true) :
    Counted (c.setProgress index branch progress) := by
  intro resource
  have hle := hc resource
  have hset := @countP_setProgress resource _ _ _ progress hb
  have hcreates : (if Branch.creates resource { branch with progress := progress } then 1 else 0) ≤
      if Branch.creates resource branch then 1 else 0 := by
    split
    · next hnew =>
      simp only [Branch.creates, Bool.and_eq_true] at hnew ⊢
      exact Nat.le_of_eq (if_pos ⟨hw hnew.1, hnew.2⟩).symm
    · exact Nat.zero_le _
  simp only [Core.setProgress]
  omega

theorem Counted.spawn {index : Nat} {branch : Branch} (hc : Counted c)
    (hb : c.branches[index]? = some branch) (hw : branch.progress.waiting = true) :
    Counted ((c.spawnMutation branch.resource).setProgress index branch
      (.awaiting c.mutations.length)) := by
  intro resource
  have hle := hc resource
  have hset := @countP_setProgress resource _ _ _ (.awaiting c.mutations.length) hb
  have hwaiting : (Progress.awaiting c.mutations.length).waiting = false := rfl
  simp only [Branch.creates, hw, Bool.true_and, hwaiting, Bool.false_and, Bool.false_eq_true,
    if_false] at hset
  simp only [Core.setProgress, Core.spawnMutation, List.map_append, List.map_cons, List.map_nil,
    List.count_append, List.count_singleton, reservations_concat, Event.reservation,
    Option.toList_none, List.append_nil]
  omega

theorem Counted.begin {call : Call} (hc : Counted c) :
    Counted (c.begin call) := by
  intro resource
  have hle := hc resource
  have hreserved : (call.branches.map Branch.resource).count resource =
      call.branches.countP (fun branch => branch.resource == resource) := by
    rw [List.count, List.countP_map]
    rfl
  have hcreates : call.branches.countP (Branch.creates resource) ≤
      call.branches.countP (fun branch => branch.resource == resource) :=
    List.countP_mono_left fun branch _ hcreates => (Bool.and_eq_true_iff.mp hcreates).2
  have hlog : reservations (c.begin call).log =
      reservations c.log ++ call.branches.map Branch.resource := by
    simp only [Core.begin, reservations, List.filterMap_append, List.filterMap_map]
    congr 1
    exact congrFun List.filterMap_eq_map call.branches
  rw [hlog, List.count_append]
  simp only [Core.begin]
  omega

end Counted

end Nigiri.Supervisor
