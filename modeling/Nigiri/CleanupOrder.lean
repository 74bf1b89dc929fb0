import Mathlib.Data.List.Induction
import Nigiri.History
import Nigiri.Supervisor

/-! The ledger of a startup read off the record of what happened. -/
namespace Nigiri.Supervisor
open Nigiri.History
variable {ε : Type}

section Records

def Event.reservation : Event ε → Option Resource
  | .reserved resource => some resource
  | _ => none

def Event.removal : Event ε → Option (Resource × String)
  | .removing resource target => some (resource, target)
  | _ => none

def Event.returned : Event ε → Option Resource
  | .removed resource _ => some resource
  | _ => none

/-- The id that a report confirms for a name. -/
def Event.confirmation (name : String) : Event ε → Option String
  | .reported _ resource (some (.ok id)) => if resource.name = name then some id else none
  | _ => none

def Event.isCleanup : Event ε → Bool
  | .cleanup => true
  | _ => false

def reservations (log : List (Event ε)) : List Resource := log.filterMap Event.reservation

def removals (log : List (Event ε)) : List (Resource × String) := log.filterMap Event.removal

def returned (log : List (Event ε)) : List Resource := log.filterMap Event.returned

def confirmations (name : String) (log : List (Event ε)) : List String :=
  log.filterMap (Event.confirmation name)

def Event.record (ledger : ResourceLedger) : Event ε → ResourceLedger
  | .reserved resource => expect ledger resource
  | .reported _ resource (some (.ok id)) => confirm ledger resource.name id
  | _ => ledger

/-- The ledger that the reservations and the reports of a history make. -/
def ledgerOf (log : List (Event ε)) : ResourceLedger := log.foldl Event.record []

/-- A resource with what it is removed by. -/
def OwnedResource.removal (owned : OwnedResource) : Resource × String :=
  (owned.resource, owned.target)

end Records

section Projections
variable {log : List (Event ε)} {e : Event ε} {resource : Resource} {target : String}

theorem filterMap_concat {β : Type} (f : Event ε → Option β) :
    (log ++ [e]).filterMap f = log.filterMap f ++ (f e).toList := by
  rw [List.filterMap_append, List.filterMap_cons, List.filterMap_nil]
  cases f e <;> rfl

@[simp] theorem reservations_concat :
    reservations (log ++ [e]) = reservations log ++ e.reservation.toList := filterMap_concat _

@[simp] theorem removals_concat : removals (log ++ [e]) = removals log ++ e.removal.toList :=
  filterMap_concat _

@[simp] theorem returned_concat : returned (log ++ [e]) = returned log ++ e.returned.toList :=
  filterMap_concat _

@[simp] theorem confirmations_concat {name : String} :
    confirmations name (log ++ [e]) = confirmations name log ++ (e.confirmation name).toList :=
  filterMap_concat _

@[simp] theorem ledgerOf_concat : ledgerOf (log ++ [e]) = e.record (ledgerOf log) :=
  List.foldl_append

theorem mem_removals : (resource, target) ∈ removals log ↔ .removing resource target ∈ log := by
  rw [removals, List.mem_filterMap]
  constructor
  · rintro ⟨e, he, h⟩
    cases e <;> cases h
    exact he
  · exact fun h => ⟨_, h, rfl⟩

theorem mem_confirmations {name id : String} :
    id ∈ confirmations name log ↔
      ∃ mutation resource, .reported mutation resource (some (.ok id)) ∈ log ∧
        resource.name = name := by
  rw [confirmations, List.mem_filterMap]
  constructor
  · rintro ⟨e, he, h⟩
    cases e with
    | reported mutation resource reply =>
      cases reply with
      | none => cases h
      | some reply =>
        cases reply with
        | error error => cases h
        | ok id' =>
          obtain ⟨hname, hid⟩ := Option.ite_none_right_eq_some.mp h
          cases hid
          exact ⟨mutation, resource, he, hname⟩
    | _ => cases h
  · rintro ⟨mutation, resource, he, hname⟩
    exact ⟨_, he, if_pos hname⟩

end Projections

section Confirm
variable {ledger : ResourceLedger} {name id : String} {owned : OwnedResource}

theorem confirmFirst_resources :
    (confirmFirst name id ledger).map OwnedResource.resource =
      ledger.map OwnedResource.resource := by
  induction ledger with
  | nil => rfl
  | cons owned rest ih =>
    rw [confirmFirst]
    split
    · rfl
    · rw [List.map_cons, List.map_cons, ih]

theorem confirm_resources :
    (confirm ledger name id).map OwnedResource.resource = ledger.map OwnedResource.resource := by
  rw [confirm, List.map_reverse, confirmFirst_resources, List.map_reverse, List.reverse_reverse]

theorem mem_confirmFirst (howned : owned ∈ confirmFirst name id ledger) :
    owned ∈ ledger ∨ owned.resource.name = name ∧ owned.id = some id := by
  induction ledger with
  | nil => cases howned
  | cons first rest ih =>
    rw [confirmFirst] at howned
    split at howned
    · next hname =>
      obtain rfl | hrest := List.mem_cons.mp howned
      · exact .inr ⟨hname, rfl⟩
      · exact .inl (List.mem_cons_of_mem _ hrest)
    · obtain rfl | hrest := List.mem_cons.mp howned
      · exact .inl List.mem_cons_self
      · exact (ih hrest).imp_left (List.mem_cons_of_mem _)

/-- Where one resource has the name, no entry of the name is left without the id. -/
theorem confirmFirst_confirms (hcount : (ledger.map (·.resource.name)).count name ≤ 1)
    (howned : owned ∈ confirmFirst name id ledger) (hname : owned.resource.name = name) :
    owned.id = some id := by
  induction ledger with
  | nil => cases howned
  | cons first rest ih =>
    rw [List.map_cons, List.count_cons] at hcount
    rw [confirmFirst] at howned
    split at howned
    · next hfirst =>
      obtain rfl | hrest := List.mem_cons.mp howned
      · rfl
      · have hmem : name ∈ rest.map (·.resource.name) := List.mem_map.mpr ⟨owned, hrest, hname⟩
        have hpos := List.count_pos_iff.mpr hmem
        rw [hfirst, beq_self_eq_true, if_pos rfl] at hcount
        omega
    · next hfirst =>
      obtain rfl | hrest := List.mem_cons.mp howned
      · exact absurd hname hfirst
      · exact ih (Nat.le_trans (Nat.le_add_right _ _) hcount) hrest

end Confirm

section LedgerOf
variable {log : List (Event ε)} {owned : OwnedResource}

theorem record_resources (ledger : ResourceLedger) (e : Event ε) :
    (e.record ledger).map OwnedResource.resource =
      ledger.map OwnedResource.resource ++ e.reservation.toList := by
  cases e with
  | reserved resource => simp [Event.record, Event.reservation, expect]
  | reported mutation resource reply =>
    cases reply with
    | none => simp [Event.record, Event.reservation]
    | some reply => cases reply <;> simp [Event.record, Event.reservation, confirm_resources]
  | _ => simp [Event.record, Event.reservation]

theorem ledgerOf_resources : (ledgerOf log).map OwnedResource.resource = reservations log := by
  induction log using List.reverseRecOn with
  | nil => rfl
  | append_singleton log e ih =>
    rw [ledgerOf_concat, record_resources, ih, reservations_concat]

theorem ledgerOf_names :
    (ledgerOf log).map (·.resource.name) = (reservations log).map Resource.name := by
  rw [← ledgerOf_resources, List.map_map]
  rfl

/-- No name is confirmed before it is reserved. -/
def ConfirmsReserved (before : List (Event ε)) (e : Event ε) : Prop :=
  ∀ name, e.confirmation name ≠ none → name ∈ (reservations before).map Resource.name

theorem confirmations_eq_nil (hlog : Always ConfirmsReserved log) {name : String}
    (hname : name ∉ (reservations log).map Resource.name) : confirmations name log = [] := by
  rw [confirmations, List.filterMap_eq_nil_iff]
  intro e he
  obtain ⟨before, after, rfl, hbefore⟩ := hlog.mem he
  by_contra hconfirms
  refine hname (List.map_subset _ ?_ (hbefore name hconfirms))
  rw [reservations, reservations, List.filterMap_append]
  exact List.subset_append_left _ _

theorem ledgerOf_id_reserved {resource : Resource}
    (ih : ∀ {owned}, owned ∈ ledgerOf log →
      ((reservations log).map Resource.name).count owned.resource.name = 1 →
      owned.id = (confirmations owned.resource.name log).getLast?)
    (hlog : Always ConfirmsReserved log) (howned : owned ∈ expect (ledgerOf log) resource)
    (hcount : ((reservations log).map Resource.name ++ [resource.name]).count
      owned.resource.name = 1) :
    owned.id = (confirmations owned.resource.name log).getLast? := by
  rw [List.count_append, List.count_singleton] at hcount
  rw [expect, List.mem_append, List.mem_singleton] at howned
  obtain hledger | rfl := howned
  · have hmem : owned.resource.name ∈ (reservations log).map Resource.name := by
      rw [← ledgerOf_names]
      exact List.mem_map.mpr ⟨owned, hledger, rfl⟩
    have hpos := List.count_pos_iff.mpr hmem
    exact ih hledger (by omega)
  · rw [beq_self_eq_true, if_pos rfl] at hcount
    rw [confirmations_eq_nil hlog (List.count_eq_zero.mp (by omega))]
    rfl

theorem ledgerOf_id_confirmed {name id : String}
    (ih : ∀ {owned}, owned ∈ ledgerOf log →
      ((reservations log).map Resource.name).count owned.resource.name = 1 →
      owned.id = (confirmations owned.resource.name log).getLast?)
    (howned : owned ∈ confirm (ledgerOf log) name id)
    (hcount : ((reservations log).map Resource.name).count owned.resource.name = 1) :
    owned.id =
      (confirmations owned.resource.name log ++
        (if name = owned.resource.name then some id else none).toList).getLast? := by
  rw [confirm, List.mem_reverse] at howned
  by_cases hname : owned.resource.name = name
  · rw [if_pos hname.symm, Option.toList_some, List.getLast?_concat]
    refine confirmFirst_confirms (Nat.le_of_eq ?_) howned hname
    rw [List.map_reverse, List.count_reverse, ledgerOf_names, ← hname, hcount]
  · rw [if_neg (Ne.symm hname), Option.toList_none, List.append_nil]
    obtain hledger | ⟨habsurd, _⟩ := mem_confirmFirst howned
    · exact ih (List.mem_reverse.mp hledger) hcount
    · exact absurd habsurd hname

/-- A resource whose name no other has been given is known by the last id that was confirmed for
the name. -/
theorem ledgerOf_id (hlog : Always ConfirmsReserved log) (howned : owned ∈ ledgerOf log)
    (hcount : ((reservations log).map Resource.name).count owned.resource.name = 1) :
    owned.id = (confirmations owned.resource.name log).getLast? := by
  induction log using List.reverseRecOn generalizing owned with
  | nil => cases howned
  | append_singleton log e ih =>
    obtain ⟨hbefore, _⟩ := always_concat.mp hlog
    have ih := fun {owned} => @ih owned hbefore
    rw [ledgerOf_concat] at howned
    rw [confirmations_concat]
    rw [reservations_concat, List.map_append] at hcount
    have hunchanged : e.record (ledgerOf log) = ledgerOf log → e.reservation = none →
        e.confirmation owned.resource.name = none →
        owned.id = (confirmations owned.resource.name log ++
          (e.confirmation owned.resource.name).toList).getLast? := by
      intro hrecord hreservation hconfirmation
      rw [hrecord] at howned
      rw [hreservation, Option.toList_none, List.map_nil, List.append_nil] at hcount
      rw [hconfirmation, Option.toList_none, List.append_nil]
      exact ih howned hcount
    cases e with
    | reserved resource =>
      change owned.id = (confirmations owned.resource.name log ++ []).getLast?
      rw [List.append_nil]
      exact ledgerOf_id_reserved ih hbefore howned hcount
    | reported mutation resource reply =>
      cases reply with
      | none => exact hunchanged rfl rfl rfl
      | some reply =>
        cases reply with
        | error error => exact hunchanged rfl rfl rfl
        | ok id =>
          change ((reservations log).map Resource.name ++ []).count _ = 1 at hcount
          rw [List.append_nil] at hcount
          exact ledgerOf_id_confirmed ih howned hcount
    | _ => exact hunchanged rfl rfl rfl

end LedgerOf

end Nigiri.Supervisor
