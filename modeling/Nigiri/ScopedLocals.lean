import Mathlib.Data.List.Basic
import Mathlib.Tactic.Common

/-! The locals of a scope, the latest first: a new local hides an older one of its name without
ending it, a value that is moved out leaves its place empty, and what is left is dropped in the
reverse order of declaration. -/
namespace Nigiri.Scope
variable {Name Value : Type}

abbrev Locals (Name Value : Type) := List (Name × Option Value)

/-- What the scope drops at its end, in the order it does. -/
def remaining (locals : Locals Name Value) : List Value := locals.filterMap Prod.snd

def names (locals : Locals Name Value) : List Name := locals.map Prod.fst

variable {before locals : Locals Name Value}

theorem names_cons {entry : Name × Option Value} :
    names (entry :: locals) = entry.1 :: names locals := rfl

theorem names_append : names (before ++ locals) = names before ++ names locals :=
  List.map_append

variable [DecidableEq Name] {name : Name} {value : Value}

/-- Moves the value out of the local that this name stands for, unless it has been moved before. -/
def takeLocal (name : Name) : Locals Name Value → Option (Value × Locals Name Value)
  | [] => none
  | (other, slot) :: locals =>
    if other = name then slot.map fun value => (value, (other, none) :: locals)
    else (takeLocal name locals).map fun (value, locals) => (value, (other, slot) :: locals)

def takeLocals : List Name → Locals Name Value → Option (List Value × Locals Name Value)
  | [], locals => some ([], locals)
  | name :: names, locals => do
    let (value, locals) ← takeLocal name locals
    let (values, locals) ← takeLocals names locals
    some (value :: values, locals)

/-- The value that this name stands for, which stays where it is. -/
def readLocal (name : Name) (locals : Locals Name Value) : Option Value :=
  (locals.lookup name).join

theorem takeLocal_cons_self :
    takeLocal name ((name, some value) :: locals) = some (value, (name, none) :: locals) := by
  rw [takeLocal, if_pos rfl]
  rfl

/-- A local is reached behind others that do not hide it. -/
theorem takeLocal_append (hbefore : name ∉ names before) :
    takeLocal name (before ++ (name, some value) :: locals) =
      some (value, before ++ (name, none) :: locals) := by
  induction before with
  | nil => exact takeLocal_cons_self
  | cons entry before ih =>
    rw [names_cons, List.mem_cons, not_or] at hbefore
    rw [List.cons_append, takeLocal, if_neg (Ne.symm hbefore.1), ih hbefore.2]
    rfl

theorem readLocal_cons_self : readLocal name ((name, some value) :: locals) = some value := by
  rw [readLocal, List.lookup_cons_self]
  rfl

end Nigiri.Scope
