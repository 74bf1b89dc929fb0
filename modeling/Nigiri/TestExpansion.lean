import Nigiri.Polling
import Nigiri.ScopedLocals
import Nigiri.TestMacro

/-! The wrapper that the test attribute expands a test into, and how the wrapper runs: locals are
resolved by name, values move, and what a scope still holds is released when it is left. How a start
and the body end is up to the environment. -/
namespace Nigiri.Macros
open Nigiri.Process Nigiri.Polling Nigiri.Scope
variable {α : Type}

inductive FixtureType where
  | fixture (chain : Path)
  | pegPair
  | lndPair

/-- A call that makes the future of a start, under the path of the facade. -/
structure StartCall where
  cratePath : Path
  fixture : FixtureType
  startupTimeout : Option UInt64

/-- The expressions of a wrapper. A start is awaited where its future is made, and a client is
cloned out of the handle it is borrowed from. -/
inductive Expr where
  | startAwait (call : StartCall)
  | path (name : Ident)
  | expect (value : Expr) (message : String)
  | clientClone (handle : Ident)

inductive Stmt where
  | letOne (name : Ident) (value : Expr)
  | letJoin (names : List Ident) (calls : List StartCall)

structure RuntimeAttr where
  flavor : Option String
  tokio : Path

/-- The generated test: the test's own function, the statements, and the awaited call. -/
structure Wrapper where
  runtimeAttr : RuntimeAttr
  attrs : List Attribute
  vis : String
  name : Ident
  output : String
  inner : ItemFn
  stmts : List Stmt
  callee : Ident
  callArgs : List Ident

section Expand

def invented (suffix : String) : Ident := ⟨false, RESERVED_PREFIX ++ suffix⟩

def innerName : Ident := invented "inner"

def handleIdent (index : Nat) : Ident := invented ("fixture_" ++ index.repr)

def startedIdent (index : Nat) : Ident := invented ("started_" ++ index.repr)

def plainPath (leadingColon : Bool) (segments : List String) : Path :=
  ⟨leadingColon, segments.map fun text => .mk ⟨false, text⟩ .none⟩

def Path.extend (path : Path) (segments : List String) : Path :=
  ⟨path.leadingColon, path.segments ++ (plainPath false segments).segments⟩

def bindFixture (fixture : FixtureParam) (index : Nat) : Stmt :=
  match fixture with
  | .client ident _ => .letOne ident (.clientClone (handleIdent index))
  | .pegPair ident => .letOne ident (.path (handleIdent index))
  | .lndPair ident => .letOne ident (.path (handleIdent index))

def FixtureParam.fixtureType : FixtureParam → FixtureType
  | .client _ chain => .fixture chain
  | .pegPair _ => .pegPair
  | .lndPair _ => .lndPair

def startExpr (args : MacroArgs) (cratePath : Path) (fixture : FixtureParam) : StartCall where
  cratePath := cratePath
  fixture := fixture.fixtureType
  startupTimeout := args.startupTimeout

def startFailureMessage (fixture : FixtureParam) : String :=
  let named : String := match fixture with
    | .client _ chain =>
      (chain.segments.getLast?.map fun (last : Segment) => last.ident.spelling).getD "requested"
    | .pegPair _ => "PegPair"
    | .lndPair _ => "LndPair"
  s!"nigiri-rs: the {named} fixture could not start; is Docker running?"

/-- The handle of one fixture, and the name the body asked for. -/
def unwrapFixture (value : Expr) (fixture : FixtureParam) (index : Nat) : List Stmt :=
  [.letOne (handleIdent index) (.expect value (startFailureMessage fixture)),
    bindFixture fixture index]

/-- The results of a join, from this one on. -/
def unwrapFrom (index : Nat) : List FixtureParam → List Stmt
  | [] => []
  | fixture :: fixtures =>
    unwrapFixture (.path (startedIdent index)) fixture index ++ unwrapFrom (index + 1) fixtures

/-- Two or more fixtures start concurrently; one is awaited by itself. -/
def startStacks (fixtures : List FixtureParam) (args : MacroArgs) (cratePath : Path) : List Stmt :=
  match fixtures with
  | [] => []
  | [fixture] => unwrapFixture (.startAwait (startExpr args cratePath fixture)) fixture 0
  | fixtures =>
    .letJoin ((List.range fixtures.length).map startedIdent)
      (fixtures.map (startExpr args cratePath)) :: unwrapFrom 0 fixtures

def MacroArgs.facade (args : MacroArgs) : Path :=
  args.cratePath.getD (plainPath true ["nigiri_rs"])

/-- The body becomes an inner function that keeps the parameters; the wrapper takes none. -/
def expand (parsed : TestFn) : Wrapper where
  runtimeAttr := ⟨parsed.args.flavor, parsed.args.facade.extend ["__private", "tokio"]⟩
  attrs := parsed.item.attrs
  vis := parsed.item.vis
  name := parsed.item.sig.ident
  output := parsed.item.sig.output
  inner := { parsed.item with
    attrs := []
    vis := ""
    sig := { parsed.item.sig with ident := innerName } }
  stmts := startStacks parsed.fixtures parsed.args parsed.args.facade
  callee := innerName
  callArgs := parsed.fixtures.map FixtureParam.ident

end Expand

section Run

/-- A start's result, a handle, or a clone of a handle's client. A fixture goes by the place of its
start among the starts of the test. -/
inductive Value where
  | started (index : Nat) (fixture : FixtureType) (result : Except String Unit)
  | handle (index : Nat) (fixture : FixtureType)
  | client (index : Nat) (chain : Path)

/-- The fixture that is released when this value is dropped. -/
def Value.owned : Value → Option Nat
  | .started index _ (.ok ()) => some index
  | .started _ _ (.error _) => none
  | .handle index _ => some index
  | .client .. => none

/-- What a test waits for. -/
inductive TestCall where
  | start (index : Nat) (call : StartCall)
  | body (args : List Value)
  | release (index : Nat)

/-- An error is kept by what `expect` shows of it, a panic of the body by its message. -/
abbrev TestCall.Answer (α : Type) : TestCall → Type
  | .start .. => Except String Unit
  | .body _ => Except String α
  | .release _ => Unit

abbrev TestTask (α β : Type) := Task (TestCall.Answer α) β

abbrev TestTrace (α : Type) := TaskTrace (TestCall.Answer α)

/-- A wrapper that is left early has panicked, or is not a program at all. -/
inductive Halt where
  | panicked (message : String)
  | illFormed
  deriving DecidableEq, Repr

structure State where
  locals : Locals String Value
  next : Nat

def State.bind (state : State) (name : Ident) (value : Value) : State :=
  { state with locals := (name.text, some value) :: state.locals }

def eval : Expr → State → TestTask α (Except Halt Value × State)
  | .startAwait call, state => .ask (.call (.start state.next call)) fun result =>
    .done (.ok (.started state.next call.fixture result), { state with next := state.next + 1 })
  | .path name, state =>
    match takeLocal name.text state.locals with
    | some (value, locals) => .done (.ok value, { state with locals := locals })
    | none => .done (.error .illFormed, state)
  | .clientClone handle, state =>
    match readLocal handle.text state.locals with
    | some (.handle index (.fixture chain)) => .done (.ok (.client index chain), state)
    | _ => .done (.error .illFormed, state)
  | .expect value message, state => (eval value state).bind fun
    | (.ok (.started index fixture (.ok ())), state) => .done (.ok (.handle index fixture), state)
    | (.ok (.started _ _ (.error error)), state) =>
      .done (.error (.panicked s!"{message}: {error}"), state)
    | (.ok _, state) => .done (.error .illFormed, state)
    | (.error halt, state) => .done (.error halt, state)

/-- Several starts on one task, each driven to its end. -/
def startJoin (first : Nat) (calls : List StartCall) : Joined (TestCall.Answer α) Empty where
  Name := Fin calls.length
  Out _ := Except String Unit
  future i := ⟨.start (first + i) calls[i], 0⟩
  read _ result := .ok result
  order := List.finRange calls.length

instance (first : Nat) (calls : List StartCall) :
    DecidableEq (@startJoin α first calls).Name := inferInstanceAs (DecidableEq (Fin calls.length))

instance (first : Nat) (calls : List StartCall) :
    Fintype (@startJoin α first calls).Name := inferInstanceAs (Fintype (Fin calls.length))

/-- The results of a join as its names are bound to them, the last name the latest. -/
def startedLocals (first : Nat) :
    List Ident → List StartCall → List (Except String Unit) → Locals String Value
  | name :: names, call :: calls, result :: results =>
    startedLocals (first + 1) names calls results ++
      [(name.text, some (.started first call.fixture result))]
  | _, _, _ => []

def exec : List Stmt → State → TestTask α (Except Halt Unit × State)
  | [], state => .done (.ok (), state)
  | .letOne name value :: stmts, state => (eval value state).bind fun
    | (.ok value, state) => exec stmts (state.bind name value)
    | (.error halt, state) => .done (.error halt, state)
  | .letJoin names calls :: stmts, state =>
    if names.length ≠ calls.length then .done (.error .illFormed, state)
    else (tryJoin (startJoin state.next calls)).bind fun
      | .error never => nomatch never
      | .ok results => exec stmts {
          locals := startedLocals state.next names calls (List.ofFn results) ++ state.locals
          next := state.next + calls.length }

/-- The scope is left: what it still owns is released, one after the other. -/
def releaseAll {β : Type} : List Nat → β → TestTask α β
  | [], result => .done result
  | index :: indices, result => .ask (.call (.release index)) fun () => releaseAll indices result

def leave (locals : Locals String Value) (result : Except Halt α) :
    TestTask α (Except Halt α) :=
  releaseAll ((remaining locals).filterMap Value.owned) result

/-- The body takes its arguments along, and is over before the wrapper is. -/
def callBody (args : List Value) (locals : Locals String Value) : TestTask α (Except Halt α) :=
  .ask (.call (.body args)) fun
    | .ok output => leave locals (.ok output)
    | .error message => leave locals (.error (.panicked message))

/-- After the statements, the call. A local hides the function of its name. -/
def Wrapper.finish (wrapper : Wrapper) :
    Except Halt Unit × State → TestTask α (Except Halt α)
  | (.error halt, state) => leave state.locals (.error halt)
  | (.ok (), state) =>
    if wrapper.callee.text ∈ names state.locals ∨
        wrapper.callee.text ≠ wrapper.inner.sig.ident.text then
      leave state.locals (.error .illFormed)
    else
      match takeLocals (wrapper.callArgs.map Ident.text) state.locals with
      | none => leave state.locals (.error .illFormed)
      | some (args, locals) => callBody args locals

def Wrapper.run (wrapper : Wrapper) : TestTask α (Except Halt α) :=
  (exec wrapper.stmts ⟨[], 0⟩).bind wrapper.finish

end Run

end Nigiri.Macros
