import Nigiri.Checks

/-! What the test attribute reads of a test, and the fixtures that it takes its parameters to ask
for. Tokens and types come parsed; an error is kept by its message. -/
namespace Nigiri.Macros
open Nigiri.Checks

/-- A raw identifier names what the plain one names, and is spelled with its marker. -/
structure Ident where
  raw : Bool
  text : String
  deriving DecidableEq, Repr

def Ident.spelling (ident : Ident) : String :=
  if ident.raw then "r#" ++ ident.text else ident.text

mutual
inductive Ty where
  | path (leadingColon : Bool) (segments : List Segment)
  | other
inductive Segment where
  | mk (ident : Ident) (arguments : PathArguments)
inductive PathArguments where
  | none
  | angleBracketed (args : List GenericArgument)
  | parenthesized
inductive GenericArgument where
  | type (ty : Ty)
  | other
end

def Segment.ident : Segment → Ident
  | .mk ident _ => ident

structure Path where
  leadingColon : Bool
  segments : List Segment

/-- The path as one plain segment. -/
def Path.getIdent (path : Path) : Option Ident :=
  match path.leadingColon, path.segments with
  | false, [.mk ident .none] => some ident
  | _, _ => none

def Path.isIdent (path : Path) (name : String) : Bool :=
  path.getIdent.any (·.spelling == name)

/-- A literal, whose digits may stand behind a minus sign. -/
inductive Lit where
  | int (negative : Bool) (value : Nat)
  | str (value : String)
  | other

inductive ArgExpr where
  | lit (lit : Lit)
  | other

structure MetaNameValue where
  path : Path
  value : ArgExpr

structure Attribute where
  path : Path
  tokens : String

inductive Pattern where
  | ident (ident : Ident)
  | other

inductive FnArg where
  | receiver
  | typed (pat : Pattern) (ty : Ty)

structure Signature where
  asyncness : Bool
  ident : Ident
  genericParams : List String
  whereClause : Option String
  inputs : List FnArg
  output : String

structure ItemFn where
  attrs : List Attribute
  vis : String
  sig : Signature
  block : String

def RESERVED_PREFIX : String := "__nigiri_rs_"

def ACCEPTED_PARAMETERS : String :=
  "`NigiriClient<Bitcoin>`, `NigiriClient<Liquid>`, `PegPair`, or `LndPair`"

/-- One fixture the generated wrapper must start, derived from one parameter. -/
inductive FixtureParam where
  | client (ident : Ident) (chain : Path)
  | pegPair (ident : Ident)
  | lndPair (ident : Ident)

def FixtureParam.ident : FixtureParam → Ident
  | .client ident _ => ident
  | .pegPair ident => ident
  | .lndPair ident => ident

structure MacroArgs where
  startupTimeout : Option UInt64 := none
  flavor : Option String := none
  cratePath : Option Path := none

structure TestFn where
  item : ItemFn
  fixtures : List FixtureParam
  args : MacroArgs

/-- Seconds that are read into 64 bits. -/
def base10Parse (negative : Bool) (value : Nat) : Except String UInt64 :=
  if negative then .error "invalid digit found in string"
  else if value < UInt64.size then .ok (UInt64.ofNat value)
  else .error "number too large to fit in target type"

section Parse
variable (parsePath : String → Except String Path)

def MacroArgs.add (args : MacroArgs) (pair : MetaNameValue) : Except String MacroArgs :=
  match (pair.path.getIdent.map Ident.spelling).getD "" with
  | "startup_timeout" =>
    match pair.value with
    | .lit (.int negative value) => do
      let seconds ← base10Parse negative value
      return { args with startupTimeout := some seconds }
    | _ => .error ("`startup_timeout` takes a number of seconds, e.g. " ++
        "`#[nigiri_rs::test(startup_timeout = 120)]`")
  | "flavor" =>
    match pair.value with
    | .lit (.str value) => .ok { args with flavor := some value }
    | _ => .error "`flavor` takes a string, e.g. `flavor = \"multi_thread\"`"
  | "crate" =>
    match pair.value with
    | .lit (.str value) => do
      let path ← parsePath value
      return { args with cratePath := some path }
    | _ => .error "`crate` takes a Rust path string, e.g. `crate = \"::regtest\"`"
  | other => .error (s!"unknown argument `{other}`; " ++
      "`#[nigiri_rs::test]` accepts `startup_timeout`, `flavor`, and `crate`. " ++
      "The chain is taken from the parameter type, not from an argument.")

def MacroArgs.parse (pairs : List MetaNameValue) : Except String MacroArgs :=
  pairs.foldlM (MacroArgs.add parsePath) {}

def checkAsync (sig : Signature) : Except String Unit :=
  if sig.asyncness then .ok ()
  else .error "`#[nigiri_rs::test]` requires an `async fn`: starting a fixture awaits Docker"

def checkNotGeneric (sig : Signature) : Except String Unit :=
  if sig.genericParams ≠ [] then
    .error ("`#[nigiri_rs::test]` cannot be applied to a generic function: the test harness has " ++
      "no way to choose the type arguments")
  else if sig.whereClause.isSome then
    .error ("`#[nigiri_rs::test]` cannot be applied to a function with a `where` clause: the " ++
      "test harness has no way to satisfy it")
  else .ok ()

/-- A type whose last segment has this name and no arguments. -/
def isNamed (name : String) : Ty → Bool
  | .path _ segments =>
    match segments.getLast? with
    | some (.mk ident .none) => ident.spelling == name
    | _ => false
  | .other => false

def isPegPair : Ty → Bool := isNamed "PegPair"

def isLndPair : Ty → Bool := isNamed "LndPair"

/-- The chain marker of a client type, whatever path names the type. -/
def chainOf (ty : Ty) : Except String Path :=
  let unsupported := .error (s!"`#[nigiri_rs::test]` parameters must be {ACCEPTED_PARAMETERS}; " ++
    "the chain is taken from this type")
  match ty with
  | .other => unsupported
  | .path _ segments =>
    match segments.getLast? with
    | some (.mk ident (.angleBracketed args)) =>
      if ident.spelling ≠ "NigiriClient" then unsupported
      else match args.head? with
        | some (.type (.path leadingColon segments)) => .ok ⟨leadingColon, segments⟩
        | _ => unsupported
    | _ => unsupported

def fixtureParam : FnArg → Except String FixtureParam
  | .receiver => .error "`#[nigiri_rs::test]` cannot be applied to a method taking `self`"
  | .typed .other _ =>
    .error "each parameter must be a plain name, so the generated wrapper can bind it"
  | .typed (.ident ident) ty =>
    if ident.spelling.startsWith RESERVED_PREFIX then
      .error (s!"parameter names beginning `{RESERVED_PREFIX}` are reserved for the code " ++
        "`#[nigiri_rs::test]` generates; rename this parameter")
    else if isPegPair ty then .ok (.pegPair ident)
    else if isLndPair ty then .ok (.lndPair ident)
    else do
      let chain ← chainOf ty
      return .client ident chain

/-- Every check is made before anything is expanded. -/
def parse (args : List MetaNameValue) (item : ItemFn) : Except String TestFn := do
  let args ← MacroArgs.parse parsePath args
  checkAsync item.sig
  checkNotGeneric item.sig
  let fixtures ← item.sig.inputs.mapM fixtureParam
  if !fixtures.isEmpty && item.attrs.any (·.path.isIdent "should_panic") then
    .error ("`#[should_panic]` is unsupported on fixture tests: setup failures could pass " ++
      "without running the body; assert the expected failure inside the test instead")
  else return ⟨item, fixtures, args⟩

end Parse

section Accepted
variable {parsePath : String → Except String Path} {pair : MetaNameValue}
  {pairs : List MetaNameValue} {args args' : MacroArgs}

def MetaNameValue.name (pair : MetaNameValue) : String :=
  (pair.path.getIdent.map Ident.spelling).getD ""

def ArgExpr.seconds : ArgExpr → Option UInt64
  | .lit (.int negative value) => (base10Parse negative value).toOption
  | _ => none

def ArgExpr.text : ArgExpr → Option String
  | .lit (.str value) => some value
  | _ => none

def secondsOf (pair : MetaNameValue) : Option UInt64 :=
  if pair.name = "startup_timeout" then pair.value.seconds else none

def flavorOf (pair : MetaNameValue) : Option String :=
  if pair.name = "flavor" then pair.value.text else none

def cratePathOf (parsePath : String → Except String Path) (pair : MetaNameValue) : Option Path :=
  if pair.name = "crate" then pair.value.text.bind fun text => (parsePath text).toOption else none

/-- Of several arguments of one name the last counts. -/
def given (parsePath : String → Except String Path) (pairs : List MetaNameValue) : MacroArgs where
  startupTimeout := (pairs.filterMap secondsOf).getLast?
  flavor := (pairs.filterMap flavorOf).getLast?
  cratePath := (pairs.filterMap (cratePathOf parsePath)).getLast?

def MacroArgs.orElse (args earlier : MacroArgs) : MacroArgs where
  startupTimeout := args.startupTimeout.or earlier.startupTimeout
  flavor := args.flavor.or earlier.flavor
  cratePath := args.cratePath.or earlier.cratePath

def MetaNameValue.given (parsePath : String → Except String Path) (pair : MetaNameValue) :
    MacroArgs where
  startupTimeout := secondsOf pair
  flavor := flavorOf pair
  cratePath := cratePathOf parsePath pair

/-- An argument that gives one of the three its value. -/
def Known (parsePath : String → Except String Path) (pair : MetaNameValue) : Prop :=
  pair.given parsePath ≠ {}

theorem MacroArgs.add_ok_iff : args.add parsePath pair = .ok args' ↔
    Known parsePath pair ∧ (pair.given parsePath).orElse args = args' := by
  have hname : (pair.path.getIdent.map Ident.spelling).getD "" = pair.name := rfl
  rw [MacroArgs.add, hname]
  split
  next htimeout =>
    have hgiven : pair.given parsePath = { startupTimeout := pair.value.seconds } := by
      simp [MetaNameValue.given, secondsOf, flavorOf, cratePathOf, htimeout]
    rw [Known, hgiven]
    split
    next negative value hvalue =>
      rw [hvalue, ArgExpr.seconds]
      cases base10Parse negative value <;>
        simp [MacroArgs.orElse, bind, Except.bind, pure, Except.pure, Except.toOption]
    next hother =>
      have hnone : pair.value.seconds = none := by
        rw [ArgExpr.seconds]
        exact hother
      simp [hnone]
  next hflavor =>
    have hgiven : pair.given parsePath = { flavor := pair.value.text } := by
      simp [MetaNameValue.given, secondsOf, flavorOf, cratePathOf, hflavor]
    rw [Known, hgiven]
    split
    next value hvalue => simp [hvalue, ArgExpr.text, MacroArgs.orElse]
    next hother =>
      have hnone : pair.value.text = none := by
        rw [ArgExpr.text]
        exact hother
      simp [hnone]
  next hcrate =>
    have hgiven : pair.given parsePath =
        { cratePath := pair.value.text.bind fun text => (parsePath text).toOption } := by
      simp [MetaNameValue.given, secondsOf, flavorOf, cratePathOf, hcrate]
    rw [Known, hgiven]
    split
    next value hvalue =>
      rw [hvalue, ArgExpr.text, Option.bind_some]
      cases parsePath value <;>
        simp [MacroArgs.orElse, bind, Except.bind, pure, Except.pure, Except.toOption]
    next hother =>
      have hnone : pair.value.text = none := by
        rw [ArgExpr.text]
        exact hother
      simp [hnone]
  next htimeout hflavor hcrate =>
    have hgiven : pair.given parsePath = {} := by
      rw [MetaNameValue.given, secondsOf, flavorOf, cratePathOf, if_neg htimeout, if_neg hflavor,
        if_neg hcrate]
    simp [Known, hgiven]

theorem MacroArgs.orElse_given_cons {earlier : MacroArgs} :
    (given parsePath pairs).orElse ((pair.given parsePath).orElse earlier) =
      (given parsePath (pair :: pairs)).orElse earlier := by
  have last {α : Type} (read : MetaNameValue → Option α) (early : Option α) :
      (pairs.filterMap read).getLast?.or ((read pair).or early) =
        ((pair :: pairs).filterMap read).getLast?.or early := by
    rw [List.filterMap_cons]
    cases read pair with
    | none => rfl
    | some a =>
      rw [List.getLast?_cons]
      cases (pairs.filterMap read).getLast? <;> rfl
  simp only [given, MetaNameValue.given, MacroArgs.orElse, last]

/-- The arguments are accepted when each is, in any order. -/
theorem macroArgs_parse_ok_iff : MacroArgs.parse parsePath pairs = .ok args ↔
    (∀ pair ∈ pairs, Known parsePath pair) ∧ args = given parsePath pairs := by
  have hfold (earlier : MacroArgs) : pairs.foldlM (MacroArgs.add parsePath) earlier = .ok args ↔
      (∀ pair ∈ pairs, Known parsePath pair) ∧ (given parsePath pairs).orElse earlier = args := by
    induction pairs generalizing earlier with
    | nil => simp [given, MacroArgs.orElse, pure, Except.pure]
    | cons pair pairs ih =>
      rw [List.foldlM_cons, bind_ok_iff, List.forall_mem_cons]
      constructor
      · rintro ⟨later, hadd, hpairs⟩
        obtain ⟨hknown, rfl⟩ := MacroArgs.add_ok_iff.mp hadd
        obtain ⟨hall, rfl⟩ := (ih _).mp hpairs
        exact ⟨⟨hknown, hall⟩, MacroArgs.orElse_given_cons.symm⟩
      · rintro ⟨⟨hknown, hall⟩, rfl⟩
        refine ⟨_, MacroArgs.add_ok_iff.mpr ⟨hknown, rfl⟩, (ih _).mpr ⟨hall, ?_⟩⟩
        exact MacroArgs.orElse_given_cons
  have hinitial : (given parsePath pairs).orElse {} = given parsePath pairs := by
    simp [MacroArgs.orElse]
  rw [MacroArgs.parse, hfold, hinitial]
  exact and_congr_right fun _ => eq_comm

/-- The last segment of a type, behind whatever path. -/
def LastSegment (ty : Ty) (ident : Ident) (arguments : PathArguments) : Prop :=
  ∃ leadingColon before, ty = .path leadingColon (before ++ [.mk ident arguments])

/-- A parameter asks for a fixture under its own name, by the last segment of its type. -/
inductive Requests (name : Ident) (ty : Ty) : FixtureParam → Prop where
  | pegPair (last : Ident) (hlast : LastSegment ty last .none) (hname : last.spelling = "PegPair") :
    Requests name ty (.pegPair name)
  | lndPair (last : Ident) (hlast : LastSegment ty last .none) (hname : last.spelling = "LndPair") :
    Requests name ty (.lndPair name)
  | client (last : Ident) (leadingColon : Bool) (segments : List Segment)
    (rest : List GenericArgument)
    (hlast : LastSegment ty last (.angleBracketed (.type (.path leadingColon segments) :: rest)))
    (hname : last.spelling = "NigiriClient") :
    Requests name ty (.client name ⟨leadingColon, segments⟩)

theorem lastSegment_iff {leadingColon : Bool} {segments : List Segment} {ident : Ident}
    {arguments : PathArguments} :
    LastSegment (.path leadingColon segments) ident arguments ↔
      segments.getLast? = some (.mk ident arguments) := by
  rw [List.getLast?_eq_some_iff]
  constructor
  · rintro ⟨_, before, hty⟩
    exact ⟨before, (Ty.path.inj hty).2⟩
  · rintro ⟨before, rfl⟩
    exact ⟨leadingColon, before, rfl⟩

theorem isNamed_iff {name : String} {ty : Ty} : isNamed name ty = true ↔
    ∃ last, LastSegment ty last .none ∧ last.spelling = name := by
  cases ty with
  | other =>
    refine ⟨fun hfalse => (by cases hfalse), ?_⟩
    rintro ⟨_, ⟨_, _, hty⟩, _⟩
    cases hty
  | path leadingColon segments =>
    simp only [lastSegment_iff, isNamed]
    cases segments.getLast? with
    | none => simp
    | some last =>
      obtain ⟨ident, arguments⟩ := last
      cases arguments <;> simp

theorem chainOf_ok_iff {ty : Ty} {chain : Path} : chainOf ty = .ok chain ↔
    ∃ last rest, LastSegment ty last
      (.angleBracketed (.type (.path chain.leadingColon chain.segments) :: rest)) ∧
      last.spelling = "NigiriClient" := by
  obtain ⟨leading, marker⟩ := chain
  cases ty with
  | other =>
    refine ⟨fun hfalse => (by cases hfalse), ?_⟩
    rintro ⟨_, _, ⟨_, _, hty⟩, _⟩
    cases hty
  | path leadingColon segments =>
    simp only [lastSegment_iff, chainOf]
    cases segments.getLast? with
    | none => simp
    | some last =>
      obtain ⟨ident, arguments⟩ := last
      cases arguments with
      | none => simp
      | parenthesized => simp
      | angleBracketed args =>
        rcases args with _ | ⟨(_ | _) | _, rest⟩
        · simp
        · by_cases hname : ident.spelling = "NigiriClient" <;> simp [hname]
        · simp
        · simp

theorem LastSegment.unique {ty : Ty} {last last' : Ident} {arguments arguments' : PathArguments}
    (h : LastSegment ty last arguments) (h' : LastSegment ty last' arguments') :
    last = last' ∧ arguments = arguments' := by
  obtain ⟨leadingColon, before, rfl⟩ := h
  have hsame := (lastSegment_iff.mp h').symm.trans List.getLast?_concat
  cases hsame
  exact ⟨rfl, rfl⟩

/-- A type names at most one of the fixtures, so the order of the tests does not matter. -/
theorem requests_iff {name : Ident} {ty : Ty} {param : FixtureParam} :
    Requests name ty param ↔
      if isPegPair ty then param = .pegPair name
      else if isLndPair ty then param = .lndPair name
      else ∃ chain, chainOf ty = .ok chain ∧ param = .client name chain := by
  constructor
  · intro hrequests
    cases hrequests with
    | pegPair last hlast hname =>
      have hpeg : isPegPair ty = true := isNamed_iff.mpr ⟨last, hlast, hname⟩
      rw [if_pos hpeg]
    | lndPair last hlast hname =>
      have hpeg : ¬ isPegPair ty = true := fun hpeg => by
        obtain ⟨other, hother, hnamed⟩ := isNamed_iff.mp hpeg
        obtain ⟨rfl, -⟩ := hlast.unique hother
        exact absurd (hname.symm.trans hnamed) (by decide)
      have hlnd : isLndPair ty = true := isNamed_iff.mpr ⟨last, hlast, hname⟩
      rw [if_neg hpeg, if_pos hlnd]
    | client last leadingColon segments rest hlast hname =>
      have hnamed {text : String} : ¬ isNamed text ty = true := fun hnamed => by
        obtain ⟨other, hother, -⟩ := isNamed_iff.mp hnamed
        cases (hlast.unique hother).2
      have hpeg : ¬ isPegPair ty = true := hnamed
      have hlnd : ¬ isLndPair ty = true := hnamed
      rw [if_neg hpeg, if_neg hlnd]
      exact ⟨_, chainOf_ok_iff.mpr ⟨last, rest, hlast, hname⟩, rfl⟩
  · intro hparam
    split_ifs at hparam with hpeg hlnd
    · obtain ⟨last, hlast, hname⟩ := isNamed_iff.mp hpeg
      exact hparam ▸ .pegPair last hlast hname
    · obtain ⟨last, hlast, hname⟩ := isNamed_iff.mp hlnd
      exact hparam ▸ .lndPair last hlast hname
    · obtain ⟨chain, hchain, rfl⟩ := hparam
      obtain ⟨last, rest, hlast, hname⟩ := chainOf_ok_iff.mp hchain
      exact .client last chain.leadingColon chain.segments rest hlast hname

theorem fixtureParam_ok_iff {arg : FnArg} {param : FixtureParam} :
    fixtureParam arg = .ok param ↔ ∃ name ty, arg = .typed (.ident name) ty ∧
      ¬ RESERVED_PREFIX.toList <+: name.spelling.toList ∧ Requests name ty param := by
  cases arg with
  | receiver => simp [fixtureParam]
  | typed pat ty =>
    cases pat with
    | other => simp [fixtureParam]
    | ident name =>
      have hexists : (∃ name' ty', FnArg.typed (.ident name) ty = .typed (.ident name') ty' ∧
          ¬ RESERVED_PREFIX.toList <+: name'.spelling.toList ∧ Requests name' ty' param) ↔
          ¬ RESERVED_PREFIX.toList <+: name.spelling.toList ∧ Requests name ty param := by
        constructor
        · rintro ⟨_, _, harg, hrest⟩
          cases harg
          exact hrest
        · exact fun hrest => ⟨name, ty, rfl, hrest⟩
      rw [hexists, fixtureParam, guard_ok_iff, String.startsWith_string_iff, requests_iff]
      refine and_congr_right fun _ => ?_
      split_ifs
      · rw [Except.ok.injEq, eq_comm]
      · rw [Except.ok.injEq, eq_comm]
      · simp only [bind_ok_iff, pure, Except.pure, Except.ok.injEq]
        exact exists_congr fun chain => and_congr_right fun _ => eq_comm

theorem checkAsync_ok_iff {sig : Signature} {u : Unit} :
    checkAsync sig = .ok u ↔ sig.asyncness = true := by
  rw [checkAsync, require_ok_iff, and_iff_left rfl]

theorem checkNotGeneric_ok_iff {sig : Signature} {u : Unit} :
    checkNotGeneric sig = .ok u ↔ sig.genericParams = [] ∧ sig.whereClause = none := by
  rw [checkNotGeneric, guard_ok_iff, guard_ok_iff, not_not, and_iff_left rfl, Bool.not_eq_true,
    Option.isSome_eq_false_iff, Option.isNone_iff_eq_none]

/-- A panic of a fixture's startup cannot stand for the panic that a test expects. -/
def PanicsItself (item : ItemFn) (fixtures : List FixtureParam) : Prop :=
  fixtures = [] ∨ ∀ attr ∈ item.attrs, attr.path.isIdent "should_panic" = false

/-- What the macro accepts, and what it reads from it: the last argument of each name, and one
fixture for each parameter, in the order of the parameters. -/
theorem parse_ok_iff {item : ItemFn} {test : TestFn} : parse parsePath pairs item = .ok test ↔
    (∀ pair ∈ pairs, Known parsePath pair) ∧ test.args = given parsePath pairs ∧
      item.sig.asyncness = true ∧ item.sig.genericParams = [] ∧ item.sig.whereClause = none ∧
      List.Forall₂ (fun arg param => ∃ name ty, arg = .typed (.ident name) ty ∧
        ¬ RESERVED_PREFIX.toList <+: name.spelling.toList ∧ Requests name ty param)
        item.sig.inputs test.fixtures ∧
      PanicsItself item test.fixtures ∧ test.item = item := by
  obtain ⟨testItem, fixtures, args⟩ := test
  have hpanics {read : List FixtureParam} :
      ¬ (!read.isEmpty && item.attrs.any (·.path.isIdent "should_panic")) = true ↔
        PanicsItself item read := by
    cases read <;> simp [PanicsItself]
  simp only [parse, bind_ok_iff, macroArgs_parse_ok_iff, mapM_ok_iff, checkAsync_ok_iff,
    checkNotGeneric_ok_iff, guard_ok_iff, hpanics, fixtureParam_ok_iff, pure, Except.pure,
    Except.ok.injEq, TestFn.mk.injEq]
  constructor
  · rintro ⟨_, ⟨hknown, rfl⟩, _, hasync, _, hgeneric, _, hinputs, hpanics, rfl, rfl, rfl⟩
    exact ⟨hknown, rfl, hasync, hgeneric.1, hgeneric.2, hinputs, hpanics, rfl⟩
  · rintro ⟨hknown, rfl, hasync, hgeneric, hwhere, hinputs, hpanics, rfl⟩
    exact ⟨_, ⟨hknown, rfl⟩, (), hasync, (), ⟨hgeneric, hwhere⟩, _, hinputs, hpanics, rfl, rfl, rfl⟩

end Accepted

end Nigiri.Macros
