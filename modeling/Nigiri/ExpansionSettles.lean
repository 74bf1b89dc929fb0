import Nigiri.TestExpansion

/-! The statements of a wrapper, run over the results of its starts: every parameter is bound to its
own fixture, up to the first start that has failed. -/
namespace Nigiri.Macros
open Nigiri.Process Nigiri.Polling Nigiri.Scope
variable {α : Type}

section Names

theorem invented_text (suffix : String) :
    RESERVED_PREFIX.toList <+: (invented suffix).text.toList := by
  rw [invented, String.toList_append]
  exact List.prefix_append _ _

theorem invented_inj {suffix suffix' : String}
    (h : (invented suffix).text = (invented suffix').text) : suffix.toList = suffix'.toList := by
  have hlists := congrArg String.toList h
  rw [invented, invented, String.toList_append, String.toList_append] at hlists
  exact List.append_cancel_left hlists

theorem startedIdent_inj {i j : Nat} (h : (startedIdent i).text = (startedIdent j).text) :
    i = j := by
  have hdigits := invented_inj h
  rw [String.toList_append, String.toList_append] at hdigits
  have hrepr := List.append_cancel_left hdigits
  rw [Nat.toList_repr, Nat.toList_repr] at hrepr
  rw [← @Nat.ofDigitChars_ten_toDigits i, hrepr, Nat.ofDigitChars_ten_toDigits]

theorem handleIdent_ne_startedIdent {i j : Nat} :
    (handleIdent i).text ≠ (startedIdent j).text := by
  intro h
  have hlists := invented_inj h
  rw [String.toList_append, String.toList_append] at hlists
  exact absurd (List.cons.inj hlists).1 (by decide)

theorem handleIdent_ne_innerName {i : Nat} : (handleIdent i).text ≠ innerName.text := by
  intro h
  have hlists := invented_inj h
  rw [String.toList_append] at hlists
  exact absurd (List.cons.inj hlists).1 (by decide)

theorem startedIdent_ne_innerName {i : Nat} : (startedIdent i).text ≠ innerName.text := by
  intro h
  have hlists := invented_inj h
  rw [String.toList_append] at hlists
  exact absurd (List.cons.inj hlists).1 (by decide)

/-- The parameters' names differ, and none is one that the expansion invents. -/
structure ParamNames (fixtures : List FixtureParam) : Prop where
  distinct : (fixtures.map fun fixture => fixture.ident.text).Nodup
  free : ∀ fixture ∈ fixtures, ¬ RESERVED_PREFIX.toList <+: fixture.ident.text.toList

theorem ParamNames.ne_invented {fixtures : List FixtureParam} {fixture : FixtureParam}
    (hnames : ParamNames fixtures) (hmem : fixture ∈ fixtures) (suffix : String) :
    fixture.ident.text ≠ (invented suffix).text := fun h =>
  hnames.free fixture hmem (h ▸ invented_text suffix)

theorem ParamNames.tail {fixture : FixtureParam} {fixtures : List FixtureParam}
    (hnames : ParamNames (fixture :: fixtures)) : ParamNames fixtures :=
  ⟨(List.nodup_cons.mp hnames.distinct).2,
    fun other hmem => hnames.free other (List.mem_cons_of_mem _ hmem)⟩

end Names

section Bound

/-- What the body gets for a parameter. -/
def ownValue (index : Nat) : FixtureParam → Value
  | .client _ chain => .client index chain
  | .pegPair _ => .handle index .pegPair
  | .lndPair _ => .handle index .lndPair

/-- A client's handle stays behind, a pair moves on. -/
def keptValue (index : Nat) : FixtureParam → Option Value
  | .client _ chain => some (.handle index (.fixture chain))
  | .pegPair _ => none
  | .lndPair _ => none

def boundFixture (index : Nat) (fixture : FixtureParam) : Locals String Value :=
  [(fixture.ident.text, some (ownValue index fixture)),
    ((handleIdent index).text, keptValue index fixture)]

/-- The locals of bound fixtures, the last the latest. -/
def boundFrom (index : Nat) : List FixtureParam → Locals String Value
  | [] => []
  | fixture :: fixtures => boundFrom (index + 1) fixtures ++ boundFixture index fixture

def ownValues (index : Nat) : List FixtureParam → List Value
  | [] => []
  | fixture :: fixtures => ownValue index fixture :: ownValues (index + 1) fixtures

/-- The same locals once the body has taken its arguments. -/
def leftFrom (index : Nat) : List FixtureParam → Locals String Value
  | [] => []
  | fixture :: fixtures => leftFrom (index + 1) fixtures ++
    [(fixture.ident.text, none), ((handleIdent index).text, keptValue index fixture)]

theorem names_boundFrom {index : Nat} {fixtures : List FixtureParam} {name : String}
    (hmem : name ∈ names (boundFrom index fixtures)) :
    (∃ fixture ∈ fixtures, name = fixture.ident.text) ∨ ∃ i, name = (handleIdent i).text := by
  induction fixtures generalizing index with
  | nil => cases hmem
  | cons fixture fixtures ih =>
    rw [boundFrom, names_append, List.mem_append] at hmem
    rcases hmem with hlater | hown
    · rcases ih hlater with ⟨other, hother, rfl⟩ | hhandle
      · exact .inl ⟨other, List.mem_cons_of_mem _ hother, rfl⟩
      · exact .inr hhandle
    · simp only [boundFixture, names, List.map_cons, List.map_nil, List.mem_cons,
        List.not_mem_nil, or_false] at hown
      rcases hown with rfl | rfl
      · exact .inl ⟨fixture, List.mem_cons_self, rfl⟩
      · exact .inr ⟨index, rfl⟩

/-- The arguments are the parameters' own values, whatever else is in scope. -/
theorem takeLocals_boundFrom {fixtures : List FixtureParam} (hnames : ParamNames fixtures)
    (index : Nat) (early : Locals String Value) :
    takeLocals (fixtures.map fun fixture => fixture.ident.text)
        (boundFrom index fixtures ++ early) =
      some (ownValues index fixtures, leftFrom index fixtures ++ early) := by
  induction fixtures generalizing index early with
  | nil => rfl
  | cons fixture fixtures ih =>
    have hfresh : fixture.ident.text ∉ names (boundFrom (index + 1) fixtures) := by
      intro hmem
      rcases names_boundFrom hmem with ⟨other, hother, hsame⟩ | ⟨i, hsame⟩
      · exact (List.nodup_cons.mp hnames.distinct).1 (List.mem_map.mpr ⟨other, hother, hsame.symm⟩)
      · exact hnames.ne_invented List.mem_cons_self _ hsame
    have htake : takeLocal fixture.ident.text (boundFrom index (fixture :: fixtures) ++ early) =
        some (ownValue index fixture, boundFrom (index + 1) fixtures ++
          ((fixture.ident.text, none) :: ((handleIdent index).text, keptValue index fixture) ::
            early)) := by
      rw [boundFrom, List.append_assoc]
      exact takeLocal_append hfresh
    simp only [List.map_cons, takeLocals, htake, ih hnames.tail, Option.bind_eq_bind,
      Option.bind_some]
    rw [leftFrom, List.append_assoc]
    rfl

end Bound

section Slots
variable {fixtures : List FixtureParam} {results : List (Except String Unit)} {index : Nat}

/-- The results of a join that are still to be unwrapped, the last the latest. -/
def slotsFrom (index : Nat) : List FixtureParam → List (Except String Unit) → Locals String Value
  | fixture :: fixtures, result :: results => slotsFrom (index + 1) fixtures results ++
    [((startedIdent index).text, some (.started index fixture.fixtureType result))]
  | _, _ => []

/-- The places of results that have been unwrapped. -/
def spentFrom (index : Nat) : List FixtureParam → Locals String Value
  | [] => []
  | _ :: fixtures => spentFrom (index + 1) fixtures ++ [((startedIdent index).text, none)]

def failureText (fixture : FixtureParam) (error : String) : String :=
  s!"{startFailureMessage fixture}: {error}"

/-- The statements of one fixture after another, up to the first that could not start. -/
def settle (index : Nat) : List FixtureParam → List (Except String Unit) →
    Locals String Value → Locals String Value → Except Halt Unit × Locals String Value
  | fixture :: fixtures, .ok () :: results, bound, early =>
    settle (index + 1) fixtures results (boundFixture index fixture ++ bound)
      (((startedIdent index).text, none) :: early)
  | fixture :: fixtures, .error error :: results, bound, early =>
    (.error (.panicked (failureText fixture error)),
      bound ++ (slotsFrom (index + 1) fixtures results ++
        ((startedIdent index).text, none) :: early))
  | _, _, bound, early => (.ok (), bound ++ early)

theorem startedLocals_eq {args : MacroArgs} {cratePath : Path}
    (hlength : results.length = fixtures.length) :
    startedLocals index ((List.range' index fixtures.length).map startedIdent)
      (fixtures.map (startExpr args cratePath)) results = slotsFrom index fixtures results := by
  induction fixtures generalizing index results with
  | nil => rfl
  | cons fixture fixtures ih =>
    cases results with
    | nil => cases hlength
    | cons result results =>
      rw [List.length_cons, List.range'_succ, List.map_cons, List.map_cons, startedLocals,
        ih (Nat.succ.inj hlength)]
      rfl

theorem names_slotsFrom {name : String} (hmem : name ∈ names (slotsFrom index fixtures results)) :
    ∃ i, index ≤ i ∧ name = (startedIdent i).text := by
  induction fixtures generalizing index results with
  | nil => cases hmem
  | cons fixture fixtures ih =>
    cases results with
    | nil => cases hmem
    | cons result results =>
      rw [slotsFrom, names_append, List.mem_append] at hmem
      rcases hmem with hlater | hown
      · obtain ⟨i, hi, hname⟩ := ih hlater
        exact ⟨i, Nat.le_of_succ_le hi, hname⟩
      · exact ⟨index, Nat.le_refl index, List.mem_singleton.mp hown⟩

/-- The two statements of one fixture, once its start has succeeded. -/
theorem exec_bindFixture {fixture : FixtureParam} {stmts : List Stmt}
    {locals : Locals String Value} {next : Nat} :
    exec (α := α) (bindFixture fixture index :: stmts)
        ⟨((handleIdent index).text, some (.handle index fixture.fixtureType)) :: locals, next⟩ =
      exec stmts ⟨boundFixture index fixture ++ locals, next⟩ := by
  cases fixture with
  | client ident chain =>
    rw [bindFixture, exec, eval]
    simp only [FixtureParam.fixtureType, readLocal_cons_self, Proc.bind, State.bind]
    rfl
  | pegPair ident =>
    rw [bindFixture, exec, eval]
    simp only [FixtureParam.fixtureType, takeLocal_cons_self, Proc.bind, State.bind]
    rfl
  | lndPair ident =>
    rw [bindFixture, exec, eval]
    simp only [FixtureParam.fixtureType, takeLocal_cons_self, Proc.bind, State.bind]
    rfl

/-- The result of a join is moved out of its place, and unwrapped. -/
theorem exec_unwrapFixture {fixture : FixtureParam} {result : Except String Unit}
    {stmts : List Stmt} {before early : Locals String Value} {next : Nat}
    (hbefore : (startedIdent index).text ∉ names before) :
    exec (α := α) (unwrapFixture (.path (startedIdent index)) fixture index ++ stmts)
        ⟨before ++ ((startedIdent index).text, some (.started index fixture.fixtureType result)) ::
          early, next⟩ =
      match result with
      | .ok () => exec stmts ⟨boundFixture index fixture ++
          (before ++ ((startedIdent index).text, none) :: early), next⟩
      | .error error => .done (.error (.panicked (failureText fixture error)),
          ⟨before ++ ((startedIdent index).text, none) :: early, next⟩) := by
  rw [unwrapFixture, List.cons_append, exec, eval, eval]
  simp only [takeLocal_append hbefore, Proc.bind]
  cases result with
  | error error => rfl
  | ok u => exact exec_bindFixture

theorem exec_unwrapFrom {bound early : Locals String Value} {next : Nat}
    (hlength : results.length = fixtures.length)
    (hbound : ∀ i, index ≤ i → (startedIdent i).text ∉ names bound) (hnames : ParamNames fixtures) :
    exec (α := α) (unwrapFrom index fixtures)
        ⟨bound ++ (slotsFrom index fixtures results ++ early), next⟩ =
      .done ((settle index fixtures results bound early).1,
        ⟨(settle index fixtures results bound early).2, next⟩) := by
  induction fixtures generalizing index results bound early with
  | nil =>
    rw [unwrapFrom, exec]
    rfl
  | cons fixture fixtures ih =>
    cases results with
    | nil => cases hlength
    | cons result results =>
      have hfresh : (startedIdent index).text ∉
          names (bound ++ slotsFrom (index + 1) fixtures results) := by
        rw [names_append, List.mem_append, not_or]
        refine ⟨hbound index (Nat.le_refl index), fun hmem => ?_⟩
        obtain ⟨i, hi, hname⟩ := names_slotsFrom hmem
        obtain rfl := startedIdent_inj hname
        exact Nat.lt_irrefl _ hi
      rw [unwrapFrom, slotsFrom, List.append_assoc, ← List.append_assoc bound]
      rw [List.singleton_append, exec_unwrapFixture hfresh]
      cases result with
      | error error => rw [settle, List.append_assoc]
      | ok u =>
        have hbound' : ∀ i, index + 1 ≤ i →
            (startedIdent i).text ∉ names (boundFixture index fixture ++ bound) := by
          intro i hi hmem
          rw [names_append, List.mem_append] at hmem
          rcases hmem with hown | hearlier
          · simp only [boundFixture, names, List.map_cons, List.map_nil, List.mem_cons,
              List.not_mem_nil, or_false] at hown
            rcases hown with hname | hhandle
            · exact hnames.ne_invented List.mem_cons_self _ hname.symm
            · exact handleIdent_ne_startedIdent hhandle.symm
          · exact hbound i (Nat.le_of_succ_le hi) hearlier
        have hrest := @ih results (index + 1) (boundFixture index fixture ++ bound)
          (((startedIdent index).text, none) :: early) (Nat.succ.inj hlength) hbound' hnames.tail
        rw [settle, ← hrest]
        simp only [List.append_assoc]

def owned (locals : Locals String Value) : List Nat := (remaining locals).filterMap Value.owned

theorem owned_append (locals locals' : Locals String Value) :
    owned (locals ++ locals') = owned locals ++ owned locals' := by
  rw [owned, remaining, List.filterMap_append, List.filterMap_append]
  rfl

/-- The places of a list where this holds, the last first. -/
def placesFrom {β : Type} (holds : β → Bool) (index : Nat) : List β → List Nat
  | [] => []
  | b :: bs => placesFrom holds (index + 1) bs ++ if holds b then [index] else []

theorem mem_placesFrom {β : Type} {holds : β → Bool} {place : Nat} {bs : List β} :
    place ∈ placesFrom holds index bs ↔
      ∃ k b, place = index + k ∧ bs[k]? = some b ∧ holds b = true := by
  induction bs generalizing index with
  | nil => simp [placesFrom]
  | cons b bs ih =>
    rw [placesFrom, List.mem_append, ih]
    constructor
    · rintro (⟨k, b', rfl, hk, hb'⟩ | hown)
      · exact ⟨k + 1, b', by omega, hk, hb'⟩
      · split at hown
        next hb => exact ⟨0, b, List.mem_singleton.mp hown, rfl, hb⟩
        next => cases hown
    · rintro ⟨k, b', rfl, hk, hb'⟩
      cases k with
      | zero =>
        obtain rfl := Option.some.inj hk
        exact .inr (by rw [if_pos hb']; exact List.mem_singleton.mpr rfl)
      | succ k => exact .inl ⟨k, b', by omega, hk, hb'⟩

theorem placesFrom_nodup {β : Type} {holds : β → Bool} {bs : List β} :
    (placesFrom holds index bs).Nodup := by
  induction bs generalizing index with
  | nil => exact List.nodup_nil
  | cons b bs ih =>
    rw [placesFrom]
    split
    · refine List.Nodup.append ih (List.nodup_singleton _) fun place hlater hown => ?_
      obtain ⟨k, _, rfl, _⟩ := mem_placesFrom.mp hlater
      have := List.mem_singleton.mp hown
      omega
    · rw [List.append_nil]
      exact ih

/-- Which starts have succeeded. -/
def startedFrom : Nat → List (Except String Unit) → List Nat := placesFrom Except.isOk

def FixtureParam.isClient : FixtureParam → Bool
  | .client .. => true
  | _ => false

/-- The fixtures whose handles the wrapper keeps while the body runs. -/
def keptFrom : Nat → List FixtureParam → List Nat := placesFrom FixtureParam.isClient

theorem owned_slotsFrom (hlength : results.length = fixtures.length) :
    owned (slotsFrom index fixtures results) = startedFrom index results := by
  induction fixtures generalizing index results with
  | nil =>
    rw [List.length_eq_zero_iff.mp hlength]
    rfl
  | cons fixture fixtures ih =>
    cases results with
    | nil => cases hlength
    | cons result results =>
      rw [slotsFrom, owned_append, ih (Nat.succ.inj hlength)]
      cases result with
      | error error => rfl
      | ok u => rfl

theorem owned_boundFixture {fixture : FixtureParam} :
    owned (boundFixture index fixture) = [index] := by
  cases fixture <;> rfl

theorem owned_leftFrom : owned (leftFrom index fixtures) = keptFrom index fixtures := by
  induction fixtures generalizing index with
  | nil => rfl
  | cons fixture fixtures ih =>
    rw [leftFrom, owned_append, ih]
    cases fixture <;> rfl

/-- Every start has succeeded: every parameter is bound. -/
theorem settle_ok {bound early : Locals String Value} (hlength : results.length = fixtures.length)
    (hok : ∀ result ∈ results, result = .ok ()) :
    settle index fixtures results bound early =
      (.ok (), boundFrom index fixtures ++ (bound ++ (spentFrom index fixtures ++ early))) := by
  induction fixtures generalizing index results bound early with
  | nil => rw [List.length_eq_zero_iff.mp hlength]; rfl
  | cons fixture fixtures ih =>
    cases results with
    | nil => cases hlength
    | cons result results =>
      obtain ⟨hfirst, hrest⟩ := List.forall_mem_cons.mp hok
      rw [hfirst, settle, ih (Nat.succ.inj hlength) hrest, boundFrom, spentFrom]
      simp only [List.append_assoc, List.singleton_append]

/-- The first start that has failed ends the test. What has been bound is released before what
has not, each the last first. -/
theorem settle_failed {bound early : Locals String Value} {earlier : List FixtureParam}
    {fixture : FixtureParam} {error : String} {later : List (Except String Unit)}
    {rest : List FixtureParam} (hlength : later.length = rest.length) :
    ∃ locals, settle index (earlier ++ fixture :: rest)
        (List.replicate earlier.length (.ok ()) ++ .error error :: later) bound early =
      (.error (.panicked (failureText fixture error)), locals) ∧
      owned locals = startedFrom index (List.replicate earlier.length (.ok ())) ++ (owned bound ++
        (startedFrom (index + earlier.length + 1) later ++ owned early)) := by
  induction earlier generalizing index bound early with
  | nil =>
    refine ⟨_, rfl, ?_⟩
    rw [owned_append, owned_append, owned_slotsFrom hlength]
    rfl
  | cons first earlier ih =>
    obtain ⟨locals, hsettle, howned⟩ := @ih (index + 1) (boundFixture index first ++ bound)
      (((startedIdent index).text, none) :: early)
    refine ⟨locals, hsettle, ?_⟩
    have hfirst : startedFrom index (List.replicate (first :: earlier).length (.ok ())) =
        startedFrom (index + 1) (List.replicate earlier.length (.ok ())) ++ [index] := rfl
    have hshift : index + (first :: earlier).length + 1 = index + 1 + earlier.length + 1 := by
      rw [List.length_cons]
      omega
    rw [howned, owned_append, owned_boundFixture, hfirst, hshift]
    simp only [List.append_assoc]
    rfl

end Slots

end Nigiri.Macros
