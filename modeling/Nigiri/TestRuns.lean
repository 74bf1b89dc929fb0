import Nigiri.ExpansionSettles

/-! Every run of an expanded test: the starts of its own fixtures, and then either the body with all
of them and the release of what stayed behind, or the release of whatever has started. -/
namespace Nigiri.Macros
open Nigiri.Process Nigiri.Polling Nigiri.Scope
variable {α : Type}

/-- Each of these once, and no others. -/
def OnceEach (indices : List Nat) (P : Nat → Prop) : Prop :=
  indices.Nodup ∧ ∀ index, index ∈ indices ↔ P index

/-- The releases come in this order, and the result after the last. -/
structure Releases {β : Type} (indices : List Nat) (result : β) (rest : TestTrace α)
    (o : Option β) : Prop where
  order : rest.map Event.request <+: indices.map fun index => .call (.release index)
  ends : ∀ b, o = some b → b = result ∧
    rest.map Event.request = indices.map fun index => .call (.release index)

def verdict : Except String α → Except Halt α
  | .ok output => .ok output
  | .error message => .error (.panicked message)

/-- What follows the starts. -/
inductive Concluded (fixtures : List FixtureParam) (results : List (Except String Unit))
    (rest : TestTrace α) (o : Option (Except Halt α)) : Prop where
  | failed (earlier : List FixtureParam) (fixture : FixtureParam) (others : List FixtureParam)
    (error : String) (later : List (Except String Unit)) (indices : List Nat)
    (hfixtures : fixtures = earlier ++ fixture :: others)
    (hresults : results = List.replicate earlier.length (.ok ()) ++ .error error :: later)
    (hindices : OnceEach indices fun index => results[index]? = some (.ok ()))
    (hreleases : Releases indices (.error (.panicked (failureText fixture error))) rest o)
  | passed (hok : ∀ result ∈ results, result = .ok ())
    (hindices : OnceEach (keptFrom 0 fixtures) fun index =>
      ∃ ident chain, fixtures[index]? = some (.client ident chain))
    (hbody : (rest = [] ∧ o = none) ∨
      (rest = [⟨.call (.body (ownValues 0 fixtures)), none⟩] ∧ o = none) ∨
      ∃ reply releases, rest = ⟨.call (.body (ownValues 0 fixtures)), some reply⟩ :: releases ∧
        Releases (keptFrom 0 fixtures) (verdict reply) releases o)

section Ends
variable {fixtures : List FixtureParam} {results : List (Except String Unit)}

theorem runs_releaseAll {β : Type} {indices : List Nat} {result : β} {t : TestTrace α}
    {o : Option β} (hrun : Runs (releaseAll indices result) t o) : Releases indices result t o := by
  induction indices generalizing t with
  | nil =>
    obtain ⟨rfl, ho⟩ := hrun
    refine ⟨List.prefix_rfl, fun b hb => ⟨?_, rfl⟩⟩
    rcases ho with rfl | rfl
    · cases hb
    · exact (Option.some.inj hb).symm
  | cons index indices ih =>
    rcases hrun with ⟨rfl, rfl⟩ | ⟨rfl, rfl⟩ | ⟨_, t', rfl, hrest⟩
    · exact ⟨List.nil_prefix, fun b hb => by cases hb⟩
    · exact ⟨⟨_, rfl⟩, fun b hb => by cases hb⟩
    · obtain ⟨horder, hends⟩ := ih hrest
      refine ⟨List.cons_prefix_cons.mpr ⟨rfl, horder⟩, fun b hb => ?_⟩
      obtain ⟨hresult, hall⟩ := hends b hb
      exact ⟨hresult, congrArg (List.cons _) hall⟩

theorem onceEach_started {earlier : Nat} {error : String} {later : List (Except String Unit)}
    (hresults : results = List.replicate earlier (.ok ()) ++ .error error :: later) :
    OnceEach (startedFrom 0 (List.replicate earlier (.ok ())) ++ startedFrom (earlier + 1) later)
      fun index => results[index]? = some (.ok ()) := by
  have hok {result : Except String Unit} : result.isOk = true ↔ result = .ok () := by
    cases result <;> simp [Except.isOk, Except.toBool]
  refine ⟨List.Nodup.append placesFrom_nodup placesFrom_nodup fun index hbefore hafter => ?_,
    fun index => ?_⟩
  · obtain ⟨k, _, rfl, hk, -⟩ := mem_placesFrom.mp hbefore
    obtain ⟨k', _, hindex, -, -⟩ := mem_placesFrom.mp hafter
    have := (List.getElem?_eq_some_iff.mp hk).1
    rw [List.length_replicate] at this
    omega
  · rw [List.mem_append, startedFrom, mem_placesFrom, mem_placesFrom]
    simp only [hok, exists_eq_right_right, Nat.zero_add, exists_eq_left', hresults,
      List.getElem?_append, List.length_replicate]
    constructor
    · rintro (hbefore | ⟨k, rfl, hk⟩)
      · have hlt := (List.getElem?_eq_some_iff.mp hbefore).1
        rw [List.length_replicate] at hlt
        rwa [if_pos hlt]
      · have hplace : earlier + 1 + k - earlier = k + 1 := by omega
        rw [if_neg (by omega), hplace]
        exact hk
    · intro hindex
      split at hindex
      next => exact .inl hindex
      next hge =>
        obtain ⟨k, hk⟩ : ∃ k, index = earlier + k := ⟨index - earlier, by omega⟩
        rw [hk, Nat.add_sub_cancel_left] at hindex
        cases k with
        | zero => cases hindex
        | succ k => exact .inr ⟨k, by omega, hindex⟩

theorem onceEach_kept : OnceEach (keptFrom 0 fixtures) fun index =>
    ∃ ident chain, fixtures[index]? = some (.client ident chain) := by
  refine ⟨placesFrom_nodup, fun index => ?_⟩
  rw [keptFrom, mem_placesFrom]
  constructor
  · rintro ⟨k, fixture, rfl, hk, hclient⟩
    rw [Nat.zero_add]
    cases fixture with
    | client ident chain => exact ⟨ident, chain, hk⟩
    | pegPair ident => cases hclient
    | lndPair ident => cases hclient
  · rintro ⟨ident, chain, hk⟩
    exact ⟨index, _, (Nat.zero_add index).symm, hk, rfl⟩

theorem firstFailure (results : List (Except String Unit)) : (∀ result ∈ results, result = .ok ()) ∨
    ∃ k error later, results = List.replicate k (.ok ()) ++ .error error :: later := by
  induction results with
  | nil => exact .inl (List.forall_mem_nil _)
  | cons result results ih =>
    cases result with
    | error error => exact .inr ⟨0, error, results, rfl⟩
    | ok u =>
      rcases ih with hok | ⟨k, error, later, rfl⟩
      · exact .inl (List.forall_mem_cons.mpr ⟨rfl, hok⟩)
      · exact .inr ⟨k + 1, error, later, rfl⟩

theorem names_spentFrom {index : Nat} {name : String}
    (hmem : name ∈ names (spentFrom index fixtures)) : ∃ i, name = (startedIdent i).text := by
  induction fixtures generalizing index with
  | nil => cases hmem
  | cons fixture fixtures ih =>
    rw [spentFrom, names_append, List.mem_append] at hmem
    rcases hmem with hlater | hown
    · exact ih hlater
    · exact ⟨index, List.mem_singleton.mp hown⟩

theorem owned_spentFrom {index : Nat} : owned (spentFrom index fixtures) = [] := by
  induction fixtures generalizing index with
  | nil => rfl
  | cons fixture fixtures ih =>
    rw [spentFrom, owned_append, ih]
    rfl

variable {test : TestFn}

theorem callee_free {early : Locals String Value} (hnames : ParamNames test.fixtures)
    (hearly : innerName.text ∉ names early) :
    ¬ (innerName.text ∈ names (boundFrom 0 test.fixtures ++ early) ∨
      innerName.text ≠ (expand test).inner.sig.ident.text) := by
  rintro (hmem | hother)
  · rw [names_append, List.mem_append] at hmem
    rcases hmem with hbound | hmem
    · rcases names_boundFrom hbound with ⟨fixture, hfixture, hname⟩ | ⟨i, hname⟩
      · exact hnames.ne_invented hfixture "inner" hname.symm
      · exact handleIdent_ne_innerName hname.symm
    · exact hearly hmem
  · exact hother rfl

/-- With every parameter bound, the body is called with all of them. -/
theorem finish_ok {early : Locals String Value} {next : Nat} (hnames : ParamNames test.fixtures)
    (hearly : innerName.text ∉ names early) (howned : owned early = []) :
    (expand test).finish (α := α) (.ok (), ⟨boundFrom 0 test.fixtures ++ early, next⟩) =
      .ask (.call (.body (ownValues 0 test.fixtures))) fun reply =>
        releaseAll (keptFrom 0 test.fixtures) (verdict reply) := by
  have hargs : (expand test).callArgs.map Ident.text =
      test.fixtures.map fun fixture => fixture.ident.text := List.map_map
  have hleft : owned (leftFrom 0 test.fixtures ++ early) = keptFrom 0 test.fixtures := by
    rw [owned_append, owned_leftFrom, howned, List.append_nil]
  refine (if_neg (callee_free hnames hearly)).trans ?_
  rw [hargs]
  simp only [takeLocals_boundFrom hnames, callBody, ← hleft]
  refine congrArg (Proc.ask _) (funext fun reply => ?_)
  cases reply <;> rfl

theorem concluded_passed {t : TestTrace α} {o : Option (Except Halt α)}
    {early : Locals String Value} {next : Nat} (hnames : ParamNames test.fixtures)
    (hearly : innerName.text ∉ names early) (howned : owned early = [])
    (hok : ∀ result ∈ results, result = .ok ())
    (hrun : Runs ((expand test).finish (.ok (), ⟨boundFrom 0 test.fixtures ++ early, next⟩)) t o) :
    Concluded test.fixtures results t o := by
  rw [finish_ok hnames hearly howned] at hrun
  refine .passed hok onceEach_kept ?_
  rcases hrun with ⟨rfl, rfl⟩ | ⟨rfl, rfl⟩ | ⟨reply, t', rfl, hrest⟩
  · exact .inl ⟨rfl, rfl⟩
  · exact .inr (.inl ⟨rfl, rfl⟩)
  · exact .inr (.inr ⟨reply, t', rfl, runs_releaseAll hrest⟩)

/-- The statements over the results end in one of two ways, and so does the test. -/
theorem concluded_of_settle {t : TestTrace α} {o : Option (Except Halt α)} {next : Nat}
    (hnames : ParamNames test.fixtures) (hlength : results.length = test.fixtures.length)
    (hrun : Runs ((expand test).finish ((settle 0 test.fixtures results [] []).1,
      ⟨(settle 0 test.fixtures results [] []).2, next⟩)) t o) :
    Concluded test.fixtures results t o := by
  rcases firstFailure results with hok | ⟨k, error, later, hresults⟩
  · rw [settle_ok hlength hok, List.nil_append, List.append_nil] at hrun
    refine concluded_passed hnames (fun hmem => ?_) owned_spentFrom hok hrun
    obtain ⟨i, hname⟩ := names_spentFrom hmem
    exact startedIdent_ne_innerName hname.symm
  · obtain ⟨earlier, fixture, others, hfixtures, rfl⟩ : ∃ earlier fixture others,
        test.fixtures = earlier ++ fixture :: others ∧ earlier.length = k := by
      rw [hresults, List.length_append, List.length_cons, List.length_replicate] at hlength
      have hk : k < test.fixtures.length := by omega
      refine ⟨test.fixtures.take k, test.fixtures[k], test.fixtures.drop (k + 1), ?_, ?_⟩
      · rw [← List.drop_eq_getElem_cons hk, List.take_append_drop]
      · exact List.length_take_of_le (Nat.le_of_lt hk)
    have hlater : later.length = others.length := by
      rw [hresults, hfixtures] at hlength
      simpa using hlength
    obtain ⟨locals, hsettle, howned⟩ :=
      @settle_failed 0 [] [] earlier fixture error later others hlater
    rw [hfixtures, hresults, hsettle] at hrun
    refine .failed earlier fixture others error later (owned locals) hfixtures hresults ?_
      (runs_releaseAll hrun)
    have hnone : owned [] = [] := rfl
    rw [howned, hnone, List.nil_append, List.append_nil, Nat.zero_add]
    exact onceEach_started hresults

end Ends

section Starts
variable {test : TestFn}

/-- The start of one of the test's own fixtures, or a sleep between two polls of them. -/
def OwnStart (test : TestFn) (request : Await TestCall) : Prop :=
  request = .park ∨ ∃ index fixture, test.fixtures[index]? = some fixture ∧
    (request = .call (.start index (startExpr test.args test.args.facade fixture)) ∨
      request = .poll ⟨.start index (startExpr test.args test.args.facade fixture), 0⟩)

/-- How the start of a fixture has ended. -/
def StartEnded (starts : TestTrace α) (index : Nat) (result : Except String Unit) : Prop :=
  ∃ call, (⟨.call (.start index call), some result⟩ : Event (Await TestCall) _) ∈ starts ∨
    (⟨.poll ⟨.start index call, 0⟩, some (some result)⟩ : Event (Await TestCall) _) ∈ starts

/-- A start that is called is the only one, and one that is polled is not polled again when it has
ended. -/
def AskedOnce (before : TestTrace α) (request : Await TestCall) : Prop :=
  (∀ index call, request = .call (.start index call) → before = []) ∧
  ∀ index call, request = .poll ⟨.start index call, 0⟩ →
    ∀ result, ¬ StartEnded before index result

/-- A run of a test: each start of its own fixtures once, and when all have ended, what follows. -/
def TestRun (test : TestFn) (h : TestTrace α) (o : Option (Except Halt α)) : Prop :=
  ∃ starts rest, h = starts ++ rest ∧ (∀ e ∈ starts, OwnStart test e.request) ∧
    Each AskedOnce starts ∧ ((rest = [] ∧ o = none) ∨ ∃ results : List (Except String Unit),
      results.length = test.fixtures.length ∧
      (∀ index result, results[index]? = some result → StartEnded starts index result) ∧
      Concluded test.fixtures results rest o)

/-- Once every start has ended, the statements that are left decide. -/
theorem ensures_settled {starts : TestTrace α} {results : List (Except String Unit)} {next : Nat}
    (hnames : ParamNames test.fixtures) (hlength : results.length = test.fixtures.length)
    (hown : ∀ e ∈ starts, OwnStart test e.request) (honce : Each AskedOnce starts)
    (hended : ∀ index result, results[index]? = some result → StartEnded starts index result) :
    Ensures starts ((expand test).finish ((settle 0 test.fixtures results [] []).1,
      ⟨(settle 0 test.fixtures results [] []).2, next⟩)) (TestRun test) := fun t _ hrun =>
  ⟨starts, t, rfl, hown, honce,
    .inr ⟨results, hlength, hended, concluded_of_settle hnames hlength hrun⟩⟩

theorem pending {starts : TestTrace α} (hown : ∀ e ∈ starts, OwnStart test e.request)
    (honce : Each AskedOnce starts) : TestRun test starts none :=
  ⟨starts, [], (List.append_nil _).symm, hown, honce, .inl ⟨rfl, rfl⟩⟩

theorem ensures_none (hfixtures : test.fixtures = []) (hnames : ParamNames test.fixtures) :
    Ensures [] (expand test).run (TestRun (α := α) test) := by
  have hrun : (expand test).run (α := α) = (expand test).finish
      ((settle 0 test.fixtures [] [] []).1, ⟨(settle 0 test.fixtures [] [] []).2, 0⟩) := by
    rw [Wrapper.run, expand, hfixtures]
    rfl
  rw [hrun]
  refine ensures_settled hnames (hfixtures ▸ rfl) (List.forall_mem_nil _) each_nil ?_
  rintro index result ⟨⟩

/-- One fixture is started by itself. -/
theorem run_one {fixture : FixtureParam} (hfixtures : test.fixtures = [fixture]) :
    (expand test).run (α := α) =
      .ask (.call (.start 0 (startExpr test.args test.args.facade fixture))) fun
        | .ok () => (expand test).finish (.ok (), ⟨boundFrom 0 [fixture] ++ [], 1⟩)
        | .error error =>
          (expand test).finish (.error (.panicked (failureText fixture error)), ⟨[], 1⟩) := by
  have hstmts : (expand test).stmts = startStacks [fixture] test.args test.args.facade := by
    rw [← hfixtures]
    rfl
  rw [Wrapper.run, hstmts]
  refine congrArg (Proc.ask _) (funext fun result => ?_)
  cases result with
  | error error => rfl
  | ok u => exact congrArg (Proc.bind · (expand test).finish) exec_bindFixture

theorem ensures_one {fixture : FixtureParam} (hfixtures : test.fixtures = [fixture])
    (hnames : ParamNames test.fixtures) :
    Ensures [] (expand test).run (TestRun (α := α) test) := by
  have hstart : OwnStart test
      (.call (.start 0 (startExpr test.args test.args.facade fixture))) :=
    .inr ⟨0, fixture, by rw [hfixtures]; rfl, .inl rfl⟩
  have hown (reply) : ∀ e ∈ [(⟨.call (.start 0 (startExpr test.args test.args.facade fixture)),
      reply⟩ : Event (Await TestCall) (Await.Answer (TestCall.Answer α)))],
      OwnStart test e.request := List.forall_mem_singleton.mpr hstart
  have honce (reply) : Each AskedOnce [(⟨.call (.start 0 (startExpr test.args test.args.facade
      fixture)), reply⟩ : Event (Await TestCall) (Await.Answer (TestCall.Answer α)))] :=
    (each_concat (h := [])).mpr ⟨each_nil, fun _ _ _ => rfl, fun _ _ hpoll => by cases hpoll⟩
  rw [run_one hfixtures]
  refine ensures_ask (pending (List.forall_mem_nil _) each_nil) (pending (hown none) (honce none))
    fun result => ?_
  have hended : ∀ index result', [result][index]? = some result' →
      StartEnded (α := α) [⟨.call (.start 0 (startExpr test.args test.args.facade fixture)),
        some result⟩] index result' := by
    intro index result' hresult
    obtain ⟨hlt, rfl⟩ := List.getElem?_eq_some_iff.mp hresult
    obtain rfl : index = 0 := Nat.lt_one_iff.mp hlt
    exact ⟨_, .inl (List.mem_singleton.mpr rfl)⟩
  have hlength : [result].length = test.fixtures.length := hfixtures ▸ rfl
  intro t o hrest
  refine ⟨_, t, rfl, hown (some result), honce (some result), .inr ⟨[result], hlength, hended, ?_⟩⟩
  cases result with
  | error error =>
    exact .failed [] fixture [] error [] [] hfixtures rfl
      (@onceEach_started [.error error] 0 error [] rfl) (runs_releaseAll hrest)
  | ok u =>
    rw [← hfixtures] at hrest
    exact concluded_passed hnames List.not_mem_nil rfl (List.forall_mem_singleton.mpr rfl) hrest

/-- A join of starts only polls them, each under its own number and not when it has ended, and ends
with all their results. -/
theorem ensures_startJoin {first : Nat} {calls : List StartCall} :
    Ensures [] (tryJoin (startJoin (α := α) first calls)) fun h o =>
      (∀ e ∈ h, e.request = .park ∨ ∃ i : Fin calls.length,
        e.request = .poll ⟨.start (first + i.val) (calls.get i), 0⟩) ∧
      Each (Unready (startJoin first calls)) h ∧
      ∀ got : Fin calls.length → Except String Unit, o = some (.ok got) → ∀ i,
        (⟨.poll ⟨.start (first + i.val) (calls.get i), 0⟩, some (some (got i))⟩ :
          Event (Await TestCall) (Await.Answer (TestCall.Answer α))) ∈ h := by
  have hinj (i i' : Fin calls.length)
      (hsame : (@startJoin α first calls).future i = (@startJoin α first calls).future i') :
      i = i' := by
    have hindex := (TestCall.start.inj (congrArg Started.call hsame)).1
    exact Fin.ext (Nat.add_left_cancel hindex)
  refine (ensures_tryJoin.and (wholly_tryJoin hinj)).mono fun h o ho => ?_
  obtain ⟨⟨starts, hstarts, hpolls, hresult⟩, starts', hsame, honce, -⟩ := ho
  obtain rfl : h = starts := hstarts
  obtain rfl : h = starts' := hsame
  refine ⟨hpolls, honce, ?_⟩
  rintro got rfl i
  obtain ⟨result, hready, hread⟩ := hresult i
  obtain rfl := Except.ok.inj hread
  exact hready

/-- Several are joined, and unwrapped once all have ended. -/
theorem ensures_several {fixture fixture' : FixtureParam} {fixtures : List FixtureParam}
    (hfixtures : test.fixtures = fixture :: fixture' :: fixtures)
    (hnames : ParamNames test.fixtures) :
    Ensures [] (expand test).run (TestRun (α := α) test) := by
  let calls := test.fixtures.map (startExpr test.args test.args.facade)
  let slots := (List.range test.fixtures.length).map startedIdent
  have hstmts : (expand test).stmts = .letJoin slots calls :: unwrapFrom 0 test.fixtures := by
    change startStacks test.fixtures test.args test.args.facade = _
    simp only [slots, calls]
    rw [hfixtures]
    rfl
  have hcalls : calls.length = test.fixtures.length := List.length_map _
  have hslots : ¬ slots.length ≠ calls.length := by
    rw [hcalls, List.length_map, List.length_range, not_not]
  have hcall (i : Fin calls.length) : ∃ fixture, test.fixtures[i.val]? = some fixture ∧
      calls.get i = startExpr test.args test.args.facade fixture := by
    have hi : i.val < test.fixtures.length := hcalls ▸ i.isLt
    exact ⟨test.fixtures[i.val], List.getElem?_eq_getElem hi, List.getElem_map _⟩
  rw [Wrapper.run, hstmts, exec, if_neg hslots, Proc.bind_assoc]
  refine ensures_bind (ensures_startJoin.mono fun h o ho => ?_)
  obtain ⟨hpolls, hunready, hresult⟩ := ho
  have hown : ∀ e ∈ h, OwnStart test e.request := by
    intro e he
    rcases hpolls e he with hpark | ⟨i, hpoll⟩
    · exact .inl hpark
    · obtain ⟨fixture, hfixture, hstart⟩ := hcall i
      rw [hstart, Nat.zero_add] at hpoll
      exact .inr ⟨i.val, fixture, hfixture, .inr hpoll⟩
  have honce : Each AskedOnce h := by
    refine fun before e after hsplit => ⟨fun index call hcalled => ?_, ?_⟩
    · rcases hpolls e (hsplit ▸ by simp) with hpark | ⟨i, hpoll⟩
      · cases hpark.symm.trans hcalled
      · cases hpoll.symm.trans hcalled
    · rintro index call hpoll result ⟨call', hended⟩
      obtain ⟨i, hown⟩ := (hpolls e (hsplit ▸ by simp)).resolve_left fun hpark => by
        cases hpark.symm.trans hpoll
      obtain ⟨hindex, rfl⟩ := TestCall.start.inj
        (congrArg Started.call (Await.poll.inj (hown.symm.trans hpoll)))
      have hmem {e' : Event (Await TestCall) (Await.Answer (TestCall.Answer α))}
          (he' : e' ∈ before) : e' ∈ h := hsplit ▸ List.mem_append_left _ he'
      rcases hended with hended | hended
      · rcases hpolls _ (hmem hended) with hpark | ⟨i', hpoll'⟩
        · cases hpark
        · cases hpoll'
      · obtain ⟨i', hpoll'⟩ := (hpolls _ (hmem hended)).resolve_left fun hpark => by cases hpark
        obtain ⟨hindex', rfl⟩ := TestCall.start.inj (congrArg Started.call (Await.poll.inj hpoll'))
        obtain rfl : i = i' := Fin.ext (Nat.add_left_cancel (hindex.trans hindex'))
        rw [hindex'] at hended
        exact hunready before e after hsplit i hown result hended
  have hjoined (got : Fin calls.length → Except String Unit)
      (hgot : ∀ i, (⟨.poll ⟨.start (0 + i.val) (calls.get i), 0⟩, some (some (got i))⟩ :
        Event (Await TestCall) (Await.Answer (TestCall.Answer α))) ∈ h) :
      Ensures h ((exec (unwrapFrom 0 test.fixtures)
        ⟨startedLocals 0 slots calls (List.ofFn got) ++ [], 0 + calls.length⟩).bind
          (expand test).finish) (TestRun test) := by
    have hlength : (List.ofFn got).length = test.fixtures.length := by
      rw [List.length_ofFn, hcalls]
    have hended : ∀ index result, (List.ofFn got)[index]? = some result →
        StartEnded h index result := by
      intro index result hresult
      obtain ⟨hlt, rfl⟩ := List.getElem?_eq_some_iff.mp hresult
      rw [List.length_ofFn] at hlt
      have hmem := hgot ⟨index, hlt⟩
      rw [Nat.zero_add] at hmem
      rw [List.getElem_ofFn]
      exact ⟨_, .inr hmem⟩
    have hlocals : startedLocals 0 slots calls (List.ofFn got) =
        slotsFrom 0 test.fixtures (List.ofFn got) := by
      simp only [slots, calls, List.range_eq_range']
      exact startedLocals_eq hlength
    have hexec := @exec_unwrapFrom α test.fixtures (List.ofFn got) 0 [] [] (0 + calls.length)
      hlength (fun _ _ => List.not_mem_nil) hnames
    rw [List.nil_append] at hexec
    rw [hlocals, hexec]
    exact ensures_settled hnames hlength hown honce hended
  rcases o with _ | never | got
  · exact pending hown honce
  · cases never
  · exact hjoined got (hresult got rfl)

theorem ensures_run (hnames : ParamNames test.fixtures) :
    Ensures [] (expand test).run (TestRun (α := α) test) := by
  rcases hfixtures : test.fixtures with _ | ⟨fixture, _ | ⟨fixture', fixtures⟩⟩
  · exact ensures_none hfixtures hnames
  · exact ensures_one hfixtures hnames
  · exact ensures_several hfixtures hnames

end Starts

section Accepted
variable {parsePath : String → Except String Path} {pairs : List MetaNameValue} {item : ItemFn}
  {test : TestFn}

theorem Requests.ident {name : Ident} {ty : Ty} {fixture : FixtureParam}
    (hrequests : Requests name ty fixture) : fixture.ident = name := by
  cases hrequests <;> rfl

/-- An accepted test's parameters are free of the invented names, but for a raw identifier that
stands for one: its spelling does not begin with the prefix. -/
theorem accepted_free (hparse : parse parsePath pairs item = .ok test) {fixture : FixtureParam}
    (hmem : fixture ∈ test.fixtures)
    (hraw : fixture.ident.raw = true → ¬ RESERVED_PREFIX.toList <+: fixture.ident.text.toList) :
    ¬ RESERVED_PREFIX.toList <+: fixture.ident.text.toList := by
  obtain ⟨-, -, -, -, -, hinputs, -⟩ := parse_ok_iff.mp hparse
  obtain ⟨i, hi, hget⟩ := List.getElem_of_mem hmem
  obtain ⟨name, ty, -, hfree, hrequests⟩ := hinputs.get (hinputs.length_eq ▸ hi) hi
  cases hname : fixture.ident.raw with
  | true => exact hraw hname
  | false =>
    rw [List.get_eq_getElem, hget] at hrequests
    rw [← hrequests.ident, Ident.spelling, hname] at hfree
    exact hfree

end Accepted

/-- A raw identifier that stands for the inner function's name is accepted, and hides it: the body
never runs. -/
theorem raw_innerName_hides {test : TestFn} {fixture : FixtureParam} {h : TestTrace α}
    {result : Except Halt α} (hfixtures : test.fixtures = [fixture])
    (hname : fixture.ident = ⟨true, innerName.text⟩)
    (hrun : Runs (expand test).run h (some result)) :
    ¬ RESERVED_PREFIX.toList <+: fixture.ident.spelling.toList ∧
      (result = .error .illFormed ∨
        ∃ error, result = .error (.panicked (failureText fixture error))) := by
  refine ⟨by rw [hname]; decide, ?_⟩
  rw [run_one hfixtures] at hrun
  obtain ⟨reply, t, rfl, hrest⟩ := hrun.of_ask
  cases reply with
  | error error => exact .inr ⟨error, ((runs_releaseAll hrest).ends _ rfl).1⟩
  | ok u =>
    have hhidden : innerName.text ∈ names (boundFrom 0 [fixture] ++ []) := by
      simp [boundFrom, boundFixture, names, hname]
    have hfinish : (expand test).finish (α := α) (.ok (), ⟨boundFrom 0 [fixture] ++ [], 1⟩) =
        leave (boundFrom 0 [fixture] ++ []) (.error .illFormed) := if_pos (.inl hhidden)
    have hleave : Runs (leave (boundFrom 0 [fixture] ++ []) (.error .illFormed)) t
        (some result) := by
      rw [← hfinish]
      exact hrest
    exact .inl ((runs_releaseAll hleave).ends _ rfl).1

section Golden

def plainName (text : String) : Ident := ⟨false, text⟩

def bitcoinMarker : Path := plainPath false ["Bitcoin"]

/-- A test with one Bitcoin client. -/
def clientItem : ItemFn where
  attrs := []
  vis := ""
  sig := {
    asyncness := true
    ident := plainName "a_test"
    genericParams := []
    whereClause := none
    inputs := [.typed (.ident (plainName "bitcoin")) (.path false [.mk (plainName "NigiriClient")
      (.angleBracketed [.type (.path false bitcoinMarker.segments)])])]
    output := "" }
  block := ""

def clientTest : TestFn := ⟨clientItem, [.client (plainName "bitcoin") bitcoinMarker], {}⟩

theorem parse_clientItem : parse (fun _ => .error "no path") [] clientItem = .ok clientTest := by
  refine parse_ok_iff.mpr ⟨List.forall_mem_nil _, rfl, rfl, rfl, rfl, ?_, .inr
    (List.forall_mem_nil _), rfl⟩
  refine .cons ⟨plainName "bitcoin", _, rfl, by decide, ?_⟩ .nil
  exact .client (plainName "NigiriClient") false bitcoinMarker.segments [] ⟨false, [], rfl⟩ rfl

/-- The start, the body and the release of the handle. -/
def clientRun : TestTrace Unit :=
  [⟨.call (.start 0 (startExpr {} (MacroArgs.facade {}) (.client (plainName "bitcoin")
      bitcoinMarker))), some (.ok ())⟩,
    ⟨.call (.body [.client 0 bitcoinMarker]), some (.ok ())⟩,
    ⟨.call (.release 0), some ()⟩]

theorem clientTest_names : ParamNames clientTest.fixtures :=
  ⟨List.nodup_singleton _, List.forall_mem_singleton.mpr (by decide)⟩

theorem runs_clientTest : Runs (expand clientTest).run clientRun (some (.ok ())) := by
  rw [run_one rfl]
  refine runs_ask ?_
  have hfinish := @finish_ok Unit clientTest [] 1 clientTest_names List.not_mem_nil rfl
  change Runs ((expand clientTest).finish _) _ _
  refine (congrArg (Runs · _ _) hfinish).mpr ?_
  exact runs_ask (runs_ask (runs_done _))

end Golden

end Nigiri.Macros
