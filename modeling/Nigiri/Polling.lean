import Mathlib.Data.Fintype.Basic
import Mathlib.Logic.Function.Basic
import Nigiri.AnsweredRuns

/-! Tasks that wait for several requests at once: a biased selection among futures, and a join
that ends with the first error. The environment decides at each poll which future is ready. -/
namespace Nigiri.Polling
open Nigiri.Process
variable {Q : Type} {R : Q → Type} {α β ε : Type}

/-- A future of a task: the request it stands for, and the round that started it. -/
structure Started (Q : Type) where
  call : Q
  round : Nat
  deriving DecidableEq

/-- A task awaits a request to its end, polls a future once, or sleeps until it is woken. -/
inductive Await (Q : Type) where
  | call (q : Q)
  | poll (f : Started Q)
  | park

abbrev Await.Answer (R : Q → Type) : Await Q → Type
  | .call q => R q
  | .poll f => Option (R f.call)
  | .park => Unit

abbrev Task (R : Q → Type) := Proc (Await Q) (Await.Answer R)

abbrev TaskTrace (R : Q → Type) := Trace (Await Q) (Await.Answer R)

/-- A step whose error is returned at once. -/
def tryBind {γ : Type} (p : Task R (Except ε α)) (k : α → Task R (Except ε γ)) :
    Task R (Except ε γ) :=
  p.bind fun
    | .error e => .done (.error e)
    | .ok a => k a

theorem tryBind_assoc {β γ : Type} {p : Task R (Except ε α)} {k : α → Task R (Except ε β)}
    {l : β → Task R (Except ε γ)} :
    tryBind (tryBind p k) l = tryBind p fun a => tryBind (k a) l := by
  rw [tryBind, tryBind, Proc.bind_assoc]
  refine congrArg p.bind (funext fun result => ?_)
  cases result <;> rfl

/-- A branch of a selection: its future, its precondition, and what its result is made into. -/
structure Branch (R : Q → Type) (β : Type) where
  future : Started Q
  enabled : Bool
  handler : R future.call → β

/-- The enabled branches are polled in order, up to the first that is ready. -/
def pollPass : List (Branch R β) → Task R (Unit ⊕ β)
  | [] => .ask .park fun () => .done (.inl ())
  | b :: bs =>
    if b.enabled then
      .ask (.poll b.future) fun
        | some r => .done (.inr (b.handler r))
        | none => pollPass bs
    else pollPass bs

/-- The result of the branch that was taken; with every branch disabled there is none, and the
selection panics. -/
def select (bs : List (Branch R β)) : Task R (Option β) :=
  if bs.any Branch.enabled then .loop (fun () => pollPass bs) () fun b => .done (some b)
  else .done none

/-- A future that is polled until it is ready. -/
def finish (f : Started Q) : Task R (R f.call) :=
  .loop (fun () => .ask (.poll f) fun
    | some r => .done (.inr r)
    | none => .ask .park fun () => .done (.inl ())) () .done

/-- Several futures, by the names the task has for them. -/
structure Joined (R : Q → Type) (ε : Type) where
  Name : Type
  Out : Name → Type
  future : Name → Started Q
  read : (p : Name) → R (future p).call → Except ε (Out p)
  order : List Name

section Join
variable (j : Joined R ε) [DecidableEq j.Name] [Fintype j.Name]

/-- What has not been ready before is polled, up to the first error. -/
def joinPass : List j.Name → ((p : j.Name) → Option (j.Out p)) →
    Task R (Except ε ((p : j.Name) → Option (j.Out p)))
  | [], got => .done (.ok got)
  | p :: ps, got =>
    if (got p).isSome then joinPass ps got
    else .ask (.poll (j.future p)) fun
      | none => joinPass ps got
      | some r =>
        match j.read p r with
        | .error e => .done (.error e)
        | .ok out => joinPass ps (Function.update got p (some out))

/-- Every pass starts with the next name in turn. -/
def tryJoin : Task R (Except ε ((p : j.Name) → j.Out p)) :=
  .loop (fun (state : Nat × ((p : j.Name) → Option (j.Out p))) =>
    (joinPass j (j.order.rotate state.1) state.2).bind fun
      | .error e => .done (.inr (.error e))
      | .ok got =>
        if h : ∀ p, (got p).isSome then .done (.inr (.ok fun p => (got p).get (h p)))
        else .ask .park fun () => .done (.inl (state.1 + 1, got)))
    (0, fun _ => none) .done

end Join

theorem ready_inj {f : Started Q} {r r' : R f.call}
    (h : (⟨.poll f, some (some r)⟩ : Event (Await Q) (Await.Answer R)) =
      ⟨.poll f, some (some r')⟩) :
    r = r' := by
  cases h
  rfl

section Runs
variable {S : Started Q → Prop} {h t : TaskTrace R}

/-- A poll of one of some futures that was not ready, or a sleep. -/
def Idle (S : Started Q → Prop) : Event (Await Q) (Await.Answer R) → Prop
  | ⟨.poll f, reply⟩ => S f ∧ ∀ r, reply ≠ some (some r)
  | ⟨.park, _⟩ => True
  | ⟨.call _, _⟩ => False

def AllIdle (S : Started Q → Prop) (t : TaskTrace R) : Prop := ∀ e ∈ t, Idle S e

theorem AllIdle.nil : AllIdle S ([] : TaskTrace R) := fun _ he => by cases he

theorem AllIdle.concat {e : Event (Await Q) (Await.Answer R)} (ht : AllIdle S t) (he : Idle S e) :
    AllIdle S (t ++ [e]) := by
  intro e' he'
  rcases List.mem_append.mp he' with hbefore | hlast
  · exact ht e' hbefore
  · exact List.mem_singleton.mp hlast ▸ he

/-- Idle events are justified when every idle history leaves their requests so. -/
theorem each_idle {P : TaskTrace R → Await Q → Prop} (hall : Each P h) (ht : AllIdle S t)
    (hpoll : ∀ t' f, AllIdle S t' → S f → P (h ++ t') (.poll f))
    (hpark : ∀ t', AllIdle S t' → P (h ++ t') .park) : Each P (h ++ t) := by
  refine hall.append fun before e after hsplit => ?_
  have hbefore : AllIdle S before := fun e' he' => ht e' (by rw [hsplit]; simp [he'])
  have he : Idle S e := ht e (by rw [hsplit]; simp)
  obtain ⟨request, reply⟩ := e
  cases request with
  | poll f => exact hpoll before f hbefore he.1
  | park => exact hpark before hbefore
  | call q => exact he.elim

/-- A branch that a selection may take has this future. -/
def Live (bs : List (Branch R β)) (f : Started Q) : Prop :=
  ∃ b ∈ bs, b.enabled = true ∧ b.future = f

/-- Since the task last slept, it has polled this future in vain. -/
def PolledSince (t : TaskTrace R) (f : Started Q) : Prop :=
  ∃ before after, t = before ++ ⟨.poll f, some none⟩ :: after ∧ ∀ e ∈ after, e.request ≠ .park

/-- It never sleeps before it has polled each of these. -/
def Attentive (S : Started Q → Prop) (t : TaskTrace R) : Prop :=
  Each (fun before q => q = .park → ∀ f, S f → PolledSince before f) t

theorem PolledSince.append {f : Started Q} (ht : PolledSince t f) (h : TaskTrace R) :
    PolledSince (h ++ t) f := by
  obtain ⟨before, after, rfl, hawake⟩ := ht
  exact ⟨h ++ before, after, (List.append_assoc ..).symm, hawake⟩

theorem PolledSince.concat {f : Started Q} {e : Event (Await Q) (Await.Answer R)}
    (ht : PolledSince t f) (he : e.request ≠ .park) : PolledSince (t ++ [e]) f := by
  obtain ⟨before, after, rfl, hawake⟩ := ht
  refine ⟨before, after ++ [e], by simp, fun e' he' => ?_⟩
  rcases List.mem_append.mp he' with hbefore | hlast
  · exact hawake e' hbefore
  · exact List.mem_singleton.mp hlast ▸ he

theorem Attentive.poll (ht : Attentive S t) {f : Started Q} (reply : Option (Option (R f.call))) :
    Attentive S (t ++ [⟨.poll f, reply⟩]) := each_concat.mpr ⟨ht, fun hpark => by cases hpark⟩

theorem Attentive.park (ht : Attentive S t) (hall : ∀ f, S f → PolledSince t f)
    (reply : Option Unit) : Attentive S (t ++ [⟨.park, reply⟩]) :=
  each_concat.mpr ⟨ht, fun _ => hall⟩

/-- Idle events of a task that is attentive find each of the futures polled when it sleeps. -/
theorem each_attentive {P : TaskTrace R → Await Q → Prop} (hall : Each P h) (ht : AllIdle S t)
    (hs : Attentive S t) (hpoll : ∀ t' f, AllIdle S t' → S f → P (h ++ t') (.poll f))
    (hpark : ∀ t', AllIdle S t' → (∀ f, S f → PolledSince t' f) → P (h ++ t') .park) :
    Each P (h ++ t) := by
  refine hall.append fun before e after hsplit => ?_
  have hbefore : AllIdle S before := fun e' he' => ht e' (by rw [hsplit]; simp [he'])
  have he : Idle S e := ht e (by rw [hsplit]; simp)
  have hswept := hs before e after hsplit
  obtain ⟨request, reply⟩ := e
  cases request with
  | poll f => exact hpoll before f hbefore he.1
  | park => exact hpark before hbefore (hswept rfl)
  | call q => exact he.elim

/-- What a selection does after `h`: idle events, and at last the poll that decides. -/
inductive Selected (bs : List (Branch R β)) (h : TaskTrace R) :
    TaskTrace R → Option (Option β) → Prop where
  | idle {t : TaskTrace R} (ht : AllIdle (Live bs) t) (hs : Attentive (Live bs) t) :
    Selected bs h (h ++ t) none
  | ready {t : TaskTrace R} {o : Option (Option β)} (b : Branch R β) (r : R b.future.call)
    (ht : AllIdle (Live bs) t) (hb : b ∈ bs) (henabled : b.enabled = true)
    (ho : o = none ∨ o = some (some (b.handler r))) (hs : Attentive (Live bs) t) :
    Selected bs h (h ++ t ++ [⟨.poll b.future, some (some r)⟩]) o

/-- One pass over the branches that are left; the others have been polled in vain. -/
theorem ensures_pollPass {bs : List (Branch R β)} :
    ∀ {bs' : List (Branch R β)} {t : TaskTrace R}, bs' ⊆ bs → AllIdle (Live bs) t →
      Attentive (Live bs) t →
      (∀ b ∈ bs, b.enabled = true → b ∈ bs' ∨ PolledSince t b.future) →
      Ensures (h ++ t) (pollPass bs') (Again (fun h' _ => ∃ t', h' = h ++ t' ∧
        AllIdle (Live bs) t' ∧ Attentive (Live bs) t')
        (fun b => (.done (some b) : Task R _)) (Selected bs h))
  | [], t, _, ht, hs, hleft => by
    have hall : ∀ f, Live bs f → PolledSince t f := by
      rintro _ ⟨b, hb, henabled, rfl⟩
      exact (hleft b hb henabled).resolve_left List.not_mem_nil
    have hparked (reply) : AllIdle (Live bs) (t ++ [⟨.park, reply⟩]) := ht.concat trivial
    refine ensures_ask (.idle ht hs) ?_ fun () => ?_
    · rw [List.append_assoc]
      exact .idle (hparked none) (hs.park hall none)
    · rw [List.append_assoc]
      exact ensures_done (.idle (hparked _) (hs.park hall _)) ⟨_, rfl, hparked _, hs.park hall _⟩
  | b :: bs', t, hsub, ht, hs, hleft => by
    have hb : b ∈ bs := hsub List.mem_cons_self
    have hsub' : bs' ⊆ bs := fun b' hb' => hsub (List.mem_cons_of_mem _ hb')
    rw [pollPass]
    split
    next henabled =>
      have hlive : Live bs b.future := ⟨b, hb, henabled, rfl⟩
      refine ensures_ask (.idle ht hs) ?_ fun r => ?_
      · rw [List.append_assoc]
        exact .idle (ht.concat ⟨hlive, fun r hr => by cases hr⟩) (hs.poll none)
      · cases r with
        | none =>
          rw [List.append_assoc]
          refine ensures_pollPass hsub' (ht.concat ⟨hlive, fun r hr => by cases hr⟩) (hs.poll _)
            fun b' hb' henabled' => ?_
          rcases hleft b' hb' henabled' with hmem | hpolled
          · rcases List.mem_cons.mp hmem with rfl | hlater
            · exact .inr ⟨t, [], rfl, fun _ he => by cases he⟩
            · exact .inl hlater
          · exact .inr (hpolled.concat fun hpark => by cases hpark)
        | some r =>
          refine ensures_done (.ready b r ht hb henabled (.inl rfl) hs) ?_
          exact ensures_done (.ready b r ht hb henabled (.inl rfl) hs)
            (.ready b r ht hb henabled (.inr rfl) hs)
    next hdisabled =>
      refine ensures_pollPass hsub' ht hs fun b' hb' henabled' => ?_
      refine (hleft b' hb' henabled').imp_left fun hmem => ?_
      rcases List.mem_cons.mp hmem with rfl | hlater
      · exact absurd henabled' hdisabled
      · exact hlater

/-- A selection with an enabled branch never panics. -/
theorem ensures_select {bs : List (Branch R β)} (hlive : bs.any Branch.enabled = true) :
    Ensures h (select bs) (Selected bs h) := by
  rw [select, if_pos hlive]
  refine ensures_loop (fun h' _ => ∃ t, h' = h ++ t ∧ AllIdle (Live bs) t ∧
    Attentive (Live bs) t) ?_ ⟨[], (List.append_nil h).symm, .nil, each_nil⟩
  rintro _ ⟨⟩ ⟨t, rfl, ht, hs⟩
  exact ensures_pollPass (List.Subset.refl bs) ht hs fun b hb _ => .inl hb

theorem runs_select {bs : List (Branch R β)} {b : β} (hlive : bs.any Branch.enabled = true)
    (hpass : Runs (pollPass bs) t (some (.inr b))) : Runs (select bs) t (some (some b)) := by
  rw [select, if_pos hlive, ← List.append_nil t]
  exact .leave hpass ⟨rfl, .inr rfl⟩

/-- Polling one future to its end. -/
theorem ensures_finish (f : Started Q) : Ensures h (finish f) fun h' o =>
    ∃ t, AllIdle (· = f) t ∧ ((h' = h ++ t ∧ o = none) ∨
      ∃ r, h' = h ++ t ++ [⟨.poll f, some (some r)⟩] ∧ (o = none ∨ o = some r)) := by
  refine ensures_loop (fun h' _ => ∃ t, h' = h ++ t ∧ AllIdle (· = f) t) ?_
    ⟨[], (List.append_nil h).symm, .nil⟩
  rintro _ ⟨⟩ ⟨t, rfl, ht⟩
  have hpolled (reply : Option (Option (R f.call))) (hreply : ∀ r, reply ≠ some (some r)) :
      AllIdle (· = f) (t ++ [⟨.poll f, reply⟩]) := ht.concat ⟨rfl, hreply⟩
  refine ensures_ask ⟨t, ht, .inl ⟨rfl, rfl⟩⟩ ?_ fun r => ?_
  · rw [List.append_assoc]
    exact ⟨_, hpolled none (fun r hr => by cases hr), .inl ⟨rfl, rfl⟩⟩
  · cases r with
    | some r =>
      refine ensures_done ⟨t, ht, .inr ⟨r, rfl, .inl rfl⟩⟩ ?_
      exact .leave (ensures_done ⟨t, ht, .inr ⟨r, rfl, .inl rfl⟩⟩ ⟨t, ht, .inr ⟨r, rfl, .inr rfl⟩⟩)
    | none =>
      have hnone := hpolled (some none) fun r hr => by cases hr
      have hparked (reply) := hnone.concat (e := ⟨.park, reply⟩) trivial
      rw [List.append_assoc]
      refine ensures_ask ⟨_, hnone, .inl ⟨rfl, rfl⟩⟩ ?_ fun () => ?_
      · rw [List.append_assoc]
        exact ⟨_, hparked none, .inl ⟨rfl, rfl⟩⟩
      · rw [List.append_assoc]
        exact ensures_done ⟨_, hparked _, .inl ⟨rfl, rfl⟩⟩ ⟨_, rfl, hparked _⟩

/-- A step whose error is returned must ensure the result for the error, and else go on. -/
def TryAfter {γ : Type} (k : α → Task R (Except ε γ))
    (Φ : TaskTrace R → Option (Except ε γ) → Prop) :
    TaskTrace R → Option (Except ε α) → Prop
  | h, none => Φ h none
  | h, some (.error e) => Φ h none ∧ Φ h (some (.error e))
  | h, some (.ok a) => Ensures h (k a) Φ

theorem ensures_tryBind {γ : Type} {p : Task R (Except ε α)} {k : α → Task R (Except ε γ)}
    {Φ : TaskTrace R → Option (Except ε γ) → Prop} (hp : Ensures h p (TryAfter k Φ)) :
    Ensures h (tryBind p k) Φ := by
  refine ensures_bind (hp.mono fun h' o ho => ?_)
  match o with
  | none => exact ho
  | some (.error e) => exact ensures_done ho.1 ho.2
  | some (.ok a) => exact ho

theorem runs_tryBind {γ : Type} {p : Task R (Except ε α)} {k : α → Task R (Except ε γ)}
    {c : γ} (hrun : Runs (tryBind p k) t (some (.ok c))) :
    ∃ a t₁ t₂, t = t₁ ++ t₂ ∧ Runs p t₁ (some (.ok a)) ∧ Runs (k a) t₂ (some (.ok c)) := by
  obtain ⟨result, t₁, t₂, rfl, hp, hk⟩ := hrun.of_bind
  cases result with
  | error e => cases hk.of_done.2
  | ok a => exact ⟨a, t₁, t₂, rfl, hp, hk⟩

end Runs

section JoinRuns
variable {j : Joined R ε} {h : TaskTrace R}

/-- One of the joined futures was ready with this reply. -/
def Ready (j : Joined R ε) (t : TaskTrace R) (p : j.Name) (r : R (j.future p).call) : Prop :=
  (⟨.poll (j.future p), some (some r)⟩ : Event (Await Q) (Await.Answer R)) ∈ t

/-- The events of a join are polls of its futures, and sleeps. -/
def Polls (j : Joined R ε) (t : TaskTrace R) : Prop :=
  ∀ e ∈ t, e.request = .park ∨ ∃ p, e.request = .poll (j.future p)

/-- Every result so far was read from a reply. -/
def Gathered (j : Joined R ε) (t : TaskTrace R) (got : (p : j.Name) → Option (j.Out p)) : Prop :=
  ∀ p out, got p = some out → ∃ r, Ready j t p r ∧ j.read p r = .ok out

/-- A join has only polled its futures; it ends with the error of one, or with what `good` says
of its results. -/
def JoinPost (j : Joined R ε) (good : TaskTrace R → β → Prop) (h h' : TaskTrace R)
    (o : Option (Except ε β)) : Prop :=
  ∃ t, h' = h ++ t ∧ Polls j t ∧ match o with
    | none => True
    | some (.error e) => ∃ p r, Ready j t p r ∧ j.read p r = .error e
    | some (.ok b) => good t b

theorem Polls.concat {t : TaskTrace R} {e : Event (Await Q) (Await.Answer R)} (ht : Polls j t)
    (he : e.request = .park ∨ ∃ p, e.request = .poll (j.future p)) : Polls j (t ++ [e]) := by
  intro e' he'
  rcases List.mem_append.mp he' with hbefore | hlast
  · exact ht e' hbefore
  · exact List.mem_singleton.mp hlast ▸ he

theorem Gathered.append {t : TaskTrace R} {got : (p : j.Name) → Option (j.Out p)}
    (hgot : Gathered j t got) (t' : TaskTrace R) : Gathered j (t ++ t') got := by
  intro p out hp
  obtain ⟨r, hr, hread⟩ := hgot p out hp
  exact ⟨r, List.mem_append_left _ hr, hread⟩

/-- None of the joined futures was ready with an error. -/
def Unfailed (j : Joined R ε) (t : TaskTrace R) : Prop :=
  ∀ p r e, Ready j t p r → j.read p r ≠ .error e

/-- Nothing has been asked for behind an error, and a result comes without one. -/
def FailFast (j : Joined R ε) (h h' : TaskTrace R) (o : Option (Except ε β)) : Prop :=
  ∃ t, h' = h ++ t ∧ Each (fun before _ => Unfailed j before) t ∧
    ∀ b, o = some (.ok b) → Unfailed j t

theorem Unfailed.concat {t : TaskTrace R} {e : Event (Await Q) (Await.Answer R)}
    (ht : Unfailed j t) (he : ∀ p r error, e = ⟨.poll (j.future p), some (some r)⟩ →
      j.read p r ≠ .error error) : Unfailed j (t ++ [e]) := by
  intro p r error hready
  obtain hbefore | hlast := List.mem_append.mp hready
  · exact ht p r error hbefore
  · exact he p r error (List.mem_singleton.mp hlast).symm

variable [DecidableEq j.Name]

theorem ensures_joinPass : ∀ (ps : List j.Name) {t : TaskTrace R}
    {got : (p : j.Name) → Option (j.Out p)}, Polls j t → Gathered j t got →
    Ensures (h ++ t) (joinPass j ps got) (JoinPost j (Gathered j) h)
  | [], t, got, ht, hgot => ensures_done ⟨t, rfl, ht, trivial⟩ ⟨t, rfl, ht, hgot⟩
  | p :: ps, t, got, ht, hgot => by
    rw [joinPass]
    split
    next => exact ensures_joinPass ps ht hgot
    next =>
      have hpolled (reply) : Polls j (t ++ [⟨.poll (j.future p), reply⟩]) :=
        ht.concat (.inr ⟨p, rfl⟩)
      refine ensures_ask ⟨t, rfl, ht, trivial⟩ ⟨_, List.append_assoc .., hpolled none, trivial⟩
        fun reply => ?_
      rw [List.append_assoc]
      cases reply with
      | none => exact ensures_joinPass ps (hpolled _) (hgot.append _)
      | some r =>
        have hready : Ready j (t ++ [⟨.poll (j.future p), some (some r)⟩]) p r :=
          List.mem_concat_self
        cases hread : j.read p r with
        | error e =>
          simp only [hread]
          exact ensures_done ⟨_, rfl, hpolled _, trivial⟩ ⟨_, rfl, hpolled _, p, r, hready, hread⟩
        | ok out =>
          simp only [hread]
          refine ensures_joinPass ps (hpolled _) fun p' out' hp' => ?_
          by_cases hsame : p' = p
          · subst hsame
            rw [Function.update_self] at hp'
            obtain rfl := Option.some.inj hp'
            exact ⟨r, hready, hread⟩
          · rw [Function.update_of_ne hsame] at hp'
            exact hgot.append _ p' out' hp'

/-- A join succeeds only with what each of its futures has replied. -/
theorem ensures_tryJoin [Fintype j.Name] : Ensures h (tryJoin j)
    (JoinPost j (fun t outs => ∀ p, ∃ r, Ready j t p r ∧ j.read p r = .ok (outs p)) h) := by
  refine ensures_loop (fun h' (state : Nat × ((p : j.Name) → Option (j.Out p))) =>
    ∃ t, h' = h ++ t ∧ Polls j t ∧ Gathered j t state.2) ?_
    ⟨[], (List.append_nil h).symm, (fun _ he => by cases he), fun _ _ hp => by cases hp⟩
  rintro _ ⟨skip, got⟩ ⟨t, rfl, ht, hgot⟩
  refine ensures_bind ((ensures_joinPass _ ht hgot).mono fun h' o ho => ?_)
  obtain ⟨t', rfl, ht', hresult⟩ := ho
  match o with
  | none => exact ⟨t', rfl, ht', trivial⟩
  | some (.error e) =>
    simp only [After]
    refine ensures_done ⟨t', rfl, ht', trivial⟩ (ensures_done ⟨t', rfl, ht', trivial⟩ ?_)
    exact ⟨t', rfl, ht', hresult⟩
  | some (.ok got') =>
    have hgathered : Gathered j t' got' := hresult
    simp only [After]
    split
    next hall =>
      refine ensures_done ⟨t', rfl, ht', trivial⟩ (ensures_done ⟨t', rfl, ht', trivial⟩ ?_)
      refine ⟨t', rfl, ht', fun p => ?_⟩
      exact hgathered p _ (Option.some_get (hall p)).symm
    next =>
      have hparked (reply) : Polls j (t' ++ [⟨.park, reply⟩]) := ht'.concat (.inl rfl)
      refine ensures_ask ⟨t', rfl, ht', trivial⟩
        ⟨_, List.append_assoc .., hparked none, trivial⟩ fun () => ?_
      rw [List.append_assoc]
      exact ensures_done ⟨_, rfl, hparked _, trivial⟩ ⟨_, rfl, hparked _, hgathered.append _⟩

theorem failFast_joinPass (hinj : ∀ p p', j.future p = j.future p' → p = p') :
    ∀ (ps : List j.Name) {t : TaskTrace R} {got : (p : j.Name) → Option (j.Out p)},
    Each (fun before _ => Unfailed j before) t → Unfailed j t →
    Ensures (h ++ t) (joinPass j ps got) (FailFast j h)
  | [], t, got, hall, ht => ensures_done ⟨t, rfl, hall, fun _ hb => by cases hb⟩
      ⟨t, rfl, hall, fun _ _ => ht⟩
  | p :: ps, t, got, hall, ht => by
    rw [joinPass]
    split
    next => exact failFast_joinPass hinj ps hall ht
    next =>
      have hasked (reply) : Each (fun before _ => Unfailed j before)
          (t ++ [⟨.poll (j.future p), reply⟩]) := each_concat.mpr ⟨hall, ht⟩
      refine ensures_ask ⟨t, rfl, hall, fun _ hb => by cases hb⟩
        ⟨_, List.append_assoc .., hasked none, fun _ hb => by cases hb⟩ fun reply => ?_
      rw [List.append_assoc]
      cases reply with
      | none =>
        refine failFast_joinPass hinj ps (hasked _) (ht.concat fun p' r error hsame => ?_)
        obtain rfl := hinj p p' (Await.poll.inj (congrArg Event.request hsame))
        cases hsame
      | some r =>
        cases hread : j.read p r with
        | error e =>
          simp only [hread]
          exact ensures_done ⟨_, rfl, hasked _, fun _ hb => by cases hb⟩
            ⟨_, rfl, hasked _, fun _ hb => by cases hb⟩
        | ok out =>
          simp only [hread]
          refine failFast_joinPass hinj ps (hasked _) (ht.concat fun p' r' error hsame => ?_)
          obtain rfl := hinj p p' (Await.poll.inj (congrArg Event.request hsame))
          obtain rfl := ready_inj hsame
          rw [hread]
          exact fun hbad => by cases hbad

/-- A join polls nothing any more once one of its futures has failed. -/
theorem failFast_tryJoin [Fintype j.Name] (hinj : ∀ p p', j.future p = j.future p' → p = p') :
    Ensures h (tryJoin j) (FailFast j h) := by
  refine ensures_loop (fun h' (_ : Nat × ((p : j.Name) → Option (j.Out p))) =>
    ∃ t, h' = h ++ t ∧ Each (fun before _ => Unfailed j before) t ∧ Unfailed j t) ?_
    ⟨[], (List.append_nil h).symm, each_nil, fun _ _ _ hr => by cases hr⟩
  rintro _ ⟨skip, got⟩ ⟨t, rfl, hall, ht⟩
  refine ensures_bind ((failFast_joinPass hinj _ hall ht).mono fun h' o ho => ?_)
  obtain ⟨t', rfl, hall', hresult⟩ := ho
  have hnow : FailFast j h (h ++ t') (none : Option (Except ε ((p : j.Name) → j.Out p))) :=
    ⟨t', rfl, hall', fun _ hb => by cases hb⟩
  rcases o with _ | e | got'
  · exact hnow
  · exact ensures_done hnow (ensures_done hnow ⟨t', rfl, hall', fun _ hb => by cases hb⟩)
  · have ht' := hresult got' rfl
    simp only [After]
    split
    next => exact ensures_done hnow (ensures_done hnow ⟨t', rfl, hall', fun _ _ => ht'⟩)
    next =>
      have hparked (reply) : Each (fun before _ => Unfailed j before) (t' ++ [⟨.park, reply⟩]) :=
        each_concat.mpr ⟨hall', ht'⟩
      refine ensures_ask hnow ⟨_, List.append_assoc .., hparked none, fun _ hb => by cases hb⟩
        fun () => ?_
      rw [List.append_assoc]
      refine ensures_done ⟨_, rfl, hparked _, fun _ hb => by cases hb⟩ ⟨_, rfl, hparked _, ?_⟩
      exact ht'.concat fun p r error hsame => by cases hsame

/-- Every reply that came was read into a result. -/
def ReadAll (j : Joined R ε) (t : TaskTrace R) (got : (p : j.Name) → Option (j.Out p)) : Prop :=
  ∀ p r, Ready j t p r → ∃ out, got p = some out ∧ j.read p r = .ok out

omit [DecidableEq j.Name] in
theorem ReadAll.concat {t : TaskTrace R} {got : (p : j.Name) → Option (j.Out p)}
    (ht : ReadAll j t got) {e : Event (Await Q) (Await.Answer R)}
    (he : ∀ p r, e ≠ ⟨.poll (j.future p), some (some r)⟩) : ReadAll j (t ++ [e]) got := by
  intro p r hready
  obtain hbefore | hlast := List.mem_append.mp hready
  · exact ht p r hbefore
  · exact absurd (List.mem_singleton.mp hlast).symm (he p r)

/-- A future that was ready is not polled again. -/
def Unready (j : Joined R ε) (before : TaskTrace R) (q : Await Q) : Prop :=
  ∀ p, q = .poll (j.future p) → ∀ r, ¬ Ready j before p r

/-- No reply of a future comes twice, and what a join comes to, it comes to with all of them. -/
def Wholly (j : Joined R ε) (good : TaskTrace R → β → Prop) (h h' : TaskTrace R)
    (o : Option (Except ε β)) : Prop :=
  ∃ t, h' = h ++ t ∧ Each (Unready j) t ∧ ∀ b, o = some (.ok b) → good t b

theorem wholly_joinPass (hinj : ∀ p p', j.future p = j.future p' → p = p') :
    ∀ (ps : List j.Name) {t : TaskTrace R} {got : (p : j.Name) → Option (j.Out p)},
    Each (Unready j) t → ReadAll j t got →
    Ensures (h ++ t) (joinPass j ps got) (Wholly j (ReadAll j) h)
  | [], t, got, hall, ht => by
    refine ensures_done ⟨t, rfl, hall, fun _ hb => (by cases hb)⟩ ⟨t, rfl, hall, fun b hb => ?_⟩
    cases hb
    exact ht
  | p :: ps, t, got, hall, ht => by
    rw [joinPass]
    split
    next => exact wholly_joinPass hinj ps hall ht
    next hopen =>
      have hunready : Unready j t (.poll (j.future p)) := by
        intro p' hsame r hready
        obtain rfl := hinj p p' (Await.poll.inj hsame)
        obtain ⟨out, hgot, -⟩ := ht p r hready
        exact hopen (by rw [hgot]; rfl)
      have hasked (reply) : Each (Unready j) (t ++ [⟨.poll (j.future p), reply⟩]) :=
        each_concat.mpr ⟨hall, hunready⟩
      refine ensures_ask ⟨t, rfl, hall, fun _ hb => (by cases hb)⟩
        ⟨_, List.append_assoc .., hasked none, fun _ hb => (by cases hb)⟩ fun reply => ?_
      rw [List.append_assoc]
      cases reply with
      | none =>
        refine wholly_joinPass hinj ps (hasked _) (ht.concat fun p' r hsame => ?_)
        obtain rfl := hinj p p' (Await.poll.inj (congrArg Event.request hsame))
        cases hsame
      | some r =>
        cases hread : j.read p r with
        | error e =>
          simp only [hread]
          exact ensures_done ⟨_, rfl, hasked _, fun _ hb => by cases hb⟩
            ⟨_, rfl, hasked _, fun _ hb => by cases hb⟩
        | ok out =>
          simp only [hread]
          refine wholly_joinPass hinj ps (hasked _) fun p' r' hready => ?_
          obtain hbefore | hlast := List.mem_append.mp hready
          · obtain ⟨out', hgot, hread'⟩ := ht p' r' hbefore
            have hother : p' ≠ p := fun hsame => hopen (by rw [← hsame, hgot]; rfl)
            exact ⟨out', by rw [Function.update_of_ne hother, hgot], hread'⟩
          · have hsame := List.mem_singleton.mp hlast
            obtain rfl := hinj p' p (Await.poll.inj (congrArg Event.request hsame))
            obtain rfl := ready_inj hsame
            exact ⟨out, Function.update_self .., hread⟩

/-- A join polls no future again once it was ready, and leaves out none of the replies. -/
theorem wholly_tryJoin [Fintype j.Name] (hinj : ∀ p p', j.future p = j.future p' → p = p') :
    Ensures h (tryJoin j)
      (Wholly j (fun t outs => ∀ p r, Ready j t p r → j.read p r = .ok (outs p)) h) := by
  refine ensures_loop (fun h' (state : Nat × ((p : j.Name) → Option (j.Out p))) =>
    ∃ t, h' = h ++ t ∧ Each (Unready j) t ∧ ReadAll j t state.2) ?_
    ⟨[], (List.append_nil h).symm, each_nil, fun _ _ hready => by cases hready⟩
  rintro _ ⟨skip, got⟩ ⟨t, rfl, hall, ht⟩
  refine ensures_bind ((wholly_joinPass hinj _ hall ht).mono fun h' o ho => ?_)
  obtain ⟨t', rfl, hall', hresult⟩ := ho
  have hnow {o : Option (Except ε ((p : j.Name) → j.Out p))} (ho : ∀ b, o ≠ some (.ok b)) :
      Wholly j (fun t outs => ∀ p r, Ready j t p r → j.read p r = .ok (outs p)) h (h ++ t') o :=
    ⟨t', rfl, hall', fun b hb => absurd hb (ho b)⟩
  rcases o with _ | e | got'
  · exact hnow fun _ hb => by cases hb
  · exact ensures_done (hnow fun _ hb => by cases hb)
      (ensures_done (hnow fun _ hb => by cases hb) (hnow fun _ hb => by cases hb))
  · have hread := hresult got' rfl
    simp only [After]
    split
    next hdone =>
      refine ensures_done (hnow fun _ hb => by cases hb) (ensures_done
        (hnow fun _ hb => by cases hb) ⟨t', rfl, hall', fun outs houts p r hready => ?_⟩)
      cases houts
      obtain ⟨out, hgot, hout⟩ := hread p r hready
      simp only [hgot, Option.get_some, hout]
    next =>
      have hparked (reply) : Each (Unready j) (t' ++ [⟨.park, reply⟩]) :=
        each_concat.mpr ⟨hall', fun p hsame => by cases hsame⟩
      refine ensures_ask (hnow fun _ hb => by cases hb)
        ⟨_, List.append_assoc .., hparked none, fun _ hb => by cases hb⟩ fun () => ?_
      rw [List.append_assoc]
      refine ensures_done ⟨_, rfl, hparked _, fun _ hb => by cases hb⟩ ⟨_, rfl, hparked _, ?_⟩
      exact hread.concat fun p r hsame => by cases hsame

end JoinRuns

section Kinds
variable {S : Await Q → Prop}

theorem asks_tryBind {γ : Type} {p : Task R (Except ε α)} {k : α → Task R (Except ε γ)}
    (hp : Asks S p) (hk : ∀ a, Asks S (k a)) : Asks S (tryBind p k) := by
  refine hp.bind fun x => ?_
  cases x with
  | error e => exact trivial
  | ok a => exact hk a

variable {j : Joined R ε} [DecidableEq j.Name]

theorem asks_joinPass (hpoll : ∀ p, S (.poll (j.future p))) (ps : List j.Name) :
    ∀ got, Asks S (joinPass j ps got) := by
  induction ps with
  | nil => exact fun _ => trivial
  | cons p ps ih =>
    intro got
    rw [joinPass]
    split
    next => exact ih got
    next =>
      refine ⟨hpoll p, fun r => ?_⟩
      cases r with
      | none => exact ih got
      | some r =>
        simp only
        split
        next => exact trivial
        next => exact ih _

theorem asks_tryJoin [Fintype j.Name] (hpark : S .park) (hpoll : ∀ p, S (.poll (j.future p))) :
    Asks S (tryJoin j) := by
  refine ⟨fun state => (asks_joinPass hpoll _ _).bind fun x => ?_, fun _ => trivial⟩
  cases x with
  | error e => exact trivial
  | ok got =>
    simp only
    split
    next => exact trivial
    next => exact ⟨hpark, fun _ => trivial⟩

end Kinds

section Progress

theorem productive_tryBind {γ : Type} {p : Task R (Except ε α)} {k : α → Task R (Except ε γ)}
    (hp : Productive p) (hk : ∀ a, Productive (k a)) : Productive (tryBind p k) := by
  refine hp.bind fun x => ?_
  cases x with
  | error e => exact trivial
  | ok a => exact hk a

/-- A pass ends behind a poll or a sleep. -/
theorem not_silent_pollPass {bs : List (Branch R β)} (x : Unit ⊕ β) :
    ¬ Runs (pollPass bs) [] (some x) := by
  induction bs with
  | nil => exact fun hrun => by obtain ⟨_, _, hnil, -⟩ := hrun.of_ask; cases hnil
  | cons b bs ih =>
    rw [pollPass]
    split
    next => exact fun hrun => by obtain ⟨_, _, hnil, -⟩ := hrun.of_ask; cases hnil
    next => exact ih

theorem productive_pollPass {bs : List (Branch R β)} : Productive (pollPass bs) := by
  induction bs with
  | nil => exact fun _ => trivial
  | cons b bs ih =>
    rw [pollPass]
    split
    next =>
      intro r
      cases r with
      | none => exact ih
      | some r => exact trivial
    next => exact ih

theorem productive_select {bs : List (Branch R β)} : Productive (select bs) := by
  unfold select
  split
  next => exact ⟨fun _ => ⟨productive_pollPass, fun _ => not_silent_pollPass _⟩, fun _ => trivial⟩
  next => exact trivial

theorem not_silent_select {bs : List (Branch R β)} (b : β) :
    ¬ Runs (select bs) [] (some (some b)) := by
  unfold select
  split
  next =>
    intro hrun
    obtain ⟨b', hpass, -⟩ := hrun.silent_loop fun _ _ => not_silent_pollPass _
    exact not_silent_pollPass _ hpass
  next => exact fun hrun => by cases hrun.of_done.2

theorem productive_finish (f : Started Q) : Productive (finish f : Task R _) := by
  refine ⟨fun _ => ⟨fun r => ?_, fun _ hrun => ?_⟩, fun _ => trivial⟩
  · cases r with
    | none => exact fun _ => trivial
    | some r => exact trivial
  · obtain ⟨_, _, hnil, -⟩ := hrun.of_ask
    cases hnil

end Progress

end Nigiri.Polling
