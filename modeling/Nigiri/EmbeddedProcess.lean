import Nigiri.Process

/-! A process as a part of a larger one: its requests are among those of the larger one, it may be
called off while it awaits a reply, and its error ends the larger one. -/
namespace Nigiri.Process
variable {Q Q' : Type} {R : Q → Type} {R' : Q' → Type} {ε α β γ : Type}

/-- The same process with its requests under other names. -/
def Proc.via (f : Q → Q') : {α : Type} → Proc Q (fun q => R' (f q)) α → Proc Q' R' α
  | _, .done a => .done a
  | _, .ask q k => .ask (f q) fun r => (k r).via f
  | _, .loop body s k => .loop (fun s => (body s).via f) s fun b => (k b).via f

def Event.via (f : Q → Q') (e : Event Q fun q => R' (f q)) : Event Q' R' := ⟨f e.request, e.reply⟩

/-- The same event where it could have been called off. -/
def Event.given (e : Event Q R) : Event Q fun q => Option (R q) := ⟨e.request, e.reply.map some⟩

/-- An error of the first part ends the sequence. -/
def Proc.andThen (p : Proc Q R (Except ε α)) (k : α → Proc Q R (Except ε γ)) :
    Proc Q R (Except ε γ) :=
  p.bind fun
    | .error e => .done (.error e)
    | .ok a => k a

section Sequence
variable {h : Trace Q R} {p : Proc Q R (Except ε α)} {k : α → Proc Q R (Except ε γ)}
  {Φ : Trace Q R → Option (Except ε γ) → Prop}

/-- What the first part leaves: an error that is passed on, or the second part. -/
def AndAfter (k : α → Proc Q R (Except ε γ)) (Φ : Trace Q R → Option (Except ε γ) → Prop) :
    Trace Q R → Option (Except ε α) → Prop
  | h, none => Φ h none
  | h, some (.error e) => Φ h none ∧ Φ h (some (.error e))
  | h, some (.ok a) => Ensures h (k a) Φ

theorem ensures_andThen (hp : Ensures h p (AndAfter k Φ)) : Ensures h (p.andThen k) Φ := by
  refine ensures_bind (hp.mono fun h' o ho => ?_)
  rcases o with _ | e | a
  · exact ho
  · exact ensures_done ho.1 ho.2
  · exact ho

theorem runs_andThen {t t' : Trace Q R} {a : α} {o : Option (Except ε γ)}
    (hp : Runs p t (some (.ok a))) (hk : Runs (k a) t' o) : Runs (p.andThen k) (t ++ t') o :=
  Runs.bind hp hk

end Sequence

section Via
variable {f : Q → Q'}

/-- A run under other names is a run of the process. -/
theorem Runs.of_via {p : Proc Q (fun q => R' (f q)) α} {t : Trace Q' R'} {o : Option α}
    (h : Runs (p.via f) t o) : ∃ t', t = t'.map (Event.via f) ∧ Runs p t' o := by
  induction p generalizing t with
  | done a =>
    obtain ⟨rfl, ho⟩ := h
    exact ⟨[], rfl, rfl, ho⟩
  | ask q k ih =>
    rcases h with ⟨rfl, rfl⟩ | ⟨rfl, rfl⟩ | ⟨r, t, rfl, hr⟩
    · exact ⟨[], rfl, .inl ⟨rfl, rfl⟩⟩
    · exact ⟨[⟨q, none⟩], rfl, .inr (.inl ⟨rfl, rfl⟩)⟩
    · obtain ⟨t', rfl, hr'⟩ := ih r hr
      exact ⟨⟨q, some r⟩ :: t', rfl, runs_ask hr'⟩
  | @loop σ β α body s k ihbody ihk =>
    have run : ∀ s t o, LoopRuns (fun s => Runs ((body s).via f)) (fun b => Runs ((k b).via f))
        s t o → ∃ t', t = t'.map (Event.via f) ∧
          LoopRuns (fun s => Runs (body s)) (fun b => Runs (k b)) s t' o := by
      intro s t o hr
      induction hr with
      | inside hb =>
        obtain ⟨t', rfl, hb'⟩ := ihbody _ hb
        exact ⟨t', rfl, .inside hb'⟩
      | again hb _ ih =>
        obtain ⟨t₁, rfl, hb'⟩ := ihbody _ hb
        obtain ⟨t₂, rfl, hr'⟩ := ih
        exact ⟨t₁ ++ t₂, List.map_append.symm, .again hb' hr'⟩
      | leave hb hk =>
        obtain ⟨t₁, rfl, hb'⟩ := ihbody _ hb
        obtain ⟨t₂, rfl, hk'⟩ := ihk _ hk
        exact ⟨t₁ ++ t₂, List.map_append.symm, .leave hb' hk'⟩
    exact run s t o h

/-- A run of a process is one of it under other names. -/
theorem Runs.via {p : Proc Q (fun q => R' (f q)) α} {t : Trace Q fun q => R' (f q)} {o : Option α}
    (h : Runs p t o) : Runs (p.via f) (t.map (Event.via f)) o := by
  induction p generalizing t with
  | done a =>
    obtain ⟨rfl, ho⟩ := h
    exact ⟨rfl, ho⟩
  | ask q k ih =>
    rcases h with ⟨rfl, rfl⟩ | ⟨rfl, rfl⟩ | ⟨r, t, rfl, hr⟩
    · exact .inl ⟨rfl, rfl⟩
    · exact .inr (.inl ⟨rfl, rfl⟩)
    · exact runs_ask (ih r hr)
  | @loop σ β α body s k ihbody ihk =>
    have run : ∀ s t o, LoopRuns (fun s => Runs (body s)) (fun b => Runs (k b)) s t o →
        LoopRuns (fun s => Runs ((body s).via f)) (fun b => Runs ((k b).via f)) s
          (t.map (Event.via f)) o := by
      intro s t o hr
      induction hr with
      | inside hb => exact .inside (ihbody _ hb)
      | again hb _ ih =>
        rw [List.map_append]
        exact .again (ihbody _ hb) ih
      | leave hb hk =>
        rw [List.map_append]
        exact .leave (ihbody _ hb) (ihk _ hk)
    exact run s t o h

end Via

section Within

/-- A run may stop before it gives its result. -/
theorem Runs.cut {p : Proc Q R α} {t : Trace Q R} {a : α} (h : Runs p t (some a)) :
    Runs p t none := by
  induction p generalizing t with
  | done b => exact ⟨h.1, .inl rfl⟩
  | ask q k ih =>
    obtain ⟨r, t, rfl, hr⟩ := h.of_ask
    exact runs_ask (ih r hr)
  | @loop σ β α body s k ihbody ihk =>
    have run : ∀ s t o, LoopRuns (fun s => Runs (body s)) (fun b => Runs (k b)) s t o →
        LoopRuns (fun s => Runs (body s)) (fun b => Runs (k b)) s t (none : Option α) := by
      intro s t o hr
      induction hr with
      | inside hb => exact .inside hb
      | again hb _ ih => exact .again hb ih
      | @leave s b t t' o hb hk =>
        cases o with
        | none => exact .leave hb hk
        | some a => exact .leave hb (ihk b hk)
    exact run s t _ h

/-- An event of a sequence lies in one part of it or in the other. -/
theorem append_eq_split {t t' before after : Trace Q R} {e : Event Q R}
    (hsplit : t ++ t' = before ++ e :: after) :
    (∃ rest, t = before ++ e :: rest) ∨ ∃ before', before = t ++ before' ∧
      t' = before' ++ e :: after := by
  rcases List.append_eq_append_iff.mp hsplit with ⟨before', rfl, hlater⟩ | ⟨rest, rfl, hrest⟩
  · exact .inr ⟨before', rfl, hlater⟩
  · cases rest with
    | nil => exact .inr ⟨[], (by simp), hrest.symm⟩
    | cons e' rest =>
      obtain ⟨rfl, -⟩ := List.cons.inj hrest
      exact .inl ⟨rest, rfl⟩

/-- A run may stop while it awaits any of its replies. -/
theorem Runs.asking {p : Proc Q R α} {before after : Trace Q R} {e : Event Q R} {o : Option α}
    (h : Runs p (before ++ e :: after) o) : Runs p (before ++ [⟨e.request, none⟩]) none := by
  induction p generalizing before after with
  | done a => exact absurd h.1 (by simp)
  | ask q k ih =>
    rcases h with ⟨hnil, -⟩ | ⟨hlast, -⟩ | ⟨r, t, hasked, hr⟩
    · exact absurd hnil (by simp)
    · obtain ⟨rfl, hlast⟩ | ⟨_, rfl, hnil⟩ := List.append_eq_cons_iff.mp hlast
      · obtain ⟨rfl, -⟩ := List.cons.inj hlast
        exact .inr (.inl ⟨rfl, rfl⟩)
      · exact absurd hnil (by simp)
    · obtain ⟨rfl, hasked⟩ | ⟨before, rfl, rfl⟩ := List.append_eq_cons_iff.mp hasked
      · obtain ⟨rfl, -⟩ := List.cons.inj hasked
        exact .inr (.inl ⟨rfl, rfl⟩)
      · exact runs_ask (ih r hr)
  | @loop σ β α body s k ihbody ihk =>
    have run : ∀ s t o, LoopRuns (fun s => Runs (body s)) (fun b => Runs (k b)) s t o →
        ∀ before after, t = before ++ e :: after →
        LoopRuns (fun s => Runs (body s)) (fun b => Runs (k b)) s
          (before ++ [⟨e.request, none⟩]) none := by
      intro s t o hr
      induction hr with
      | inside hb =>
        rintro before after rfl
        exact .inside (ihbody _ hb)
      | again hb _ ih =>
        intro before after hsplit
        obtain ⟨rest, rfl⟩ | ⟨before, rfl, hlater⟩ := append_eq_split hsplit
        · exact .inside (ihbody _ hb)
        · rw [List.append_assoc]
          exact .again hb (ih before after hlater)
      | leave hb hk =>
        intro before after hsplit
        obtain ⟨rest, rfl⟩ | ⟨before, rfl, rfl⟩ := append_eq_split hsplit
        · exact .inside (ihbody _ hb)
        · rw [List.append_assoc]
          exact .leave hb (ihk _ hk)
    exact run s _ o h before after rfl

/-- A run of a sequence is still in its first part, or has left it for the second. -/
theorem runs_bind_cases {p : Proc Q R α} {f : α → Proc Q R γ} {t : Trace Q R} {o : Option γ}
    (h : Runs (p.bind f) t o) : (o = none ∧ Runs p t none) ∨
      ∃ a t₁ t₂, t = t₁ ++ t₂ ∧ Runs p t₁ (some a) ∧ Runs (f a) t₂ o := by
  have hsplit : Ensures [] (p.bind f) fun t o => (o = none ∧ Runs p t none) ∨
      ∃ a t₁ t₂, t = t₁ ++ t₂ ∧ Runs p t₁ (some a) ∧ Runs (f a) t₂ o := by
    refine ensures_bind fun t₁ o hp => ?_
    cases o with
    | none => exact .inl ⟨rfl, hp⟩
    | some a => exact fun t₂ o hf => .inr ⟨a, t₁, t₂, rfl, hp, hf⟩
  exact hsplit t o h

/-- The runs of a process that may be called off: its own, and those that were called off while a
reply was awaited. -/
inductive WithinRuns (B : Trace Q R → Option α → Prop) :
    (Trace Q fun q => Option (R q)) → Option (Option α) → Prop where
  | own {t o} (h : B t o) : WithinRuns B (t.map Event.given) (o.map some)
  | calledOff {t q o} (h : B (t ++ [⟨q, none⟩]) none) (ho : o = none ∨ o = some none) :
    WithinRuns B (t.map Event.given ++ [⟨q, some none⟩]) o

theorem within_loop {σ : Type} {body : σ → Proc Q R (σ ⊕ β)} {s : σ} {k : β → Proc Q R α} :
    (Proc.loop body s k).within =
      .loop (fun s => (body s).within.bind fun x => .done (leaving x)) s
        fun b => b.elim (.done none) fun b => (k b).within := by
  rw [Proc.within]
  refine congrArg _ (funext fun b => ?_)
  cases b <;> rfl

section Leaving
variable {σ : Type} {y : Option (Option (σ ⊕ β))}

theorem leaving_inl {s : σ} (h : y.map leaving = some (.inl s)) : y = some (some (.inl s)) := by
  rcases y with _ | _ | s' | b
  · cases h
  · cases h
  · cases h
    rfl
  · cases h

theorem leaving_inr_none (h : y.map leaving = some (.inr none)) : y = some none := by
  rcases y with _ | _ | s' | b
  · cases h
  · rfl
  · cases h
  · cases h

theorem leaving_inr {b : β} (h : y.map leaving = some (.inr (some b))) :
    y = some (some (.inr b)) := by
  rcases y with _ | _ | s' | b
  · cases h
  · cases h
  · cases h
  · cases h
    rfl

end Leaving

theorem WithinRuns.cut {B : Trace Q R → Option α → Prop} {t : Trace Q fun q => Option (R q)}
    {o : Option (Option α)} (h : WithinRuns B t o) (hcut : ∀ t a, B t (some a) → B t none) :
    WithinRuns B t none := by
  cases h with
  | @own t x h =>
    cases x with
    | none => exact .own h
    | some a => exact .own (hcut t a h)
  | calledOff h _ => exact .calledOff h (.inl rfl)

theorem WithinRuns.inside {B : Trace Q R → Option α → Prop} {C : Trace Q R → Option β → Prop}
    {t : Trace Q fun q => Option (R q)} (h : WithinRuns B t none)
    (himp : ∀ t, B t none → C t none) : WithinRuns C t none := by
  generalize ho : (none : Option (Option α)) = o at h
  cases h with
  | @own t o h =>
    obtain rfl := Option.map_eq_none_iff.mp ho.symm
    exact .own (himp t h)
  | calledOff h _ => exact .calledOff (himp _ h) (.inl rfl)

/-- A process that has not been called off so far. -/
theorem WithinRuns.of_own {B : Trace Q R → Option α → Prop} {t : Trace Q fun q => Option (R q)}
    {a : α} (h : WithinRuns B t (some (some a))) :
    ∃ t', t = t'.map Event.given ∧ B t' (some a) := by
  generalize ho : some (some a) = o at h
  cases h with
  | @own t o h =>
    cases o with
    | none => cases ho
    | some b =>
      obtain rfl := Option.some.inj (Option.some.inj ho)
      exact ⟨t, rfl, h⟩
  | calledOff _ hnone =>
    subst ho
    rcases hnone with hnone | hnone
    · cases hnone
    · cases Option.some.inj hnone

theorem WithinRuns.of_calledOff {B : Trace Q R → Option α → Prop}
    {C : Trace Q R → Option β → Prop} {t : Trace Q fun q => Option (R q)}
    {o : Option (Option β)} (h : WithinRuns B t (some none)) (himp : ∀ t, B t none → C t none)
    (ho : o = none ∨ o = some none) : WithinRuns C t o := by
  generalize hnone : some none = x at h
  cases h with
  | @own t x h => cases x <;> cases hnone
  | calledOff h _ => exact .calledOff (himp _ h) ho

/-- What is done before the process leaves it as it was called off. -/
theorem WithinRuns.after {B C : Trace Q R → Option α → Prop} {t₁ : Trace Q R}
    {t : Trace Q fun q => Option (R q)} {o : Option (Option α)} (h : WithinRuns B t o)
    (himp : ∀ t o, B t o → C (t₁ ++ t) o) : WithinRuns C (t₁.map Event.given ++ t) o := by
  cases h with
  | own h =>
    rw [← List.map_append]
    exact .own (himp _ _ h)
  | @calledOff t q o h ho =>
    rw [← List.append_assoc, ← List.map_append]
    refine .calledOff ?_ ho
    rw [List.append_assoc]
    exact himp _ _ h

theorem Runs.within_cases {p : Proc Q R α} {t : Trace Q fun q => Option (R q)}
    {o : Option (Option α)} (h : Runs p.within t o) : WithinRuns (Runs p) t o := by
  induction p generalizing t with
  | done b =>
    obtain ⟨rfl, rfl | rfl⟩ := h
    · exact .own (t := []) (o := none) ⟨rfl, .inl rfl⟩
    · exact .own (t := []) (o := some b) ⟨rfl, .inr rfl⟩
  | ask q k ih =>
    rw [Proc.within] at h
    rcases h with ⟨rfl, rfl⟩ | ⟨rfl, rfl⟩ | ⟨r, t, rfl, hr⟩
    · exact .own (t := []) (o := none) (.inl ⟨rfl, rfl⟩)
    · exact .own (t := [⟨q, none⟩]) (o := none) (.inr (.inl ⟨rfl, rfl⟩))
    · cases r with
      | none =>
        obtain ⟨rfl, ho⟩ := hr
        exact .calledOff (t := []) (.inr (.inl ⟨rfl, rfl⟩)) ho
      | some r =>
        have hask : ∀ t o, Runs (k r) t o → Runs (.ask q k) ([⟨q, some r⟩] ++ t) o :=
          fun t o hr => runs_ask hr
        exact (ih r hr).after hask
  | @loop σ β α body s k ihbody ihk =>
    -- a round that is left was not called off, or was called off last
    have round {s : σ} {t : Trace Q fun q => Option (R q)} {x : Option (σ ⊕ Option β)}
        (hx : Runs ((body s).within.bind fun x => .done (leaving x)) t x) :
        ∃ y, WithinRuns (Runs (body s)) t y ∧ y.map leaving = x := by
      obtain ⟨rfl, hbody⟩ | ⟨z, t₁, t₂, rfl, hbody, rfl, rfl | rfl⟩ := runs_bind_cases hx
      · exact ⟨none, ihbody s hbody, rfl⟩
      · rw [List.append_nil]
        exact ⟨none, (ihbody s hbody).cut fun t a => Runs.cut, rfl⟩
      · rw [List.append_nil]
        exact ⟨some z, ihbody s hbody, rfl⟩
    have run : ∀ s t o, LoopRuns
        (fun s => Runs ((body s).within.bind fun x => .done (leaving x)))
        (fun b => Runs (b.elim (.done none) fun b => (k b).within)) s t o →
        WithinRuns (LoopRuns (fun s => Runs (body s)) (fun b => Runs (k b)) s) t o := by
      intro s t o hr
      induction hr with
      | inside hb =>
        obtain ⟨y, hy, hleft⟩ := round hb
        obtain rfl := Option.map_eq_none_iff.mp hleft
        exact hy.inside fun t hb => .inside hb
      | @again s s' t₁ t₂ o hb _ ih =>
        obtain ⟨y, hy, hleft⟩ := round hb
        obtain rfl := leaving_inl hleft
        obtain ⟨t₁, rfl, hbody⟩ := hy.of_own
        exact ih.after fun t o hr => .again hbody hr
      | @leave s b t₁ t₂ o hb hk =>
        obtain ⟨y, hy, hleft⟩ := round hb
        cases b with
        | none =>
          obtain rfl := leaving_inr_none hleft
          obtain ⟨rfl, ho⟩ := hk
          rw [List.append_nil]
          exact hy.of_calledOff (fun t hb => .inside hb) ho
        | some b =>
          obtain rfl := leaving_inr hleft
          obtain ⟨t₁, rfl, hbody⟩ := hy.of_own
          exact (ihk b hk).after fun t o hr => .leave hbody hr
    rw [within_loop] at h
    exact run s t o h

/-- A complete run is one that was not called off. -/
theorem Runs.within {p : Proc Q R α} {t : Trace Q R} {a : α} (h : Runs p t (some a)) :
    Runs p.within (t.map Event.given) (some (some a)) := by
  induction p generalizing t with
  | done b =>
    obtain ⟨rfl, rfl⟩ := h.of_done
    exact runs_done (some b)
  | ask q k ih =>
    obtain ⟨r, t, rfl, hr⟩ := h.of_ask
    rw [Proc.within]
    exact runs_ask (ih r hr)
  | @loop σ β α body s k ihbody ihk =>
    have round {s : σ} {t : Trace Q R} {x : σ ⊕ β} (hx : Runs (body s) t (some x)) :
        Runs ((body s).within.bind fun x => .done (leaving x)) (t.map Event.given)
          (some (leaving (some x))) := by
      rw [← List.append_nil (t.map Event.given)]
      exact (ihbody s hx).bind (runs_done _)
    have run : ∀ s t o, LoopRuns (fun s => Runs (body s)) (fun b => Runs (k b)) s t o →
        o = some a → LoopRuns
          (fun s => Runs ((body s).within.bind fun x => .done (leaving x)))
          (fun b => Runs (b.elim (.done none) fun b => (k b).within)) s
          (t.map Event.given) (some (some a)) := by
      intro s t o hr ho
      induction hr with
      | inside hb => cases ho
      | again hb _ ih =>
        rw [List.map_append]
        exact .again (round hb) (ih ho)
      | leave hb hk =>
        subst ho
        rw [List.map_append]
        exact .leave (round hb) (ihk _ hk)
    rw [within_loop]
    exact run s t _ h rfl

/-- Whatever a process had asked for before a request, it had been given all of the replies. -/
theorem Runs.within_split {p : Proc Q R α} {t : Trace Q fun q => Option (R q)}
    {o : Option (Option α)} (h : Runs p.within t o) {before after : Trace Q fun q => Option (R q)}
    {e : Event Q fun q => Option (R q)} (hsplit : t = before ++ e :: after) :
    ∃ before' e' after' o', before = before'.map Event.given ∧ e.request = e'.request ∧
      Runs p (before' ++ e' :: after') o' := by
  have own {t' : Trace Q R} {o' : Option α} (hrun : Runs p t' o')
      (hmap : t'.map Event.given = before ++ e :: after) :
      ∃ before' e' after' o', before = before'.map Event.given ∧ e.request = e'.request ∧
        Runs p (before' ++ e' :: after') o' := by
    obtain ⟨before', rest, rfl, rfl, hrest⟩ := List.map_eq_append_iff.mp hmap
    obtain ⟨e', after', rfl, rfl, -⟩ := List.map_eq_cons_iff.mp hrest
    exact ⟨before', e', after', o', rfl, rfl, hrun⟩
  cases h.within_cases with
  | own hrun => exact own hrun hsplit
  | @calledOff t q o hrun _ =>
    rcases List.eq_nil_or_concat after with rfl | ⟨after', last, rfl⟩
    · obtain ⟨rfl, hlast⟩ := List.append_inj' hsplit rfl
      obtain rfl := (List.cons.inj hlast).1
      exact ⟨t, ⟨q, none⟩, [], none, rfl, rfl, hrun⟩
    · rw [List.concat_eq_append, ← List.cons_append, ← List.append_assoc] at hsplit
      obtain ⟨hmap, -⟩ := List.append_inj' hsplit rfl
      obtain ⟨before', rest, rfl, rfl, hrest⟩ := List.map_eq_append_iff.mp hmap
      obtain ⟨e', after'', rfl, rfl, -⟩ := List.map_eq_cons_iff.mp hrest
      rw [List.append_assoc, List.cons_append] at hrun
      exact ⟨before', e', after'' ++ [⟨q, none⟩], none, rfl, rfl, hrun⟩

end Within

section Parts
variable {f : Q → Q'} {h : Trace Q' R'}

/-- A part adds its own runs to a history, and its requests are justified one by one. -/
theorem ensures_via {p : Proc Q (fun q => R' (f q)) α} {P : Trace Q' R' → Q' → Prop}
    (hall : Each P h) (hp : ∀ t o, Runs p t o → ∀ before e after, t = before ++ e :: after →
      P (h ++ before.map (Event.via f)) (f e.request)) :
    Ensures h (p.via f) fun h' o =>
      Each P h' ∧ ∃ t, h' = h ++ t.map (Event.via f) ∧ Runs p t o := by
  intro t o hrun
  obtain ⟨t, rfl, hown⟩ := hrun.of_via
  refine ⟨hall.append fun before e after hsplit => ?_, t, rfl, hown⟩
  obtain ⟨before, rest, rfl, rfl, hrest⟩ := List.map_eq_append_iff.mp hsplit
  obtain ⟨e, after, rfl, rfl, -⟩ := List.map_eq_cons_iff.mp hrest
  exact hp _ o hown before e after rfl

end Parts

end Nigiri.Process
