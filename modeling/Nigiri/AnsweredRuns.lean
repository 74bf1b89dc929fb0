import Nigiri.EmbeddedProcess

/-! Runs in which an environment gives every reply: what a process comes to under it, and that a
process which has been answered goes on. One that awaits a reply may be called off there. -/
namespace Nigiri.Process
variable {Q : Type} {R : Q → Type} {α β γ σ : Type}

/-- The reply to a request, after all that has been asked and replied before it. -/
abbrev Environment (Q : Type) (R : Q → Type) := Trace Q R → (q : Q) → R q

/-- Behind `h`, every reply is the environment's. -/
def Follows (env : Environment Q R) : Trace Q R → Trace Q R → Prop
  | _, [] => True
  | h, e :: t => e.reply = some (env h e.request) ∧ Follows env (h ++ [e]) t

/-- Some run under the environment comes to `Φ`. -/
def Reaches (env : Environment Q R) (h : Trace Q R) (p : Proc Q R α)
    (Φ : Trace Q R → Option α → Prop) : Prop :=
  ∃ t o, Runs p t o ∧ Follows env h t ∧ Φ (h ++ t) o

/-- The process comes to a result under the environment. -/
def Returns (env : Environment Q R) (h : Trace Q R) (p : Proc Q R α)
    (Φ : Trace Q R → α → Prop) : Prop :=
  Reaches env h p fun h' o => ∃ a, o = some a ∧ Φ h' a

def Answered (t : Trace Q R) : Prop := ∀ e ∈ t, e.reply ≠ none

/-- After these events the process has its result, or asks for something. -/
def GoesOn (p : Proc Q R α) (t : Trace Q R) : Prop :=
  (∃ a, Runs p t (some a)) ∨ ∃ q, Runs p (t ++ [⟨q, none⟩]) none

section Rules
variable {env : Environment Q R} {h t t' : Trace Q R} {p : Proc Q R α} {f : α → Proc Q R γ}

theorem follows_append : Follows env h (t ++ t') ↔ Follows env h t ∧ Follows env (h ++ t) t' := by
  induction t generalizing h with
  | nil => simp [Follows]
  | cons e t ih =>
    rw [List.cons_append, Follows, Follows, ih, and_assoc, List.append_assoc]
    rfl

theorem Follows.answered (ht : Follows env h t) : Answered t := by
  induction t generalizing h with
  | nil => exact fun _ he => by cases he
  | cons e t ih =>
    intro e' he'
    rcases List.mem_cons.mp he' with rfl | hlater
    · rw [ht.1]
      exact Option.some_ne_none _
    · exact ih ht.2 e' hlater

/-- What every run ensures, the run that is reached has. -/
theorem Ensures.reaches {Φ Ψ : Trace Q R → Option α → Prop} (hp : Ensures h p Φ)
    (hr : Reaches env h p Ψ) : Reaches env h p fun h' o => Φ h' o ∧ Ψ h' o := by
  obtain ⟨t, o, hrun, ht, hlast⟩ := hr
  exact ⟨t, o, hrun, ht, hp t o hrun, hlast⟩

theorem Ensures.returns {Φ : Trace Q R → Option α → Prop} {Ψ : Trace Q R → α → Prop}
    (hp : Ensures h p Φ) (hr : Returns env h p Ψ) :
    Returns env h p fun h' a => Φ h' (some a) ∧ Ψ h' a := by
  obtain ⟨t, o, hrun, ht, hend, a, rfl, ha⟩ := hp.reaches hr
  exact ⟨t, some a, hrun, ht, a, rfl, hend, ha⟩

theorem Reaches.mono {Φ Ψ : Trace Q R → Option α → Prop} (hr : Reaches env h p Φ)
    (himp : ∀ h o, Φ h o → Ψ h o) : Reaches env h p Ψ := by
  obtain ⟨t, o, hrun, ht, hlast⟩ := hr
  exact ⟨t, o, hrun, ht, himp _ o hlast⟩

theorem Returns.mono {Φ Ψ : Trace Q R → α → Prop} (hr : Returns env h p Φ)
    (himp : ∀ h a, Φ h a → Ψ h a) : Returns env h p Ψ := by
  refine Reaches.mono hr fun h' o ho => ?_
  obtain ⟨a, rfl, ha⟩ := ho
  exact ⟨a, rfl, himp h' a ha⟩

theorem reaches_done {a : α} {Φ : Trace Q R → Option α → Prop} (ha : Φ h (some a)) :
    Reaches env h (.done a : Proc Q R α) Φ := by
  refine ⟨[], some a, runs_done a, trivial, ?_⟩
  rwa [List.append_nil]

theorem returns_done {a : α} {Φ : Trace Q R → α → Prop} (ha : Φ h a) :
    Returns env h (.done a : Proc Q R α) Φ := reaches_done ⟨a, rfl, ha⟩

theorem reaches_ask {q : Q} {k : R q → Proc Q R α} {Φ : Trace Q R → Option α → Prop}
    (hk : Reaches env (h ++ [⟨q, some (env h q)⟩]) (k (env h q)) Φ) :
    Reaches env h (.ask q k) Φ := by
  obtain ⟨t, o, hrun, ht, hlast⟩ := hk
  refine ⟨⟨q, some (env h q)⟩ :: t, o, runs_ask hrun, ⟨rfl, ht⟩, ?_⟩
  rwa [List.append_assoc] at hlast

theorem returns_ask {q : Q} {k : R q → Proc Q R α} {Φ : Trace Q R → α → Prop}
    (hk : Returns env (h ++ [⟨q, some (env h q)⟩]) (k (env h q)) Φ) :
    Returns env h (.ask q k) Φ := reaches_ask hk

theorem returns_bind {Φ : Trace Q R → γ → Prop}
    (hp : Returns env h p fun h' a => Returns env h' (f a) Φ) : Returns env h (p.bind f) Φ := by
  obtain ⟨t, _, hrun, ht, a, rfl, t', o, hrun', ht', hlast⟩ := hp
  refine ⟨t ++ t', o, hrun.bind hrun', follows_append.mpr ⟨ht, ht'⟩, ?_⟩
  rwa [List.append_assoc] at hlast

/-- A round of a loop has come nearer to its end, or to what follows the loop. -/
def Nearer (env : Environment Q R) (I : Trace Q R → σ → Prop) (distance : Trace Q R → σ → Nat)
    (k : β → Proc Q R α) (Φ : Trace Q R → Option α → Prop) (n : Nat) :
    Trace Q R → Option (σ ⊕ β) → Prop
  | h, none => Φ h none
  | h, some (.inl s) => I h s ∧ distance h s < n
  | h, some (.inr b) => Reaches env h (k b) Φ

/-- A loop whose rounds come nearer to its end comes to it. -/
theorem reaches_loop {body : σ → Proc Q R (σ ⊕ β)} {k : β → Proc Q R α}
    {Φ : Trace Q R → Option α → Prop} (I : Trace Q R → σ → Prop)
    (distance : Trace Q R → σ → Nat)
    (hbody : ∀ h s, I h s → Reaches env h (body s) (Nearer env I distance k Φ (distance h s)))
    {s : σ} (hs : I h s) : Reaches env h (.loop body s k) Φ := by
  induction hn : distance h s using Nat.strongRecOn generalizing h s with
  | _ n ih =>
    obtain ⟨t, o, hrun, ht, hround⟩ := hbody h s hs
    rcases o with _ | s' | b
    · exact ⟨t, none, .inside hrun, ht, hround⟩
    · obtain ⟨t', o, hrest, ht', hlast⟩ := ih _ (hn ▸ hround.2) hround.1 rfl
      refine ⟨t ++ t', o, .again hrun hrest, follows_append.mpr ⟨ht, ht'⟩, ?_⟩
      rwa [List.append_assoc] at hlast
    · obtain ⟨t', o, hrest, ht', hlast⟩ := hround
      refine ⟨t ++ t', o, .leave hrun hrest, follows_append.mpr ⟨ht, ht'⟩, ?_⟩
      rwa [List.append_assoc] at hlast

/-- A round that has come to its end has come nearer to that of the loop, or left it. -/
def Closer (env : Environment Q R) (I : Trace Q R → σ → Prop) (distance : Trace Q R → σ → Nat)
    (k : β → Proc Q R α) (Φ : Trace Q R → α → Prop) (n : Nat) : Trace Q R → σ ⊕ β → Prop
  | h, .inl s => I h s ∧ distance h s < n
  | h, .inr b => Returns env h (k b) Φ

theorem returns_loop {body : σ → Proc Q R (σ ⊕ β)} {k : β → Proc Q R α}
    {Φ : Trace Q R → α → Prop} (I : Trace Q R → σ → Prop) (distance : Trace Q R → σ → Nat)
    (hbody : ∀ h s, I h s → Returns env h (body s) (Closer env I distance k Φ (distance h s)))
    {s : σ} (hs : I h s) : Returns env h (.loop body s k) Φ := by
  refine reaches_loop I distance (fun h s hs => Reaches.mono (hbody h s hs) fun h' o ho => ?_) hs
  obtain ⟨x, rfl, hx⟩ := ho
  cases x with
  | inl s' => exact hx
  | inr b => exact hx

/-- A process without a loop. -/
def Straight : {α : Type} → Proc Q R α → Prop
  | _, .done _ => True
  | _, .ask _ k => ∀ r, Straight (k r)
  | _, .loop .. => False

theorem Straight.bind (hp : Straight p) (hf : ∀ a, Straight (f a)) : Straight (p.bind f) := by
  induction p with
  | done a => exact hf a
  | ask q k ih => exact fun r => ih r (hp r) hf
  | loop body s k _ _ => exact hp.elim

theorem Straight.returns (hp : Straight p) : Returns env h p fun _ _ => True := by
  induction p generalizing h with
  | done a => exact returns_done trivial
  | ask q k ih => exact returns_ask (ih _ (hp _))
  | loop body s k _ _ => exact hp.elim

/-- No loop of the process comes round again without a request. -/
def Productive : {α : Type} → Proc Q R α → Prop
  | _, .done _ => True
  | _, .ask _ k => ∀ r, Productive (k r)
  | _, .loop body _ k => (∀ s, Productive (body s) ∧ ∀ s', ¬ Runs (body s) [] (some (.inl s'))) ∧
    ∀ b, Productive (k b)

theorem Productive.bind (hp : Productive p) (hf : ∀ a, Productive (f a)) :
    Productive (p.bind f) := by
  induction p with
  | done a => exact hf a
  | ask q k ih => exact fun r => ih r (hp r) hf
  | loop body s k _ ihk => exact ⟨hp.1, fun b => ihk b (hp.2 b) hf⟩

section GoesOn
variable {body : σ → Proc Q R (σ ⊕ β)} {k : β → Proc Q R α} {s s' : σ} {b : β}

theorem GoesOn.again (hround : Runs (body s) t (some (.inl s')))
    (hrest : GoesOn (.loop body s' k) t') : GoesOn (.loop body s k) (t ++ t') := by
  refine hrest.imp (fun ⟨a, ha⟩ => ⟨a, .again hround ha⟩) fun ⟨q, hq⟩ => ⟨q, ?_⟩
  rw [List.append_assoc]
  exact .again hround hq

theorem GoesOn.leave (hround : Runs (body s) t (some (.inr b))) (hrest : GoesOn (k b) t') :
    GoesOn (.loop body s k) (t ++ t') := by
  refine hrest.imp (fun ⟨a, ha⟩ => ⟨a, .leave hround ha⟩) fun ⟨q, hq⟩ => ⟨q, ?_⟩
  rw [List.append_assoc]
  exact .leave hround hq

end GoesOn

/-- Once all it has asked for is answered, a process has its result or asks for more. -/
theorem Productive.goesOn (hp : Productive p) (hrun : Runs p t none) (ht : Answered t) :
    GoesOn p t := by
  induction p generalizing t with
  | done a =>
    obtain ⟨rfl, -⟩ := hrun
    exact .inl ⟨a, runs_done a⟩
  | ask q k ih =>
    rcases hrun with ⟨rfl, -⟩ | ⟨rfl, -⟩ | ⟨r, t, rfl, hr⟩
    · exact .inr ⟨q, .inr (.inl ⟨rfl, rfl⟩)⟩
    · exact absurd rfl (ht _ List.mem_cons_self)
    · have hrest := ih r (hp r) hr fun e he => ht e (List.mem_cons_of_mem _ he)
      exact hrest.imp (fun ⟨a, ha⟩ => ⟨a, runs_ask ha⟩) fun ⟨q', hq⟩ => ⟨q', runs_ask hq⟩
  | @loop σ β α body s k ihbody ihk =>
    have hnil : Answered ([] : Trace Q R) := fun _ he => by cases he
    have left (b : β) : GoesOn (k b) [] := ihk b (hp.2 b) (runs_nil _) hnil
    -- a loop that has just come round asks for something, or is left
    have fresh (s : σ) : GoesOn (.loop body s k) [] := by
      rcases ihbody s (hp.1 s).1 (runs_nil _) hnil with ⟨s' | b, hround⟩ | ⟨q, hq⟩
      · exact absurd hround ((hp.1 s).2 s')
      · exact .leave hround (left b)
      · exact .inr ⟨q, .inside hq⟩
    have run : ∀ s t o, LoopRuns (fun s => Runs (body s)) (fun b => Runs (k b)) s t o →
        o = none → Answered t → GoesOn (.loop body s k) t := by
      intro s t o hr ho ht
      induction hr with
      | @inside s t hb =>
        rcases ihbody s (hp.1 s).1 hb ht with ⟨s' | b, hround⟩ | ⟨q, hq⟩
        · rw [← List.append_nil t]
          exact .again hround (fresh s')
        · rw [← List.append_nil t]
          exact .leave hround (left b)
        · exact .inr ⟨q, .inside hq⟩
      | again hb _ ih => exact .again hb (ih ho fun e he => ht e (List.mem_append_right _ he))
      | leave hb hk =>
        subst ho
        exact .leave hb (ihk _ (hp.2 _) hk fun e he => ht e (List.mem_append_right _ he))
    exact run s t _ hrun rfl ht

section Silent
variable {body : σ → Proc Q R (σ ⊕ β)} {k : β → Proc Q R α} {s : σ} {a : α} {c : γ}

/-- A sequence that has asked for nothing has gone through its first part without a request. -/
theorem Runs.silent_bind (hrun : Runs (p.bind f) [] (some c)) :
    ∃ a, Runs p [] (some a) ∧ Runs (f a) [] (some c) := by
  obtain ⟨a, t₁, t₂, hsplit, hp, hf⟩ := hrun.of_bind
  obtain ⟨rfl, rfl⟩ := List.append_eq_nil_iff.mp hsplit.symm
  exact ⟨a, hp, hf⟩

/-- A loop that has asked for nothing has left in its first round. -/
theorem Runs.silent_loop (hbody : ∀ s s', ¬ Runs (body s) [] (some (.inl s')))
    (hrun : Runs (.loop body s k) [] (some a)) :
    ∃ b, Runs (body s) [] (some (.inr b)) ∧ Runs (k b) [] (some a) := by
  have run : ∀ s t o, LoopRuns (fun s => Runs (body s)) (fun b => Runs (k b)) s t o →
      t = [] → o = some a → ∃ b, Runs (body s) [] (some (.inr b)) ∧ Runs (k b) [] (some a) := by
    intro s t o hr ht ho
    cases hr with
    | inside _ => cases ho
    | again hb _ =>
      obtain ⟨rfl, -⟩ := List.append_eq_nil_iff.mp ht
      exact absurd hb (hbody s _)
    | leave hb hk =>
      obtain ⟨rfl, rfl⟩ := List.append_eq_nil_iff.mp ht
      exact ⟨_, hb, ho ▸ hk⟩
  exact run s [] _ hrun rfl rfl

end Silent

/-- All has been answered, or all but the last request of a run that has no result. -/
def Awaiting (t : Trace Q R) (o : Option α) : Prop :=
  Answered t ∨ o = none ∧ ∃ before q, t = before ++ [⟨q, none⟩] ∧ Answered before

theorem Answered.append (ht : Answered t) (ht' : Answered t') : Answered (t ++ t') :=
  fun e he => (List.mem_append.mp he).elim (ht e) (ht' e)

theorem Awaiting.append {o : Option α} (ht : Answered t) (ht' : Awaiting t' o) :
    Awaiting (t ++ t') o := by
  rcases ht' with ht' | ⟨ho, before, q, rfl, hbefore⟩
  · exact .inl (ht.append ht')
  · exact .inr ⟨ho, t ++ before, q, (List.append_assoc ..).symm, ht.append hbefore⟩

theorem Awaiting.answered {a : α} (ht : Awaiting t (some a)) : Answered t :=
  ht.resolve_right fun hlast => by cases hlast.1

/-- A process asks for one thing at a time. -/
theorem Runs.awaiting {o : Option α} (hrun : Runs p t o) : Awaiting t o := by
  have hnil : Answered ([] : Trace Q R) := fun _ he => by cases he
  induction p generalizing t with
  | done a =>
    obtain ⟨rfl, -⟩ := hrun
    exact .inl hnil
  | ask q k ih =>
    rcases hrun with ⟨rfl, -⟩ | ⟨rfl, rfl⟩ | ⟨r, t, rfl, hr⟩
    · exact .inl hnil
    · exact .inr ⟨rfl, [], q, rfl, hnil⟩
    · refine (ih r hr).append (t := [⟨q, some r⟩]) fun e he => ?_
      rw [List.mem_singleton.mp he]
      exact Option.some_ne_none r
  | @loop σ β α body s k ihbody ihk =>
    have run : ∀ s t o, LoopRuns (fun s => Runs (body s)) (fun b => Runs (k b)) s t o →
        Awaiting t o := by
      intro s t o hr
      induction hr with
      | inside hb => exact (ihbody _ hb).imp_right fun ⟨_, hlast⟩ => ⟨rfl, hlast⟩
      | again hb _ ih => exact .append (ihbody _ hb).answered ih
      | leave hb hk => exact .append (ihbody _ hb).answered (ihk _ hk)
    exact run s t o hrun

/-- Behind an answer after which it asks for nothing, a process has its result. -/
theorem Productive.ends (hp : Productive p) {e : Event Q R} {o : Option α}
    (hrun : Runs p (t ++ [e]) o) (he : e.reply ≠ none)
    (hlast : ∀ q, ¬ Runs p (t ++ [e] ++ [⟨q, none⟩]) none) :
    ∃ a, Runs p (t ++ [e]) (some a) := by
  have hanswered : Answered (t ++ [e]) := by
    refine hrun.awaiting.resolve_right fun ⟨_, before, q, hsplit, _⟩ => he ?_
    exact (List.cons.inj (List.append_inj' hsplit rfl).2).1 ▸ rfl
  have hcut : Runs p (t ++ [e]) none := by
    cases o with
    | none => exact hrun
    | some a => exact hrun.cut
  exact (hp.goesOn hcut hanswered).resolve_right fun ⟨q, hq⟩ => hlast q hq

end Rules

/-- A process that awaits a reply may be called off there. -/
theorem Runs.calledOff {p : Proc Q R α} {t : Trace Q R} {q : Q}
    (h : Runs p (t ++ [⟨q, none⟩]) none) :
    Runs p.within (t.map Event.given ++ [⟨q, some none⟩]) (some none) := by
  induction p generalizing t with
  | done a => exact absurd h.1 (by simp)
  | ask q' k ih =>
    rw [Proc.within]
    rcases h with ⟨hnil, -⟩ | ⟨hlast, -⟩ | ⟨r, t', hasked, hr⟩
    · exact absurd hnil (by simp)
    · obtain ⟨rfl, hlast⟩ | ⟨_, rfl, hnil⟩ := List.append_eq_cons_iff.mp hlast
      · cases hlast
        exact runs_ask (runs_done none)
      · exact absurd hnil (by simp)
    · obtain ⟨rfl, hasked⟩ | ⟨t, rfl, rfl⟩ := List.append_eq_cons_iff.mp hasked
      · cases hasked
      · exact runs_ask (ih r hr)
  | @loop σ β α body s k ihbody ihk =>
    have round {s : σ} {t : Trace Q fun q => Option (R q)} {x : Option (σ ⊕ β)}
        (hx : Runs (body s).within t (some x)) :
        Runs ((body s).within.bind fun x => .done (leaving x)) t (some (leaving x)) := by
      rw [← List.append_nil t]
      exact hx.bind (runs_done _)
    have run : ∀ s t' o, LoopRuns (fun s => Runs (body s)) (fun b => Runs (k b)) s t' o →
        o = none → ∀ t, t' = t ++ [⟨q, none⟩] → LoopRuns
          (fun s => Runs ((body s).within.bind fun x => .done (leaving x)))
          (fun b => Runs (b.elim (.done none) fun b => (k b).within)) s
          (t.map Event.given ++ [⟨q, some none⟩]) (some none) := by
      intro s t' o hr ho
      induction hr with
      | inside hb =>
        rintro t rfl
        rw [← List.append_nil (_ ++ _)]
        exact .leave (round (ihbody _ hb)) (runs_done none)
      | again hb _ ih =>
        intro t hsplit
        obtain ⟨rest, rfl⟩ | ⟨t, rfl, hlater⟩ := append_eq_split hsplit
        · exact absurd rfl (hb.awaiting.answered _ (List.mem_append_right _ List.mem_cons_self))
        · rw [List.map_append, List.append_assoc]
          exact .again (round hb.within) (ih ho t hlater)
      | leave hb hk =>
        subst ho
        intro t hsplit
        obtain ⟨rest, rfl⟩ | ⟨t, rfl, rfl⟩ := append_eq_split hsplit
        · exact absurd rfl (hb.awaiting.answered _ (List.mem_append_right _ List.mem_cons_self))
        · rw [List.map_append, List.append_assoc]
          exact .leave (round hb.within) (ihk _ hk)
    rw [within_loop]
    exact run s _ _ h rfl t rfl

end Nigiri.Process
