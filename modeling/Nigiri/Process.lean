import Mathlib.Data.List.Basic
import Mathlib.Data.List.Induction
import Mathlib.Tactic.Common

/-! Sequential processes that ask an environment and go on from its replies, and what they
ensure of every run: of the requests made so far, of the replies, and of the result once
there is one. -/
namespace Nigiri.Process
variable {Q : Type} {R : Q → Type} {α β γ σ : Type}

/-- A loop repeats its body until that leaves with a value. -/
inductive Proc (Q : Type) (R : Q → Type) : Type → Type 1 where
  | done {α : Type} (a : α) : Proc Q R α
  | ask {α : Type} (q : Q) (k : R q → Proc Q R α) : Proc Q R α
  | loop {σ β α : Type} (body : σ → Proc Q R (σ ⊕ β)) (s : σ) (k : β → Proc Q R α) :
    Proc Q R α

/-- One request, and its reply if it has been given. -/
structure Event (Q : Type) (R : Q → Type) where
  request : Q
  reply : Option (R request)

abbrev Trace (Q : Type) (R : Q → Type) := List (Event Q R)

/-- The runs of a loop from those of its body and of what follows it. -/
inductive LoopRuns (B : σ → Trace Q R → Option (σ ⊕ β) → Prop)
    (K : β → Trace Q R → Option α → Prop) : σ → Trace Q R → Option α → Prop where
  | inside {s t} (h : B s t none) : LoopRuns B K s t none
  | again {s s' t t' o} (h : B s t (some (.inl s'))) (h' : LoopRuns B K s' t' o) :
    LoopRuns B K s (t ++ t') o
  | leave {s b t t' o} (h : B s t (some (.inr b))) (h' : K b t' o) :
    LoopRuns B K s (t ++ t') o

/-- The finite runs of a process, complete or cut off at any point. -/
def Runs : {α : Type} → Proc Q R α → Trace Q R → Option α → Prop
  | _, .done a, t, o => t = [] ∧ (o = none ∨ o = some a)
  | _, .ask q k, t, o =>
    (t = [] ∧ o = none) ∨ (t = [⟨q, none⟩] ∧ o = none) ∨
      ∃ r t', t = ⟨q, some r⟩ :: t' ∧ Runs (k r) t' o
  | _, .loop body s k, t, o => LoopRuns (fun s => Runs (body s)) (fun b => Runs (k b)) s t o

def Proc.bind : {α : Type} → Proc Q R α → (α → Proc Q R γ) → Proc Q R γ
  | _, .done a, f => f a
  | _, .ask q k, f => .ask q fun r => (k r).bind f
  | _, .loop body s k, f => .loop body s fun b => (k b).bind f

instance : Monad (Proc Q R) where
  pure := .done
  bind := .bind

@[simp] theorem pure_eq (a : α) : (pure a : Proc Q R α) = .done a := rfl

@[simp] theorem bind_eq {α γ : Type} (p : Proc Q R α) (f : α → Proc Q R γ) :
    p >>= f = p.bind f := rfl

theorem Proc.bind_assoc {p : Proc Q R α} {f : α → Proc Q R β} {g : β → Proc Q R γ} :
    (p.bind f).bind g = p.bind fun a => (f a).bind g := by
  induction p with
  | done a => rfl
  | ask q k ih => exact congrArg (Proc.ask q) (funext fun r => ih r)
  | loop body s k _ ih => exact congrArg (Proc.loop body s) (funext fun b => ih b)

def request (q : Q) : Proc Q R (R q) := .ask q .done

def repeatUntil (body : σ → Proc Q R (σ ⊕ β)) (s : σ) : Proc Q R β := .loop body s .done

def leaving : Option (σ ⊕ β) → σ ⊕ Option β
  | none => .inr none
  | some (.inl s) => .inl s
  | some (.inr b) => .inr (some b)

/-- The same process under a deadline that may pass while any reply is awaited. -/
def Proc.within : {α : Type} → Proc Q R α → Proc Q (fun q => Option (R q)) (Option α)
  | _, .done a => .done (some a)
  | _, .ask q k => .ask q fun
    | none => .done none
    | some r => (k r).within
  | _, .loop body s k => .loop (fun s => (body s).within.bind fun x => .done (leaving x)) s fun
    | none => .done none
    | some b => (k b).within

/-- Whatever a process does after a history, the history and its result satisfy `Φ`. -/
def Ensures (h : Trace Q R) (p : Proc Q R α) (Φ : Trace Q R → Option α → Prop) : Prop :=
  ∀ t o, Runs p t o → Φ (h ++ t) o

/-- A sequence satisfies `Φ` when the first part, if it ends, leaves it to the second. -/
def After (f : α → Proc Q R γ) (Φ : Trace Q R → Option γ → Prop) :
    Trace Q R → Option α → Prop
  | h, none => Φ h none
  | h, some a => Ensures h (f a) Φ

theorem Ensures.mono {h : Trace Q R} {p : Proc Q R α} {Φ Ψ : Trace Q R → Option α → Prop}
    (hp : Ensures h p Φ) (himp : ∀ h o, Φ h o → Ψ h o) : Ensures h p Ψ :=
  fun t o hr => himp _ _ (hp t o hr)

theorem ensures_done {h : Trace Q R} {a : α} {Φ : Trace Q R → Option α → Prop}
    (hnone : Φ h none) (hsome : Φ h (some a)) : Ensures h (.done a : Proc Q R α) Φ := by
  rintro t o ⟨rfl, rfl | rfl⟩
  · simpa using hnone
  · simpa using hsome

theorem ensures_ask {h : Trace Q R} {q : Q} {k : R q → Proc Q R α}
    {Φ : Trace Q R → Option α → Prop} (hbefore : Φ h none)
    (hasked : Φ (h ++ [⟨q, none⟩]) none)
    (hreply : ∀ r, Ensures (h ++ [⟨q, some r⟩]) (k r) Φ) : Ensures h (.ask q k) Φ := by
  rintro t o (⟨rfl, rfl⟩ | ⟨rfl, rfl⟩ | ⟨r, t', rfl, hr⟩)
  · simpa using hbefore
  · exact hasked
  · simpa using hreply r t' o hr

/-- Every process has the empty run. -/
theorem runs_nil (p : Proc Q R α) : Runs p [] none := by
  induction p with
  | done a => exact ⟨rfl, .inl rfl⟩
  | ask q k ih => exact .inl ⟨rfl, rfl⟩
  | loop body s k ihbody ihk => exact .inside (ihbody s)

theorem Ensures.now {h : Trace Q R} {p : Proc Q R α} {Φ : Trace Q R → Option α → Prop}
    (hp : Ensures h p Φ) : Φ h none := by
  simpa using hp [] none (runs_nil p)

/-- One round of a loop keeps the invariant, or leaves it to what follows. -/
def Again (I : Trace Q R → σ → Prop) (k : β → Proc Q R α) (Φ : Trace Q R → Option α → Prop) :
    Trace Q R → Option (σ ⊕ β) → Prop
  | h, none => Φ h none
  | h, some (.inl s) => I h s
  | h, some (.inr b) => Ensures h (k b) Φ

theorem Again.leave {I : Trace Q R → σ → Prop} {k : β → Proc Q R α}
    {Φ : Trace Q R → Option α → Prop} {h : Trace Q R} {b : β} (hb : Ensures h (k b) Φ) :
    Again I k Φ h (some (.inr b)) := hb

/-- A loop keeps an invariant of history and state from one round to the next. -/
theorem ensures_loop {body : σ → Proc Q R (σ ⊕ β)} {k : β → Proc Q R α}
    {Φ : Trace Q R → Option α → Prop} (I : Trace Q R → σ → Prop)
    (hbody : ∀ h s, I h s → Ensures h (body s) (Again I k Φ))
    {h : Trace Q R} {s : σ} (hs : I h s) : Ensures h (.loop body s k) Φ := by
  intro t o hr
  have run : ∀ s t o, LoopRuns (fun s => Runs (body s)) (fun b => Runs (k b)) s t o →
      ∀ h, I h s → Φ (h ++ t) o := by
    intro s t o hr
    induction hr with
    | inside hb => exact fun h hs => hbody h _ hs _ _ hb
    | again hb _ ih =>
      intro h hs
      have hnext := hbody h _ hs _ _ hb
      simpa using ih _ hnext
    | leave hb hk =>
      intro h hs
      have hnext := hbody h _ hs _ _ hb
      simpa using hnext _ _ hk
  exact run s t o hr h hs

theorem ensures_bind {h : Trace Q R} {p : Proc Q R α} {f : α → Proc Q R γ}
    {Φ : Trace Q R → Option γ → Prop} (hp : Ensures h p (After f Φ)) :
    Ensures h (p.bind f) Φ := by
  induction p generalizing h with
  | done a =>
    have ha : After f Φ (h ++ []) (some a) := hp [] (some a) ⟨rfl, .inr rfl⟩
    rw [List.append_nil] at ha
    exact ha
  | ask q k ih =>
    refine ensures_ask hp.now (hp [⟨q, none⟩] none (.inr (.inl ⟨rfl, rfl⟩))) fun r => ?_
    refine ih r fun t o hr => ?_
    simpa using hp (⟨q, some r⟩ :: t) o (.inr (.inr ⟨r, t, rfl, hr⟩))
  | @loop σ β α body s k ihbody ihk =>
    -- the invariant: from here on the loop still ensures what it has to
    refine ensures_loop (fun h s => Ensures h (.loop body s k) (After f Φ))
      (fun h s hs t o hr => ?_) hp
    match o with
    | none => exact hs t none (.inside hr)
    | some (.inl s') =>
      intro t' o' hr'
      simpa using hs (t ++ t') o' (.again hr hr')
    | some (.inr b) =>
      refine ihk b fun t' o' hr' => ?_
      simpa using hs (t ++ t') o' (.leave hr hr')

/-- A complete run of the first part goes on with a run of the second. -/
theorem Runs.bind {p : Proc Q R α} {f : α → Proc Q R γ} {t t' : Trace Q R} {a : α}
    {x : Option γ} (hp : Runs p t (some a)) (hf : Runs (f a) t' x) :
    Runs (p.bind f) (t ++ t') x := by
  induction p generalizing t with
  | done b =>
    obtain ⟨rfl, hb⟩ := hp
    obtain rfl := Option.some.inj (hb.resolve_left fun hnone => by cases hnone)
    exact hf
  | ask q k ih =>
    rcases hp with ⟨-, hnone⟩ | ⟨-, hnone⟩ | ⟨r, t, rfl, hr⟩
    · cases hnone
    · cases hnone
    · exact .inr (.inr ⟨r, t ++ t', rfl, ih r hr hf⟩)
  | @loop σ β α body s k ihbody ihk =>
    have run : ∀ s t o, LoopRuns (fun s => Runs (body s)) (fun b => Runs (k b)) s t o →
        o = some a →
        LoopRuns (fun s => Runs (body s)) (fun b => Runs ((k b).bind f)) s (t ++ t') x := by
      intro s t o hr ho
      induction hr with
      | inside hb => cases ho
      | again hb _ ih =>
        rw [List.append_assoc]
        exact .again hb (ih ho)
      | leave hb hk =>
        rw [List.append_assoc]
        exact .leave hb (ihk _ (ho ▸ hk) hf)
    exact run s t _ hp rfl

theorem runs_done (a : α) : Runs (.done a : Proc Q R α) [] (some a) := ⟨rfl, .inr rfl⟩

theorem runs_ask {q : Q} {k : R q → Proc Q R α} {r : R q} {t : Trace Q R} {o : Option α}
    (h : Runs (k r) t o) : Runs (.ask q k) (⟨q, some r⟩ :: t) o := .inr (.inr ⟨r, t, rfl, h⟩)

theorem runs_again {body : σ → Proc Q R (σ ⊕ β)} {k : β → Proc Q R α} {s s' : σ}
    {t t' : Trace Q R} {o : Option α} (h : Runs (body s) t (some (.inl s')))
    (h' : Runs (.loop body s' k) t' o) : Runs (.loop body s k) (t ++ t') o := .again h h'

theorem runs_leave {body : σ → Proc Q R (σ ⊕ β)} {s : σ} {b : β} {t : Trace Q R}
    (h : Runs (body s) t (some (.inr b))) : Runs (.loop body s .done) t (some b) := by
  rw [← List.append_nil t]
  exact .leave h (runs_done b)

theorem Ensures.and {h : Trace Q R} {p : Proc Q R α} {Φ Ψ : Trace Q R → Option α → Prop}
    (hp : Ensures h p Φ) (hp' : Ensures h p Ψ) : Ensures h p fun h o => Φ h o ∧ Ψ h o :=
  fun t o hr => ⟨hp t o hr, hp' t o hr⟩

/-- Whatever is added to a history was added by a run. -/
theorem ensures_runs (h : Trace Q R) (p : Proc Q R α) :
    Ensures h p fun h' o => ∃ t, h' = h ++ t ∧ Runs p t o :=
  fun t _ hr => ⟨t, rfl, hr⟩

theorem Runs.of_done {a b : α} {t : Trace Q R} (h : Runs (.done a : Proc Q R α) t (some b)) :
    t = [] ∧ a = b := by
  obtain ⟨rfl, hnone | hsome⟩ := h
  · cases hnone
  · exact ⟨rfl, (Option.some.inj hsome).symm⟩

theorem Runs.of_ask {q : Q} {k : R q → Proc Q R α} {t : Trace Q R} {a : α}
    (h : Runs (.ask q k) t (some a)) :
    ∃ r t', t = ⟨q, some r⟩ :: t' ∧ Runs (k r) t' (some a) := by
  obtain ⟨-, hnone⟩ | ⟨-, hnone⟩ | hasked := h
  · cases hnone
  · cases hnone
  · exact hasked

/-- A complete run of a sequence is a run of its first part, and one of what follows. -/
theorem Runs.of_bind {p : Proc Q R α} {f : α → Proc Q R γ} {t : Trace Q R} {c : γ}
    (h : Runs (p.bind f) t (some c)) :
    ∃ a t₁ t₂, t = t₁ ++ t₂ ∧ Runs p t₁ (some a) ∧ Runs (f a) t₂ (some c) := by
  have hsplit : Ensures [] (p.bind f) fun t o => o = some c →
      ∃ a t₁ t₂, t = t₁ ++ t₂ ∧ Runs p t₁ (some a) ∧ Runs (f a) t₂ (some c) := by
    refine ensures_bind fun t₁ o hp => ?_
    cases o with
    | none => exact fun hnone => by cases hnone
    | some a =>
      intro t₂ o hf ho
      subst ho
      exact ⟨a, t₁, t₂, rfl, hp, hf⟩
  exact hsplit t _ h rfl

/-- A loop that ends has ended with a round of its own. -/
theorem Runs.of_repeatUntil {body : σ → Proc Q R (σ ⊕ β)} {s : σ} {t : Trace Q R} {b : β}
    (h : Runs (repeatUntil body s) t (some b)) :
    ∃ s' t₁ t₂, t = t₁ ++ t₂ ∧ Runs (body s') t₂ (some (.inr b)) := by
  have hlast : Ensures [] (repeatUntil body s) fun t o => o = some b →
      ∃ s' t₁ t₂, t = t₁ ++ t₂ ∧ Runs (body s') t₂ (some (.inr b)) := by
    refine ensures_loop (fun _ _ => True) (fun t₁ s' _ t₂ o hround => ?_) trivial
    match o with
    | none => exact fun hnone => by cases hnone
    | some (.inl s'') => exact trivial
    | some (.inr b') =>
      refine .leave (ensures_done ?_ ?_)
      · exact fun hnone => by cases hnone
      · intro hb
        obtain rfl := Option.some.inj hb
        exact ⟨s', t₁, t₂, rfl, hround⟩
  exact hlast t _ h rfl

/-- Every request a process can make is of this kind. -/
def Asks (S : Q → Prop) : {α : Type} → Proc Q R α → Prop
  | _, .done _ => True
  | _, .ask q k => S q ∧ ∀ r, Asks S (k r)
  | _, .loop body _ k => (∀ s, Asks S (body s)) ∧ ∀ b, Asks S (k b)

theorem Asks.bind {S : Q → Prop} {p : Proc Q R α} {f : α → Proc Q R γ} (hp : Asks S p)
    (hf : ∀ a, Asks S (f a)) : Asks S (p.bind f) := by
  induction p with
  | done a => exact hf a
  | ask q k ih => exact ⟨hp.1, fun r => ih r (hp.2 r) hf⟩
  | loop body s k _ ihk => exact ⟨hp.1, fun b => ihk b (hp.2 b) hf⟩

/-- A process only adds requests of its kind to a history. -/
theorem Asks.ensures {S : Q → Prop} {p : Proc Q R α} (hp : Asks S p) (h : Trace Q R) :
    Ensures h p fun h' _ => ∃ t, h' = h ++ t ∧ ∀ e ∈ t, S e.request := by
  have added {h' : Trace Q R} {e : Event Q R} (hh : ∃ t, h' = h ++ t ∧ ∀ e ∈ t, S e.request)
      (he : S e.request) : ∃ t, h' ++ [e] = h ++ t ∧ ∀ e ∈ t, S e.request := by
    obtain ⟨t, rfl, ht⟩ := hh
    refine ⟨t ++ [e], List.append_assoc .., fun e' he' => ?_⟩
    rcases List.mem_append.mp he' with hbefore | hlast
    · exact ht e' hbefore
    · exact List.mem_singleton.mp hlast ▸ he
  have run : ∀ h', (∃ t, h' = h ++ t ∧ ∀ e ∈ t, S e.request) →
      Ensures h' p fun h' _ => ∃ t, h' = h ++ t ∧ ∀ e ∈ t, S e.request := by
    induction p with
    | done a => exact fun h' hh => ensures_done hh hh
    | ask q k ih =>
      exact fun h' hh => ensures_ask hh (added hh hp.1) fun r => ih r (hp.2 r) _ (added hh hp.1)
    | loop body s k ihbody ihk =>
      intro h' hh
      refine ensures_loop (fun h' _ => ∃ t, h' = h ++ t ∧ ∀ e ∈ t, S e.request)
        (fun h' s hh => (ihbody s (hp.1 s) h' hh).mono fun h' o ho => ?_) hh
      match o with
      | none => exact ho
      | some (.inl s) => exact ho
      | some (.inr b) => exact ihk b (hp.2 b) h' ho
  exact run h ⟨[], (List.append_nil h).symm, fun _ he => by cases he⟩

theorem Asks.runs {S : Q → Prop} {p : Proc Q R α} (hp : Asks S p) {t : Trace Q R}
    {o : Option α} (h : Runs p t o) : ∀ e ∈ t, S e.request := by
  obtain ⟨t', ht, hkind⟩ := hp.ensures [] t o h
  obtain rfl : t = t' := ht
  exact hkind

/-- Each request of a history is justified by the history it was made after. -/
def Each (P : Trace Q R → Q → Prop) (h : Trace Q R) : Prop :=
  ∀ before e after, h = before ++ e :: after → P before e.request

variable {P : Trace Q R → Q → Prop}

theorem each_nil : Each P ([] : Trace Q R) := by
  intro before e after h
  simp at h

theorem each_concat {h : Trace Q R} {e : Event Q R} :
    Each P (h ++ [e]) ↔ Each P h ∧ P h e.request := by
  constructor
  · intro hall
    refine ⟨fun before e' after hsplit => ?_, hall h e [] rfl⟩
    exact hall before e' (after ++ [e]) (by rw [hsplit]; simp)
  · rintro ⟨hall, hlast⟩ before e' after hsplit
    rcases List.eq_nil_or_concat after with rfl | ⟨after', last, rfl⟩
    · obtain ⟨rfl, hcons⟩ := List.append_inj' hsplit rfl
      obtain rfl := (List.cons.inj hcons).1
      exact hlast
    · refine hall before e' after' ?_
      rw [List.concat_eq_append, ← List.cons_append, ← List.append_assoc] at hsplit
      exact (List.append_inj' hsplit rfl).1

theorem Each.append {h t : Trace Q R} (hall : Each P h)
    (ht : ∀ before e after, t = before ++ e :: after → P (h ++ before) e.request) :
    Each P (h ++ t) := by
  induction t using List.reverseRecOn with
  | nil => rwa [List.append_nil]
  | append_singleton t e ih =>
    rw [← List.append_assoc]
    refine each_concat.mpr ⟨ih fun before e' after hsplit => ?_, ht t e [] rfl⟩
    exact ht before e' (after ++ [e]) (by rw [hsplit]; simp)

/-- Requests that each need less than `n` of their kind before them are at most `n`. -/
theorem Each.length_filterMap_le {f : Event Q R → Option γ} {n : Nat}
    (hf : ∀ h e, P h e.request → (f e).isSome → (h.filterMap f).length < n)
    {h : Trace Q R} (hall : Each P h) : (h.filterMap f).length ≤ n := by
  induction h using List.reverseRecOn with
  | nil => exact Nat.zero_le n
  | append_singleton h e ih =>
    obtain ⟨hbefore, he⟩ := each_concat.mp hall
    rw [List.filterMap_append, List.length_append]
    cases hkind : f e with
    | none => simpa [hkind] using ih hbefore
    | some a =>
      have hlt := hf h e he (by rw [hkind]; rfl)
      simpa [hkind] using Nat.succ_le_of_lt hlt

end Nigiri.Process
