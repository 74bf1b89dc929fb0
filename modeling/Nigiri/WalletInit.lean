import Nigiri.WalletUnlocker

/-! A wallet is initialized at most once. The argument is the classification of errors:
every error that can arise once the wallet has been dispatched is one the retry policy
refuses, so the round that dispatches it is the last. -/
namespace Nigiri.Lnd
open Nigiri.WireFormat Nigiri.Process
variable {Hash Instant : Type}

/-- A seed as it may be used: 24 words, none empty, none over the byte limit. -/
structure ValidSeed (words : List Bytes) : Prop where
  length : words.length = CIPHER_SEED_WORDS
  word : ∀ w ∈ words, w ≠ [] ∧ w.length ≤ MAX_CIPHER_SEED_WORD_BYTES

abbrev WalletEvent := Event WalletCall fun call => Option call.Answer

def dispatchesWallet (e : WalletEvent) : Bool :=
  match e.request with
  | .initWallet _ => true
  | .genSeed _ | .retryDelay => false

def seedEvent (words : List Bytes) : WalletEvent :=
  ⟨.genSeed genSeedRequest, some (some (.response words))⟩

def walletEvent (password : Bytes) (words : List Bytes)
    (reply : Option (Option (Reply Bytes))) : WalletEvent :=
  ⟨.initWallet (initWalletRequest password words), reply⟩

/-- No wallet has been dispatched. -/
def Undispatched (h : List WalletEvent) : Prop := ∀ e ∈ h, dispatchesWallet e = false

/-- The last two requests are a seed generation and the dispatch of a wallet with it. -/
def Dispatched (password : Bytes) (h : List WalletEvent)
    (reply : Option (Option (Reply Bytes))) : Prop :=
  ∃ before words, h = before ++ [seedEvent words, walletEvent password words reply] ∧
    Undispatched before ∧ ValidSeed words

theorem checkSeedWords_ok {total : Nat} {words : List Bytes}
    (h : (checkSeedWords total words : Except (LndError Hash) Unit) = .ok ()) :
    ∀ w ∈ words, w ≠ [] ∧ w.length ≤ MAX_CIPHER_SEED_WORD_BYTES := by
  induction words generalizing total with
  | nil => simp
  | cons word words ih =>
    unfold checkSeedWords at h
    split at h
    · cases h
    · rename_i hword
      obtain ⟨hne, hle⟩ := not_or.mp hword
      split at h
      · cases h
      · split at h
        · cases h
        · exact List.forall_mem_cons.mpr ⟨⟨hne, by omega⟩, ih h⟩

theorem checkSeedWords_of_valid {total : Nat} {words : List Bytes}
    (hword : ∀ w ∈ words, w ≠ [] ∧ w.length ≤ MAX_CIPHER_SEED_WORD_BYTES)
    (htotal : total + words.length * MAX_CIPHER_SEED_WORD_BYTES ≤ MAX_CIPHER_SEED_BYTES) :
    (checkSeedWords total words : Except (LndError Hash) Unit) = .ok () := by
  induction words generalizing total with
  | nil => rfl
  | cons word words ih =>
    obtain ⟨⟨hne, hle⟩, hrest⟩ := List.forall_mem_cons.mp hword
    have hmax : MAX_CIPHER_SEED_BYTES < 2 ^ 64 := by decide
    rw [List.length_cons, Nat.add_mul, Nat.one_mul] at htotal
    rw [checkSeedWords, if_neg (not_or.mpr ⟨hne, by omega⟩), if_neg (by omega),
      if_neg (by omega)]
    exact ih hrest (by omega)

/-- The validation accepts exactly these seeds; its sum check is never the one to refuse. -/
theorem validateCipherSeed_ok_iff {words : List Bytes} :
    (validateCipherSeed words : Except (LndError Hash) Unit) = .ok () ↔ ValidSeed words := by
  unfold validateCipherSeed
  constructor
  · intro h
    split at h
    · cases h
    · rename_i hlength
      exact ⟨not_not.mp hlength, checkSeedWords_ok h⟩
  · intro h
    rw [if_neg (not_not.mpr h.length)]
    refine checkSeedWords_of_valid h.word ?_
    rw [h.length, Nat.zero_add]
    exact Nat.le_refl _

/-- Whatever the daemon answers to a dispatched wallet, and whatever becomes of the answer
after that, the retry policy does not take it for a delayed seed generation. -/
theorem initialized_not_transient {lib : TransportLib} {validated : TlsConfig}
    {reply : Except (LndError Hash) Bytes} {e : LndError Hash}
    (h : (initializedConfig validated reply).bind (LndClient.withConfig lib) = .error e) :
    isTransientSeedGeneration e = false := by
  unfold initializedConfig at h
  cases reply with
  | error source =>
    obtain rfl := Except.error.inj h
    rfl
  | ok macaroon =>
    by_cases hm : macaroon = [] ∨ MAX_MACAROON_BYTES < macaroon.length
    · simp only [if_pos hm] at h
      obtain rfl := Except.error.inj h
      rfl
    · simp only [if_neg hm] at h
      obtain ⟨hne, hle⟩ := not_or.mp hm
      have hsize : 0 < macaroon.length ∧ macaroon.length ≤ MAX_MACAROON_BYTES :=
        ⟨List.length_pos_iff.mpr hne, by omega⟩
      rw [LndConfig.authenticated_ok validated macaroon hsize] at h
      rw [LndClient.withConfig_error h]
      rfl

theorem Undispatched.append {h t : List WalletEvent} (hh : Undispatched h)
    (ht : Undispatched t) : Undispatched (h ++ t) := by
  intro e he
  rcases List.mem_append.mp he with he | he
  · exact hh e he
  · exact ht e he

theorem Undispatched.seed {h : List WalletEvent} (hh : Undispatched h)
    (reply : Option (Option (Reply (List Bytes)))) :
    Undispatched (h ++ [⟨.genSeed genSeedRequest, reply⟩]) := by
  refine hh.append fun e he => ?_
  obtain rfl := List.mem_singleton.mp he
  rfl

theorem Undispatched.delay {h : List WalletEvent} (hh : Undispatched h)
    (reply : Option (Option Unit)) : Undispatched (h ++ [⟨.retryDelay, reply⟩]) := by
  refine hh.append fun e he => ?_
  obtain rfl := List.mem_singleton.mp he
  rfl

/-- One attempt under the startup deadline: either it dispatches nothing, or its last act
is to dispatch a wallet with the seed just validated, and its result is final. -/
def AttemptPost (password : Bytes) (h : List WalletEvent)
    (o : Option (Option (Except (LndError Hash) LndClient))) : Prop :=
  Undispatched h ∨ ∃ reply, Dispatched password h reply ∧ ∀ result, o = some result →
    (reply = some none ∧ result = none) ∨ (∃ client, result = some (.ok client)) ∨
      ∃ e, result = some (.error e) ∧ isTransientSeedGeneration e = false

theorem connectorInitialize_ensures (setup : WalletSetup Instant) (config : LndBootstrapConfig)
    (password : Bytes) {h : List WalletEvent} (hh : Undispatched h) :
    Ensures h (@connectorInitialize Hash Instant setup config password).within
      (AttemptPost password) := by
  have quiet {h : List WalletEvent} (hh : Undispatched h)
      (r : Option (Except (LndError Hash) LndClient)) :
      Ensures h (.done r : DeadlineProc _) (AttemptPost password) :=
    ensures_done (.inl hh) (.inl hh)
  unfold connectorInitialize initializeWallet
  cases (validatedTransportConfig setup.parse config password
    : Except (LndError Hash) TlsConfig) with
  | error e => exact quiet hh _
  | ok validated =>
    dsimp only
    cases (tlsEndpoint setup.lib validated : Except (LndError Hash) Unit) with
    | error e => exact quiet hh _
    | ok _ =>
      dsimp only [initializeWalletValidated]
      cases (operationDeadline setup.checkedAdd validated.timeout
        : Except (LndError Hash) Instant) with
      | error e => exact quiet hh _
      | ok _ =>
        simp only [bind_eq, Proc.bind, Proc.within]
        refine ensures_ask ?_ ?_ fun reply => ?_
        · exact .inl hh
        · exact .inl (hh.seed none)
        cases reply with
        | none => exact quiet (hh.seed _) _
        | some reply =>
          cases reply with
          | status s => exact quiet (hh.seed _) _
          | elapsed => exact quiet (hh.seed _) _
          | response words =>
            dsimp only [boundedRequestUntil]
            cases hwords : (validateCipherSeed words : Except (LndError Hash) Unit) with
            | error e => exact quiet (hh.seed _) _
            | ok _ =>
              have hdispatched (reply) : Dispatched password
                  (h ++ [seedEvent words] ++ [walletEvent password words reply]) reply :=
                ⟨h, words, by simp, hh, validateCipherSeed_ok_iff.mp hwords⟩
              simp only [Proc.bind, Proc.within]
              refine ensures_ask ?_ ?_ fun reply => ?_
              · exact .inl (hh.seed _)
              · exact .inr ⟨none, hdispatched none, fun _ h => by cases h⟩
              cases reply with
              | none =>
                refine ensures_done (Or.inr ⟨_, hdispatched _, fun _ h => by cases h⟩)
                  (Or.inr ⟨_, hdispatched _, fun result h => ?_⟩)
                obtain rfl := Option.some.inj h
                exact .inl ⟨rfl, rfl⟩
              | some reply =>
                refine ensures_done (Or.inr ⟨_, hdispatched _, fun _ h => by cases h⟩)
                  (Or.inr ⟨_, hdispatched _, fun result h => ?_⟩)
                obtain rfl := Option.some.inj h
                cases hr : (initializedConfig validated (boundedRequestUntil validated.timeout
                    "initialize wallet" reply) : Except (LndError Hash) LndConfig).bind
                    (LndClient.withConfig setup.lib) with
                | ok client => exact .inr (.inl ⟨client, congrArg some hr⟩)
                | error e =>
                  exact .inr (.inr ⟨e, congrArg some hr, initialized_not_transient hr⟩)

/-- How the loop may end once a wallet has been dispatched: with a client, with an error the
retry policy refuses, or by the startup deadline that cut the answer off. -/
def FinalResult (service operation : String) (reply : Option (Option (Reply Bytes)))
    (result : Except (FixtureError Hash) LndClient) : Prop :=
  (∃ client, result = .ok client) ∨
    (∃ source, result = .error (.bootstrap operation source) ∧
      isTransientSeedGeneration source = false) ∨
    (reply = some none ∧ ∃ observation, result = .error (.readinessTimeout service observation))

/-- The whole loop: nothing dispatched yet, or the dispatch is its last request. -/
def LoopPost (password : Bytes) (service operation : String) (h : List WalletEvent)
    (o : Option (Except (FixtureError Hash) LndClient)) : Prop :=
  Undispatched h ∨ ∃ reply, Dispatched password h reply ∧
    ∀ result, o = some result → FinalResult service operation reply result

/-- One round: it may be followed by another only while nothing is dispatched. -/
def RoundPost (password : Bytes) (service operation : String) (h : List WalletEvent) :
    Option (Observation Hash ⊕ Except (FixtureError Hash) LndClient) → Prop
  | none => @LoopPost Hash password service operation h none
  | some (.inl _) => Undispatched h
  | some (.inr result) => LoopPost password service operation h (some result)

theorem initializeRound_ensures (setup : WalletSetup Instant) (config : LndBootstrapConfig)
    (password : Bytes) (service operation : String) (observation : Observation Hash)
    {h : List WalletEvent} (hh : Undispatched h) :
    Ensures h (initializeRound setup config password service operation observation)
      (RoundPost password service operation) := by
  refine ensures_bind ((connectorInitialize_ensures setup config password hh).mono ?_)
  have finish {h : List WalletEvent}
      {x : Observation Hash ⊕ Except (FixtureError Hash) LndClient}
      (hnow : @RoundPost Hash password service operation h none)
      (hx : RoundPost password service operation h (some x)) :
      Ensures h (.done x : DeadlineProc _) (RoundPost password service operation) :=
    ensures_done hnow hx
  rintro h (_ | result) hpost
  · rcases hpost with hh | ⟨reply, hd, -⟩
    · exact .inl hh
    · exact .inr ⟨reply, hd, fun _ h => by cases h⟩
  rcases hpost with hh | ⟨reply, hd, hresult⟩
  · -- nothing dispatched: the round may end the loop in any way, or go round again
    match result with
    | none => exact finish (.inl hh) (.inl hh)
    | some (.ok client) => exact finish (.inl hh) (.inl hh)
    | some (.error source) =>
      dsimp only [After]
      split
      · refine ensures_ask ?_ ?_ fun r => ?_
        · exact .inl hh
        · exact .inl (hh.delay none)
        match r with
        | none => exact finish (.inl (hh.delay _)) (.inl (hh.delay _))
        | some () => exact finish (.inl (hh.delay _)) (hh.delay _)
      · exact finish (.inl hh) (.inl hh)
  · -- a wallet was dispatched: its result is one the loop returns
    have now : @RoundPost Hash password service operation h none :=
      .inr ⟨reply, hd, fun _ h => by cases h⟩
    have final {r : Except (FixtureError Hash) LndClient}
        (hr : FinalResult service operation reply r) :
        RoundPost password service operation h (some (.inr r)) := by
      refine .inr ⟨reply, hd, fun result h => ?_⟩
      obtain rfl := Option.some.inj h
      exact hr
    rcases hresult result rfl with ⟨hreply, rfl⟩ | ⟨client, rfl⟩ | ⟨e, rfl, he⟩
    · exact finish now (final (.inr (.inr ⟨hreply, _, rfl⟩)))
    · exact finish now (final (.inl ⟨client, rfl⟩))
    · simp only [After, he]
      exact finish now (final (.inr (.inl ⟨e, rfl, he⟩)))

theorem initializeLndClient_ensures (setup : WalletSetup Instant) (config : LndBootstrapConfig)
    (password : Bytes) (service operation : String) :
    Ensures [] (@initializeLndClient Hash Instant setup config password service operation)
      (LoopPost password service operation) := by
  refine ensures_loop (fun h _ => Undispatched h) (fun h observation hh => ?_)
    (fun e he => by cases he)
  refine (initializeRound_ensures setup config password service operation observation hh).mono
    fun h o ho => ?_
  match o with
  | none => exact ho
  | some (.inl _) => exact ho
  | some (.inr result) =>
    refine ensures_done ?_ ho
    rcases ho with ho | ⟨reply, hd, -⟩
    · exact .inl ho
    · exact .inr ⟨reply, hd, fun _ h => by cases h⟩

/-- Where only the last member has a property, that is where it is found. -/
theorem eq_of_append_cons_eq_concat {α : Type*} {P : α → Bool} {xs ys zs : List α} {x w : α}
    (h : xs ++ x :: ys = zs ++ [w]) (hx : P x = true) (hzs : ∀ z ∈ zs, P z = false) :
    xs = zs ∧ x = w ∧ ys = [] := by
  rcases List.eq_nil_or_concat ys with rfl | ⟨front, last, rfl⟩
  · obtain ⟨rfl, hw⟩ := List.append_inj' h rfl
    exact ⟨rfl, List.head_eq_of_cons_eq hw, rfl⟩
  · have hsplit : (xs ++ x :: front) ++ [last] = zs ++ [w] := by simpa using h
    have hfront : xs ++ x :: front = zs := (List.append_inj' hsplit rfl).1
    have hmem : x ∈ zs := hfront ▸ List.mem_append_right _ List.mem_cons_self
    rw [hzs x hmem] at hx
    cases hx

theorem Undispatched.countP {h : List WalletEvent} (hh : Undispatched h) :
    h.countP dispatchesWallet = 0 :=
  List.countP_eq_zero.mpr fun e he => by simp [hh e he]

/-- In every run of the retry loop a wallet is dispatched at most once, with exactly the
words of the validated seed response just before it; it is the loop's last request, and
the result is a client or an error that is not retried. -/
theorem init_wallet_dispatched_at_most_once (setup : WalletSetup Instant)
    (config : LndBootstrapConfig) (password : Bytes) (service operation : String) :
    Ensures [] (@initializeLndClient Hash Instant setup config password service operation)
      fun h o =>
        h.countP dispatchesWallet ≤ 1 ∧
        ∀ before request reply after, h = before ++ ⟨.initWallet request, reply⟩ :: after →
          (∃ earlier words, before = earlier ++ [seedEvent words] ∧ ValidSeed words ∧
            request = initWalletRequest password words) ∧
          after = [] ∧
          ∀ result, o = some result → FinalResult service operation reply result := by
  refine (initializeLndClient_ensures setup config password service operation).mono ?_
  rintro h o (hh | ⟨reply, ⟨earlier, words, rfl, hearlier, hwords⟩, hresult⟩)
  · refine ⟨by simp [hh.countP], fun before request reply after heq => ?_⟩
    have hmem : (⟨.initWallet request, reply⟩ : WalletEvent) ∈ h := by simp [heq]
    cases hh _ hmem
  · have hbefore : Undispatched (earlier ++ [seedEvent words]) := hearlier.seed _
    have hsplit : earlier ++ [seedEvent words, walletEvent password words reply]
        = (earlier ++ [seedEvent words]) ++ [walletEvent password words reply] := by simp
    rw [hsplit]
    refine ⟨?_, fun before request reply' after heq => ?_⟩
    · rw [List.countP_append, hbefore.countP, Nat.zero_add]
      exact List.countP_le_length
    · obtain ⟨rfl, hlast, rfl⟩ := eq_of_append_cons_eq_concat heq.symm rfl hbefore
      obtain ⟨hrequest, hreply⟩ := Event.mk.inj hlast
      obtain rfl := WalletCall.initWallet.inj hrequest
      obtain rfl := eq_of_heq hreply
      exact ⟨⟨earlier, words, rfl, hwords, rfl⟩, rfl, hresult⟩

end Nigiri.Lnd
