import Mathlib.Data.List.DropRight
import Nigiri.PeerEndpoint

/-! Two readings of an endpoint's authority: the text that is validated, and the text that the URL
standard takes for the authority of a special scheme. Where they agree is exactly where the URL
that is stored names what was validated. -/
namespace Nigiri.Lnd
variable {Hash : Type}

/-- The URL parser, what it has of the user, and its reading of a host. -/
structure UrlLib where
  parse : List Char → Option Url
  username : Url → List Char
  password : Url → Option (List Char)
  parseHost : List Char → Option String

def LndConfig.new (parse : List Char → Option Url) (endpoint : List Char)
    (certificate macaroon : List UInt8) (timeout : Nat) : Except (LndError Hash) LndConfig := do
  let tls ← TlsConfig.new parse endpoint certificate timeout
  LndConfig.authenticated tls macaroon

def isTabOrNewline (c : Char) : Bool := c == '\t' || c == '\n' || c == '\r'

def isControlOrSpace (c : Char) : Bool := c.toNat ≤ 32

def isSchemeChar (c : Char) : Bool := c.isAlphanum || c == '+' || c == '-' || c == '.'

def isSlash (c : Char) : Bool := c == '/' || c == '\\'

def endsAuthority (c : Char) : Bool := isSlash c || c == '?' || c == '#'

def withoutTabs (text : List Char) : List Char := text.filter fun c => !isTabOrNewline c

/-- The text the standard reads. -/
def cleaned (text : List Char) : List Char :=
  withoutTabs ((text.dropWhile isControlOrSpace).rdropWhile isControlOrSpace)

/-- The authority of a special scheme: however many slashes there are, it follows them. -/
def standardAuthority (text : List Char) : Option (List Char) :=
  match (cleaned text).dropWhile isSchemeChar with
  | ':' :: after => some ((after.dropWhile isSlash).takeWhile fun c => !endsAuthority c)
  | _ => none

def userinfoOf (authority : List Char) : List Char :=
  (authority.rdropWhile fun c => c ≠ '@').dropLast

/-- A text up to its first colon outside brackets. -/
def splitHost : Bool → List Char → List Char × List Char
  | _, [] => ([], [])
  | inside, c :: cs =>
    if c = ':' ∧ inside = false then ([], c :: cs)
    else
      let p := splitHost (c == '[' || inside && c != ']') cs
      (c :: p.1, p.2)

def hostOf (authority : List Char) : List Char :=
  (splitHost false (authority.rtakeWhile fun c => c ≠ '@')).1

def portOf (authority : List Char) : List Char :=
  (splitHost false (authority.rtakeWhile fun c => c ≠ '@')).2.drop 1

/-- What is stored of an authority. The port of the scheme is not kept. -/
structure Stores (lib : UrlLib) (authority : List Char) (url : Url) : Prop where
  userinfo : lib.username url = [] ∧ lib.password url = none ↔
    userinfoOf authority = [] ∨ userinfoOf authority = [':']
  host : url.host = lib.parseHost (hostOf authority)
  digits : ∀ c ∈ portOf authority, c.isDigit = true
  port : url.port.map UInt16.toNat =
    if portOf authority = [] ∨ decimal (portOf authority) = 443 then none
    else some (decimal (portOf authority))

/-- What is relied on of the URL parser. -/
structure UrlStandard (lib : UrlLib) : Prop where
  reads : ∀ text url, lib.parse text = some url → url.scheme = "https" →
    ∃ authority, standardAuthority text = some authority ∧ Stores lib authority url
  backslash : ∀ text, '\\' ∈ text → lib.parseHost text = none
  colon : ∀ text host, lib.parseHost text = some host → ':' ∈ text → text.getLast? = some ']'

def storedPort (url : Url) : Nat := (url.port.map UInt16.toNat).getD 443

/-- The stored URL has no user information, and the host and the port that were validated. -/
def UsesChecked (lib : UrlLib) (endpoint : List Char) (url : Url) : Prop :=
  ∃ host port, @originalAuthority Unit endpoint = .ok (host ++ ':' :: port) ∧
    authorityPort (host ++ ':' :: port) = some port ∧
    (lib.username url = [] ∧ lib.password url = none) ∧
    url.host = lib.parseHost (withoutTabs host) ∧ storedPort url = decimal port

section Lists
variable {α : Type*} {p : α → Bool} {d : α} {xs ys : List α}

theorem dropWhile_stop (hd : p d = false) :
    (xs ++ d :: ys).dropWhile p = xs.dropWhile p ++ d :: ys := by
  induction xs with
  | nil => rw [List.nil_append, List.dropWhile_cons_of_neg (by simp [hd])]; rfl
  | cons x xs ih =>
    cases hx : p x with
    | true =>
      rw [List.cons_append, List.dropWhile_cons_of_pos hx, List.dropWhile_cons_of_pos hx, ih]
    | false =>
      rw [List.cons_append, List.dropWhile_cons_of_neg (by simp [hx]),
        List.dropWhile_cons_of_neg (by simp [hx])]
      rfl

theorem rdropWhile_stop (hd : p d = false) :
    (xs ++ d :: ys).rdropWhile p = xs ++ d :: ys.rdropWhile p := by
  rw [List.rdropWhile, List.rdropWhile, List.reverse_append, List.reverse_cons, List.append_assoc]
  have hstop := @dropWhile_stop α p d ys.reverse xs.reverse hd
  rw [List.singleton_append, hstop]
  simp

/-- There is one first place of a letter. -/
theorem first_place {as bs : List α} (h : xs ++ d :: as = ys ++ d :: bs) (hx : d ∉ xs)
    (hy : d ∉ ys) : xs = ys ∧ as = bs := by
  induction xs generalizing ys with
  | nil =>
    cases ys with
    | nil => exact ⟨rfl, (List.cons.inj h).2⟩
    | cons y ys => exact absurd ((List.cons.inj h).1 ▸ List.mem_cons_self) hy
  | cons x xs ih =>
    cases ys with
    | nil => exact absurd ((List.cons.inj h).1 ▸ List.mem_cons_self) hx
    | cons y ys =>
      obtain ⟨rfl, hrest⟩ := List.cons.inj h
      obtain ⟨rfl, rfl⟩ := ih hrest (fun hmem => hx (List.mem_cons_of_mem x hmem))
        fun hmem => hy (List.mem_cons_of_mem x hmem)
      exact ⟨rfl, rfl⟩

/-- And one last place. -/
theorem last_place {as bs : List α} (h : as ++ d :: xs = bs ++ d :: ys) (hx : d ∉ xs)
    (hy : d ∉ ys) : as = bs ∧ xs = ys := by
  have hreverse := congrArg List.reverse h
  simp only [List.reverse_append, List.reverse_cons, List.append_assoc,
    List.singleton_append] at hreverse
  obtain ⟨hxs, has⟩ := first_place hreverse (by simpa using hx) (by simpa using hy)
  exact ⟨List.reverse_injective has, List.reverse_injective hxs⟩

end Lists

/-- The first `://` ends the scheme, and the authority behind it has no backslash. -/
def EndsScheme (endpoint : List Char) : Prop :=
  ∃ front rest, splitOnce "://".toList endpoint = some (front, rest) ∧ ':' ∉ front ∧
    '\\' ∉ rest.takeWhile isAuthorityChar

/-- A colon stands before the first `://`, and what follows the scheme spells the same names. -/
def SpeltTwice (lib : UrlLib) (endpoint : List Char) : Prop :=
  ∃ front rest used host port, splitOnce "://".toList endpoint = some (front, rest) ∧ ':' ∈ front ∧
    rest.takeWhile isAuthorityChar = host ++ ':' :: port ∧
    authorityPort (host ++ ':' :: port) = some port ∧
    standardAuthority endpoint = some used ∧
    (userinfoOf used = [] ∨ userinfoOf used = [':']) ∧
    lib.parseHost (hostOf used) = lib.parseHost (withoutTabs host) ∧
    (if portOf used = [] then 443 else decimal (portOf used)) = decimal port

section Accepted
variable {parse : List Char → Option Url} {endpoint : List Char} {url : Url}

theorem authorityPort_some {authority port : List Char} (h : authorityPort authority = some port) :
    ∃ host, authority = host ++ ':' :: port := by
  rw [authorityPort] at h
  by_cases hopen : authority.head? = some '['
  · rw [if_pos hopen] at h
    have hsplit := @List.takeWhile_append_dropWhile _ (fun c => decide (c ≠ ']')) authority
    cases hdrop : authority.dropWhile fun c => decide (c ≠ ']') with
    | nil =>
      rw [hdrop] at h
      cases h
    | cons c cs =>
      rw [hdrop] at h hsplit
      split at h
      · next heq =>
        obtain ⟨rfl, rfl⟩ := List.cons.inj heq
        cases h
        exact ⟨authority.takeWhile (fun c => decide (c ≠ ']')) ++ [c], by simpa using hsplit.symm⟩
      · cases h
  · rw [if_neg hopen] at h
    split_ifs at h with hcolon
    have hsplit := @List.takeWhile_append_dropWhile _ (fun c => decide (c ≠ ':')) authority.reverse
    have hne : authority.reverse.dropWhile (fun c => decide (c ≠ ':')) ≠ [] := by
      intro hnil
      have hall := List.dropWhile_eq_nil_iff.mp hnil ':' (List.mem_reverse.mpr hcolon)
      simp at hall
    have hhead := List.head_dropWhile_not (fun c => decide (c ≠ ':')) hne
    cases hdrop : authority.reverse.dropWhile fun c => decide (c ≠ ':') with
    | nil => exact absurd hdrop hne
    | cons c cs =>
      simp only [hdrop, List.head_cons] at hhead
      obtain rfl : c = ':' := by simpa using hhead
      rw [hdrop] at hsplit
      have hwhole := congrArg List.reverse hsplit
      rw [List.reverse_append, List.reverse_cons, List.reverse_reverse, List.append_assoc,
        List.singleton_append] at hwhole
      rw [Option.some.injEq] at h
      exact ⟨cs.reverse, by rw [← h]; exact hwhole.symm⟩

theorem validateEndpoint_ok
    (h : (validateEndpoint parse endpoint : Except (LndError Hash) Url) = .ok url) :
    ∃ front rest host port, splitOnce "://".toList endpoint = some (front, rest) ∧
      rest.takeWhile isAuthorityChar = host ++ ':' :: port ∧
      authorityPort (host ++ ':' :: port) = some port ∧ '@' ∉ host ++ ':' :: port ∧
      port ≠ [] ∧ (∀ c ∈ port, c.isDigit = true) ∧ parse endpoint = some url ∧
      url.scheme = "https" ∧ url.host.isSome = true := by
  simp only [validateEndpoint, originalAuthority] at h
  cases hsplit : splitOnce "://".toList endpoint with
  | none =>
    rw [hsplit] at h
    cases h
  | some p =>
    obtain ⟨front, rest⟩ := p
    rw [hsplit] at h
    simp only [bind, Except.bind, validateAuthority] at h
    by_cases huser : '@' ∈ rest.takeWhile isAuthorityChar
    · rw [if_pos huser] at h
      cases h
    rw [if_neg huser] at h
    cases hport : authorityPort (rest.takeWhile isAuthorityChar) with
    | none =>
      rw [hport] at h
      cases h
    | some port =>
      rw [hport] at h
      simp only at h
      split_ifs at h with hbad hbig hzero
      · cases hparse : parse endpoint with
        | none =>
          rw [hparse] at h
          cases h
        | some found =>
          rw [hparse] at h
          simp only at h
          split_ifs at h with hscheme hhost hquery hfragment
          cases h
          obtain ⟨host, hauthority⟩ := authorityPort_some hport
          rw [hauthority] at hport huser
          have hdigits : port ≠ [] ∧ ∀ c ∈ port, c.isDigit = true := by
            simpa using hbad
          exact ⟨front, rest, host, port, rfl, hauthority, hport, huser, hdigits.1, hdigits.2,
            rfl, not_not.mp hscheme, by simpa [Option.isSome_iff_ne_none] using hhost⟩

end Accepted

section Read
variable {endpoint front rest host port : List Char}

theorem digit_plain {c : Char} (h : c.isDigit = true) :
    isControlOrSpace c = false ∧ isTabOrNewline c = false ∧ c ≠ ':' ∧ c ≠ ']' ∧
      endsAuthority c = false := by
  have hcode : 48 ≤ c.toNat ∧ c.toNat ≤ 57 := by
    simpa [Char.isDigit, UInt32.le_iff_toNat_le] using h
  have hne : ∀ d : Char, d.toNat < 48 ∨ 57 < d.toNat → c ≠ d := by
    rintro d hd rfl
    omega
  refine ⟨by simp only [isControlOrSpace, decide_eq_false_iff_not]; omega, ?_,
    hne ':' (by decide), hne ']' (by decide), ?_⟩
  · simp only [isTabOrNewline, Bool.or_eq_false_iff, beq_eq_false_iff_ne]
    exact ⟨⟨hne _ (by decide), hne _ (by decide)⟩, hne _ (by decide)⟩
  · simp only [endsAuthority, isSlash, Bool.or_eq_false_iff, beq_eq_false_iff_ne]
    exact ⟨⟨⟨hne _ (by decide), hne _ (by decide)⟩, hne _ (by decide)⟩, hne _ (by decide)⟩

theorem withoutTabs_cons {c : Char} (h : isTabOrNewline c = false) (text : List Char) :
    withoutTabs (c :: text) = c :: withoutTabs text :=
  List.filter_cons_of_pos (by rw [h]; rfl)

theorem withoutTabs_append (text text' : List Char) :
    withoutTabs (text ++ text') = withoutTabs text ++ withoutTabs text' := List.filter_append ..

theorem withoutTabs_digits (hdigits : ∀ c ∈ port, c.isDigit = true) : withoutTabs port = port := by
  apply List.filter_eq_self.mpr
  intro c hc
  rw [(digit_plain (hdigits c hc)).2.1]
  rfl

/-- What follows an authority begins with the mark that ends it. -/
theorem tail_ends (rest : List Char) :
    ∀ c ∈ (withoutTabs ((rest.dropWhile isAuthorityChar).rdropWhile isControlOrSpace)).head?,
      endsAuthority c = true := by
  intro c hc
  cases htail : rest.dropWhile isAuthorityChar with
  | nil =>
    rw [htail] at hc
    cases hc
  | cons d t =>
    have hd : isAuthorityChar d = false := by
      have hne : rest.dropWhile isAuthorityChar ≠ [] := by simp [htail]
      have hhead := List.head_dropWhile_not isAuthorityChar hne
      simpa [htail] using hhead
    have hmark : d = '/' ∨ d = '?' ∨ d = '#' := by
      simpa only [isAuthorityChar, Bool.not_eq_false', Bool.or_eq_true, beq_iff_eq,
        or_assoc] using hd
    have hplain : isControlOrSpace d = false ∧ isTabOrNewline d = false ∧
        endsAuthority d = true := by
      obtain rfl | rfl | rfl := hmark <;> decide
    have hkeep := @rdropWhile_stop Char isControlOrSpace d [] t hplain.1
    rw [List.nil_append, List.nil_append] at hkeep
    rw [htail, hkeep, withoutTabs_cons hplain.2.1] at hc
    obtain rfl : d = c := by simpa using hc
    exact hplain.2.2

/-- Cleaning a text keeps the marks that delimit its authority, and the digits of its port. -/
theorem cleaned_endpoint (hrest : rest.takeWhile isAuthorityChar = host ++ ':' :: port)
    (hport : port ≠ []) (hdigits : ∀ c ∈ port, c.isDigit = true) :
    cleaned (front ++ "://".toList ++ rest) =
      withoutTabs (front.dropWhile isControlOrSpace) ++
        ':' :: '/' :: '/' :: (withoutTabs host ++ ':' :: port ++
          withoutTabs ((rest.dropWhile isAuthorityChar).rdropWhile isControlOrSpace)) := by
  have hsplit := @List.takeWhile_append_dropWhile _ isAuthorityChar rest
  rw [hrest] at hsplit
  have hlast := List.dropLast_append_getLast hport
  have hdigit := digit_plain (hdigits _ (List.getLast_mem hport))
  have hfront : (front ++ "://".toList ++ rest).dropWhile isControlOrSpace =
      front.dropWhile isControlOrSpace ++ ':' :: '/' :: '/' :: rest := by
    have hstop := @dropWhile_stop Char isControlOrSpace ':' front ('/' :: '/' :: rest) (by decide)
    rw [← hstop, List.append_assoc]
    rfl
  have hback : (front.dropWhile isControlOrSpace ++ ':' :: '/' :: '/' :: rest).rdropWhile
      isControlOrSpace = front.dropWhile isControlOrSpace ++ ':' :: '/' :: '/' ::
        (host ++ ':' :: port ++
          (rest.dropWhile isAuthorityChar).rdropWhile isControlOrSpace) := by
    have hstop := @rdropWhile_stop Char isControlOrSpace (port.getLast hport)
      (front.dropWhile isControlOrSpace ++ ':' :: '/' :: '/' :: (host ++ ':' :: port.dropLast))
      (rest.dropWhile isAuthorityChar) hdigit.1
    have hleft : front.dropWhile isControlOrSpace ++ ':' :: '/' :: '/' :: rest =
        front.dropWhile isControlOrSpace ++ ':' :: '/' :: '/' :: (host ++ ':' :: port.dropLast) ++
          port.getLast hport :: rest.dropWhile isAuthorityChar := by
      conv_lhs => rw [← hsplit, ← hlast]
      simp
    rw [hleft, hstop]
    conv_rhs => rw [← hlast]
    simp
  rw [cleaned, hfront, hback]
  simp only [withoutTabs_append, List.append_assoc, List.cons_append]
  rw [withoutTabs_cons (by decide), withoutTabs_cons (by decide), withoutTabs_cons (by decide),
    withoutTabs_append, withoutTabs_cons (by decide), withoutTabs_append,
    withoutTabs_digits hdigits]

theorem authority_plain (hrest : rest.takeWhile isAuthorityChar = host ++ ':' :: port)
    (hdigits : ∀ c ∈ port, c.isDigit = true) (hslash : '\\' ∉ host) :
    ∀ c ∈ withoutTabs host ++ ':' :: port, endsAuthority c = false := by
  intro c hc
  obtain hc | hc := List.mem_append.mp hc
  · have hin : c ∈ host := (List.mem_filter.mp hc).1
    have hkept : isAuthorityChar c = true :=
      List.mem_takeWhile_imp (hrest ▸ List.mem_append_left _ hin)
    have hne : c ≠ '\\' := fun heq => hslash (heq ▸ hin)
    simp only [isAuthorityChar, Bool.not_eq_true', Bool.or_eq_false_iff] at hkept
    simp [endsAuthority, isSlash, hkept, hne]
  · obtain rfl | hc := List.mem_cons.mp hc
    · decide
    · exact (digit_plain (hdigits c hc)).2.2.2.2

/-- When the first `://` ends the scheme, the standard reads the authority behind it, up to a
backslash if there is one. -/
theorem standardAuthority_behind {used : List Char} (hfront : ':' ∉ front)
    (hrest : rest.takeWhile isAuthorityChar = host ++ ':' :: port) (hport : port ≠ [])
    (hdigits : ∀ c ∈ port, c.isDigit = true)
    (hslash : '\\' ∉ host) (h : standardAuthority (front ++ "://".toList ++ rest) = some used) :
    used = withoutTabs host ++ ':' :: port := by
  have hplain := authority_plain hrest hdigits hslash
  have hscheme := @dropWhile_stop Char isSchemeChar ':'
    (withoutTabs (front.dropWhile isControlOrSpace))
    ('/' :: '/' :: (withoutTabs host ++ ':' :: port ++
      withoutTabs ((rest.dropWhile isAuthorityChar).rdropWhile isControlOrSpace))) (by decide)
  rw [standardAuthority, cleaned_endpoint hrest hport hdigits, hscheme] at h
  cases hleft : (withoutTabs (front.dropWhile isControlOrSpace)).dropWhile isSchemeChar with
  | nil =>
    rw [hleft, List.nil_append] at h
    simp only [Option.some.injEq] at h
    rw [← h, List.dropWhile_cons_of_pos (by decide), List.dropWhile_cons_of_pos (by decide)]
    have hkeep : (withoutTabs host ++ ':' :: port ++ withoutTabs
        ((rest.dropWhile isAuthorityChar).rdropWhile isControlOrSpace)).dropWhile isSlash =
        withoutTabs host ++ ':' :: port ++ withoutTabs
          ((rest.dropWhile isAuthorityChar).rdropWhile isControlOrSpace) := by
      cases htext : withoutTabs host ++ ':' :: port with
      | nil => simp at htext
      | cons c cs =>
        rw [htext] at hplain
        have hc := (List.forall_mem_cons.mp hplain).1
        simp only [endsAuthority, Bool.or_eq_false_iff] at hc
        rw [List.cons_append, List.dropWhile_cons_of_neg (by rw [hc.1.1]; exact Bool.false_ne_true)]
    rw [hkeep, List.takeWhile_append_of_pos fun c hc => by rw [hplain c hc]; rfl]
    have htail := tail_ends rest
    cases hend : withoutTabs ((rest.dropWhile isAuthorityChar).rdropWhile isControlOrSpace) with
    | nil => rw [List.takeWhile_nil, List.append_nil]
    | cons c cs =>
      have hc := htail c (by rw [hend]; rfl)
      rw [List.takeWhile_cons_of_neg (by rw [hc]; exact Bool.false_ne_true), List.append_nil]
  | cons d ds =>
    have hmem : d ∈ front := by
      have hin : d ∈ (withoutTabs (front.dropWhile isControlOrSpace)).dropWhile isSchemeChar :=
        hleft ▸ List.mem_cons_self
      have hkept := (List.dropWhile_suffix _).subset hin
      exact (List.dropWhile_suffix _).subset (List.mem_filter.mp hkept).1
    rw [hleft, List.cons_append] at h
    split at h
    · next heq =>
      obtain ⟨rfl, _⟩ := List.cons.inj heq
      exact absurd hmem hfront
    · cases h

theorem splitHost_spec (inside : Bool) (text : List Char) :
    text = (splitHost inside text).1 ++ (splitHost inside text).2 ∧
      ((splitHost inside text).2 = [] ∨
        (splitHost inside text).2 = ':' :: (splitHost inside text).2.drop 1) := by
  induction text generalizing inside with
  | nil => exact ⟨rfl, .inl rfl⟩
  | cons c cs ih =>
    rw [splitHost]
    split_ifs with hcolon
    · obtain ⟨rfl, _⟩ := hcolon
      exact ⟨rfl, .inr rfl⟩
    · obtain ⟨hsplit, hrest⟩ := ih (c == '[' || inside && c != ']')
      exact ⟨congrArg (List.cons c) hsplit, hrest⟩

/-- The standard's host and port of an authority are the host and the port before and behind its
last colon, when the one can be read and the other is a number. -/
theorem readings_agree {lib : UrlLib} {found : String} (hlib : UrlStandard lib)
    (huser : '@' ∉ host ++ ':' :: port) (hport : port ≠ [])
    (hdigits : ∀ c ∈ port, c.isDigit = true)
    (hhost : lib.parseHost (hostOf (host ++ ':' :: port)) = some found)
    (hnumber : ∀ c ∈ portOf (host ++ ':' :: port), c.isDigit = true) :
    userinfoOf (host ++ ':' :: port) = [] ∧ hostOf (host ++ ':' :: port) = host ∧
      portOf (host ++ ':' :: port) = port := by
  have hall : ∀ c ∈ host ++ ':' :: port, (decide (c ≠ '@')) = true := by
    intro c hc
    exact decide_eq_true fun heq => huser (heq ▸ hc)
  have hwhole : (host ++ ':' :: port).rtakeWhile (fun c => c ≠ '@') = host ++ ':' :: port :=
    List.rtakeWhile_eq_self_iff.mpr hall
  have hnone : (host ++ ':' :: port).rdropWhile (fun c => c ≠ '@') = [] :=
    List.rdropWhile_eq_nil_iff.mpr hall
  have hcolon : ':' ∉ port := fun hmem => (digit_plain (hdigits ':' hmem)).2.2.1 rfl
  obtain ⟨hsplit, hrest⟩ := splitHost_spec false (host ++ ':' :: port)
  rw [hostOf, hwhole] at hhost
  rw [portOf, hwhole] at hnumber
  refine ⟨by rw [userinfoOf, hnone]; rfl, ?_⟩
  rw [hostOf, portOf, hwhole]
  obtain hempty | hbehind := hrest
  · -- the whole would be the host, but it ends with a digit
    rw [hempty, List.append_nil] at hsplit
    rw [← hsplit] at hhost
    have hend := hlib.colon _ _ hhost (List.mem_append_right _ List.mem_cons_self)
    have hlast : port.getLast? = some ']' := by
      rw [List.getLast?_append_of_ne_nil _ (List.cons_ne_nil _ _),
        List.getLast?_cons_of_ne_nil hport] at hend
      exact hend
    exact absurd rfl (digit_plain (hdigits ']' (List.mem_of_getLast? hlast))).2.2.2.1
  · rw [hbehind] at hsplit
    obtain ⟨hfirst, hlast⟩ := last_place hsplit hcolon fun hmem =>
      (digit_plain (hnumber ':' hmem)).2.2.1 rfl
    exact ⟨hfirst.symm, hlast.symm⟩

end Read

section Used
variable {lib : UrlLib} {endpoint used : List Char} {url : Url}

theorem Stores.storedPort (h : Stores lib used url) :
    storedPort url = if portOf used = [] then 443 else decimal (portOf used) := by
  rw [Lnd.storedPort, h.port]
  split_ifs with hnone hempty hempty
  · rfl
  · exact (hnone.resolve_left hempty).symm
  · exact absurd (.inl hempty) hnone
  · rfl

theorem new_validates {certificate macaroon : List UInt8} {timeout : Nat} {config : LndConfig}
    (h : @LndConfig.new Hash lib.parse endpoint certificate macaroon timeout = .ok config) :
    @validateEndpoint Hash lib.parse endpoint = .ok config.tls.endpoint := by
  unfold LndConfig.new at h
  cases htls : @TlsConfig.new Hash lib.parse endpoint certificate timeout with
  | error e =>
    rw [htls] at h
    cases h
  | ok tls =>
    rw [htls] at h
    have hsame : config.tls = tls := by
      simp only [bind, Except.bind, LndConfig.authenticated] at h
      cases hmacaroon : @validateCredential Hash "macaroon" macaroon.length MAX_MACAROON_BYTES with
      | error e =>
        rw [hmacaroon] at h
        cases h
      | ok bounds =>
        rw [hmacaroon] at h
        cases h
        rfl
    rw [hsame]
    simp only [TlsConfig.new, bind, Except.bind] at htls
    cases hurl : @validateEndpoint Hash lib.parse endpoint with
    | error e =>
      rw [hurl] at htls
      cases htls
    | ok url =>
      rw [hurl] at htls
      simp only at htls
      split at htls
      · cases htls
      · split_ifs at htls
        cases htls
        rfl

/-- The stored URL names what was validated exactly when the first `://` ends the scheme and no
backslash stands before the end of the authority, but for an authority that is spelt twice. -/
theorem endpoint_authority_used (hlib : UrlStandard lib) (certificate macaroon : List UInt8)
    (timeout : Nat) (config : LndConfig)
    (hconfig : @LndConfig.new Hash lib.parse endpoint certificate macaroon timeout = .ok config) :
    UsesChecked lib endpoint config.tls.endpoint ↔
      EndsScheme endpoint ∨ SpeltTwice lib endpoint := by
  obtain ⟨front, rest, host, port, hsplit, hrest, hauthority, huser, hport, hdigits, hparse,
    hscheme, hsome⟩ := validateEndpoint_ok (new_validates hconfig)
  obtain ⟨used, hused, hstores⟩ := hlib.reads _ _ hparse hscheme
  obtain ⟨found, hfound⟩ := Option.isSome_iff_exists.mp hsome
  have hchecked : @originalAuthority Unit endpoint = .ok (host ++ ':' :: port) := by
    rw [originalAuthority, hsplit]
    exact congrArg Except.ok hrest
  by_cases hfront : ':' ∈ front
  · constructor
    · intro h
      obtain ⟨host', port', hchecked', hauthority', huserinfo, hhost, hstored⟩ := h
      rw [hchecked, Except.ok.injEq] at hchecked'
      rw [← hchecked', hauthority, Option.some.injEq] at hauthority'
      subst hauthority'
      obtain rfl := List.append_cancel_right hchecked'
      rw [hstores.host] at hhost
      rw [hstores.storedPort] at hstored
      exact .inr ⟨front, rest, used, host, port, hsplit, hfront, hrest, hauthority, hused,
        hstores.userinfo.mp huserinfo, hhost, hstored⟩
    · intro h
      obtain ⟨front', rest', hsplit', hfront', _⟩ |
        ⟨front', rest', used', host', port', hsplit', _, hrest', hauthority', hused', huserinfo,
          hhost, hstored⟩ := h
      · rw [hsplit, Option.some.injEq, Prod.mk.injEq] at hsplit'
        exact absurd (hsplit'.1 ▸ hfront) hfront'
      · rw [hsplit, Option.some.injEq, Prod.mk.injEq] at hsplit'
        rw [hused, Option.some.injEq] at hused'
        subst hused'
        refine ⟨host', port', ?_, hauthority', hstores.userinfo.mpr huserinfo, ?_, ?_⟩
        · rw [originalAuthority, hsplit]
          exact congrArg Except.ok (hsplit'.2 ▸ hrest')
        · rw [hstores.host, hhost]
        · rw [hstores.storedPort, hstored]
  · by_cases hslash : '\\' ∈ host
    · constructor
      · intro h
        obtain ⟨host', port', hchecked', hauthority', _, hhost, _⟩ := h
        rw [hchecked, Except.ok.injEq] at hchecked'
        rw [← hchecked', hauthority, Option.some.injEq] at hauthority'
        subst hauthority'
        obtain rfl := List.append_cancel_right hchecked'
        have hkept : '\\' ∈ withoutTabs host := List.mem_filter.mpr ⟨hslash, by decide⟩
        rw [hfound, hlib.backslash _ hkept] at hhost
        cases hhost
      · intro h
        obtain ⟨front', rest', hsplit', _, hclear⟩ |
          ⟨front', rest', _, _, _, hsplit', hfront', _⟩ := h
        · rw [hsplit, Option.some.injEq, Prod.mk.injEq] at hsplit'
          rw [← hsplit'.2, hrest] at hclear
          exact absurd (List.mem_append_left _ hslash) hclear
        · rw [hsplit, Option.some.injEq, Prod.mk.injEq] at hsplit'
          exact absurd (hsplit'.1 ▸ hfront') hfront
    · have hclear : '\\' ∉ host ++ ':' :: port := by
        intro hmem
        obtain hmem | hmem := List.mem_append.mp hmem
        · exact hslash hmem
        · obtain heq | hmem := List.mem_cons.mp hmem
          · exact absurd heq (by decide)
          · exact absurd (hdigits _ hmem) (by decide)
      constructor
      · exact fun _ => .inl ⟨front, rest, hsplit, hfront, hrest ▸ hclear⟩
      · intro _
        have hwhole := splitOnce_some hsplit
        rw [hwhole] at hused
        have hbehind := standardAuthority_behind hfront hrest hport hdigits hslash hused
        subst hbehind
        have huser' : '@' ∉ withoutTabs host ++ ':' :: port := by
          intro hmem
          obtain hmem | hmem := List.mem_append.mp hmem
          · exact huser (List.mem_append_left _ (List.mem_filter.mp hmem).1)
          · exact huser (List.mem_append_right _ hmem)
        have hhost := hstores.host
        rw [hfound] at hhost
        obtain ⟨huserinfo, hreadHost, hreadPort⟩ := readings_agree hlib huser' hport hdigits
          hhost.symm hstores.digits
        refine ⟨host, port, hchecked, hauthority, hstores.userinfo.mpr (.inl huserinfo), ?_, ?_⟩
        · rw [hstores.host, hreadHost]
        · rw [hstores.storedPort, hreadPort, if_neg hport]

end Used

section Known
variable (endpoint : List Char) (url : Url) (username : List Char) (password : Option (List Char))

/-- A parser of one text. Its hosts are plain names. -/
def knownUrl : UrlLib where
  parse text := if text = endpoint then some url else none
  username _ := username
  password _ := password
  parseHost text :=
    if text.all fun c => c.isAlphanum || c == '.' || c == '-' then some (String.ofList text)
    else none

theorem knownUrl_standard (authority : List Char)
    (hauthority : standardAuthority endpoint = some authority)
    (hstores : Stores (knownUrl endpoint url username password) authority url) :
    UrlStandard (knownUrl endpoint url username password) where
  reads text found hparse _ := by
    simp only [knownUrl] at hparse
    split_ifs at hparse with htext
    cases hparse
    subst htext
    exact ⟨authority, hauthority, hstores⟩
  backslash text hmem := by
    refine if_neg fun hall => ?_
    exact absurd (List.all_eq_true.mp hall _ hmem) (by decide)
  colon text host hhost hmem := by
    simp only [knownUrl] at hhost
    split_ifs at hhost with hall
    exact absurd (List.all_eq_true.mp hall _ hmem) (by decide)

end Known

def localUrl : Url where
  text := "https://localhost:10009/".toList
  scheme := "https"
  port := some 10009
  host := some "localhost"
  query := none
  fragment := none

theorem endpoint_authority_used_local :
    let endpoint := "https://localhost:10009".toList
    let lib := knownUrl endpoint localUrl [] none
    ∃ config, @LndConfig.new Unit lib.parse endpoint [1] [2] 1 = .ok config ∧
      UsesChecked lib endpoint config.tls.endpoint := by
  intro endpoint lib
  have hlib : UrlStandard lib := knownUrl_standard _ _ _ _ "localhost:10009".toList (by decide)
    ⟨by decide, by decide, fun c hc => List.all_eq_true.mp (by decide) c hc, by decide⟩
  refine ⟨⟨⟨localUrl, [1], 1, by decide, by decide⟩, [2], by decide⟩, rfl, ?_⟩
  apply (@endpoint_authority_used Unit lib endpoint hlib [1] [2] 1 _ rfl).mpr
  exact .inl ⟨"https".toList, "localhost:10009".toList, by decide⟩

def spoofedUrl : Url where
  text := "https://user:pw@evil.example/x://good.example:10009".toList
  scheme := "https"
  port := none
  host := some "evil.example"
  query := none
  fragment := none

/-- The authority behind the later `://` is validated, and the one behind the scheme is used. -/
theorem later_authority_checked : ¬ ∀ (lib : UrlLib) (endpoint : List Char)
    (certificate macaroon : List UInt8) (timeout : Nat) (config : LndConfig), UrlStandard lib →
    @LndConfig.new Unit lib.parse endpoint certificate macaroon timeout = .ok config →
    UsesChecked lib endpoint config.tls.endpoint := by
  intro h
  have hlib : UrlStandard (knownUrl "https:user:pw@evil.example:443/x://good.example:10009".toList
      spoofedUrl "user".toList (some "pw".toList)) :=
    knownUrl_standard _ _ _ _ "user:pw@evil.example:443".toList (by decide)
      ⟨by decide, by decide, fun c hc => List.all_eq_true.mp (by decide) c hc, by decide⟩
  obtain ⟨host, port, _, _, huserinfo, _⟩ := h _
    "https:user:pw@evil.example:443/x://good.example:10009".toList [1] [2] 1
    ⟨⟨spoofedUrl, [1], 1, by decide, by decide⟩, [2], by decide⟩ hlib rfl
  cases huserinfo.1

end Nigiri.Lnd
