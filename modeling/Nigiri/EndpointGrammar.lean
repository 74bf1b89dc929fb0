import Nigiri.EndpointRules

/-! Which texts are accepted as peer endpoints, and how their ports compare with those of the
node's own endpoint. -/
namespace Nigiri.Lnd
open Nigiri.Core (isWhitespace trimMatches)
variable {V4 V6 : Type}

/-- The hosts of the grammar: a name, an address of version four, or one of version six in
brackets. -/
inductive HostText (ip : IpLib V4 V6) : List Char → Prop where
  | name (text : List Char) (host : PeerHost V4 V6) (h : NameText text host) : HostText ip text
  | v4 (text : List Char) (address : V4) (h : ip.parseV4 text = some address) : HostText ip text
  | v6 (inner : List Char) (address : V6) (h : ip.parseV6 inner = some address) :
    HostText ip ('[' :: inner ++ "]".toList)

/-- A port in decimal digits only. -/
structure PortText (port : List Char) : Prop where
  nonempty : port ≠ []
  digits : ∀ c ∈ port, c.isDigit = true
  positive : 0 < decimal port
  bounded : decimal port < 65536

def EndpointText (ip : IpLib V4 V6) (text : List Char) : Prop :=
  ∃ host port, text = host ++ ":".toList ++ port ∧ HostText ip host ∧ PortText port

/-- An endpoint with a plus sign before the digits of its port. -/
def SignedPort (ip : IpLib V4 V6) (text : List Char) : Prop :=
  ∃ host port, text = host ++ ":".toList ++ '+' :: port ∧ HostText ip host ∧ PortText port

section Ports
variable {port : List Char}

theorem portText_number (hdigits : ∀ c ∈ port, c.isDigit = true) (hne : port ≠ []) :
    (∃ p, (if port = [] ∨ ¬ port.all Char.isDigit then none
      else if 65536 ≤ decimal port then none
      else some (UInt16.ofNat (decimal port))) = some p ∧ p ≠ 0) ↔
      0 < decimal port ∧ decimal port < 65536 := by
  have hall : port.all Char.isDigit = true := List.all_eq_true.mpr hdigits
  rw [if_neg (by simp [hne, hall])]
  by_cases hlarge : 65536 ≤ decimal port
  · rw [if_pos hlarge]
    constructor
    · intro h
      obtain ⟨_, h, _⟩ := h
      cases h
    · intro h
      omega
  · rw [if_neg hlarge]
    have hvalue : (UInt16.ofNat (decimal port)).toNat = decimal port := by
      rw [UInt16.toNat_ofNat', Nat.mod_eq_of_lt (by omega)]
    constructor
    · intro h
      obtain ⟨p, h, hp⟩ := h
      cases h
      have hne : (UInt16.ofNat (decimal port)).toNat ≠ 0 :=
        fun hzero => hp (UInt16.toNat_inj.mp hzero)
      omega
    · intro h
      refine ⟨_, rfl, ?_⟩
      intro hzero
      rw [hzero] at hvalue
      have hnat : (0 : UInt16).toNat = 0 := rfl
      omega

/-- What the library's parser takes for a port: digits, with or without a plus sign. -/
theorem parseU16_port :
    (∃ p, parseU16 port = some p ∧ p ≠ 0) ↔ PortText (unsigned port) := by
  constructor
  · intro h
    have hgood : ¬ (unsigned port = [] ∨ ¬ (unsigned port).all Char.isDigit) := by
      intro hbad
      obtain ⟨p, h, _⟩ := h
      rw [parseU16, if_pos hbad] at h
      cases h
    have hne : unsigned port ≠ [] := fun hnil => hgood (.inl hnil)
    have hdigits : ∀ c ∈ unsigned port, c.isDigit = true := by
      rw [← List.all_eq_true]
      by_contra hnot
      exact hgood (.inr hnot)
    obtain ⟨hpos, hlt⟩ := (portText_number hdigits hne).mp h
    exact ⟨hne, hdigits, hpos, hlt⟩
  · intro h
    exact (portText_number h.digits h.nonempty).mpr ⟨h.positive, h.bounded⟩

theorem unsigned_cases : PortText (unsigned port) ↔
    PortText port ∨ ∃ digits, port = '+' :: digits ∧ PortText digits := by
  have hsign {digits : List Char} : ¬ PortText ('+' :: digits) := by
    intro h
    exact absurd (h.digits '+' List.mem_cons_self) (by decide)
  by_cases hplus : ∃ digits, port = '+' :: digits
  · obtain ⟨digits, rfl⟩ := hplus
    constructor
    · intro h
      exact .inr ⟨digits, rfl, h⟩
    · intro h
      obtain h | ⟨found, heq, h⟩ := h
      · exact absurd h hsign
      · cases heq
        exact h
  · have hhead : port.head? ≠ some '+' := by
      intro hhead
      obtain ⟨digits, hdigits⟩ := List.head?_eq_some_iff.mp hhead
      exact hplus ⟨digits, hdigits⟩
    rw [unsigned_eq hhead]
    constructor
    · exact .inl
    · intro h
      obtain h | ⟨digits, heq, _⟩ := h
      · exact h
      · exact absurd ⟨digits, heq⟩ hplus

theorem port_plain (h : PortText (unsigned port)) : ∀ c ∈ port, isPlain c = true ∧ c ≠ ':' := by
  have hdigits {digits : List Char} (hport : PortText digits) :
      ∀ c ∈ digits, isPlain c = true ∧ c ≠ ':' :=
    fun c hc => hostChar_plain (digit_hostChar (hport.digits c hc))
  obtain hport | ⟨digits, rfl, hport⟩ := unsigned_cases.mp h
  · exact hdigits hport
  · exact List.forall_mem_cons.mpr ⟨by decide, hdigits hport⟩

end Ports

section Grammar
variable {ip : IpLib V4 V6} (hip : IpTexts ip) {value host port : List Char}
include hip

theorem hostText_cases (h : HostText ip host) :
    (host ≠ [] ∧ ∀ c ∈ host, isHostChar c = true) ∨
      ∃ inner address, host = '[' :: inner ++ "]".toList ∧ ip.parseV6 inner = some address := by
  cases h with
  | name host found h =>
    exact .inl ⟨name_nonempty h, name_text h⟩
  | v4 host address h =>
    obtain ⟨hne, hdigits⟩ := hip.text_v4 h
    exact .inl ⟨hne, fun c hc => dottedDigit_hostChar (hdigits c hc)⟩
  | v6 inner address h => exact .inr ⟨inner, address, rfl, h⟩

theorem parsed_hostText {found : PeerHost V4 V6} (h : parseHost ip host = some found)
    (hcolon : ':' ∉ host ∨ ∃ inner, host = '[' :: inner ++ "]".toList) : HostText ip host := by
  obtain ⟨address, _, hv6⟩ | ⟨address, _, hv4⟩ | ⟨_, hname⟩ := parseHost_cases h
  · obtain hbare | ⟨inner, rfl, hinner⟩ := hv6
    · obtain hnone | ⟨inner, rfl⟩ := hcolon
      · exact absurd (hip.text_v6 hbare).1 hnone
      · exact absurd (v6_plain hip hbare '[' List.mem_cons_self) (by decide)
    · exact .v6 inner address hinner
  · exact .v4 host address hv4
  · exact .name host found hname

theorem hostText_parsed (h : HostText ip host) : ∃ found, parseHost ip host = some found := by
  obtain ⟨hne, hchars⟩ | ⟨inner, address, rfl, hinner⟩ := hostText_cases hip h
  · rw [parseHost_plain hip hne hchars]
    cases hv4 : ip.parseV4 host with
    | some address => exact ⟨_, rfl⟩
    | none =>
      cases h with
      | name host found h => exact ⟨found, by rw [parseName_iff.mpr h]; rfl⟩
      | v4 host address h =>
        rw [h] at hv4
        cases hv4
      | v6 inner address h =>
        exact absurd (hostChar_plain (hchars '[' List.mem_cons_self)).1 (by decide)
  · exact ⟨_, parseHost_bracketed hip hinner⟩

/-- The endpoint of a host and a port text is split into the two. -/
theorem split_host (h : HostText ip host) (hport : ∀ c ∈ port, isPlain c = true ∧ c ≠ ':') :
    splitEndpoint (host ++ ":".toList ++ port) = some (host, port) := by
  have hcolon : ':' ∉ port := fun hmem => (hport ':' hmem).2 rfl
  have hbracket : ']' ∉ port := fun hmem => absurd (hport ']' hmem).1 (by decide)
  obtain ⟨hne, hchars⟩ | ⟨inner, address, rfl, hinner⟩ := hostText_cases hip h
  · have hopen : host.head? ≠ some '[' := by
      intro hhead
      exact absurd (hostChar_plain (hchars '[' (List.mem_of_head? hhead))).1 (by decide)
    exact splitEndpoint_plain hopen hne (fun hmem => (hostChar_plain (hchars ':' hmem)).2 rfl)
      hcolon
  · have htext : '[' :: inner ++ "]".toList ++ ":".toList ++ port =
        '[' :: inner ++ "]:".toList ++ port := by simp
    have hclose : ']' ∉ inner := fun hmem => absurd (v6_plain hip hinner ']' hmem) (by decide)
    rw [htext]
    exact splitEndpoint_bracketed (List.ne_nil_of_mem (hip.text_v6 hinner).1) hclose hcolon hbracket

theorem host_unblank (h : HostText ip host) : ∀ c ∈ host, isWhitespace c = false ∧ c ≠ '@' := by
  have hplain {c : Char} (hc : isPlain c = true) : isWhitespace c = false ∧ c ≠ '@' := by
    refine ⟨plain_unblank hc, ?_⟩
    simp only [isPlain, Bool.and_eq_true, bne_iff_ne] at hc
    exact hc.2
  obtain ⟨_, hchars⟩ | ⟨inner, address, rfl, hinner⟩ := hostText_cases hip h
  · exact fun c hc => hplain (hostChar_plain (hchars c hc)).1
  · have hopened : ∀ c ∈ '[' :: inner, isWhitespace c = false ∧ c ≠ '@' :=
      List.forall_mem_cons.mpr ⟨by decide, fun c hc => hplain (v6_plain hip hinner c hc)⟩
    exact List.forall_mem_append.mpr ⟨hopened, List.forall_mem_singleton.mpr (by decide)⟩

/-- Accepted is a host with a port in digits, and one with a plus sign before them. -/
theorem accepted_iff :
    (∃ text, parsePeerEndpoint ip value = some text) ↔
      EndpointText ip value ∨ SignedPort ip value := by
  have hparts : (∃ text, parsePeerEndpoint ip value = some text) ↔
      ∃ host port, value = host ++ ":".toList ++ port ∧ HostText ip host ∧
        PortText (unsigned port) := by
    constructor
    · intro h
      obtain ⟨text, h⟩ := h
      obtain ⟨_, host, port, p, found, hsplit, hp, hzero, hfound, _⟩ :=
        parsePeerEndpoint_some.mp h
      obtain ⟨hvalue, _, _, hcolon⟩ := splitEndpoint_some hsplit
      exact ⟨host, port, hvalue, parsed_hostText hip hfound hcolon,
        parseU16_port.mp ⟨p, hp, hzero⟩⟩
    · intro h
      obtain ⟨host, port, rfl, hhost, hport⟩ := h
      have hplain := port_plain hport
      obtain ⟨found, hfound⟩ := hostText_parsed hip hhost
      obtain ⟨p, hp, hzero⟩ := parseU16_port.mpr hport
      refine ⟨_, parsePeerEndpoint_some.mpr ⟨?_, host, port, p, found,
        split_host hip hhost hplain, hp, hzero, hfound, rfl⟩⟩
      apply isTrimmed_of_none
      have hopened : ∀ c ∈ host, isWhitespace c = false := fun c hc =>
        (host_unblank hip hhost c hc).1
      have hcolon : ∀ c ∈ ":".toList, isWhitespace c = false := by simp [isWhitespace]
      have hcolons := List.forall_mem_append.mpr ⟨hopened, hcolon⟩
      exact List.forall_mem_append.mpr ⟨hcolons, fun c hc => plain_unblank (hplain c hc).1⟩
  rw [hparts]
  constructor
  · intro h
    obtain ⟨host, port, hvalue, hhost, hport⟩ := h
    obtain hport | ⟨digits, rfl, hport⟩ := unsigned_cases.mp hport
    · exact .inl ⟨host, port, hvalue, hhost, hport⟩
    · exact .inr ⟨host, digits, hvalue, hhost, hport⟩
  · intro h
    obtain ⟨host, port, hvalue, hhost, hport⟩ | ⟨host, digits, hvalue, hhost, hport⟩ := h
    · exact ⟨host, port, hvalue, hhost, unsigned_cases.mpr (.inl hport)⟩
    · exact ⟨host, '+' :: digits, hvalue, hhost, unsigned_cases.mpr (.inr ⟨digits, rfl, hport⟩)⟩

theorem authorityPort_host (h : HostText ip host) (hport : ':' ∉ port) :
    authorityPort (host ++ ":".toList ++ port) = some port := by
  rw [List.append_assoc]
  obtain ⟨hne, hchars⟩ | ⟨inner, address, rfl, hinner⟩ := hostText_cases hip h
  · refine authorityPort_plain (fun hhead => ?_) hport
    rw [List.head?_append_of_ne_nil _ hne] at hhead
    exact absurd (hostChar_plain (hchars '[' (List.mem_of_head? hhead))).1 (by decide)
  · rw [List.append_assoc]
    exact authorityPort_bracketed fun hmem =>
      absurd (v6_plain hip hinner ']' hmem) (by decide)

/-- The node's own endpoint takes the same hosts with a port in digits. -/
theorem validateAuthority_host (h : HostText ip host) (hport : ':' ∉ port) :
    validateAuthority (host ++ ":".toList ++ port) = (.ok () : Except (LndError Hash) Unit) ↔
      PortText port := by
  have hat : '@' ∈ host ++ ":".toList ++ port ↔ '@' ∈ port := by
    have hhost : '@' ∉ host := fun hmem => (host_unblank hip h '@' hmem).2 rfl
    simp [hhost]
  unfold validateAuthority
  rw [authorityPort_host hip h hport]
  by_cases hmem : '@' ∈ port
  · rw [if_pos (hat.mpr hmem)]
    constructor
    · intro hok
      cases hok
    · intro hdigits
      exact absurd (hdigits.digits '@' hmem) (by decide)
  · rw [if_neg fun hin => hmem (hat.mp hin)]
    simp only
    constructor
    · intro hok
      split_ifs at hok with hbad hlarge hzero
      refine ⟨fun hnil => hbad (.inl hnil), ?_, by omega, by omega⟩
      rw [← List.all_eq_true]
      by_contra hnot
      exact hbad (.inr hnot)
    · intro hdigits
      have hall : port.all Char.isDigit = true := List.all_eq_true.mpr hdigits.digits
      have hpos := hdigits.positive
      have hlt := hdigits.bounded
      rw [if_neg (by simp [hdigits.nonempty, hall]), if_neg (by omega), if_neg (by omega)]

end Grammar

/-- An endpoint is accepted exactly when the grammar has it, and its port exactly when the node's
own endpoint may have it. -/
def KeepsGrammar (ip : IpLib V4 V6) (value : List Char) : Prop :=
  ((∃ text, parsePeerEndpoint ip value = some text) ↔ EndpointText ip value) ∧
    ∀ host port, value = host ++ ":".toList ++ port → HostText ip host → ':' ∉ port →
      ((∃ text, parsePeerEndpoint ip value = some text) ↔
        validateAuthority value = (.ok () : Except (LndError Unit) Unit))

theorem colon_split {a b c d : List Char} (hb : ':' ∉ b) (hd : ':' ∉ d)
    (h : a ++ ":".toList ++ b = c ++ ":".toList ++ d) : a = c ∧ b = d := by
  have hreverse := congrArg List.reverse h
  have hparts {front back : List Char} (hback : ':' ∉ back) :
      splitOnce ":".toList (front ++ ":".toList ++ back).reverse =
        some (back.reverse, front.reverse) := by
    have htext : (front ++ ":".toList ++ back).reverse =
        back.reverse ++ ":".toList ++ front.reverse := by simp
    rw [htext]
    exact splitOnce_first fun hmem => hback (List.mem_reverse.mp hmem)
  have hsplit : some (b.reverse, a.reverse) = some (d.reverse, c.reverse) := by
    rw [← hparts hb, hreverse, hparts hd]
  obtain ⟨hback, hfront⟩ := Prod.mk.inj (Option.some.inj hsplit)
  exact ⟨List.reverse_inj.mp hfront, List.reverse_inj.mp hback⟩

theorem PortText.no_colon {port : List Char} (h : PortText port) : ':' ∉ port :=
  fun hmem => absurd (h.digits ':' hmem) (by decide)

theorem signed_breaks {ip : IpLib V4 V6} (hip : IpTexts ip) {value : List Char}
    (hplus : SignedPort ip value) : ¬ KeepsGrammar ip value := by
  intro hkeeps
  obtain ⟨host, port, hvalue, hhost, hport⟩ := hkeeps.1.mp ((accepted_iff hip).mpr (.inr hplus))
  obtain ⟨host', digits, hvalue', _, hdigits⟩ := hplus
  have hsigned : ':' ∉ '+' :: digits := by
    rw [List.mem_cons, not_or]
    exact ⟨by decide, hdigits.no_colon⟩
  obtain ⟨_, heq⟩ := colon_split hport.no_colon hsigned (hvalue.symm.trans hvalue')
  rw [heq] at hport
  exact absurd (hport.digits '+' List.mem_cons_self) (by decide)

/-- An endpoint keeps to the grammar unless a plus sign stands before the digits of its port. -/
theorem peer_endpoint_grammar (ip : IpLib V4 V6) (hip : IpTexts ip) (value : List Char) :
    KeepsGrammar ip value ↔ ¬ SignedPort ip value := by
  constructor
  · intro hkeeps hplus
    exact signed_breaks hip hplus hkeeps
  · intro hplus
    have haccepted : (∃ text, parsePeerEndpoint ip value = some text) ↔ EndpointText ip value := by
      rw [accepted_iff hip]
      constructor
      · intro h
        exact h.resolve_right hplus
      · exact .inl
    refine ⟨haccepted, ?_⟩
    intro host port hvalue hhost hcolon
    rw [haccepted]
    subst hvalue
    rw [validateAuthority_host hip hhost hcolon]
    constructor
    · intro h
      obtain ⟨host', port', hvalue, _, hport⟩ := h
      rw [(colon_split hcolon hport.no_colon hvalue).2]
      exact hport
    · intro hport
      exact ⟨host, port, rfl, hhost, hport⟩

theorem peer_endpoint_grammar_loopback : KeepsGrammar loopbackIp "[::1]:09735".toList := by
  apply (peer_endpoint_grammar loopbackIp loopbackIp_texts _).mpr
  intro h
  obtain ⟨host, port, hvalue, _⟩ := h
  have hmem : '+' ∈ "[::1]:09735".toList := by
    rw [hvalue]
    simp
  exact absurd hmem (by decide)

/-- A signed port is accepted, and written back without its sign. -/
theorem signed_port_accepted :
    parsePeerEndpoint loopbackIp "a:+1".toList = some "a:1".toList ∧
      ¬ ∀ value, KeepsGrammar loopbackIp value := by
  refine ⟨by decide, ?_⟩
  intro hall
  have hname : @NameText Unit Unit "a".toList (.name "a".toList) :=
    .dns "a".toList "a".toList (.inl rfl) (by decide) (by decide) ⟨'a', by decide, by decide⟩
      (by decide)
  exact signed_breaks loopbackIp_texts
    ⟨"a".toList, "1".toList, rfl, .name _ _ hname,
      ⟨by decide, List.forall_mem_singleton.mpr (by decide), by decide, by decide⟩⟩
    (hall "a:+1".toList)

end Nigiri.Lnd
