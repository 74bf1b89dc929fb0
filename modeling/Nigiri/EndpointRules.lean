import Nigiri.PeerHosts

/-! Peer endpoints: their canonical text is read as itself, and which texts are read at all. -/
namespace Nigiri.Lnd
open Nigiri.Core (isWhitespace trimMatches)
open Nigiri.WireFormat
variable {V4 V6 : Type}

section Split
variable {value host inner port : List Char}

theorem splitOnce_fresh {d : Char} {text a b : List Char}
    (h : splitOnce [d] text = some (a, b)) : d ∉ a := by
  induction text generalizing a with
  | nil => cases h
  | cons c cs ih =>
    rw [splitOnce] at h
    by_cases hc : d = c
    · subst hc
      rw [if_pos (by simp)] at h
      cases h
      exact List.not_mem_nil
    · rw [if_neg (by simpa [List.isPrefixOf] using hc)] at h
      obtain ⟨p, hp, hsplit⟩ := Option.map_eq_some_iff.mp h
      cases hsplit
      rw [List.mem_cons, not_or]
      exact ⟨hc, ih hp⟩

theorem splitEndpoint_plain (hopen : host.head? ≠ some '[') (hne : host ≠ [])
    (hhost : ':' ∉ host) (hport : ':' ∉ port) :
    splitEndpoint (host ++ ":".toList ++ port) = some (host, port) := by
  have hsplit : splitOnce ":".toList (host ++ ":".toList ++ port) = some (host, port) :=
    splitOnce_first hhost
  have hplain : splitEndpoint (host ++ ":".toList ++ port) =
      splitPlain (host ++ ":".toList ++ port) := by
    cases host with
    | nil => exact absurd rfl hne
    | cons c cs =>
      unfold splitEndpoint
      split
      · rename_i heq
        exact absurd (congrArg some (List.cons.inj heq).1) hopen
      · rfl
  rw [hplain, splitPlain, hsplit]
  exact if_neg (by simp [hne, hport])

theorem splitEndpoint_bracketed (hne : inner ≠ []) (hinner : ']' ∉ inner) (hcolon : ':' ∉ port)
    (hbracket : ']' ∉ port) :
    splitEndpoint ('[' :: inner ++ "]:".toList ++ port) =
      some ('[' :: inner ++ "]".toList, port) := by
  have hsplit : splitOnce "]:".toList (inner ++ "]:".toList ++ port) = some (inner, port) :=
    splitOnce_first hinner
  have hbracketed : splitEndpoint ('[' :: inner ++ "]:".toList ++ port) =
      splitBracketed (inner ++ "]:".toList ++ port) := rfl
  rw [hbracketed, splitBracketed, hsplit]
  exact if_neg (by simp [hne, hcolon, hbracket])

/-- What an endpoint is split into: a host without colons or one in brackets, and a port. -/
theorem splitEndpoint_some (h : splitEndpoint value = some (host, port)) :
    value = host ++ ":".toList ++ port ∧ ':' ∉ port ∧ host ≠ [] ∧
      (':' ∉ host ∨ ∃ inner, host = '[' :: inner ++ "]".toList) := by
  unfold splitEndpoint at h
  split at h
  · rename_i bracketed
    unfold splitBracketed at h
    split at h
    · cases h
    · rename_i inner found hsplit
      split_ifs at h with hbad
      cases h
      have htext := splitOnce_some hsplit
      refine ⟨?_, fun hmem => hbad (.inr (.inl hmem)), List.cons_ne_nil _ _, .inr ⟨inner, rfl⟩⟩
      rw [htext]
      simp
  · unfold splitPlain at h
    split at h
    · cases h
    · rename_i found text hsplit
      split_ifs at h with hbad
      cases h
      exact ⟨splitOnce_some hsplit, fun hmem => hbad (.inr hmem), fun hnil => hbad (.inl hnil),
        .inl (splitOnce_fresh hsplit)⟩

end Split

section Parse
variable {ip : IpLib V4 V6} {value text : List Char}

/-- An accepted endpoint is a host and a port that are read apart. -/
theorem parsePeerEndpoint_some :
    parsePeerEndpoint ip value = some text ↔
      isTrimmed value = true ∧ ∃ host port p found, splitEndpoint value = some (host, port) ∧
        parseU16 port = some p ∧ p ≠ 0 ∧ parseHost ip host = some found ∧
        text = serializePeerEndpoint ip (canonicalHost ip found) p := by
  constructor
  · intro h
    unfold parsePeerEndpoint at h
    by_cases htrimmed : isTrimmed value = false
    · rw [if_pos htrimmed] at h
      cases h
    · rw [if_neg htrimmed] at h
      refine ⟨eq_true_of_ne_false htrimmed, ?_⟩
      split at h
      · cases h
      · rename_i host port hsplit
        split at h
        · cases h
        · rename_i p hp
          split_ifs at h with hzero
          obtain ⟨canonical, hcanonical, rfl⟩ := Option.map_eq_some_iff.mp h
          obtain ⟨found, hfound, rfl⟩ := Option.map_eq_some_iff.mp hcanonical
          exact ⟨host, port, p, found, hsplit, hp, hzero, hfound, rfl⟩
  · intro h
    obtain ⟨htrimmed, host, port, p, found, hsplit, hp, hzero, hfound, rfl⟩ := h
    unfold parsePeerEndpoint
    rw [if_neg (by rw [htrimmed]; simp)]
    simp [hsplit, hp, hzero, normalizeReportedPeerHost, hfound]

theorem portText_plain {port : UInt16} : ∀ c ∈ portText port, isPlain c = true ∧ c ≠ ':' :=
  fun _ hc => hostChar_plain (digit_hostChar (portText_digits hc))

end Parse

section Canonical
variable {ip : IpLib V4 V6} (hip : IpTexts ip) {value : List Char} {host : PeerHost V4 V6}
include hip

/-- The canonical text of a host that is no address of version six, and what it is read as. -/
theorem canonical_plain (h : parseHost ip value = some host)
    (hv6 : ∀ address, host ≠ .ipv6 address) :
    canonicalHost ip host ≠ [] ∧ (∀ c ∈ canonicalHost ip host, isHostChar c = true) ∧
      parseHost ip (canonicalHost ip host) = some host := by
  obtain ⟨address, rfl, _⟩ | ⟨address, rfl, _⟩ | ⟨hv4, hname⟩ := parseHost_cases h
  · exact absurd rfl (hv6 address)
  · have hdisplay := hip.display_v4 address
    obtain ⟨hne, hdigits⟩ := hip.text_v4 hdisplay
    have hchars : ∀ c ∈ ip.displayV4 address, isHostChar c = true :=
      fun c hc => dottedDigit_hostChar (hdigits c hc)
    refine ⟨hne, hchars, ?_⟩
    rw [canonicalHost, parseHost_plain hip hne hchars, hdisplay]
    rfl
  · have hagain : NameText (canonicalHost ip host) host := name_again hname
    have hchars : ∀ c ∈ canonicalHost ip host, isHostChar c = true := name_chars hname
    have hne : canonicalHost ip host ≠ [] := name_nonempty hagain
    refine ⟨hne, hchars, ?_⟩
    rw [parseHost_plain hip hne hchars, name_parseV4 hip hname hv4, parseName_iff.mpr hagain]
    rfl

/-- The canonical endpoint of a host is read as itself. -/
theorem parse_serialized (h : parseHost ip value = some host) {port : UInt16} (hport : port ≠ 0) :
    parsePeerEndpoint ip (serializePeerEndpoint ip (canonicalHost ip host) port) =
      some (serializePeerEndpoint ip (canonicalHost ip host) port) := by
  have hdigits := @portText_plain port
  have hcolon : ':' ∉ portText port := fun hmem => (hdigits ':' hmem).2 rfl
  have hbracket : ']' ∉ portText port := fun hmem => absurd (hdigits ']' hmem).1 (by decide)
  have hblanks : ∀ c ∈ portText port, isWhitespace c = false :=
    fun c hc => plain_unblank (hdigits c hc).1
  rw [parsePeerEndpoint_some]
  by_cases hv6 : ∃ address, host = .ipv6 address
  · obtain ⟨address, rfl⟩ := hv6
    have hdisplay := hip.display_v6 address
    have hplain := v6_plain hip hdisplay
    have hinner : ']' ∉ ip.displayV6 address := fun hmem => absurd (hplain ']' hmem) (by decide)
    have hne : ip.displayV6 address ≠ [] := List.ne_nil_of_mem (hip.text_v6 hdisplay).1
    have hserialized : serializePeerEndpoint ip (canonicalHost ip (.ipv6 address)) port =
        '[' :: ip.displayV6 address ++ "]:".toList ++ portText port := by
      rw [serializePeerEndpoint, canonicalHost, hdisplay]
      rfl
    refine ⟨?_, '[' :: ip.displayV6 address ++ "]".toList, portText port, port, .ipv6 address,
      ?_, parseU16_portText port, hport, parseHost_bracketed hip hdisplay, rfl⟩
    · rw [hserialized]
      apply isTrimmed_of_none
      have hopened : ∀ c ∈ '[' :: ip.displayV6 address, isWhitespace c = false :=
        List.forall_mem_cons.mpr ⟨by decide, fun c hc => plain_unblank (hplain c hc)⟩
      have hcolon : ∀ c ∈ "]:".toList, isWhitespace c = false := by simp [isWhitespace]
      have hclosed := List.forall_mem_append.mpr ⟨hopened, hcolon⟩
      exact List.forall_mem_append.mpr ⟨hclosed, hblanks⟩
    · rw [hserialized]
      exact splitEndpoint_bracketed hne hinner hcolon hbracket
  · have hplain := canonical_plain hip h fun address heq => hv6 ⟨address, heq⟩
    obtain ⟨hne, hchars, hagain⟩ := hplain
    have hserialized : serializePeerEndpoint ip (canonicalHost ip host) port =
        canonicalHost ip host ++ ":".toList ++ portText port := by
      rw [serializePeerEndpoint, parseV6_hostChars hip hchars]
      rfl
    have hhost : ':' ∉ canonicalHost ip host := fun hmem => (hostChar_plain (hchars ':' hmem)).2 rfl
    have hopen : (canonicalHost ip host).head? ≠ some '[' := by
      intro hhead
      exact absurd (hostChar_plain (hchars '[' (List.mem_of_head? hhead))).1 (by decide)
    refine ⟨?_, canonicalHost ip host, portText port, port, host, ?_, parseU16_portText port, hport,
      hagain, rfl⟩
    · rw [hserialized]
      apply isTrimmed_of_none
      have hname : ∀ c ∈ canonicalHost ip host, isWhitespace c = false :=
        fun c hc => plain_unblank (hostChar_plain (hchars c hc)).1
      have hcolon : ∀ c ∈ ":".toList, isWhitespace c = false := by simp [isWhitespace]
      have hcolons := List.forall_mem_append.mpr ⟨hname, hcolon⟩
      exact List.forall_mem_append.mpr ⟨hcolons, hblanks⟩
    · rw [hserialized]
      exact splitEndpoint_plain hopen hne hhost hcolon

end Canonical
/-- A peer address that is made: its host is the canonical text of a host that was parsed. -/
theorem peerLib_normalize {Hash : Type} (ip : IpLib V4 V6) (displayHash : Hash → String)
    (host : String) : (peerLib ip displayHash).normalizeOutboundPeerHost host =
      (normalizeOutboundPeerHost ip host.toList).map String.ofList := rfl

theorem peerAddress_new {Hash : Type} {ip : IpLib V4 V6} {displayHash : Hash → String}
    {publicKey : Bytes} {host : String} {port : UInt16} {address : Fixtures.PeerAddress}
    (h : Fixtures.PeerAddress.new (peerLib ip displayHash) publicKey host port = .ok address) :
    address.port ≠ 0 ∧ ∃ value found, parseHost ip value = some found ∧
      address.host.toList = canonicalHost ip found := by
  unfold Fixtures.PeerAddress.new at h
  simp only at h
  by_cases hblank : (String.ofList (trimMatches isWhitespace host.toList)).isEmpty = true
  · rw [if_pos hblank] at h
    cases h
  rw [if_neg hblank] at h
  by_cases hzero : port = 0
  · rw [if_pos hzero] at h
    cases h
  rw [if_neg hzero] at h
  split at h
  · cases h
  · rename_i canonical hnormalized
    cases h
    refine ⟨hzero, ?_⟩
    rw [peerLib_normalize, Option.map_eq_some_iff] at hnormalized
    obtain ⟨text, htext, rfl⟩ := hnormalized
    rw [String.toList_ofList] at htext ⊢
    unfold normalizeOutboundPeerHost at htext
    split at htext
    · cases htext
    · cases htext
    · rename_i found _ hfound
      cases htext
      exact ⟨_, found, hfound, rfl⟩

/-- The canonical text of an endpoint is read as itself, and so is the text of a peer address. -/
theorem peer_endpoint_canonical {Hash : Type} (ip : IpLib V4 V6) (hip : IpTexts ip)
    (displayHash : Hash → String) :
    (∀ value text, parsePeerEndpoint ip value = some text →
      parsePeerEndpoint ip text = some text) ∧
    ∀ (publicKey : Bytes) (host : String) (port : UInt16) (address : Fixtures.PeerAddress),
      Fixtures.PeerAddress.new (peerLib ip displayHash) publicKey host port = .ok address →
        parsePeerEndpoint ip (serializePeerEndpoint ip address.host.toList address.port) =
          some (serializePeerEndpoint ip address.host.toList address.port) := by
  constructor
  · intro value text h
    obtain ⟨_, host, port, p, found, _, _, hzero, hfound, rfl⟩ := parsePeerEndpoint_some.mp h
    exact parse_serialized hip hfound hzero
  · intro publicKey host port address h
    obtain ⟨hport, value, found, hfound, hhost⟩ := peerAddress_new h
    rw [hhost]
    exact parse_serialized hip hfound hport

/-- Leading zeroes of a port are dropped, and an address is put in brackets. -/
theorem peer_endpoint_canonical_loopback :
    parsePeerEndpoint loopbackIp "[::1]:9735".toList = some "[::1]:9735".toList ∧
      parsePeerEndpoint loopbackIp (serializePeerEndpoint loopbackIp "::1".toList 9735) =
        some (serializePeerEndpoint loopbackIp "::1".toList 9735) := by
  have h := @peer_endpoint_canonical Unit Unit Unit loopbackIp loopbackIp_texts fun _ => ""
  constructor
  · exact h.1 "[::1]:09735".toList _ (by decide)
  · exact h.2 [] "::1" 9735 ⟨[], "::1", 9735⟩ (by decide)

end Nigiri.Lnd
