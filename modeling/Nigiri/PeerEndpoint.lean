import Mathlib.Data.List.Infix
import Nigiri.LndConfig
import Nigiri.ReadyChannel

/-! Peer hosts and endpoints: what is accepted from a caller and from a node, and the canonical
text they are given. Internet addresses are parsed and printed by the standard library, which is a
parameter. -/
namespace Nigiri.Lnd
open Nigiri.Core (isWhitespace trimMatches)
variable {V4 V6 : Type}

structure IpLib (V4 V6 : Type) where
  parseV4 : List Char → Option V4
  displayV4 : V4 → List Char
  parseV6 : List Char → Option V6
  displayV6 : V6 → List Char

inductive PeerHost (V4 V6 : Type) where
  | ipv4 (address : V4)
  | ipv6 (address : V6)
  | name (text : List Char)
  | onionV2 (text : List Char)
  | onionV3 (text : List Char)
  deriving DecidableEq, Repr

def stripSuffix (suffix text : List Char) : Option (List Char) :=
  if suffix.isSuffixOf text then some (text.take (text.length - suffix.length)) else none

def isAsciiChar (c : Char) : Bool := c.toNat < 128

def isBase32 (c : Char) : Bool := c.isLower || ('2' ≤ c && c ≤ '7')

def isDottedDigit (c : Char) : Bool := c.isDigit || c == '.'

def isLabelChar (c : Char) : Bool := c.isAlphanum || c == '-'

def isLabel (label : List Char) : Bool :=
  label ≠ [] && label.length ≤ 63 && label.head? ≠ some '-' && label.getLast? ≠ some '-'
    && label.all isLabelChar

def lowercase (text : List Char) : List Char := text.map Char.toLower

def parseName (value : List Char) : Option (PeerHost V4 V6) :=
  if ¬ value.all isAsciiChar ∨ 253 < value.length then none
  else
    let name := (stripSuffix ".".toList value).getD value
    if name = [] then none
    else match stripSuffix ".onion".toList (lowercase name) with
      | some service =>
        if ¬ service.all isBase32 ∨ '.' ∈ service then none
        else if service.length = 16 then some (.onionV2 (lowercase name))
        else if service.length = 56 then some (.onionV3 (lowercase name))
        else none
      | none =>
        if name.all isDottedDigit then none
        else if (name.splitOn '.').all isLabel then some (.name value)
        else none

def isTrimmed (value : List Char) : Bool := value == trimMatches isWhitespace value

def stripBrackets (value : List Char) : Option (List Char) :=
  match value with
  | '[' :: rest => stripSuffix "]".toList rest
  | _ => none

/-- A number may begin with a plus sign. -/
def unsigned (text : List Char) : List Char :=
  match text with
  | '+' :: rest => rest
  | _ => text

def parseU16 (text : List Char) : Option UInt16 :=
  let digits := unsigned text
  if digits = [] ∨ ¬ digits.all Char.isDigit then none
  else if 65536 ≤ decimal digits then none
  else some (UInt16.ofNat (decimal digits))

/-- The host with its brackets, and the port behind them. -/
def splitBracketed (bracketed : List Char) : Option (List Char × List Char) :=
  match splitOnce "]:".toList bracketed with
  | none => none
  | some (host, port) =>
    if host = [] ∨ ':' ∈ port ∨ ']' ∈ port then none else some ('[' :: host ++ "]".toList, port)

def splitPlain (value : List Char) : Option (List Char × List Char) :=
  match splitOnce ":".toList value with
  | none => none
  | some (host, port) => if host = [] ∨ ':' ∈ port then none else some (host, port)

def splitEndpoint (value : List Char) : Option (List Char × List Char) :=
  match value with
  | '[' :: bracketed => splitBracketed bracketed
  | _ => splitPlain value

section Lib
variable (ip : IpLib V4 V6)

def canonicalHost : PeerHost V4 V6 → List Char
  | .ipv4 address => ip.displayV4 address
  | .ipv6 address => ip.displayV6 address
  | .name text | .onionV2 text | .onionV3 text => text

def parseHost (value : List Char) : Option (PeerHost V4 V6) :=
  if value = [] ∨ isTrimmed value = false then none
  else if value.head? = some '[' ∨ value.getLast? = some ']' then
    ((stripBrackets value).bind ip.parseV6).map .ipv6
  else match ip.parseV6 value with
    | some address => some (.ipv6 address)
    | none =>
      if ':' ∈ value then none
      else match ip.parseV4 value with
        | some address => some (.ipv4 address)
        | none => parseName value

def normalizeOutboundPeerHost (value : List Char) : Option (List Char) :=
  match parseHost ip value with
  | none | some (.onionV2 _) => none
  | some host => some (canonicalHost ip host)

def normalizeReportedPeerHost (value : List Char) : Option (List Char) :=
  (parseHost ip value).map (canonicalHost ip)

def portText (port : UInt16) : List Char := (toString port.toNat).toList

def serializePeerEndpoint (host : List Char) (port : UInt16) : List Char :=
  if (ip.parseV6 host).isSome then '[' :: host ++ "]:".toList ++ portText port
  else host ++ ":".toList ++ portText port

def parsePeerEndpoint (value : List Char) : Option (List Char) :=
  if isTrimmed value = false then none
  else match splitEndpoint value with
    | none => none
    | some (host, port) =>
      match parseU16 port with
      | none => none
      | some port =>
        if port = 0 then none
        else (normalizeReportedPeerHost ip host).map fun host => serializePeerEndpoint ip host port

/-- What a pair uses of this when it makes a peer address. -/
def peerLib {Hash : Type} (displayHash : Hash → String) :
    Fixtures.PairLib Hash where
  normalizeOutboundPeerHost host :=
    (normalizeOutboundPeerHost ip host.toList).map String.ofList
  displayHash := displayHash

end Lib

/-- What the standard library promises of addresses: printing and parsing agree, and their texts
are made of digits with dots and with colons. -/
structure IpTexts (ip : IpLib V4 V6) : Prop where
  display_v4 : ∀ address, ip.parseV4 (ip.displayV4 address) = some address
  display_v6 : ∀ address, ip.parseV6 (ip.displayV6 address) = some address
  text_v4 : ∀ {text address}, ip.parseV4 text = some address →
    text ≠ [] ∧ ∀ c ∈ text, isDottedDigit c = true
  text_v6 : ∀ {text address}, ip.parseV6 text = some address →
    ':' ∈ text ∧ ∀ c ∈ text, (c.isAlphanum || c == ':' || c == '.') = true

/-- The loopback addresses alone. -/
def loopbackIp : IpLib Unit Unit where
  parseV4 text := if text = "127.0.0.1".toList then some () else none
  displayV4 _ := "127.0.0.1".toList
  parseV6 text := if text = "::1".toList then some () else none
  displayV6 _ := "::1".toList

theorem eq_of_loopback {literal text : List Char} {address : Unit}
    (h : (if text = literal then some () else none) = some address) : text = literal := by
  by_contra hne
  rw [if_neg hne] at h
  cases h

theorem loopbackIp_texts : IpTexts loopbackIp where
  display_v4 _ := rfl
  display_v6 _ := rfl
  text_v4 := by
    intro text address h
    rw [eq_of_loopback h]
    exact ⟨by decide, List.all_eq_true.mp (by decide)⟩
  text_v6 := by
    intro text address h
    rw [eq_of_loopback h]
    exact ⟨by decide, List.all_eq_true.mp (by decide)⟩

section Text

theorem ascii_cases {p : Char → Bool} (h : ∀ n < 128, p (Char.ofNat n) = true) {c : Char}
    (hc : isAsciiChar c = true) : p c = true := by
  have hlt : c.toNat < 128 := of_decide_eq_true hc
  rw [← Char.ofNat_toNat c]
  exact h c.toNat hlt

theorem isTrimmed_of_none {value : List Char} (h : ∀ c ∈ value, isWhitespace c = false) :
    isTrimmed value = true := by
  have hdrop : ∀ text : List Char, (∀ c ∈ text, isWhitespace c = false) →
      text.dropWhile isWhitespace = text := by
    intro text htext
    cases text with
    | nil => rfl
    | cons c cs => rw [List.dropWhile_cons, htext c List.mem_cons_self]; rfl
  have hreverse : ∀ c ∈ value.reverse, isWhitespace c = false := by
    intro c hc
    exact h c (List.mem_reverse.mp hc)
  rw [isTrimmed, trimMatches, hdrop value h, hdrop _ hreverse, List.reverse_reverse,
    beq_self_eq_true]

theorem stripSuffix_some {suffix text start : List Char} :
    stripSuffix suffix text = some start ↔ text = start ++ suffix := by
  unfold stripSuffix
  constructor
  · intro h
    split_ifs at h with hsuffix
    obtain ⟨before, rfl⟩ := List.isSuffixOf_iff_suffix.mp hsuffix
    simp only [List.length_append, Nat.add_sub_cancel, List.take_left, Option.some.injEq] at h
    rw [h]
  · intro h
    rw [h, if_pos (List.isSuffixOf_iff_suffix.mpr (List.suffix_append start suffix))]
    simp

theorem stripSuffix_none {suffix text : List Char} :
    stripSuffix suffix text = none ↔ ¬ suffix <:+ text := by
  unfold stripSuffix
  rw [← List.isSuffixOf_iff_suffix]
  split_ifs with hsuffix <;> simp [hsuffix]

theorem splitOnce_some {separator text a b : List Char}
    (h : splitOnce separator text = some (a, b)) : text = a ++ separator ++ b := by
  induction text generalizing a with
  | nil => cases h
  | cons c cs ih =>
    rw [splitOnce] at h
    split_ifs at h with hprefix
    · cases h
      obtain ⟨rest, hrest⟩ := List.isPrefixOf_iff_prefix.mp hprefix
      rw [← hrest]
      simp
    · obtain ⟨p, hp, hsplit⟩ := Option.map_eq_some_iff.mp h
      cases hsplit
      rw [ih hp]
      rfl

/-- The first separator is found when its first letter is not before it. -/
theorem splitOnce_first {d : Char} {ds a b : List Char} (h : d ∉ a) :
    splitOnce (d :: ds) (a ++ (d :: ds) ++ b) = some (a, b) := by
  induction a with
  | nil => simp [splitOnce]
  | cons c cs ih =>
    have hne : d ≠ c := fun he => h (he ▸ List.mem_cons_self)
    have hstart : (d :: ds).isPrefixOf (c :: (cs ++ (d :: ds) ++ b)) = false := by
      simp [List.isPrefixOf, hne]
    have htail := ih fun hmem => h (List.mem_cons_of_mem c hmem)
    have hsplit : splitOnce (d :: ds) (c :: (cs ++ (d :: ds) ++ b)) =
        (splitOnce (d :: ds) (cs ++ (d :: ds) ++ b)).map fun p => (c :: p.1, p.2) := by
      rw [splitOnce, if_neg (by rw [hstart]; simp)]
    exact hsplit.trans (by rw [htail]; rfl)

theorem decimal_eq (digits : List Char) : decimal digits = Nat.ofDigitChars 10 digits 0 := by
  simp [decimal, Nat.ofDigitChars_eq_foldl, Nat.mul_comm]

theorem portText_eq (port : UInt16) : portText port = Nat.toDigits 10 port.toNat := by
  rw [portText, Nat.toString_eq_repr, Nat.toList_repr]

theorem portText_digits {port : UInt16} {c : Char} (h : c ∈ portText port) : c.isDigit = true := by
  rw [portText_eq] at h
  exact Nat.isDigit_of_mem_toDigits (by decide) (by decide) h

theorem unsigned_eq {text : List Char} (h : text.head? ≠ some '+') : unsigned text = text := by
  unfold unsigned
  split
  · exact absurd rfl h
  · rfl

theorem portText_ne_nil (port : UInt16) : portText port ≠ [] := by
  rw [portText_eq]
  exact Nat.toDigits_ne_nil

theorem decimal_portText (port : UInt16) : decimal (portText port) = port.toNat := by
  rw [decimal_eq, portText_eq, Nat.ofDigitChars_ten_toDigits]

theorem parseU16_portText (port : UInt16) : parseU16 (portText port) = some port := by
  have hhead : (portText port).head? ≠ some '+' := by
    intro hplus
    have hdigit := portText_digits (List.mem_of_head? hplus)
    revert hdigit
    decide
  have hall : (portText port).all Char.isDigit = true := by
    rw [List.all_eq_true]
    intro c hc
    exact portText_digits hc
  have hlt : port.toNat < 65536 := port.toNat_lt
  rw [parseU16, unsigned_eq hhead, if_neg (by simp [portText_ne_nil, hall]), decimal_portText,
    if_neg (by omega), UInt16.ofNat_toNat]

/-- Behind a host without brackets, the port follows the last colon. -/
theorem authorityPort_plain {host port : List Char} (hopen : (host ++ ':' :: port).head? ≠ some '[')
    (hport : ':' ∉ port) : authorityPort (host ++ ':' :: port) = some port := by
  have hmem : ':' ∈ host ++ ':' :: port := by simp
  have hlast : (host ++ ':' :: port).reverse.takeWhile (· ≠ ':') = port.reverse := by
    rw [List.reverse_append, List.reverse_cons, List.append_assoc, List.takeWhile_append_of_pos]
    · simp
    · intro c hc
      have hne : c ≠ ':' := fun he => hport (he ▸ List.mem_reverse.mp hc)
      simpa using hne
  rw [authorityPort, if_neg hopen, if_pos hmem, hlast, List.reverse_reverse]

/-- Behind a bracketed host, the port follows the colon behind the bracket. -/
theorem authorityPort_bracketed {inner port : List Char} (hclose : ']' ∉ inner) :
    authorityPort ('[' :: inner ++ ']' :: ':' :: port) = some port := by
  have hkept : ∀ c ∈ '[' :: inner, decide (c ≠ ']') = true := by
    intro c hc
    refine decide_eq_true fun he => ?_
    subst he
    obtain heq | hmem := List.mem_cons.mp hc
    · exact absurd heq (by decide)
    · exact hclose hmem
  have hdrop : ('[' :: inner ++ ']' :: ':' :: port).dropWhile (· ≠ ']') = ']' :: ':' :: port := by
    rw [List.dropWhile_append_of_pos hkept]
    rfl
  have hopen : ('[' :: inner ++ ']' :: ':' :: port).head? = some '[' := rfl
  rw [authorityPort, if_pos hopen, hdrop]
  rfl

end Text
end Nigiri.Lnd
