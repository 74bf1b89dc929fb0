import Nigiri.PeerEndpoint

/-! Which texts are hosts, and that the canonical text of a host is read as the same host. -/
namespace Nigiri.Lnd
open Nigiri.Core (isWhitespace trimMatches)
variable {V4 V6 : Type}

/-- A name, with or without the dot of the root behind it. -/
def Rooted (name text : List Char) : Prop := text = name ∨ text = name ++ ".".toList

/-- The names of hosts: DNS names that are no numbers, and onion services of both versions. -/
inductive NameText : List Char → PeerHost V4 V6 → Prop where
  | dns (name text : List Char) (hroot : Rooted name text) (hlength : text.length ≤ 253)
    (hlabels : ∀ label ∈ name.splitOn '.', isLabel label = true)
    (hword : ∃ c ∈ name, isDottedDigit c = false)
    (honion : ¬ ".onion".toList <:+ lowercase name) : NameText text (.name text)
  | onionV2 (name text service : List Char) (hroot : Rooted name text)
    (hname : lowercase name = service ++ ".onion".toList)
    (hservice : ∀ c ∈ service, isBase32 c = true) (hlength : service.length = 16) :
    NameText text (.onionV2 (lowercase name))
  | onionV3 (name text service : List Char) (hroot : Rooted name text)
    (hname : lowercase name = service ++ ".onion".toList)
    (hservice : ∀ c ∈ service, isBase32 c = true) (hlength : service.length = 56) :
    NameText text (.onionV3 (lowercase name))

def isHostChar (c : Char) : Bool := isLabelChar c || c == '.'

section Chars
variable {c : Char}

theorem isUpper_eq (c : Char) : c.isUpper = decide (65 ≤ c.val ∧ c.val ≤ 90) := rfl

theorem isLower_eq (c : Char) : c.isLower = (decide (97 ≤ c.val) && decide (c.val ≤ 122)) := rfl

theorem isAlpha_eq (c : Char) : c.isAlpha = (c.isUpper || c.isLower) := rfl

theorem alphanum_ascii (h : c.isAlphanum = true) : isAsciiChar c = true := by
  simp only [Char.isAlphanum, isAlpha_eq, isUpper_eq, isLower_eq, Char.isDigit,
    Bool.or_eq_true, Bool.and_eq_true, decide_eq_true_eq, UInt32.le_iff_toNat_le] at h
  have hlt : c.toNat < 128 := by
    have hval : c.toNat = c.val.toNat := rfl
    simp at h
    omega
  exact decide_eq_true hlt

theorem hostChar_ascii (h : isHostChar c = true) : isAsciiChar c = true := by
  simp only [isHostChar, isLabelChar, Bool.or_eq_true, beq_iff_eq] at h
  obtain (halpha | rfl) | rfl := h
  · exact alphanum_ascii halpha
  · decide
  · decide

def isPlain (c : Char) : Bool :=
  !isWhitespace c && c != '[' && c != ']' && c != '@'

theorem hostChar_plain (h : isHostChar c = true) : isPlain c = true ∧ c ≠ ':' := by
  have hall : (!isHostChar c || (isPlain c && c != ':')) = true :=
    @ascii_cases (fun c => !isHostChar c || (isPlain c && c != ':')) (by decide) c
      (hostChar_ascii h)
  simpa [h] using hall

theorem digit_hostChar (h : c.isDigit = true) : isHostChar c = true := by
  simp [isHostChar, isLabelChar, Char.isAlphanum, h]

theorem dottedDigit_hostChar (h : isDottedDigit c = true) : isHostChar c = true := by
  obtain hdigit | hdot := Bool.or_eq_true_iff.mp h
  · exact digit_hostChar hdigit
  · rw [isHostChar, hdot, Bool.or_true]

theorem base32_ascii (h : isBase32 c = true) : isAsciiChar c = true := by
  simp only [isBase32, isLower_eq, Bool.or_eq_true, Bool.and_eq_true, decide_eq_true_eq,
    Char.le_def, UInt32.le_iff_toNat_le] at h
  have hlt : c.toNat < 128 := by
    have hval : c.toNat = c.val.toNat := rfl
    simp at h
    omega
  exact decide_eq_true hlt

theorem base32_hostChar (h : isBase32 c = true) : isHostChar c = true ∧ c ≠ '.' := by
  have hall : (!isBase32 c || (isHostChar c && c != '.')) = true :=
    @ascii_cases (fun c => !isBase32 c || (isHostChar c && c != '.')) (by decide) c (base32_ascii h)
  simpa [h] using hall

theorem toLower_of_not_ascii (h : isAsciiChar c = false) : c.toLower = c := by
  have hge : ¬ c.toNat < 128 := of_decide_eq_false h
  refine dif_neg fun hupper => ?_
  have hle := UInt32.le_iff_toNat_le.mp hupper.2
  have hval : c.toNat = c.val.toNat := rfl
  have hZ : 'Z'.val.toNat = 90 := rfl
  omega

theorem toLower_ascii (c : Char) : isAsciiChar c.toLower = isAsciiChar c := by
  cases hc : isAsciiChar c with
  | true => exact @ascii_cases (fun c => isAsciiChar c.toLower) (by decide) c hc
  | false => rw [toLower_of_not_ascii hc, hc]

theorem toLower_toLower (c : Char) : c.toLower.toLower = c.toLower := by
  cases hc : isAsciiChar c with
  | true =>
    have hall := @ascii_cases (fun c => c.toLower.toLower == c.toLower) (by decide) c hc
    exact beq_iff_eq.mp hall
  | false => rw [toLower_of_not_ascii hc, toLower_of_not_ascii hc]

theorem toLower_hostChar (h : isHostChar c.toLower = true) : isHostChar c = true := by
  have hascii : isAsciiChar c = true := by
    rw [← toLower_ascii]
    exact hostChar_ascii h
  have hall : (!isHostChar c.toLower || isHostChar c) = true :=
    @ascii_cases (fun c => !isHostChar c.toLower || isHostChar c) (by decide) c hascii
  simpa [h] using hall

end Chars

section Names
variable {name text value : List Char} {host : PeerHost V4 V6}

theorem lowercase_lowercase (text : List Char) : lowercase (lowercase text) = lowercase text := by
  rw [lowercase, lowercase, List.map_map]
  exact List.map_congr_left fun c _ => toLower_toLower c

theorem length_lowercase (text : List Char) : (lowercase text).length = text.length :=
  List.length_map _

theorem rooted_strip (text : List Char) :
    Rooted ((stripSuffix ".".toList text).getD text) text := by
  cases hstrip : stripSuffix ".".toList text with
  | none => exact .inl rfl
  | some name => exact .inr (stripSuffix_some.mp hstrip)

theorem strip_rooted (hroot : Rooted name text) (hlast : ¬ ".".toList <:+ name) :
    (stripSuffix ".".toList text).getD text = name := by
  obtain rfl | rfl := hroot
  · rw [stripSuffix_none.mpr hlast]
    rfl
  · rw [stripSuffix_some.mpr rfl]
    rfl

theorem mem_intercalate {d c : Char} {labels : List (List Char)}
    (h : c ∈ [d].intercalate labels) : c = d ∨ ∃ label ∈ labels, c ∈ label := by
  induction labels with
  | nil => cases h
  | cons label labels ih =>
    cases labels with
    | nil =>
      rw [List.intercalate_singleton] at h
      exact .inr ⟨label, List.mem_cons_self, h⟩
    | cons next labels =>
      rw [List.intercalate_cons_cons, List.mem_append, List.mem_append, List.mem_singleton] at h
      obtain (h | h) | h := h
      · exact .inr ⟨label, List.mem_cons_self, h⟩
      · exact .inl h
      · obtain h | ⟨found, hfound, hc⟩ := ih h
        · exact .inl h
        · exact .inr ⟨found, List.mem_cons_of_mem label hfound, hc⟩

theorem labels_chars (hlabels : ∀ label ∈ name.splitOn '.', isLabel label = true) :
    ∀ c ∈ name, isHostChar c = true := by
  intro c hc
  rw [← @List.intercalate_splitOn _ name _ _ '.'] at hc
  obtain rfl | ⟨label, hlabel, hc⟩ := mem_intercalate hc
  · rfl
  · have hvalid := hlabels label hlabel
    simp only [isLabel, Bool.and_eq_true] at hvalid
    rw [isHostChar, List.all_eq_true.mp hvalid.2 c hc, Bool.true_or]

theorem labels_last (hlabels : ∀ label ∈ name.splitOn '.', isLabel label = true) :
    ¬ ".".toList <:+ name := by
  intro hsuffix
  obtain ⟨start, rfl⟩ := hsuffix
  have hempty : [] ∈ (start ++ ".".toList).splitOn '.' := by
    have hsplit : (start ++ ".".toList).splitOn '.' = start.splitOn '.' ++ [].splitOn '.' :=
      List.splitOn_append_cons_self start []
    rw [hsplit, List.splitOn_nil]
    exact List.mem_append_right _ List.mem_cons_self
  have hlabel := hlabels [] hempty
  revert hlabel
  decide

theorem onion_last {service : List Char} (hname : lowercase name = service ++ ".onion".toList) :
    ¬ ".".toList <:+ name := by
  intro hsuffix
  obtain ⟨start, rfl⟩ := hsuffix
  have hlast := congrArg List.getLast? hname
  have hdot : (lowercase (start ++ ".".toList)).getLast? = some '.' := by simp [lowercase]
  have hn : (service ++ ".onion".toList).getLast? = some 'n' := by simp
  rw [hdot, hn] at hlast
  revert hlast
  decide

theorem onion_chars {service : List Char} (hservice : ∀ c ∈ service, isBase32 c = true) :
    ∀ c ∈ service ++ ".onion".toList, isHostChar c = true := by
  intro c hc
  obtain hc | hc := List.mem_append.mp hc
  · exact (base32_hostChar (hservice c hc)).1
  · exact List.all_eq_true.mp (by decide : ".onion".toList.all isHostChar = true) c hc

theorem rooted_ascii (hroot : Rooted name text) (hname : ∀ c ∈ name, isAsciiChar c = true) :
    text.all isAsciiChar = true := by
  rw [List.all_eq_true]
  intro c hc
  obtain rfl | rfl := hroot
  · exact hname c hc
  · obtain hc | hc := List.mem_append.mp hc
    · exact hname c hc
    · rw [List.mem_singleton.mp hc]
      rfl

theorem rooted_length (hroot : Rooted name text) : text.length ≤ name.length + 1 := by
  obtain rfl | rfl := hroot
  · omega
  · simp

theorem onion_name {service : List Char} (hroot : Rooted name text)
    (hname : lowercase name = service ++ ".onion".toList)
    (hservice : ∀ c ∈ service, isBase32 c = true) (hlength : service.length ≤ 56) :
    (parseName text : Option (PeerHost V4 V6)) =
      if service.length = 16 then some (.onionV2 (lowercase name))
      else if service.length = 56 then some (.onionV3 (lowercase name))
      else none := by
  have hascii : text.all isAsciiChar = true := by
    apply rooted_ascii hroot
    intro c hc
    rw [← toLower_ascii]
    apply hostChar_ascii
    apply onion_chars hservice
    rw [← hname]
    exact List.mem_map_of_mem hc
  have hshort : ¬ 253 < text.length := by
    have hle := rooted_length hroot
    have hsum := congrArg List.length hname
    rw [length_lowercase, List.length_append] at hsum
    have hsuffix : ".onion".toList.length = 6 := rfl
    omega
  have hne : name ≠ [] := by
    intro hnil
    rw [hnil] at hname
    exact absurd hname (by simp [lowercase])
  have hall : service.all isBase32 = true := List.all_eq_true.mpr hservice
  have hdot : '.' ∉ service := fun hmem => (base32_hostChar (hservice '.' hmem)).2 rfl
  rw [parseName, if_neg (by simp only [hascii, hshort]; simp)]
  simp only [strip_rooted hroot (onion_last hname), if_neg hne, stripSuffix_some.mpr hname]
  rw [if_neg (by simp only [hall, hdot]; simp)]

theorem dns_name (hroot : Rooted name text) (hlength : text.length ≤ 253)
    (hlabels : ∀ label ∈ name.splitOn '.', isLabel label = true)
    (hword : ∃ c ∈ name, isDottedDigit c = false)
    (honion : ¬ ".onion".toList <:+ lowercase name) :
    (parseName text : Option (PeerHost V4 V6)) = some (.name text) := by
  have hascii : text.all isAsciiChar = true := by
    apply rooted_ascii hroot
    intro c hc
    exact hostChar_ascii (labels_chars hlabels c hc)
  obtain ⟨c, hc, hdigit⟩ := hword
  have hnumber : ¬ name.all isDottedDigit = true := by
    intro hall
    rw [List.all_eq_true.mp hall c hc] at hdigit
    cases hdigit
  rw [parseName, if_neg (by simp only [hascii, Nat.not_lt.mpr hlength]; simp)]
  simp only [strip_rooted hroot (labels_last hlabels), if_neg (List.ne_nil_of_mem hc),
    stripSuffix_none.mpr honion]
  rw [if_neg hnumber, if_pos (List.all_eq_true.mpr hlabels)]

theorem parseName_iff : parseName value = some host ↔ NameText value host := by
  constructor
  · intro h
    unfold parseName at h
    split_ifs at h with hbad
    have hlength : value.length ≤ 253 := by
      by_contra hlong
      exact hbad (.inr (by omega))
    have hroot := rooted_strip value
    generalize (stripSuffix ".".toList value).getD value = name at h hroot
    by_cases hne : name = []
    · rw [if_pos hne] at h
      cases h
    · rw [if_neg hne] at h
      cases hstrip : stripSuffix ".onion".toList (lowercase name) with
      | some service =>
        have hname := stripSuffix_some.mp hstrip
        simp only [hstrip] at h
        split_ifs at h with hbase hshort hlong
        · cases h
          have hall : service.all isBase32 = true := by
            by_contra hnot
            exact hbase (.inl hnot)
          exact .onionV2 name value service hroot hname (List.all_eq_true.mp hall) hshort
        · cases h
          have hall : service.all isBase32 = true := by
            by_contra hnot
            exact hbase (.inl hnot)
          exact .onionV3 name value service hroot hname (List.all_eq_true.mp hall) hlong
      | none =>
        simp only [hstrip] at h
        split_ifs at h with hnumber hlabels
        cases h
        have hword : ∃ c ∈ name, isDottedDigit c = false := by
          by_contra hnone
          apply hnumber
          rw [List.all_eq_true]
          intro c hc
          by_contra hfalse
          exact hnone ⟨c, hc, eq_false_of_ne_true hfalse⟩
        exact .dns name value hroot hlength (List.all_eq_true.mp hlabels) hword
          (stripSuffix_none.mp hstrip)
  · intro h
    cases h with
    | dns name text hroot hlength hlabels hword honion =>
      exact dns_name hroot hlength hlabels hword honion
    | onionV2 name text service hroot hname hservice hlength =>
      rw [onion_name hroot hname hservice (by omega), if_pos hlength]
    | onionV3 name text service hroot hname hservice hlength =>
      rw [onion_name hroot hname hservice (by omega), if_neg (by omega), if_pos hlength]

end Names
theorem plain_unblank {c : Char} (h : isPlain c = true) : isWhitespace c = false := by
  simp only [isPlain, Bool.and_eq_true] at h
  simpa using h.1.1.1

theorem plain_trimmed {value : List Char} (h : ∀ c ∈ value, isPlain c = true) :
    isTrimmed value = true := isTrimmed_of_none fun c hc => plain_unblank (h c hc)

section Hosts
variable {ip : IpLib V4 V6} {value inner : List Char} {host : PeerHost V4 V6}

/-- What an accepted host is: an address of version six, with or without brackets, an address of
version four, or a name. -/
theorem parseHost_cases (h : parseHost ip value = some host) :
    (∃ address, host = .ipv6 address ∧ (ip.parseV6 value = some address ∨
        ∃ inner, value = '[' :: inner ++ "]".toList ∧ ip.parseV6 inner = some address)) ∨
      (∃ address, host = .ipv4 address ∧ ip.parseV4 value = some address) ∨
      ip.parseV4 value = none ∧ NameText value host := by
  unfold parseHost at h
  by_cases htrimmed : value = [] ∨ isTrimmed value = false
  · rw [if_pos htrimmed] at h
    cases h
  rw [if_neg htrimmed] at h
  by_cases hbracket : value.head? = some '[' ∨ value.getLast? = some ']'
  · rw [if_pos hbracket] at h
    obtain ⟨address, hbound, rfl⟩ := Option.map_eq_some_iff.mp h
    obtain ⟨inner, hinner, haddress⟩ := Option.bind_eq_some_iff.mp hbound
    refine .inl ⟨address, rfl, .inr ⟨inner, ?_, haddress⟩⟩
    unfold stripBrackets at hinner
    split at hinner
    · rw [stripSuffix_some.mp hinner]
      rfl
    · cases hinner
  · rw [if_neg hbracket] at h
    cases hv6 : ip.parseV6 value with
    | some address =>
      simp only [hv6] at h
      cases h
      exact .inl ⟨address, rfl, .inl rfl⟩
    | none =>
      simp only [hv6] at h
      by_cases hcolon : ':' ∈ value
      · rw [if_pos hcolon] at h
        cases h
      · rw [if_neg hcolon] at h
        cases hv4 : ip.parseV4 value with
        | some address =>
          simp only [hv4] at h
          cases h
          exact .inr (.inl ⟨address, rfl, rfl⟩)
        | none =>
          simp only [hv4] at h
          exact .inr (.inr ⟨rfl, parseName_iff.mp h⟩)

theorem rooted_chars {name : List Char} (hroot : Rooted name value)
    (hname : ∀ c ∈ name, isHostChar c = true) : ∀ c ∈ value, isHostChar c = true := by
  obtain rfl | rfl := hroot
  · exact hname
  · exact List.forall_mem_append.mpr ⟨hname, List.all_eq_true.mp (by decide)⟩

theorem onion_text {name service : List Char} (hroot : Rooted name value)
    (hname : lowercase name = service ++ ".onion".toList)
    (hservice : ∀ c ∈ service, isBase32 c = true) : ∀ c ∈ value, isHostChar c = true := by
  apply rooted_chars hroot
  intro c hc
  apply toLower_hostChar
  apply onion_chars hservice
  rw [← hname]
  exact List.mem_map_of_mem hc

theorem name_text (h : NameText value host) : ∀ c ∈ value, isHostChar c = true := by
  cases h with
  | dns name _ hroot hlength hlabels => exact rooted_chars hroot (labels_chars hlabels)
  | onionV2 name _ service hroot hname hservice => exact onion_text hroot hname hservice
  | onionV3 name _ service hroot hname hservice => exact onion_text hroot hname hservice

theorem name_chars (h : NameText value host) :
    ∀ c ∈ canonicalHost ip host, isHostChar c = true := by
  cases h with
  | dns name text hroot hlength hlabels hword honion =>
    exact rooted_chars hroot (labels_chars hlabels)
  | onionV2 name text service hroot hname hservice hlength =>
    intro c hc
    have hmem : c ∈ lowercase name := hc
    rw [hname] at hmem
    exact onion_chars hservice c hmem
  | onionV3 name text service hroot hname hservice hlength =>
    intro c hc
    have hmem : c ∈ lowercase name := hc
    rw [hname] at hmem
    exact onion_chars hservice c hmem

theorem name_nonempty (h : NameText value host) : value ≠ [] := by
  intro hnil
  subst hnil
  have hrooted {name : List Char} (hroot : Rooted name []) : name = [] := by
    obtain hname | hname := hroot
    · exact hname.symm
    · simp at hname
  cases h with
  | dns name _ hroot hlength hlabels hword =>
    obtain ⟨c, hc, _⟩ := hword
    rw [hrooted hroot] at hc
    cases hc
  | onionV2 name _ service hroot hname =>
    rw [hrooted hroot] at hname
    exact absurd hname (by simp [lowercase])
  | onionV3 name _ service hroot hname =>
    rw [hrooted hroot] at hname
    exact absurd hname (by simp [lowercase])

/-- The canonical text of a name is the same name. -/
theorem name_again (h : NameText value host) : NameText (canonicalHost ip host) host := by
  cases h with
  | dns name text hroot hlength hlabels hword honion =>
    exact .dns name value hroot hlength hlabels hword honion
  | onionV2 name text service hroot hname hservice hlength =>
    have hagain := @NameText.onionV2 V4 V6 (lowercase name) (lowercase name) service (.inl rfl)
      ((lowercase_lowercase name).trans hname) hservice hlength
    rw [lowercase_lowercase] at hagain
    exact hagain
  | onionV3 name text service hroot hname hservice hlength =>
    have hagain := @NameText.onionV3 V4 V6 (lowercase name) (lowercase name) service (.inl rfl)
      ((lowercase_lowercase name).trans hname) hservice hlength
    rw [lowercase_lowercase] at hagain
    exact hagain

variable (hip : IpTexts ip)
include hip

theorem v6_plain {address : V6} (h : ip.parseV6 value = some address) :
    ∀ c ∈ value, isPlain c = true := by
  intro c hc
  have hchar := (hip.text_v6 h).2 c hc
  simp only [Bool.or_eq_true, beq_iff_eq] at hchar
  obtain (halpha | rfl) | rfl := hchar
  · have hhost : isHostChar c = true := by simp [isHostChar, isLabelChar, halpha]
    exact (hostChar_plain hhost).1
  · decide
  · decide

theorem parseV6_hostChars (hchars : ∀ c ∈ value, isHostChar c = true) :
    ip.parseV6 value = none := by
  cases h : ip.parseV6 value with
  | none => rfl
  | some address => exact absurd rfl (hostChar_plain (hchars ':' (hip.text_v6 h).1)).2

/-- Without colons, brackets and blanks a host is a number or a name. -/
theorem parseHost_plain (hne : value ≠ []) (hchars : ∀ c ∈ value, isHostChar c = true) :
    parseHost ip value = ((ip.parseV4 value).map .ipv4).or (parseName value) := by
  have hplain : ∀ c ∈ value, isPlain c = true := fun c hc => (hostChar_plain (hchars c hc)).1
  have hopen : ¬ (value.head? = some '[' ∨ value.getLast? = some ']') := by
    intro hbracket
    obtain hhead | hlast := hbracket
    · exact absurd (hplain '[' (List.mem_of_head? hhead)) (by decide)
    · exact absurd (hplain ']' (List.mem_of_getLast? hlast)) (by decide)
  have hcolon : ':' ∉ value := fun hmem => (hostChar_plain (hchars ':' hmem)).2 rfl
  have htrimmed : ¬ (value = [] ∨ isTrimmed value = false) := by
    rw [plain_trimmed hplain]
    simp [hne]
  rw [parseHost, if_neg htrimmed, if_neg hopen, parseV6_hostChars hip hchars]
  simp only [if_neg hcolon]
  cases ip.parseV4 value <;> rfl

theorem parseHost_bracketed {address : V6} (h : ip.parseV6 inner = some address) :
    parseHost ip ('[' :: inner ++ "]".toList) = some (.ipv6 address) := by
  have htrimmed : isTrimmed ('[' :: inner ++ "]".toList) = true := by
    apply isTrimmed_of_none
    intro c hc
    simp only [List.cons_append, List.mem_cons, List.mem_append] at hc
    obtain rfl | hc | hc := hc
    · decide
    · exact plain_unblank (v6_plain hip h c hc)
    · rw [List.mem_singleton.mp hc]
      decide
  have hstrip : stripBrackets ('[' :: inner ++ "]".toList) = some inner := stripSuffix_some.mpr rfl
  rw [parseHost, if_neg (by rw [htrimmed]; simp), if_pos (.inl rfl), hstrip, Option.bind_some, h]
  rfl

theorem onion_parseV4 {text service : List Char} (h : text = service ++ ".onion".toList) :
    ip.parseV4 text = none := by
  cases haddress : ip.parseV4 text with
  | none => rfl
  | some address =>
    have hmem : 'n' ∈ text := by
      rw [h]
      exact List.mem_append_right service (by decide)
    exact absurd ((hip.text_v4 haddress).2 'n' hmem) (by decide)

theorem name_parseV4 (h : NameText value host) (hvalue : ip.parseV4 value = none) :
    ip.parseV4 (canonicalHost ip host) = none := by
  cases h with
  | dns => exact hvalue
  | onionV2 name text service hroot hname => exact onion_parseV4 hip hname
  | onionV3 name text service hroot hname => exact onion_parseV4 hip hname

end Hosts
end Nigiri.Lnd
