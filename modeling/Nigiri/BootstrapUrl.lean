import Nigiri.Checks
import Nigiri.EndpointAuthority

/-! A bootstrap endpoint given as a URL: its text is validated with the default port written back,
and read again. -/
namespace Nigiri.Lnd
open Nigiri.Checks Nigiri.WireFormat
variable {Hash : Type} {lib : UrlLib} {url : Url}

def portSuffix : Option UInt16 → List Char
  | none => []
  | some port => ':' :: portText port

/-- A host as a URL writes it: without a colon, or in brackets. -/
inductive WrittenHost : List Char → Prop where
  | plain (host : List Char) (hcolon : ':' ∉ host) (hopen : host.head? ≠ some '[') :
    WrittenHost host
  | bracketed (inner : List Char) (hclose : ']' ∉ inner) : WrittenHost ('[' :: inner ++ [']'])

/-- The text of an https URL in its parts. The port of the scheme is not written. -/
structure HttpsText (lib : UrlLib) (url : Url) (userinfo host tail : List Char) : Prop where
  text : url.text = "https://".toList ++ (userinfo ++ host ++ portSuffix url.port ++ tail)
  noUser : lib.username url = [] ∧ lib.password url = none ↔ userinfo = []
  userChars : ∀ c ∈ userinfo, isAuthorityChar c = true
  marked : userinfo ≠ [] → '@' ∈ userinfo
  hostChars : ∀ c ∈ host, isAuthorityChar c = true ∧ c ≠ '@'
  written : WrittenHost host
  path : tail.head? = some '/'
  elided : url.port ≠ some 443

/-- What is relied on of the texts of URLs: each reads as its URL, that of an https URL has this
form, and it reads the same with the port of the scheme. -/
structure UrlTexts (lib : UrlLib) : Prop where
  identity : ∀ text url, lib.parse text = some url → lib.parse url.text = some url
  https : ∀ text url, lib.parse text = some url → url.scheme = "https" →
    ∃ userinfo host tail, HttpsText lib url userinfo host tail
  defaultPort : ∀ text url userinfo host tail, lib.parse text = some url →
    HttpsText lib url userinfo host tail → url.port = none →
    lib.parse ("https://".toList ++ (userinfo ++ host ++ ":443".toList ++ tail)) =
      lib.parse url.text

/-- What an endpoint must be. -/
structure Acceptable (lib : UrlLib) (url : Url) : Prop where
  scheme : url.scheme = "https"
  host : url.host.isSome = true
  noUser : lib.username url = [] ∧ lib.password url = none
  query : url.query = none
  fragment : url.fragment = none
  port : url.port ≠ some 0

section Authority
variable {authority host inner : List Char} {port : UInt16}

theorem colon_not_mem_portText (port : UInt16) : ':' ∉ portText port := fun hmem =>
  absurd (portText_digits hmem) (by decide)

theorem WrittenHost.authorityPort (h : WrittenHost host) {port : List Char} (hport : ':' ∉ port) :
    Lnd.authorityPort (host ++ ':' :: port) = some port := by
  cases h with
  | plain host hcolon hopen =>
    refine authorityPort_plain (fun hhead => ?_) hport
    cases host with
    | nil => exact absurd (Option.some.inj hhead) (by decide)
    | cons c cs => exact hopen hhead
  | bracketed inner hclose =>
    rw [List.append_assoc]
    exact authorityPort_bracketed hclose

theorem digit_authorityChar {c : Char} (h : c.isDigit = true) : isAuthorityChar c = true := by
  have hends := (digit_plain h).2.2.2.2
  simp only [endsAuthority, isSlash, Bool.or_eq_false_iff] at hends
  simp [isAuthorityChar, hends.1.1.1, hends.1.2, hends.2]

theorem validateAuthority_noUser
    (h : (validateAuthority authority : Except (LndError Hash) Unit) = .ok ()) :
    '@' ∉ authority := by
  rw [validateAuthority, guard_ok_iff] at h
  exact h.1

theorem validateAuthority_ok_iff (hport : Lnd.authorityPort authority = some (portText port)) :
    (validateAuthority authority : Except (LndError Hash) Unit) = .ok () ↔
      '@' ∉ authority ∧ port ≠ 0 := by
  have hdigits : (portText port).all Char.isDigit = true :=
    List.all_eq_true.mpr fun c hc => portText_digits hc
  have hrange : ¬ 65536 ≤ port.toNat := Nat.not_le.mpr port.toNat_lt
  have hzero : port.toNat = 0 ↔ port = 0 := by
    rw [← UInt16.toNat_inj]
    rfl
  simp only [validateAuthority, hport, guard_ok_iff, decimal_portText, portText_ne_nil, hdigits,
    hrange, hzero]
  simp

theorem validateEndpoint_ok_iff {parse : List Char → Option Url} {endpoint : List Char} :
    (validateEndpoint parse endpoint : Except (LndError Hash) Url) = .ok url ↔
      (∃ authority, (originalAuthority endpoint : Except (LndError Hash) _) = .ok authority ∧
        (validateAuthority authority : Except (LndError Hash) Unit) = .ok ()) ∧
      parse endpoint = some url ∧ url.scheme = "https" ∧ url.host.isSome = true ∧
      url.query = none ∧ url.fragment = none := by
  simp only [validateEndpoint, bind_ok_iff]
  cases parse endpoint with
  | none => simp
  | some found =>
    simp only [guard_ok_iff, Except.ok.injEq, Option.some.injEq, not_not]
    constructor
    · rintro ⟨authority, horiginal, _, hvalid, hscheme, hhost, hquery, hfragment, rfl⟩
      refine ⟨⟨authority, horiginal, hvalid⟩, rfl, hscheme, ?_, ?_, ?_⟩
      · simpa [Option.isSome_iff_ne_none] using hhost
      · simpa using hquery
      · simpa using hfragment
    · rintro ⟨⟨authority, horiginal, hvalid⟩, rfl, hscheme, hhost, hquery, hfragment⟩
      refine ⟨authority, horiginal, (), hvalid, hscheme, ?_, ?_, ?_, rfl⟩
      · simpa [Option.isSome_iff_ne_none] using hhost
      · simp [hquery]
      · simp [hfragment]

theorem TlsConfig.new_ok_iff {parse : List Char → Option Url} {endpoint : List Char}
    {certificate : Bytes} {timeout : Nat} {config : TlsConfig} :
    (TlsConfig.new parse endpoint certificate timeout : Except (LndError Hash) _) = .ok config ↔
      (validateEndpoint parse endpoint : Except (LndError Hash) Url) = .ok config.endpoint ∧
        config.certificate = certificate ∧ config.timeout = timeout := by
  simp only [TlsConfig.new, bind_ok_iff]
  constructor
  · rintro ⟨url, hurl, ⟨hbounds⟩, _, hconfig⟩
    split_ifs at hconfig with hzero
    cases hconfig
    exact ⟨hurl, rfl, rfl⟩
  · rintro ⟨hurl, rfl, rfl⟩
    have hlength := config.certificate_size
    have htimeout := config.timeout_pos
    refine ⟨config.endpoint, hurl, ⟨hlength⟩, ?_, ?_⟩
    · rw [validateCredential, dif_neg (by omega), dif_neg (by omega)]
    · rw [dif_neg (by omega)]
      rfl

end Authority

section Read
variable {userinfo host tail authority : List Char}

theorem takeWhile_authority (hplain : ∀ c ∈ authority, isAuthorityChar c = true)
    (hpath : tail.head? = some '/') :
    (authority ++ tail).takeWhile isAuthorityChar = authority ∧
      (authority ++ tail).dropWhile isAuthorityChar = tail := by
  rw [List.takeWhile_append_of_pos hplain, List.dropWhile_append_of_pos hplain]
  cases tail with
  | nil => cases hpath
  | cons c cs =>
    obtain rfl : c = '/' := Option.some.inj hpath
    rw [List.takeWhile_cons_of_neg (by decide), List.dropWhile_cons_of_neg (by decide)]
    exact ⟨List.append_nil _, rfl⟩

theorem splitOnce_https (rest : List Char) :
    splitOnce "://".toList ("https://".toList ++ rest) = some ("https".toList, rest) :=
  @splitOnce_first ':' ['/', '/'] "https".toList rest (by decide)

/-- The text that is validated has the port, written or elided, behind the host. -/
theorem HttpsText.endpointText (h : HttpsText lib url userinfo host tail)
    (hscheme : url.scheme = "https") :
    Lnd.endpointText url = "https://".toList ++
      (userinfo ++ host ++ ':' :: portText (url.port.getD 443) ++ tail) := by
  have hplain : ∀ c ∈ userinfo ++ host, isAuthorityChar c = true :=
    List.forall_mem_append.mpr ⟨h.userChars, fun c hc => (h.hostChars c hc).1⟩
  cases hport : url.port with
  | none =>
    obtain ⟨htake, hdrop⟩ := takeWhile_authority hplain h.path
    rw [Lnd.endpointText, if_pos ⟨hscheme, hport⟩, h.text, hport, portSuffix, List.append_nil,
      splitOnce_https]
    simp only [htake, hdrop]
    rfl
  | some port =>
    have hwritten : ¬ (url.scheme = "https" ∧ url.port = none) := by simp [hport]
    rw [Lnd.endpointText, if_neg hwritten, h.text, hport]
    rfl

theorem endpointText_parse (hlib : UrlTexts lib) {text : List Char}
    (hparsed : lib.parse text = some url) : lib.parse (endpointText url) = some url := by
  have hidentity := hlib.identity text url hparsed
  by_cases helided : url.scheme = "https" ∧ url.port = none
  · obtain ⟨userinfo, host, tail, hform⟩ := hlib.https text url hparsed helided.1
    have hsame := hlib.defaultPort text url userinfo host tail hparsed hform helided.2
    rw [hform.endpointText helided.1, helided.2]
    exact hsame.trans hidentity
  · rwa [endpointText, if_neg helided]

/-- The authority of an https URL is valid when it has no user information and its port is not
zero. -/
theorem HttpsText.authority_valid (h : HttpsText lib url userinfo host tail)
    (hscheme : url.scheme = "https") :
    (∃ authority,
      (originalAuthority (Lnd.endpointText url) : Except (LndError Hash) _) = .ok authority ∧
        (validateAuthority authority : Except (LndError Hash) Unit) = .ok ()) ↔
      (lib.username url = [] ∧ lib.password url = none) ∧ url.port ≠ some 0 := by
  have hplain : ∀ c ∈ userinfo ++ host ++ ':' :: portText (url.port.getD 443),
      isAuthorityChar c = true := by
    refine List.forall_mem_append.mpr ⟨List.forall_mem_append.mpr ⟨h.userChars, fun c hc =>
      (h.hostChars c hc).1⟩, List.forall_mem_cons.mpr ⟨by decide, fun c hc => ?_⟩⟩
    exact digit_authorityChar (portText_digits hc)
  have horiginal : (originalAuthority (Lnd.endpointText url) : Except (LndError Hash) _) =
      .ok (userinfo ++ host ++ ':' :: portText (url.port.getD 443)) := by
    rw [h.endpointText hscheme, originalAuthority, splitOnce_https]
    exact congrArg Except.ok (takeWhile_authority hplain h.path).1
  have hzero : url.port.getD 443 ≠ 0 ↔ url.port ≠ some 0 := by
    cases url.port with
    | none => simp
    | some port => simp
  rw [h.noUser, ← hzero]
  constructor
  · rintro ⟨authority, hfound, hvalid⟩
    obtain rfl := Except.ok.inj (horiginal.symm.trans hfound)
    by_cases hnone : userinfo = []
    · subst hnone
      have hport := h.written.authorityPort (colon_not_mem_portText (url.port.getD 443))
      exact ⟨rfl, ((validateAuthority_ok_iff hport).mp hvalid).2⟩
    · have hmarked := List.mem_append_left host (h.marked hnone)
      exact absurd (List.mem_append_left _ hmarked) (validateAuthority_noUser hvalid)
  · rintro ⟨rfl, hport⟩
    have hread := h.written.authorityPort (colon_not_mem_portText (url.port.getD 443))
    refine ⟨_, horiginal, (validateAuthority_ok_iff hread).mpr ⟨fun hmem => ?_, hport⟩⟩
    obtain hmem | hmem := List.mem_append.mp hmem
    · exact (h.hostChars '@' hmem).2 rfl
    · obtain heq | hmem := List.mem_cons.mp hmem
      · exact absurd heq (by decide)
      · exact absurd (portText_digits hmem) (by decide)

theorem fromUrl_ok_iff (hlib : UrlTexts lib) {text : List Char}
    (hparsed : lib.parse text = some url) {certificate : Bytes} {timeout : Nat}
    {config : TlsConfig} :
    (TlsConfig.fromUrl lib.parse url certificate timeout : Except (LndError Hash) _) =
        .ok config ↔
      Acceptable lib url ∧ config.endpoint = url ∧ config.certificate = certificate ∧
        config.timeout = timeout := by
  have hread := endpointText_parse hlib hparsed
  rw [TlsConfig.fromUrl, TlsConfig.new_ok_iff, validateEndpoint_ok_iff, hread]
  constructor
  · rintro ⟨⟨hauthority, hsame, hscheme, hhost, hquery, hfragment⟩, hrest⟩
    obtain rfl := Option.some.inj hsame
    obtain ⟨userinfo, host, tail, hform⟩ := hlib.https text config.endpoint hparsed hscheme
    obtain ⟨huser, hport⟩ := (hform.authority_valid hscheme).mp hauthority
    exact ⟨⟨hscheme, hhost, huser, hquery, hfragment, hport⟩, rfl, hrest⟩
  · rintro ⟨h, rfl, hrest⟩
    obtain ⟨userinfo, host, tail, hform⟩ := hlib.https text config.endpoint hparsed h.scheme
    exact ⟨⟨(hform.authority_valid h.scheme).mpr ⟨h.noUser, h.port⟩, rfl, h.scheme, h.host, h.query,
      h.fragment⟩, hrest⟩

theorem fromUrl_succeeds_iff (hlib : UrlTexts lib) {text : List Char}
    (hparsed : lib.parse text = some url) {certificate : Bytes} {timeout : Nat}
    (hcertificate : 0 < certificate.length ∧ certificate.length ≤ MAX_TLS_CERTIFICATE_BYTES)
    (htimeout : 0 < timeout) :
    (∃ config, (TlsConfig.fromUrl lib.parse url certificate timeout :
      Except (LndError Hash) _) = .ok config) ↔ Acceptable lib url := by
  simp only [fromUrl_ok_iff hlib hparsed]
  constructor
  · rintro ⟨config, hurl, hrest⟩
    exact hurl
  · intro hurl
    exact ⟨⟨url, certificate, timeout, hcertificate, htimeout⟩, hurl, rfl, rfl, rfl⟩

end Read

end Nigiri.Lnd
