import Nigiri.BootstrapUrl
import Nigiri.PairAllocation

/-! The endpoint of a started node, built from the host and the port it is mapped to, and accepted
as it was built. -/
namespace Nigiri.Fixtures
open Nigiri.Lnd
variable {Hash : Type}

def LND_GRPC_PORT : UInt16 := 10009

structure RunningContainer where
  host : String
  ports : List (UInt16 × UInt16)

/-- The setters of the URL library, and the standard library's reading of an address. -/
structure MappedUrlLib extends UrlLib where
  setHost : Url → String → Option Url
  setPort : Url → Option UInt16 → Option Url
  displayV6 : String → Option String

/-- The result is `none` where the static URL is not one. -/
def mappedHttpsUrl (lib : MappedUrlLib) (host : String) (port : UInt16) :
    Option (Except InvalidConfiguration Url) := do
  let url ← lib.parse "https://localhost/".toList
  let hosted := match lib.setHost url host with
    | some url => some url
    | none =>
      match lib.displayV6 host with
      | some address => lib.setHost url ("[" ++ address ++ "]")
      | none => none
  match hosted with
  | none => return .error ⟨"container runtime returned an invalid mapped host"⟩
  | some url =>
    match lib.setPort url (some port) with
    | none => return .error ⟨"container runtime returned an invalid mapped port"⟩
    | some url => return .ok url

def mappedLndEndpoint (lib : MappedUrlLib) (container : RunningContainer) :
    Option (Except InvalidConfiguration Url) :=
  match container.ports.lookup LND_GRPC_PORT with
  | none => some (.error ⟨"container runtime omitted the mapped LND gRPC port"⟩)
  | some port => mappedHttpsUrl lib container.host port

/-- A plain https URL, with nothing of a user, no query and no fragment. -/
structure PlainHttps (lib : UrlLib) (url : Url) : Prop where
  read : lib.parse url.text = some url
  scheme : url.scheme = "https"
  noUser : lib.username url = [] ∧ lib.password url = none
  query : url.query = none
  fragment : url.fragment = none

/-- What is relied on of the setters: each changes its own part of a URL. -/
structure UrlSetters (lib : MappedUrlLib) : Prop where
  localhost : ∀ url, lib.parse "https://localhost/".toList = some url →
    PlainHttps lib.toUrlLib url
  setHost : ∀ url host changed, PlainHttps lib.toUrlLib url →
    lib.setHost url host = some changed →
    PlainHttps lib.toUrlLib changed ∧ changed.host.isSome = true
  setPort : ∀ url port changed, PlainHttps lib.toUrlLib url →
    lib.setPort url (some port) = some changed →
    PlainHttps lib.toUrlLib changed ∧ changed.host = url.host ∧
      changed.port = if port = 443 then none else some port

section Mapped
variable {lib : MappedUrlLib} {url : Url}

theorem setPort_plain (hlib : UrlSetters lib) {hosted : Url} {port : UInt16}
    (hplain : PlainHttps lib.toUrlLib hosted) (hhost : hosted.host.isSome = true)
    (h : lib.setPort hosted (some port) = some url) :
    PlainHttps lib.toUrlLib url ∧ url.host.isSome = true ∧
      url.port = if port = 443 then none else some port := by
  obtain ⟨hurl, hsame, hstored⟩ := hlib.setPort hosted port url hplain h
  rw [← hsame] at hhost
  exact ⟨hurl, hhost, hstored⟩

theorem mappedHttpsUrl_plain (hlib : UrlSetters lib) {host : String} {port : UInt16}
    (h : mappedHttpsUrl lib host port = some (.ok url)) :
    PlainHttps lib.toUrlLib url ∧ url.host.isSome = true ∧
      url.port = if port = 443 then none else some port := by
  simp only [mappedHttpsUrl, Option.bind_eq_bind, Option.bind_eq_some_iff] at h
  obtain ⟨start, hstart, hmapped⟩ := h
  have hplain := hlib.localhost start hstart
  cases hset : lib.setHost start host with
  | some hosted =>
    obtain ⟨hhosted, hsome⟩ := hlib.setHost start host hosted hplain hset
    cases hport : lib.setPort hosted (some port) with
    | none => simp [hset, hport] at hmapped
    | some built =>
      obtain rfl : built = url := by simpa [hset, hport] using hmapped
      exact setPort_plain hlib hhosted hsome hport
  | none =>
    -- The host is tried again in brackets when it reads as an IPv6 address.
    cases haddress : lib.displayV6 host with
    | none => simp [hset, haddress] at hmapped
    | some address =>
      cases hbracketed : lib.setHost start ("[" ++ address ++ "]") with
      | none => simp [hset, haddress, hbracketed] at hmapped
      | some hosted =>
        obtain ⟨hhosted, hsome⟩ := hlib.setHost start _ hosted hplain hbracketed
        cases hport : lib.setPort hosted (some port) with
        | none => simp [hset, haddress, hbracketed, hport] at hmapped
        | some built =>
          obtain rfl : built = url := by
            simpa [hset, haddress, hbracketed, hport] using hmapped
          exact setPort_plain hlib hhosted hsome hport

theorem PlainHttps.acceptable {port : UInt16} (h : PlainHttps lib.toUrlLib url)
    (hhost : url.host.isSome = true) (hport : url.port = if port = 443 then none else some port)
    (hzero : port ≠ 0) : Acceptable lib.toUrlLib url := by
  refine ⟨h.scheme, hhost, h.noUser, h.query, h.fragment, ?_⟩
  rw [hport]
  split_ifs with hdefault
  · simp
  · simpa using hzero

/-- A URL is accepted exactly when it is acceptable, and kept as it is; one that is built for a
mapped host and port is acceptable unless the port is zero. -/
theorem bootstrap_endpoint_round_trip (htexts : UrlTexts lib.toUrlLib) (hsetters : UrlSetters lib)
    {certificate : WireFormat.Bytes} {timeout : Nat}
    (hcertificate : 0 < certificate.length ∧ certificate.length ≤ MAX_TLS_CERTIFICATE_BYTES)
    (htimeout : 0 < timeout) :
    (∀ text url, lib.parse text = some url →
      ((∃ config, (TlsConfig.fromUrl lib.parse url certificate timeout :
          Except (LndError Hash) _) = .ok config) ↔
        Acceptable lib.toUrlLib url) ∧
      ∀ config, (TlsConfig.fromUrl lib.parse url certificate timeout :
          Except (LndError Hash) _) = .ok config → config.endpoint = url) ∧
    ∀ host port url, port ≠ 0 → mappedHttpsUrl lib host port = some (.ok url) →
      ∃ config, (TlsConfig.fromUrl lib.parse url certificate timeout :
          Except (LndError Hash) _) = .ok config ∧ config.endpoint = url := by
  have hkept {text url config} (hparsed : lib.parse text = some url)
      (h : (TlsConfig.fromUrl lib.parse url certificate timeout :
        Except (LndError Hash) _) = .ok config) : config.endpoint = url :=
    ((fromUrl_ok_iff htexts hparsed).mp h).2.1
  constructor
  · intro text url hparsed
    exact ⟨fromUrl_succeeds_iff htexts hparsed hcertificate htimeout, fun config => hkept hparsed⟩
  · intro host port url hzero hmapped
    obtain ⟨hplain, hhost, hport⟩ := mappedHttpsUrl_plain hsetters hmapped
    have hurl := hplain.acceptable hhost hport hzero
    obtain ⟨config, hconfig⟩ :=
      (fromUrl_succeeds_iff htexts hplain.read hcertificate htimeout).mpr hurl
    exact ⟨config, hconfig, hkept hplain.read hconfig⟩

end Mapped

section Localhost

def localhostUrl : Url :=
  ⟨"https://localhost/".toList, "https", none, some "localhost", none, none⟩

/-- The URLs of one host, without a port. -/
def localhostUrls : MappedUrlLib where
  parse text :=
    if text = "https://localhost/".toList ∨ text = "https://localhost:443/".toList then
      some localhostUrl
    else none
  username _ := []
  password _ := none
  parseHost _ := none
  setHost _ host := if host = "localhost" then some localhostUrl else none
  setPort _ port := if port = some 443 then some localhostUrl else none
  displayV6 _ := none

theorem localhostUrls_parse {text : List Char} {url : Url}
    (h : localhostUrls.parse text = some url) : url = localhostUrl := by
  simp only [localhostUrls] at h
  split_ifs at h
  exact (Option.some.inj h).symm

theorem localhostUrl_form :
    HttpsText localhostUrls.toUrlLib localhostUrl [] "localhost".toList "/".toList where
  text := by decide
  noUser := ⟨fun _ => rfl, fun _ => ⟨rfl, rfl⟩⟩
  userChars := List.forall_mem_nil _
  marked := fun h => absurd rfl h
  hostChars := by simp [isAuthorityChar]
  written := .plain _ (by decide) (by decide)
  path := rfl
  elided := by decide

theorem localhostUrl_plain : PlainHttps localhostUrls.toUrlLib localhostUrl :=
  ⟨rfl, rfl, ⟨rfl, rfl⟩, rfl, rfl⟩

theorem localhostUrls_texts : UrlTexts localhostUrls.toUrlLib where
  identity text url h := by
    obtain rfl := localhostUrls_parse h
    exact localhostUrl_plain.read
  https text url h _ := by
    obtain rfl := localhostUrls_parse h
    exact ⟨_, _, _, localhostUrl_form⟩
  defaultPort text url userinfo host tail h hform _ := by
    obtain rfl := localhostUrls_parse h
    obtain rfl := hform.noUser.mp ⟨rfl, rfl⟩
    have hsplit := takeWhile_authority (fun c hc => (hform.hostChars c hc).1) hform.path
    have hsame : host ++ tail = "localhost".toList ++ "/".toList := by
      have hport : portSuffix localhostUrl.port = [] := rfl
      have htext := List.append_cancel_left (hform.text.symm.trans localhostUrl_form.text)
      rw [hport, List.append_nil, List.append_nil] at htext
      exact htext
    rw [hsame] at hsplit
    rw [← hsplit.1, ← hsplit.2]
    decide

theorem localhostUrls_setters : UrlSetters localhostUrls where
  localhost url h := by
    obtain rfl := localhostUrls_parse h
    exact localhostUrl_plain
  setHost url host changed _ h := by
    simp only [localhostUrls] at h
    split_ifs at h
    obtain rfl := Option.some.inj h
    exact ⟨localhostUrl_plain, rfl⟩
  setPort url port changed hplain h := by
    obtain rfl := localhostUrls_parse hplain.read
    simp only [localhostUrls, Option.some.injEq] at h
    split_ifs at h with hport
    obtain rfl := Option.some.inj h
    exact ⟨localhostUrl_plain, rfl, by rw [if_pos hport]; rfl⟩

theorem localhostUrls_mapped :
    mappedHttpsUrl localhostUrls "localhost" 443 = some (.ok localhostUrl) := by
  have hhost : localhostUrls.setHost localhostUrl "localhost" = some localhostUrl := by
    simp only [localhostUrls, if_true]
  have hport : localhostUrls.setPort localhostUrl (some 443) = some localhostUrl := by
    simp only [localhostUrls, if_true]
  have hparse : localhostUrls.parse "https://localhost/".toList = some localhostUrl := by
    simp only [localhostUrls, true_or, if_true]
  rw [mappedHttpsUrl, hparse]
  simp only [Option.bind_eq_bind, Option.bind_some, hhost, hport]
  rfl

theorem bootstrap_endpoint_default_port :
    mappedHttpsUrl localhostUrls "localhost" 443 = some (.ok localhostUrl) ∧
      ∃ config, (TlsConfig.fromUrl localhostUrls.parse localhostUrl [1] 1 :
        Except (LndError Unit) _) = .ok config ∧ config.endpoint = localhostUrl :=
  ⟨localhostUrls_mapped, (bootstrap_endpoint_round_trip localhostUrls_texts localhostUrls_setters
    (by decide) (by decide)).2 "localhost" 443 localhostUrl (by decide) localhostUrls_mapped⟩

end Localhost

end Nigiri.Fixtures
