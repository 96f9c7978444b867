import AgentCpp.Hub.Spec

/-!
# Who gets the hub token (`hub_http.cpp`, `token_allowed_for_host`)

Every hop of a request is parsed by `parse_url`; `token_allowed_for_host` reads the endpoint
by itself.
-/

namespace AgentCpp.Hub
open Lib List

structure Url where
  scheme : Bytes
  host : Bytes
  port : ℕ
  target : Bytes
  deriving DecidableEq

def afterLast (c : UInt8) (s : Bytes) : Bytes := s.rtakeWhile (· ≠ c)
def beforeLast (c : UInt8) (s : Bytes) : Bytes := (s.rdropWhile (· ≠ c)).dropLast

def parsePort : ℕ → Bytes → Option ℕ
  | p, [] => some p
  | p, c :: rest => if c < 0x30 ∨ 0x39 < c ∨ 65535 < p then none else parsePort (p * 10 + (c.toNat - 0x30)) rest

def authorityEnd (c : UInt8) : Bool := c == 0x2F || c == 0x3F

def hostPort (rest : Bytes) : Bytes := afterLast 0x40 (rest.takeWhile fun c => !authorityEnd c)

def hasPort (authority : Bytes) : Bool := 0x3A ∈ afterLast 0x5D authority

def hostOf (authority : Bytes) : Bytes := if hasPort authority then beforeLast 0x3A authority else authority

def targetOf (rest : Bytes) : Bytes :=
  let target := rest.dropWhile fun c => !authorityEnd c
  if target = [] then lit "/" else if target.head? = some 0x3F then 0x2F :: target else target

def readAuthority (scheme authority : Bytes) : Result (Bytes × ℕ) :=
  match if hasPort authority then parsePort 0 (afterLast 0x3A authority) else some 0 with
  | none => fail .invalidConfig (lit "hub: bad port in URL")
  | some p =>
    if hostOf authority = [] then fail .invalidConfig (lit "hub: URL without host")
    else .ok (hostOf authority, if 0 < p ∧ p ≤ 65535 then p else if scheme = lit "https" then 443 else 80)

def parseUrl (s : Bytes) : Result Url :=
  match find (lit "://") s with
  | none => fail .invalidConfig (lit "hub: not an absolute URL: " ++ s)
  | some sep =>
    let scheme := toLower (s.take sep)
    if scheme ≠ lit "https" ∧ scheme ≠ lit "http" then fail .invalidConfig (lit "hub: unsupported URL scheme: " ++ scheme)
    else
      let rest := s.drop (sep + 3)
      match readAuthority scheme (hostPort rest) with
      | .error e => .error e
      | .ok (host, port) => .ok ⟨scheme, host, port, targetOf rest⟩

def resolveLocation (base : Url) (location : Bytes) : Bytes :=
  let origin := base.scheme ++ lit "://" ++ base.host ++ lit ":" ++ decimal base.port
  if (find (lit "://") location).isSome then location
  else if (lit "//").isPrefixOf location then base.scheme ++ lit ":" ++ location
  else if location.head? = some 0x2F then origin ++ location
  else origin ++ (base.target.takeWhile (· ≠ 0x3F)).rdropWhile (· ≠ 0x2F) ++ location

def endpointHost (endpoint : Bytes) : Bytes :=
  let e := toLower endpoint
  let e : Bytes := match find (lit "://") e with
    | some n => e.drop (n + 3)
    | none => e
  let e := e.takeWhile (· ≠ 0x2F)
  if 0x5D ∉ e ∧ 0x3A ∈ e then beforeLast 0x3A e else e

def isHf (h : Bytes) : Bool := h = lit "huggingface.co" || h = lit "hf.co"

def tokenAllowedForHost (host endpoint : Bytes) : Bool :=
  let h := toLower host
  let e := endpointHost endpoint
  if h = [] ∨ e = [] then false else if h = e then true else isHf e && isHf h

structure Hop where
  host : Bytes
  authorization : Option Bytes
  deriving DecidableEq

/- The requests of `http_get`: a hop for each redirect followed, with the Location it gave. -/
def httpGetHops (token endpoint : Bytes) : ℕ → Bytes → List Bytes → List Hop
  | 0, _, _ => []
  | hops + 1, url, locations =>
    match parseUrl url with
    | .error _ => []
    | .ok u =>
      ⟨u.host, if token ≠ [] ∧ tokenAllowedForHost u.host endpoint then some (lit "Bearer " ++ token) else none⟩ ::
        match locations with
        | [] => []
        | location :: rest => if location = [] then [] else httpGetHops token endpoint hops (resolveLocation u location) rest

/- The part behind the scheme names a host and at most a port: no userinfo, no query, no port behind an IPv6 literal. -/
structure PlainAuthority (rest : Bytes) : Prop where
  noUser : 0x40 ∉ rest.takeWhile (· ≠ 0x2F)
  noQuery : 0x3F ∉ rest.takeWhile (· ≠ 0x2F)
  noBracketPort : 0x5D ∈ rest.takeWhile (· ≠ 0x2F) → hasPort (rest.takeWhile (· ≠ 0x2F)) = false

def PlainEndpoint (endpoint : Bytes) : Prop :=
  ∀ n, find (lit "://") endpoint = some n → PlainAuthority (endpoint.drop (n + 3))

section Plain

theorem lower_eq_iff (c : UInt8) : ∀ b ∈ lit ":/]", lower c = b ↔ c = b := by
  have hall : ∀ i : Fin 256, ∀ b ∈ lit ":/]", lower (UInt8.ofNat i) = b ↔ UInt8.ofNat i = b := by decide +kernel
  have hc := hall ⟨c.toNat, c.toNat_lt⟩
  simpa using hc

variable {needle endpoint s : Bytes}

theorem isPrefixOf_toLower (hneedle : ∀ b ∈ needle, b ∈ lit ":/]") (s : Bytes) :
    needle.isPrefixOf (toLower s) = needle.isPrefixOf s := by
  induction needle generalizing s with
  | nil => simp
  | cons b needle ih =>
    cases s with
    | nil => rfl
    | cons c s =>
      have hb := lower_eq_iff c b (hneedle b (mem_cons_self ..))
      have hrest := ih (fun d hd => hneedle d (mem_cons_of_mem _ hd)) s
      simp only [toLower, map_cons, isPrefixOf_cons_cons] at hrest ⊢
      rw [hrest, Bool.eq_iff_iff]
      simp [eq_comm (a := b), hb]

theorem find_toLower (hneedle : ∀ b ∈ needle, b ∈ lit ":/]") (s : Bytes) :
    find needle (toLower s) = find needle s := by
  induction s with
  | nil => rfl
  | cons c s ih =>
    have hhead := isPrefixOf_toLower hneedle (c :: s)
    simp only [toLower, map_cons] at hhead ih ⊢
    simp only [find, hhead, ih]

variable {b : UInt8}

theorem ne_lower (hb : b ∈ lit ":/]") : (fun c => decide (c ≠ b)) ∘ lower = fun c => decide (c ≠ b) := by
  funext c
  simp [lower_eq_iff c b hb]

theorem mem_toLower (hb : b ∈ lit ":/]") (s : Bytes) : b ∈ toLower s ↔ b ∈ s := by
  simp [toLower, lower_eq_iff _ b hb]

theorem takeWhile_toLower (hb : b ∈ lit ":/]") (s : Bytes) :
    (toLower s).takeWhile (· ≠ b) = toLower (s.takeWhile (· ≠ b)) := by
  rw [toLower, takeWhile_map, ne_lower hb]
  rfl

theorem beforeLast_toLower (hb : b ∈ lit ":/]") (s : Bytes) :
    beforeLast b (toLower s) = toLower (beforeLast b s) := by
  simp only [beforeLast, toLower, List.rdropWhile, ← map_reverse, dropWhile_map, ne_lower hb, map_dropLast]

theorem PlainAuthority.hostPort_eq {rest : Bytes} (h : PlainAuthority rest) :
    hostPort rest = rest.takeWhile (· ≠ 0x2F) := by
  have htake : rest.takeWhile (fun c => !authorityEnd c) = rest.takeWhile (· ≠ 0x2F) := by
    have hno := h.noQuery
    clear h
    induction rest with
    | nil => rfl
    | cons c rest ih =>
      by_cases hslash : c = 0x2F
      · simp [hslash, authorityEnd]
      · simp only [ne_eq, hslash, not_false_eq_true, decide_true, takeWhile_cons_of_pos, mem_cons, not_or] at hno
        rw [takeWhile_cons_of_pos (by simp [authorityEnd, hslash, Ne.symm hno.1]),
          takeWhile_cons_of_pos (by simp [hslash]), ih hno.2]
  rw [hostPort, htake, afterLast, rtakeWhile_eq_self_iff]
  rintro c hc
  simp only [ne_eq, decide_eq_true_eq]
  rintro rfl
  exact h.noUser hc

theorem endpointHost_eq {n : ℕ} (hn : find (lit "://") endpoint = some n)
    (h : PlainAuthority (endpoint.drop (n + 3))) :
    endpointHost endpoint = toLower (hostOf (hostPort (endpoint.drop (n + 3)))) := by
  have hcolon : 0x3A ∈ lit ":/]" := by decide +kernel
  have hbracket : 0x5D ∈ lit ":/]" := by decide +kernel
  have hdrop : (toLower endpoint).drop (n + 3) = toLower (endpoint.drop (n + 3)) := (map_drop ..).symm
  rw [h.hostPort_eq]
  simp only [endpointHost, (find_toLower (by decide +kernel) endpoint).trans hn, hdrop]
  rw [takeWhile_toLower (by decide +kernel), hostOf]
  have hport := h.noBracketPort
  generalize (endpoint.drop (n + 3)).takeWhile (· ≠ 0x2F) = authority at hport ⊢
  simp only [mem_toLower hcolon, mem_toLower hbracket, beforeLast_toLower hcolon]
  by_cases hin : 0x5D ∈ authority
  · rw [hport hin, if_neg fun hno => hno.1 hin, if_neg Bool.false_ne_true]
  · have hwhole : afterLast 0x5D authority = authority := by
      rw [afterLast, rtakeWhile_eq_self_iff]
      intro c hc
      simp only [ne_eq, decide_eq_true_eq]
      rintro rfl
      exact hin hc
    simp only [hasPort, hwhole, hin, not_false_eq_true, true_and, decide_eq_true_eq]
    split <;> rfl

theorem readAuthority_ok {scheme authority : Bytes} {p : Bytes × ℕ} (h : readAuthority scheme authority = .ok p) :
    p.1 = hostOf authority ∧ p.1 ≠ [] := by
  unfold readAuthority at h
  split at h
  · cases h
  · split at h
    · cases h
    · next hne =>
      cases h
      exact ⟨rfl, hne⟩

variable {u : Url}

theorem parseUrl_ok (h : parseUrl s = .ok u) :
    ∃ n, find (lit "://") s = some n ∧ u.host = hostOf (hostPort (s.drop (n + 3))) ∧ u.host ≠ [] := by
  unfold parseUrl at h
  cases hn : find (lit "://") s with
  | none =>
    rw [hn] at h
    cases h
  | some n =>
    simp only [hn] at h
    split at h
    · cases h
    · cases hread : readAuthority (toLower (s.take n)) (hostPort (s.drop (n + 3))) with
      | error e =>
        rw [hread] at h
        cases h
      | ok p =>
        rw [hread] at h
        cases h
        exact ⟨n, rfl, readAuthority_ok hread⟩

theorem parseUrl_append (h : parseUrl s = .ok u) (path : Bytes) :
    ∃ v, parseUrl (s ++ 0x2F :: path) = .ok v ∧ v.host = u.host := by
  obtain ⟨n, hn, -⟩ := parseUrl_ok h
  have hfound := (find_spec _ _ _ hn).1.length_le
  have hfits : n + 3 ≤ s.length := by
    rw [show (lit "://").length = 3 by decide +kernel, length_drop] at hfound
    omega
  have hauthority : ∀ r : Bytes, hostPort (r ++ 0x2F :: path) = hostPort r := by
    intro r
    simp only [hostPort, takeWhile_append]
    split
    · next hall =>
      rw [takeWhile_cons_of_neg (by decide), append_nil, (List.takeWhile_prefix _).eq_of_length hall]
    · rfl
  have hsplit : (s ++ 0x2F :: path).take n = s.take n ∧ (s ++ 0x2F :: path).drop (n + 3) = s.drop (n + 3) ++ 0x2F :: path :=
    ⟨take_append_of_le_length (by omega), drop_append_of_le_length hfits⟩
  simp only [parseUrl, hn, find_append hn, hsplit, hauthority] at h ⊢
  split at h
  · cases h
  · next hscheme =>
    rw [if_neg hscheme]
    cases hread : readAuthority (toLower (s.take n)) (hostPort (s.drop (n + 3))) with
    | error e =>
      rw [hread] at h
      cases h
    | ok p =>
      rw [hread] at h
      cases h
      exact ⟨_, rfl, rfl⟩

/- Both hosts are the endpoint's, or both are the hub's own. -/
def SameHub (host endpointHost : Bytes) : Prop :=
  toLower host = toLower endpointHost ∨ isHf (toLower endpointHost) ∧ isHf (toLower host)

/- The two readers of the endpoint give the same host, or each one of the hub's own. -/
def ReadAlike (endpoint : Bytes) (u : Url) : Prop :=
  endpointHost endpoint = toLower u.host ∨ isHf (endpointHost endpoint) ∧ isHf (toLower u.host)

theorem readAlike_of_plain (hplain : PlainEndpoint endpoint) (hu : parseUrl endpoint = .ok u) :
    ReadAlike endpoint u := by
  obtain ⟨n, hn, hue, -⟩ := parseUrl_ok hu
  exact .inl (by rw [hue, endpointHost_eq hn (hplain n hn)])

theorem toLower_eq_nil : toLower s = [] ↔ s = [] := map_eq_nil_iff

theorem readAlike_of_allowed (h : tokenAllowedForHost u.host endpoint = true) : ReadAlike endpoint u := by
  simp only [tokenAllowedForHost] at h
  split at h
  · cases h
  · split at h
    · next heq => exact .inl heq.symm
    · exact .inr (Bool.and_eq_true_iff.1 h)

theorem tokenAllowed_iff {host : Bytes} (halike : ReadAlike endpoint u) (hu : u.host ≠ [])
    (hhost : host ≠ []) : tokenAllowedForHost host endpoint = true ↔ SameHub host u.host := by
  rcases halike with he | ⟨he, hhub⟩
  · simp only [tokenAllowedForHost, he, toLower_eq_nil, hhost, hu, or_self, ↓reduceIte, SameHub]
    split
    · next heq => simp [heq]
    · next heq => simp [heq]
  · have hne : endpointHost endpoint ≠ [] := by
      intro hnil
      rw [hnil] at he
      cases he
    simp only [tokenAllowedForHost, toLower_eq_nil, hhost, hne, or_self, ↓reduceIte, SameHub, he, hhub, Bool.true_and,
      true_and]
    -- on both sides, being the hub's own is all that counts
    have hown : ∀ e, isHf e = true → (toLower host = e ∨ isHf (toLower host) = true ↔ isHf (toLower host) = true) :=
      fun e he => or_iff_right_of_imp fun heq => heq ▸ he
    rw [hown _ hhub, ← hown _ he]
    split
    · next heq => simp [heq]
    · next heq => simp [heq]

theorem httpGetHops_token {token : Bytes} (htoken : token ≠ []) (halike : ReadAlike endpoint u)
    (hu : u.host ≠ []) (hops : ℕ) (url : Bytes) (locations : List Bytes) :
    ∀ hop ∈ httpGetHops token endpoint hops url locations,
      hop.authorization = some (lit "Bearer " ++ token) ↔ SameHub hop.host u.host := by
  intro hop hmem
  induction hops generalizing url locations with
  | zero => cases hmem
  | succ hops ih =>
    unfold httpGetHops at hmem
    cases hv : parseUrl url with
    | error e =>
      rw [hv] at hmem
      cases hmem
    | ok v =>
      obtain ⟨-, -, -, hvhost⟩ := parseUrl_ok hv
      simp only [hv, mem_cons] at hmem
      rcases hmem with rfl | hmem
      · simp [htoken, tokenAllowed_iff halike hu hvhost]
      · cases locations with
        | nil => cases hmem
        | cons location rest =>
          simp only at hmem
          split at hmem
          · cases hmem
          · exact ih _ _ hmem

/-- Whatever the redirects, a hop carries the token exactly if its host is the endpoint's or both are the hub's own, and
the first request to the endpoint carries it: if and only if the two readers of the endpoint agree, as they do on a
plain one. -/
theorem httpGet_token (token endpoint : Bytes) (u : Url) (htoken : token ≠ []) (hu : parseUrl endpoint = .ok u) :
    (((∀ hops url locations, ∀ hop ∈ httpGetHops token endpoint hops url locations,
        hop.authorization = some (lit "Bearer " ++ token) ↔ SameHub hop.host u.host) ∧
      ∀ hops path locations, ∃ hop rest,
        httpGetHops token endpoint (hops + 1) (endpoint ++ 0x2F :: path) locations = hop :: rest ∧
          hop.authorization = some (lit "Bearer " ++ token)) ↔ ReadAlike endpoint u) ∧
      (PlainEndpoint endpoint → ReadAlike endpoint u) := by
  obtain ⟨-, -, -, huhost⟩ := parseUrl_ok hu
  refine ⟨⟨fun ⟨_, hfirst⟩ => ?_, fun halike => ⟨httpGetHops_token htoken halike huhost, fun hops path locations => ?_⟩⟩,
    fun hplain => readAlike_of_plain hplain hu⟩
  · obtain ⟨hop, rest, hget, hauth⟩ := hfirst 0 [] []
    obtain ⟨v, hv, hhost⟩ := parseUrl_append hu []
    rw [httpGetHops, hv] at hget
    cases hget
    refine readAlike_of_allowed ?_
    by_contra hno
    simp [hhost, hno] at hauth
  · obtain ⟨v, hv, hhost⟩ := parseUrl_append hu path
    have hallowed := (tokenAllowed_iff halike huhost huhost).2 (.inl rfl)
    exact ⟨_, _, by rw [httpGetHops, hv], by simp [htoken, hhost, hallowed]⟩

theorem httpGet_token_hub :
    (httpGetHops (lit "t") (lit "https://HF.co") 2 (lit "https://HF.co/api")
      [lit "https://cdn.example/x"]).map Hop.authorization =
        [some (lit "Bearer t"), none] ∧
      ReadAlike (lit "https://HF.co") ⟨lit "https", lit "HF.co", 443, lit "/"⟩ := by
  refine ⟨by decide +kernel, (httpGet_token (lit "t") (lit "https://HF.co") _ (by decide +kernel) (by decide +kernel)).2
    fun n hn => ?_⟩
  cases Option.some.inj ((show find (lit "://") (lit "https://HF.co") = some 5 by decide +kernel).symm.trans hn)
  exact ⟨by decide +kernel, by decide +kernel, by decide +kernel⟩

/- The userinfo is cut at its colon and taken for the host: the endpoint gets no token, and another
host gets it. -/
theorem httpGet_token_astray :
    parseUrl (lit "https://hf.co:x@hub.example") = .ok ⟨lit "https", lit "hub.example", 443, lit "/"⟩ ∧
      (httpGetHops (lit "t") (lit "https://hf.co:x@hub.example") 2 (lit "https://hf.co:x@hub.example/api")
        [lit "https://huggingface.co/"]) = [⟨lit "hub.example", none⟩, ⟨lit "huggingface.co", some (lit "Bearer t")⟩] := by
  decide +kernel

end Plain

end AgentCpp.Hub
