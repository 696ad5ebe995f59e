import RatelimitGateway.Tenant.Keys

/-!
# Anonymous callers cannot mint quota

With X-Forwarded-For not trusted, an anonymous caller is limited by the host
of its peer address and by nothing else that it sends: not by the port, not by
a header, not by a key that is not configured. A caller that presents a
configured key is limited as the configuration says and by nothing else.

* `anonymous_noninterference` — both as properties of any two requests.
-/

namespace RatelimitGateway

/-- The request presents an API key: in X-API-Key, or, when that is empty, as a
bearer token. -/
inductive Presents (req : HttpRequest) : String → Prop
  | header {key : String} (hHeader : req.header "X-API-Key" = key) (hSome : key ≠ "") :
      Presents req key
  | bearer {token : String} (hEmpty : req.header "X-API-Key" = "")
      (hAuth : req.header "Authorization" = "Bearer " ++ token) (hSome : trimSpace token ≠ "") :
      Presents req (trimSpace token)

/-- The key is one that the configuration lists. -/
def Configured (f : FileFormat) (key : String) : Prop := key ∈ f.keys.map Prod.fst

def PresentsNone (f : FileFormat) (req : HttpRequest) : Prop :=
  ∀ key, Presents req key → ¬ Configured f key

-- ---------------------------------------------------------------------------
-- The credential
-- ---------------------------------------------------------------------------

/-- What is after a literal prefix of a string. -/
theorem isPrefixOf_iff {p s : String} :
    p.toList.isPrefixOf s.toList = true ↔ ∃ rest, s = p ++ rest := by
  rw [List.isPrefixOf_iff_prefix]
  constructor
  · rintro ⟨rest, hRest⟩
    refine ⟨String.ofList rest, String.ext ?_⟩
    rw [String.toList_append, String.toList_ofList, hRest]
  · rintro ⟨rest, rfl⟩
    exact ⟨rest.toList, (String.toList_append ..).symm⟩

theorem drop_literal (p rest : String) :
    String.ofList ((p ++ rest).toList.drop p.length) = rest := by
  rw [String.toList_append, ← String.length_toList, List.drop_left, String.ofList_toList]

/-- `apiKey` reads the key that is presented, if one is. -/
theorem presents_iff {req : HttpRequest} {key : String} :
    Presents req key ↔ apiKey req = key ∧ key ≠ "" := by
  unfold apiKey
  constructor
  · rintro (⟨hHeader, hSome⟩ | ⟨hEmpty, hAuth, hSome⟩)
    · rw [hHeader, if_pos hSome]
      exact ⟨rfl, hSome⟩
    · refine ⟨?_, hSome⟩
      rw [if_neg (not_not.mpr hEmpty), hAuth]
      dsimp only
      rw [if_pos (isPrefixOf_iff.mpr ⟨_, rfl⟩), drop_literal]
  · rintro ⟨hKey, hSome⟩
    -- the bearer token is looked at only if X-API-Key is empty
    by_cases hHeader : req.header "X-API-Key" = ""
    · rw [if_neg (not_not.mpr hHeader)] at hKey
      dsimp only at hKey
      split at hKey
      · rename_i hBearer
        obtain ⟨token, hAuth⟩ := isPrefixOf_iff.mp hBearer
        rw [hAuth, drop_literal] at hKey
        subst hKey
        exact .bearer hHeader hAuth hSome
      · exact absurd hKey.symm hSome
    · rw [if_pos hHeader] at hKey
      exact .header hKey hSome

-- ---------------------------------------------------------------------------
-- The two kinds of caller
-- ---------------------------------------------------------------------------

section Callers

variable {f : FileFormat} {r : Resolver} {req : HttpRequest}

/-- The tier of anonymous callers. -/
theorem anon_of_load {trustForwardedFor : Bool} (h : load f trustForwardedFor = .ok r) :
    (f.tiers.lookup f.anonymousTier).map (fun tier => { tier with name := f.anonymousTier }) =
      some r.anon := by
  obtain ⟨anon, keys, hAnon, -, rfl⟩ := load_eq_ok h
  rw [hAnon]
  rfl

/-- A caller without a configured key is known by its address. -/
theorem resolve_of_none {trust : Bool} (hLoaded : Loaded f trust r) (hNone : PresentsNone f req) :
    r.resolve req = ⟨⟨"anon:" ++ r.clientIP req, r.anon⟩, false⟩ := by
  unfold Resolver.resolve
  dsimp only
  split
  · rename_i hSome
    have hUnknown := hNone _ (presents_iff.mpr ⟨rfl, hSome⟩)
    have hLookup : f.keys.lookup (apiKey req) = none := by
      rw [List.lookup_eq_none_iff]
      intro entry hEntry
      rw [bne_iff_ne]
      exact fun hKey => hUnknown (hKey ▸ List.mem_map_of_mem hEntry)
    rw [hLoaded.keys, hLookup]
    rfl
  · rfl

/-- A caller with a configured key is known by what is configured for it. -/
theorem resolve_of_presents {trust : Bool} (hLoaded : Loaded f trust r) {key : String}
    (hPresents : Presents req key) (hConfigured : Configured f key) :
    ∃ entry tier, f.keys.lookup key = some entry ∧ f.tiers.lookup entry.tier = some tier ∧
      r.resolve req = ⟨⟨entry.tenantId, { tier with name := entry.tier }⟩, true⟩ := by
  obtain ⟨rfl, hSome⟩ := presents_iff.mp hPresents
  obtain ⟨entry, hEntry⟩ : ∃ entry, f.keys.lookup (apiKey req) = some entry := by
    obtain ⟨⟨k, entry⟩, hMem, hKey⟩ := List.mem_map.mp hConfigured
    refine Option.isSome_iff_exists.mp (List.lookup_isSome_iff.mpr ⟨_, hMem, ?_⟩)
    rw [beq_iff_eq, ← hKey]
  obtain ⟨tier, hTier⟩ := hLoaded.defined _ _ hEntry
  refine ⟨entry, tier, hEntry, hTier, ?_⟩
  have hKnown : r.keys.lookup (apiKey req) =
      some ⟨⟨entry.tenantId, { tier with name := entry.tier }⟩, true⟩ := by
    simp [hLoaded.keys, hEntry, hTier]
  unfold Resolver.resolve
  dsimp only
  rw [if_pos hSome, hKnown, Option.getD_some]

/-- Only a configured key makes a caller authenticated. -/
theorem authenticated_iff {trust : Bool} (hLoaded : Loaded f trust r) :
    (r.resolve req).authenticated = true ↔ ∃ key, Presents req key ∧ Configured f key := by
  constructor
  · intro hAuthenticated
    by_contra hNone
    have hPresentsNone : PresentsNone f req :=
      fun key hPresents hConfigured => hNone ⟨key, hPresents, hConfigured⟩
    rw [resolve_of_none hLoaded hPresentsNone] at hAuthenticated
    cases hAuthenticated
  · rintro ⟨key, hPresents, hConfigured⟩
    obtain ⟨entry, tier, -, -, hResolved⟩ := resolve_of_presents hLoaded hPresents hConfigured
    rw [hResolved]

/-- The address is that of the peer, when no other header is believed. -/
theorem clientIP_of_untrusted (hLoaded : Loaded f false r) {host port : String}
    (hPeer : splitHostPort req.remoteAddr = some (host, port)) : r.clientIP req = host := by
  have hForwarded : r.forwardedFor req = none := by
    unfold Resolver.forwardedFor
    simp [hLoaded.trusts]
  simp only [Resolver.clientIP, hForwarded, hPeer]

end Callers

/--
**An anonymous caller cannot mint quota.** For every configuration that `Load`
accepts without trusting X-Forwarded-For: two requests from one host that
present no configured key resolve to one tenant of the anonymous tier, whatever
their ports and headers; two such requests from different hosts have different
limiter keys; a caller is authenticated exactly when it presents a configured
key, and two requests that present the same one resolve to one tenant, wherever
they come from.
-/
theorem anonymous_noninterference {f : FileFormat} {r : Resolver} (hLoad : load f false = .ok r) :
    (∀ req req' host port port', splitHostPort req.remoteAddr = some (host, port) →
      splitHostPort req'.remoteAddr = some (host, port') →
      PresentsNone f req → PresentsNone f req' →
      r.resolve req = r.resolve req' ∧ (r.resolve req).authenticated = false ∧
        (f.tiers.lookup f.anonymousTier).map (fun tier => { tier with name := f.anonymousTier }) =
          some (r.resolve req).tier) ∧
    (∀ req req' host host' port port', splitHostPort req.remoteAddr = some (host, port) →
      splitHostPort req'.remoteAddr = some (host', port') → host ≠ host' →
      PresentsNone f req → PresentsNone f req' → (r.proxied req).key ≠ (r.proxied req').key) ∧
    (∀ req, (r.resolve req).authenticated = true ↔ ∃ key, Presents req key ∧ Configured f key) ∧
    ∀ req req' key, Presents req key → Presents req' key → Configured f key →
      r.resolve req = r.resolve req' := by
  have hLoaded := loaded_of_load hLoad
  refine ⟨?_, ?_, fun req => authenticated_iff hLoaded, ?_⟩
  · -- the port is cut off, and the headers name no configured key
    intro req req' host port port' hPeer hPeer' hNone hNone'
    rw [resolve_of_none hLoaded hNone, resolve_of_none hLoaded hNone',
      clientIP_of_untrusted hLoaded hPeer, clientIP_of_untrusted hLoaded hPeer']
    exact ⟨rfl, rfl, anon_of_load hLoad⟩
  · intro req req' host host' port port' hPeer hPeer' hHosts hNone hNone' hKeys
    simp only [Resolver.proxied, resolve_of_none hLoaded hNone, resolve_of_none hLoaded hNone',
      clientIP_of_untrusted hLoaded hPeer, clientIP_of_untrusted hLoaded hPeer'] at hKeys
    exact hHosts (append_left_inj hKeys)
  · -- both find the same entry, whatever else the requests say
    intro req req' key hPresents hPresents' hConfigured
    obtain ⟨entry, tier, hEntry, hTier, hResolved⟩ :=
      resolve_of_presents hLoaded hPresents hConfigured
    obtain ⟨entry', tier', hEntry', hTier', hResolved'⟩ :=
      resolve_of_presents hLoaded hPresents' hConfigured
    obtain rfl := Option.some.inj (hEntry.symm.trans hEntry')
    obtain rfl := Option.some.inj (hTier.symm.trans hTier')
    rw [hResolved, hResolved']

/-- A spoofed address and a key that is not configured, from two ports. -/
theorem anonymous_noninterference_demo :
    ∃ r, load (oneKey "acme") false = .ok r ∧
      r.resolve ⟨fun name => if name = "X-Forwarded-For" then "1.2.3.4" else "",
          "203.0.113.7:51234"⟩ =
        r.resolve ⟨fun name => if name = "X-API-Key" then "not-a-real-key" else "",
          "203.0.113.7:8080"⟩ := by
  have hLoad : load (oneKey "acme") false = .ok _ := rfl
  refine ⟨_, hLoad, ?_⟩
  refine ((anonymous_noninterference hLoad).1 _ _ "203.0.113.7" "51234" "8080" (by decide +kernel)
    (by decide +kernel) ?_ ?_).1
  · intro key hPresents _
    exact absurd (presents_iff.mp hPresents).1.symm (presents_iff.mp hPresents).2
  · intro key hPresents hConfigured
    obtain rfl := (presents_iff.mp hPresents).1
    unfold Configured at hConfigured
    exact absurd hConfigured (by decide +kernel)

end RatelimitGateway
