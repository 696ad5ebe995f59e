import RatelimitGateway.Tenant.Resolver

/-!
# Whose key is it

Limiter calls are made for configured tenants, for anonymous callers by their
address, and by the simulator of the dashboard, and their keys are strings of
one namespace: a tenant is free to have the id `anon:1.2.3.4`, or
`dashboard-sim:free`, and two API keys are free to name one tenant and different
tiers. `Load` accepts all of these.

* `one_key_one_caller_iff` — the configurations under which a key stands for
  one caller and one quota.
-/

namespace RatelimitGateway

-- ---------------------------------------------------------------------------
-- The limiter calls of the gateway
-- ---------------------------------------------------------------------------

/-- Whom a limiter call is made for. -/
inductive Principal where
  | tenant (id : String)
  | anonymous (address : String)
  | simulator (tier : String)
  deriving DecidableEq, Repr

structure LimiterCall where
  principal : Principal
  key : String
  quota : Limiter.Quota
  deriving DecidableEq, Repr

def maxSimulationRequests : ℤ := 500

namespace Resolver

/-- The limiter call of a proxied request. -/
def proxied (r : Resolver) (req : HttpRequest) : LimiterCall :=
  let t := r.resolve req
  ⟨if t.authenticated then .tenant t.id else .anonymous (r.clientIP req), t.id, t.tier.quota⟩

/-- The limiter calls of `handleSimulate`, as long as the limiter answers. -/
def simulated (r : Resolver) (tierName : String) (count : ℤ) : List LimiterCall :=
  match r.tier tierName with
  | none => []
  | some tier =>
    let count := if count < 1 then 1 else count
    let count := if maxSimulationRequests < count then maxSimulationRequests else count
    List.replicate count.toNat
      ⟨.simulator tier.name, "dashboard-sim:" ++ tier.name, tier.quota⟩

inductive Makes (r : Resolver) : LimiterCall → Prop
  | proxied (req : HttpRequest) : Makes r (r.proxied req)
  | simulated {tierName : String} {count : ℤ} {c : LimiterCall}
      (hCall : c ∈ r.simulated tierName count) : Makes r c

/-- Two calls on one key are made for the same principal and carry the same
quota. -/
def OneCaller (r : Resolver) : Prop :=
  ∀ c c', r.Makes c → r.Makes c' → c.key = c'.key →
    c.principal = c'.principal ∧ c.quota = c'.quota

end Resolver

-- ---------------------------------------------------------------------------
-- What `Load` builds
-- ---------------------------------------------------------------------------

/-- The first key is loaded with the tier that it names. -/
theorem loadKeys_cons_eq_ok {tiers : List (String × Tier)} {key : String} {entry : KeyEntry}
    {rest : List (String × KeyEntry)} {keys : List (String × Caller)}
    (h : loadKeys tiers ((key, entry) :: rest) = .ok keys) :
    ∃ tier keys', tiers.lookup entry.tier = some tier ∧ loadKeys tiers rest = .ok keys' ∧
      keys = (key, ⟨⟨entry.tenantId, { tier with name := entry.tier }⟩, true⟩) :: keys' := by
  rw [loadKeys] at h
  cases hTier : tiers.lookup entry.tier with
  | none => simp [hTier] at h
  | some tier =>
    cases hRest : loadKeys tiers rest with
    | error e => simp [hTier, hRest] at h
    | ok keys' =>
      simp only [hTier, hRest, Except.ok.injEq] at h
      exact ⟨tier, keys', rfl, rfl, h.symm⟩

/-- A loaded key belongs to the tenant of its entry. -/
theorem lookup_loadKeys {tiers : List (String × Tier)} {entries : List (String × KeyEntry)}
    {keys : List (String × Caller)} (h : loadKeys tiers entries = .ok keys) (key : String) :
    keys.lookup key = (entries.lookup key).bind fun entry =>
      (tiers.lookup entry.tier).map fun tier =>
        ⟨⟨entry.tenantId, { tier with name := entry.tier }⟩, true⟩ := by
  induction entries generalizing keys with
  | nil =>
    obtain rfl := Except.ok.inj h
    rfl
  | cons head rest ih =>
    obtain ⟨tier, keys', hTier, hRest, rfl⟩ := loadKeys_cons_eq_ok h
    rw [List.lookup_cons, List.lookup_cons]
    cases key == head.1 with
    | true => simp [hTier]
    | false => exact ih hRest

/-- Every key of an accepted configuration names a defined tier. -/
theorem loadKeys_defined {tiers : List (String × Tier)} {entries : List (String × KeyEntry)}
    {keys : List (String × Caller)} (h : loadKeys tiers entries = .ok keys) {key : String}
    {entry : KeyEntry} (hEntry : entries.lookup key = some entry) :
    ∃ tier, tiers.lookup entry.tier = some tier := by
  induction entries generalizing keys with
  | nil => cases hEntry
  | cons head rest ih =>
    obtain ⟨tier, keys', hTier, hRest, -⟩ := loadKeys_cons_eq_ok h
    rw [List.lookup_cons] at hEntry
    cases hSame : key == head.1 with
    | true =>
      simp only [hSame, Option.some.injEq] at hEntry
      exact ⟨tier, hEntry ▸ hTier⟩
    | false =>
      simp only [hSame] at hEntry
      exact ih hRest hEntry

/-- Naming the tiers changes none but their names. -/
theorem lookup_named (tiers : List (String × Tier)) (name : String) :
    (tiers.map fun (name, tier) => (name, { tier with name := name })).lookup name =
      (tiers.lookup name).map fun tier : Tier => { tier with name := name } := by
  induction tiers with
  | nil => rfl
  | cons head rest ih =>
    obtain ⟨k, tier⟩ := head
    rw [List.map_cons, List.lookup_cons, List.lookup_cons]
    by_cases hSame : name = k
    · subst hSame
      simp
    · rw [beq_false_of_ne hSame]
      exact ih

/-- What `Load` makes of the configuration that it accepts. -/
structure Loaded (f : FileFormat) (trustForwardedFor : Bool) (r : Resolver) : Prop where
  trusts  : r.trustForwardedFor = trustForwardedFor
  keys    : ∀ key, r.keys.lookup key = (f.keys.lookup key).bind fun entry =>
    (f.tiers.lookup entry.tier).map fun tier =>
      ⟨⟨entry.tenantId, { tier with name := entry.tier }⟩, true⟩
  defined : ∀ key entry, f.keys.lookup key = some entry →
    ∃ tier, f.tiers.lookup entry.tier = some tier
  tiers   : ∀ name, r.tier name =
    (f.tiers.lookup name).map fun tier => { tier with name := name }

/-- What is in the way of `Load` has been checked, and the rest is built. -/
theorem load_eq_ok {f : FileFormat} {trustForwardedFor : Bool} {r : Resolver}
    (h : load f trustForwardedFor = .ok r) :
    ∃ anon keys, f.tiers.lookup f.anonymousTier = some anon ∧ loadKeys f.tiers f.keys = .ok keys ∧
      r = { keys := keys
            tiers := f.tiers.map fun (name, tier) => (name, { tier with name := name })
            anon := { anon with name := f.anonymousTier }
            trustForwardedFor := trustForwardedFor } := by
  unfold load at h
  split at h
  · cases h
  · split at h
    · cases h
    · split at h
      · cases h
      · rename_i anon hAnon
        split at h
        · cases h
        · rename_i keys hKeys
          exact ⟨anon, keys, hAnon, hKeys, (Except.ok.inj h).symm⟩

theorem loaded_of_load {f : FileFormat} {trustForwardedFor : Bool} {r : Resolver}
    (h : load f trustForwardedFor = .ok r) : Loaded f trustForwardedFor r := by
  obtain ⟨anon, keys, -, hKeys, rfl⟩ := load_eq_ok h
  exact ⟨rfl, lookup_loadKeys hKeys, fun _ _ => loadKeys_defined hKeys, lookup_named f.tiers⟩

-- ---------------------------------------------------------------------------
-- The calls, by principal
-- ---------------------------------------------------------------------------

section Calls

variable {f : FileFormat} {trust : Bool} {r : Resolver}

/-- A request with this API key, from nowhere. -/
def withKey (key : String) : HttpRequest := ⟨fun name => if name = "X-API-Key" then key else "", ""⟩

theorem apiKey_withKey {key : String} (hKey : key ≠ "") : apiKey (withKey key) = key :=
  if_pos hKey

/-- A key of the file makes limiter calls for its tenant. -/
theorem makes_tenant (hLoaded : Loaded f trust r) {key : String} (hKey : key ≠ "")
    {entry : KeyEntry} (hEntry : f.keys.lookup key = some entry) {tier : Tier}
    (hTier : f.tiers.lookup entry.tier = some tier) :
    r.Makes ⟨.tenant entry.tenantId, entry.tenantId, tier.quota⟩ := by
  have hFound : r.keys.lookup key =
      some ⟨⟨entry.tenantId, { tier with name := entry.tier }⟩, true⟩ := by
    rw [hLoaded.keys, hEntry, Option.bind_some, hTier, Option.map_some]
  have hCall : r.proxied (withKey key) =
      ⟨.tenant entry.tenantId, entry.tenantId, tier.quota⟩ := by
    rw [Resolver.proxied, Resolver.resolve, apiKey_withKey hKey, if_pos hKey, hFound]
    rfl
  exact hCall ▸ .proxied (withKey key)

/-- A request without a key makes them for its address. -/
theorem makes_anonymous (hLoaded : Loaded f trust r) {a : String}
    (hPossible : PossibleAddress trust a) :
    r.Makes ⟨.anonymous a, "anon:" ++ a, r.anon.quota⟩ := by
  rw [← hLoaded.trusts] at hPossible
  obtain ⟨req, hNoKey, rfl⟩ := exists_anonymous hPossible
  have hCall : r.proxied req =
      ⟨.anonymous (r.clientIP req), "anon:" ++ r.clientIP req, r.anon.quota⟩ := by
    rw [Resolver.proxied, Resolver.resolve, hNoKey]
    rfl
  exact hCall ▸ .proxied req

/-- A simulation makes them for its tier. -/
theorem makes_simulator (hLoaded : Loaded f trust r) {name : String} {tier : Tier}
    (hTier : f.tiers.lookup name = some tier) :
    r.Makes ⟨.simulator name, "dashboard-sim:" ++ name, tier.quota⟩ := by
  refine @Resolver.Makes.simulated r name 1 _ ?_
  rw [Resolver.simulated, hLoaded.tiers, hTier]
  exact List.mem_singleton_self _

/-- Every limiter call is for a configured tenant, an anonymous caller or the
simulator of a tier. -/
theorem makes_cases (hLoaded : Loaded f trust r) {c : LimiterCall} (hMakes : r.Makes c) :
    (∃ key entry tier, key ≠ "" ∧ f.keys.lookup key = some entry ∧
      f.tiers.lookup entry.tier = some tier ∧
      c = ⟨.tenant entry.tenantId, entry.tenantId, tier.quota⟩) ∨
    (∃ a, PossibleAddress trust a ∧ c = ⟨.anonymous a, "anon:" ++ a, r.anon.quota⟩) ∨
    ∃ name tier, f.tiers.lookup name = some tier ∧
      c = ⟨.simulator name, "dashboard-sim:" ++ name, tier.quota⟩ := by
  cases hMakes with
  | proxied req =>
    have hAnonymous : PossibleAddress trust (r.clientIP req) :=
      hLoaded.trusts ▸ possible_clientIP r req
    rw [Resolver.proxied, Resolver.resolve]
    -- no key, a key that is not configured, or one that is
    by_cases hKey : apiKey req = ""
    · rw [if_neg (not_not.mpr hKey)]
      exact .inr (.inl ⟨_, hAnonymous, rfl⟩)
    · rw [if_pos hKey, hLoaded.keys]
      cases hEntry : f.keys.lookup (apiKey req) with
      | none => exact .inr (.inl ⟨_, hAnonymous, rfl⟩)
      | some entry =>
        obtain ⟨tier, hTier⟩ := hLoaded.defined _ _ hEntry
        rw [Option.bind_some, hTier]
        exact .inl ⟨_, entry, tier, hKey, hEntry, hTier, rfl⟩
  | @simulated name count _ hCall =>
    rw [Resolver.simulated, hLoaded.tiers] at hCall
    cases hTier : f.tiers.lookup name with
    | none => simp [hTier] at hCall
    | some tier =>
      rw [hTier] at hCall
      exact .inr (.inr ⟨name, tier, hTier, List.eq_of_mem_replicate hCall⟩)

end Calls

-- ---------------------------------------------------------------------------
-- Which configurations keep the callers apart
-- ---------------------------------------------------------------------------

/-- The tenants that can be resolved, by an API key that is not empty, keep out
of each other's way and out of that of the other callers. -/
structure SeparateKeys (f : FileFormat) (trustForwardedFor : Bool) : Prop where
  sameQuota : ∀ key key' entry entry', key ≠ "" → key' ≠ "" →
    f.keys.lookup key = some entry → f.keys.lookup key' = some entry' →
    entry.tenantId = entry'.tenantId →
    (f.tiers.lookup entry.tier).map Tier.quota = (f.tiers.lookup entry'.tier).map Tier.quota
  notAnonymous : ∀ key entry a, key ≠ "" → f.keys.lookup key = some entry →
    PossibleAddress trustForwardedFor a → entry.tenantId ≠ "anon:" ++ a
  notSimulator : ∀ key entry name tier, key ≠ "" → f.keys.lookup key = some entry →
    f.tiers.lookup name = some tier → entry.tenantId ≠ "dashboard-sim:" ++ name

theorem append_left_inj {p a b : String} (h : p ++ a = p ++ b) : a = b := by
  have hLists := congrArg String.toList h
  rw [String.toList_append, String.toList_append] at hLists
  exact String.toList_inj.mp (List.append_cancel_left hLists)

/-- An anonymous caller is never taken for a simulator. -/
theorem anonymous_ne_simulator (a name : String) : "anon:" ++ a ≠ "dashboard-sim:" ++ name := by
  intro h
  have hLists := congrArg String.toList h
  rw [String.toList_append, String.toList_append] at hLists
  exact absurd (List.cons.inj hLists).1 (by decide)

/--
**When a key stands for one caller.** For every configuration that `Load`
accepts: any two limiter calls on one key, whatever the requests, the peer
addresses and the simulations, are made for the same principal and carry the
same quota, if and only if API keys that name one tenant give it one quota, and
no tenant has the id of an anonymous caller or of a simulator.
-/
theorem one_key_one_caller_iff {f : FileFormat} {trustForwardedFor : Bool} {r : Resolver}
    (hLoad : load f trustForwardedFor = .ok r) :
    r.OneCaller ↔ SeparateKeys f trustForwardedFor := by
  have hLoaded := loaded_of_load hLoad
  constructor
  · intro hOne
    refine ⟨?_, ?_, ?_⟩
    · -- a request can present each configured key
      intro key key' entry entry' hKey hKey' hEntry hEntry' hSame
      obtain ⟨tier, hTier⟩ := hLoaded.defined _ _ hEntry
      obtain ⟨tier', hTier'⟩ := hLoaded.defined _ _ hEntry'
      have hQuota := (hOne _ _ (makes_tenant hLoaded hKey hEntry hTier)
        (makes_tenant hLoaded hKey' hEntry' hTier') hSame).2
      rw [hTier, hTier', Option.map_some, Option.map_some]
      exact congrArg some hQuota
    · -- and come from each possible address
      intro key entry a hKey hEntry hPossible hSame
      obtain ⟨tier, hTier⟩ := hLoaded.defined _ _ hEntry
      have hPrincipal := (hOne _ _ (makes_tenant hLoaded hKey hEntry hTier)
        (makes_anonymous hLoaded hPossible) hSame).1
      cases hPrincipal
    · -- and the simulator can be run for each tier
      intro key entry name tier hKey hEntry hName hSame
      obtain ⟨own, hOwn⟩ := hLoaded.defined _ _ hEntry
      have hPrincipal := (hOne _ _ (makes_tenant hLoaded hKey hEntry hOwn)
        (makes_simulator hLoaded hName) hSame).1
      cases hPrincipal
  · rintro ⟨hSameQuota, hNotAnonymous, hNotSimulator⟩ c c' hMakes hMakes' hSame
    -- nine pairs of callers: the prefixes keep the two last kinds apart
    obtain ⟨key, entry, tier, hKey, hEntry, hTier, rfl⟩ | ⟨a, hPossible, rfl⟩ |
      ⟨name, tier, hName, rfl⟩ := makes_cases hLoaded hMakes
    · obtain ⟨key', entry', tier', hKey', hEntry', hTier', rfl⟩ | ⟨a', hPossible', rfl⟩ |
        ⟨name', tier', hName', rfl⟩ := makes_cases hLoaded hMakes'
      · have hQuota := hSameQuota key key' entry entry' hKey hKey' hEntry hEntry' hSame
        rw [hTier, hTier', Option.map_some, Option.map_some] at hQuota
        exact ⟨congrArg Principal.tenant hSame, Option.some.inj hQuota⟩
      · exact absurd hSame (hNotAnonymous key entry a' hKey hEntry hPossible')
      · exact absurd hSame (hNotSimulator key entry name' tier' hKey hEntry hName')
    · obtain ⟨key', entry', tier', hKey', hEntry', hTier', rfl⟩ | ⟨a', hPossible', rfl⟩ |
        ⟨name', tier', hName', rfl⟩ := makes_cases hLoaded hMakes'
      · exact absurd hSame.symm (hNotAnonymous key' entry' a hKey' hEntry' hPossible)
      · exact ⟨congrArg Principal.anonymous (append_left_inj hSame), rfl⟩
      · exact absurd hSame (anonymous_ne_simulator a name')
    · obtain ⟨key', entry', tier', hKey', hEntry', hTier', rfl⟩ | ⟨a', hPossible', rfl⟩ |
        ⟨name', tier', hName', rfl⟩ := makes_cases hLoaded hMakes'
      · exact absurd hSame.symm (hNotSimulator key' entry' name tier hKey' hEntry' hName)
      · exact absurd hSame.symm (anonymous_ne_simulator a' name)
      · obtain rfl := append_left_inj hSame
        obtain rfl := Option.some.inj (hName.symm.trans hName')
        exact ⟨rfl, rfl⟩

/-- A configuration with one tier, and one key for this tenant. -/
def oneKey (tenantId : String) : FileFormat where
  tiers := [("free", ⟨"", 10, 1000000000, 10⟩)]
  keys := [("key-abc", ⟨tenantId, "free"⟩)]
  anonymousTier := "free"
  tiers_nodup := List.nodup_singleton _
  keys_nodup := List.nodup_singleton _

/-- A configuration with two keys of one tenant, in two tiers. -/
def twoTiers : FileFormat where
  tiers := [("free", ⟨"", 10, 1000000000, 10⟩), ("pro", ⟨"", 1000, 60000000000, 2000⟩)]
  keys := [("key-abc", ⟨"acme", "free"⟩), ("key-def", ⟨"acme", "pro"⟩)]
  anonymousTier := "free"
  tiers_nodup := by decide
  keys_nodup := by decide

/-- One key, of a tenant whose name clashes with nothing. -/
theorem one_key_one_caller_iff_demo :
    ∃ r, load (oneKey "hooli") false = .ok r ∧ r.OneCaller := by
  have hLoad : load (oneKey "hooli") false = .ok _ := rfl
  -- the file has one key
  have hOnly : ∀ k e, (oneKey "hooli").keys.lookup k = some e → e = ⟨"hooli", "free"⟩ := by
    intro k e h
    rw [oneKey, List.lookup_cons] at h
    split at h
    · exact (Option.some.inj h).symm
    · cases h
  refine ⟨_, hLoad, (one_key_one_caller_iff hLoad).mpr ⟨?_, ?_, ?_⟩⟩
  · intro key key' entry entry' _ _ hEntry hEntry' _
    rw [hOnly key entry hEntry, hOnly key' entry' hEntry']
  · intro key entry a _ hEntry _ hSame
    rw [hOnly key entry hEntry] at hSame
    have hLists := congrArg String.toList hSame
    rw [String.toList_append] at hLists
    -- no prefix of another caller begins like this tenant
    exact absurd (List.cons.inj hLists).1 (by decide)
  · intro key entry name tier _ hEntry _ hSame
    rw [hOnly key entry hEntry] at hSame
    have hLists := congrArg String.toList hSame
    rw [String.toList_append] at hLists
    exact absurd (List.cons.inj hLists).1 (by decide)

/-- A tenant with the id of a simulator, a tenant with the id of an anonymous
caller, and a tenant with two quotas. -/
theorem one_key_two_callers :
    (∃ r, load (oneKey "dashboard-sim:free") false = .ok r ∧ ¬ r.OneCaller) ∧
    (∃ r, load (oneKey "anon:1.2.3.4") false = .ok r ∧ ¬ r.OneCaller) ∧
    ∃ r, load twoTiers false = .ok r ∧ ¬ r.OneCaller := by
  refine ⟨⟨_, rfl, fun hOne => ?_⟩, ⟨_, rfl, fun hOne => ?_⟩, ⟨_, rfl, fun hOne => ?_⟩⟩
  · have hSame := hOne _ _ (.proxied (withKey "key-abc"))
      (@Resolver.Makes.simulated _ "free" 1 _ (List.mem_singleton_self _)) (by decide +kernel)
    exact absurd hSame.1 (by decide +kernel)
  · have hSame := hOne _ _ (.proxied (withKey "key-abc"))
      (.proxied ⟨fun _ => "", "1.2.3.4:51234"⟩) (by decide +kernel)
    exact absurd hSame.1 (by decide +kernel)
  · have hSame := hOne _ _ (.proxied (withKey "key-abc")) (.proxied (withKey "key-def"))
      (by decide +kernel)
    exact absurd hSame.2 (by decide +kernel)

end RatelimitGateway
