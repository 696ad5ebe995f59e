import Mathlib.Data.List.DropRight
import RatelimitGateway.Lib.Separator
import RatelimitGateway.Tenant.Definitions

/-!
# Who is calling

Translated from `internal/tenant`: the checks of a decoded configuration, and
how a request is resolved to a tenant. A Go map is a list of entries with
distinct keys, in the order in which a loop over it happens to visit them.

The functions of Go's standard library that `Resolve` calls come first, as far
as it uses them. A string is a list of characters; every character that they
look for is a single byte.

* `possible_clientIP`, `exists_anonymous` — the addresses that an anonymous
  caller can have.
-/

namespace RatelimitGateway

-- ---------------------------------------------------------------------------
-- The standard library
-- ---------------------------------------------------------------------------

/-- `unicode.IsSpace`. -/
def isSpace (c : Char) : Bool :=
  c.toNat ∈ [0x09, 0x0A, 0x0B, 0x0C, 0x0D, 0x20, 0x85, 0xA0, 0x1680, 0x2028, 0x2029, 0x202F,
    0x205F, 0x3000] ∨ (0x2000 ≤ c.toNat ∧ c.toNat ≤ 0x200A)

/-- `strings.TrimSpace`. -/
def trimSpace (s : String) : String :=
  String.ofList ((s.toList.dropWhile isSpace).rdropWhile isSpace)

/-- `strings.Cut(s, sep)`: what is before the separator, and whether there is
one. -/
def cut (s : String) (sep : Char) : String × Bool :=
  (String.ofList (s.toList.takeWhile (· != sep)), s.toList.contains sep)

/-- `bytealg.LastIndexByteString`. -/
def lastIndex (s : List Char) (c : Char) : Option ℕ :=
  (s.reverse.idxOf? c).map fun i => s.length - 1 - i

/-- `net.SplitHostPort`: the host and the port, unless the address is
malformed. -/
def splitHostPort (hostport : String) : Option (String × String) :=
  let s := hostport.toList
  -- The port starts after the last colon.
  match lastIndex s ':' with
  | none => none
  | some i =>
    if s.head? = some '[' then
      -- Expect the first ']' just before the last ':'.
      match s.idxOf? ']' with
      | none => none
      | some close =>
        if close + 1 = i ∧ '[' ∉ s.drop 1 ∧ ']' ∉ s.drop (close + 1) then
          some (String.ofList ((s.take close).drop 1), String.ofList (s.drop (i + 1)))
        else none
    else if ':' ∉ s.take i ∧ '[' ∉ s ∧ ']' ∉ s then
      some (String.ofList (s.take i), String.ofList (s.drop (i + 1)))
    else none

/-- `http.Request`, as far as the resolver reads it. -/
structure HttpRequest where
  /-- `Header.Get`: the first value of a header, and "" when there is none. -/
  header : String → String
  remoteAddr : String

-- ---------------------------------------------------------------------------
-- tenant.go
-- ---------------------------------------------------------------------------

/-- `keyEntry` binds an API key to a tenant and tier. -/
structure KeyEntry where
  tenantId : String
  tier : String
  deriving DecidableEq, Repr

/-- `fileFormat` is the decoded tenant configuration. -/
structure FileFormat where
  tiers : List (String × Tier)
  keys : List (String × KeyEntry)
  anonymousTier : String
  tiers_nodup : (tiers.map Prod.fst).Nodup
  keys_nodup : (keys.map Prod.fst).Nodup

/-- `Tenant`, with the field that tells whether an API key matched. -/
structure Caller extends Tenant where
  authenticated : Bool
  deriving DecidableEq, Repr

/-- `Resolver` maps requests to tenants. -/
structure Resolver where
  keys : List (String × Caller)
  tiers : List (String × Tier)
  anon : Tier
  trustForwardedFor : Bool
  deriving DecidableEq, Repr

inductive LoadError where
  | noTiers
  | needsPositive (tier : String)
  | anonymousUndefined (tier : String)
  | keyUndefined (tenantId tier : String)
  deriving DecidableEq, Repr

/-- The loop over `f.Keys`. -/
def loadKeys (tiers : List (String × Tier)) :
    List (String × KeyEntry) → Except LoadError (List (String × Caller))
  | [] => .ok []
  | (key, entry) :: rest =>
    match tiers.lookup entry.tier with
    | none => .error (.keyUndefined entry.tenantId entry.tier)
    | some tier =>
      match loadKeys tiers rest with
      | .error e => .error e
      | .ok keys =>
        .ok ((key, ⟨⟨entry.tenantId, { tier with name := entry.tier }⟩, true⟩) :: keys)

/-- `Load`, from the decoded file on. -/
def load (f : FileFormat) (trustForwardedFor : Bool) : Except LoadError Resolver :=
  if f.tiers.length = 0 then .error .noTiers
  else
    match f.tiers.find? fun (_, tier) => tier.limit ≤ 0 ∨ tier.window ≤ 0 with
    | some (name, _) => .error (.needsPositive name)
    | none =>
      match f.tiers.lookup f.anonymousTier with
      | none => .error (.anonymousUndefined f.anonymousTier)
      | some anon =>
        match loadKeys f.tiers f.keys with
        | .error e => .error e
        | .ok keys =>
          .ok {
            keys := keys
            tiers := f.tiers.map fun (name, tier) => (name, { tier with name := name })
            anon := { anon with name := f.anonymousTier }
            trustForwardedFor := trustForwardedFor }

/-- `apiKey` extracts a bearer token or X-API-Key header. -/
def apiKey (req : HttpRequest) : String :=
  if req.header "X-API-Key" ≠ "" then req.header "X-API-Key"
  else
    let v := req.header "Authorization"
    if "Bearer ".toList.isPrefixOf v.toList then
      trimSpace (String.ofList (v.toList.drop "Bearer ".length))
    else ""

namespace Resolver

/-- `Tier` looks up a tier by name. -/
def tier (r : Resolver) (name : String) : Option Tier := r.tiers.lookup name

/-- The left-most entry of X-Forwarded-For, if that header is trusted and has
one. -/
def forwardedFor (r : Resolver) (req : HttpRequest) : Option String :=
  let xff := req.header "X-Forwarded-For"
  let (first, found) := cut xff ','
  let ip := trimSpace first
  if r.trustForwardedFor ∧ xff ≠ "" ∧ (found ∨ first ≠ "") ∧ ip ≠ "" then some ip else none

/-- `clientIP` derives the address an anonymous caller is limited by. -/
def clientIP (r : Resolver) (req : HttpRequest) : String :=
  match r.forwardedFor req with
  | some ip => ip
  | none =>
    match splitHostPort req.remoteAddr with
    | none => req.remoteAddr
    | some (host, _) => host

/-- `Resolve` identifies the caller behind a request. -/
def resolve (r : Resolver) (req : HttpRequest) : Caller :=
  let anonymous : Caller := ⟨⟨"anon:" ++ r.clientIP req, r.anon⟩, false⟩
  if apiKey req ≠ "" then (r.keys.lookup (apiKey req)).getD anonymous else anonymous

end Resolver

-- ---------------------------------------------------------------------------
-- The addresses of anonymous callers
-- ---------------------------------------------------------------------------

def Unbracketed (a : String) : Prop := '[' ∉ a.toList ∧ ']' ∉ a.toList

/-- A host has no brackets: those around it are taken off. -/
theorem splitHostPort_unbracketed {s host port : String}
    (h : splitHostPort s = some (host, port)) : Unbracketed host := by
  unfold splitHostPort at h
  dsimp only at h
  split at h
  · cases h
  · split at h
    · split at h
      · cases h
      · -- [host]:port, with the host up to the first closing bracket
        rename_i close hClose
        split at h
        · rename_i hShape
          obtain ⟨rfl, -⟩ := Prod.mk.inj (Option.some.inj h)
          obtain ⟨-, hOpen, -⟩ := hShape
          rw [Unbracketed, String.toList_ofList]
          refine ⟨fun hMem => hOpen ?_, fun hMem => ?_⟩
          · rw [List.drop_take] at hMem
            exact List.mem_of_mem_take hMem
          · exact Separator.not_mem_take hClose (List.mem_of_mem_drop hMem)
        · cases h
    · split at h
      · -- host:port without brackets anywhere
        rename_i hShape
        obtain ⟨rfl, -⟩ := Prod.mk.inj (Option.some.inj h)
        obtain ⟨-, hOpen, hClose⟩ := hShape
        rw [Unbracketed, String.toList_ofList]
        exact ⟨fun hMem => hOpen (List.mem_of_mem_take hMem),
          fun hMem => hClose (List.mem_of_mem_take hMem)⟩
      · cases h

/-- Whatever has no brackets is a host. -/
theorem splitHostPort_bracketed {a : String} (h : Unbracketed a) :
    splitHostPort ("[" ++ a ++ "]:1") = some (a, "1") := by
  obtain ⟨hOpen, hClose⟩ := h
  have hList : ("[" ++ a ++ "]:1").toList = '[' :: a.toList ++ ']' :: [':', '1'] := by
    simp [String.toList_append]
  -- the last colon and the first closing bracket stand where they were put
  have hColon : lastIndex ('[' :: a.toList ++ ']' :: [':', '1']) ':' =
      some (a.toList.length + 2) := by
    simp [lastIndex, List.idxOf?_cons]
  have hEnd : ('[' :: a.toList ++ ']' :: [':', '1']).idxOf? ']' = some (a.toList.length + 1) :=
    Separator.idxOf?_append_cons (by simpa using hClose)
  have hHost : (('[' :: a.toList ++ ']' :: [':', '1']).take (a.toList.length + 1)).drop 1 =
      a.toList := by simp
  have hAfter : ('[' :: a.toList ++ ']' :: [':', '1']).drop (a.toList.length + 1 + 1) =
      [':', '1'] := by simp [List.drop_append]
  have hPort : ('[' :: a.toList ++ ']' :: [':', '1']).drop (a.toList.length + 2 + 1) = ['1'] := by
    simp [List.drop_append]
  have hHead : ('[' :: a.toList ++ ']' :: [':', '1']).head? = some '[' := rfl
  unfold splitHostPort
  simp only [hList, hColon, hEnd, hHost, hAfter, hPort, String.ofList_toList]
  rw [if_pos hHead, if_pos ⟨trivial, by simpa using hOpen, by decide⟩]

/-- Nothing is left to trim after trimming. -/
theorem trimSpace_trimSpace (s : String) : trimSpace (trimSpace s) = trimSpace s := by
  unfold trimSpace
  rw [String.toList_ofList]
  have hFirst := List.head?_dropWhile_not isSpace s.toList
  generalize s.toList.dropWhile isSpace = kept at hFirst
  have hFront : (kept.rdropWhile isSpace).dropWhile isSpace = kept.rdropWhile isSpace := by
    obtain ⟨spaces, hKept⟩ := List.rdropWhile_prefix isSpace (l := kept)
    cases hTrimmed : kept.rdropWhile isSpace with
    | nil => rfl
    | cons c rest =>
      -- trimming the end leaves the first character in its place
      rw [← hKept, hTrimmed] at hFirst
      exact List.dropWhile_cons_of_neg (by simpa using hFirst)
  rw [hFront, List.rdropWhile_idempotent]

/-- The addresses that an anonymous caller can have: a peer address that is no
host and port, or the host of one, or the left-most entry of a trusted
X-Forwarded-For. -/
def PossibleAddress (trustForwardedFor : Bool) (a : String) : Prop :=
  Unbracketed a ∨ splitHostPort a = none ∨
    (trustForwardedFor = true ∧ a ≠ "" ∧ trimSpace a = a ∧ ',' ∉ a.toList)

/-- A forwarded address is taken only from a proxy that is trusted, trimmed and whole. -/
theorem forwardedFor_eq_some {r : Resolver} {req : HttpRequest} {ip : String}
    (h : r.forwardedFor req = some ip) :
    r.trustForwardedFor = true ∧ ip ≠ "" ∧ trimSpace ip = ip ∧ ',' ∉ ip.toList := by
  unfold Resolver.forwardedFor at h
  dsimp only at h
  split at h
  · rename_i hShape
    obtain rfl := Option.some.inj h
    obtain ⟨hTrust, -, -, hSome⟩ := hShape
    refine ⟨hTrust, hSome, trimSpace_trimSpace _, fun hComma => ?_⟩
    rw [cut, trimSpace, String.toList_ofList, String.toList_ofList] at hComma
    have hFirst := List.dropWhile_subset _ ((List.rdropWhile_prefix isSpace _).subset hComma)
    simpa using List.mem_takeWhile_imp hFirst
  · cases h

/-- A trusted X-Forwarded-For of a single entry. -/
theorem forwardedFor_single {r : Resolver} (hTrust : r.trustForwardedFor = true) {a : String}
    (hSome : a ≠ "") (hTrimmed : trimSpace a = a) (hComma : ',' ∉ a.toList) {req : HttpRequest}
    (hHeader : req.header "X-Forwarded-For" = a) : r.forwardedFor req = some a := by
  have hCut : cut a ',' = (a, false) := by
    have hAll : a.toList.takeWhile (· != ',') = a.toList :=
      List.takeWhile_eq_self_iff.mpr fun c hc => by
        simpa using fun h : c = ',' => hComma (h ▸ hc)
    rw [cut, hAll, String.ofList_toList, List.contains_eq_mem, decide_eq_false hComma]
  unfold Resolver.forwardedFor
  simp [hHeader, hCut, hTrimmed, hTrust, hSome]

theorem forwardedFor_absent {r : Resolver} {req : HttpRequest}
    (hHeader : req.header "X-Forwarded-For" = "") : r.forwardedFor req = none := by
  unfold Resolver.forwardedFor
  simp [hHeader]

/-- Every address that is resolved is a possible one. -/
theorem possible_clientIP (r : Resolver) (req : HttpRequest) :
    PossibleAddress r.trustForwardedFor (r.clientIP req) := by
  unfold Resolver.clientIP
  cases hForwarded : r.forwardedFor req with
  | some ip => exact .inr (.inr (forwardedFor_eq_some hForwarded))
  | none =>
    cases hSplit : splitHostPort req.remoteAddr with
    | none => exact .inr (.inl hSplit)
    | some address => exact .inl (splitHostPort_unbracketed hSplit)

/-- Every possible address is that of some request without an API key. -/
theorem exists_anonymous {r : Resolver} {a : String}
    (hPossible : PossibleAddress r.trustForwardedFor a) :
    ∃ req, apiKey req = "" ∧ r.clientIP req = a := by
  rcases hPossible with hUnbracketed | hMalformed | ⟨hTrust, hSome, hTrimmed, hComma⟩
  · refine ⟨⟨fun _ => "", "[" ++ a ++ "]:1"⟩, rfl, ?_⟩
    simp only [Resolver.clientIP, forwardedFor_absent, splitHostPort_bracketed hUnbracketed]
  · refine ⟨⟨fun _ => "", a⟩, rfl, ?_⟩
    simp only [Resolver.clientIP, forwardedFor_absent, hMalformed]
  · refine ⟨⟨fun name => if name = "X-Forwarded-For" then a else "", ""⟩, rfl, ?_⟩
    simp only [Resolver.clientIP, forwardedFor_single hTrust hSome hTrimmed hComma, if_true]

end RatelimitGateway
