import Mathlib.Algebra.BigOperators.Group.Finset.Basic
import RatelimitGateway.Limiter.Isolation
import RatelimitGateway.Middleware.Requests

/-!
# A fleet of replicas

`Requests` lets the limiter answer as it likes. Here any number of replicas
share one Redis, and the limiter is `Allow`: what a request is told is what its
own script replied, if it is told a decision at all.

Between a replica and Redis is a network. A script may run long after its call
was sent, also when the request has already given up on it; it may never run,
or run again when the client sends it again; its reply may be lost, and then
the request hears of an error instead. The dashboard's simulator calls the
limiter beside the requests.

* `fleet_enforces` — whatever the interleaving, the requests that are forwarded
  for a key on the strength of a decision are no more than what the scripts
  have admitted in the run of the key's own calls, as a single gateway would
  make them.
-/

namespace RatelimitGateway.Middleware

open Limiter Transitions

-- ---------------------------------------------------------------------------
-- Calls, script runs and the fleet
-- ---------------------------------------------------------------------------

/-- A replica and a request of it. -/
abbrev Owner := ℕ × ℕ

/-- The limiter call of a request, as `Allow` has sent it. -/
structure Sent where
  owner : Owner
  key : String
  quota : Quota
  /-- The replica's clock, and the random digits, if there were any. -/
  nowMs : ℤ
  hex : Option String

/-- A script that Redis ran, and what it replied. -/
structure Execution where
  /-- Nobody, if it was not the call of a request. -/
  owner : Option Owner
  call : KeyedCall
  reply : Except Redis.RedisError Reply

/-- Any number of replicas, and the Redis they share. -/
structure Fleet where
  servers : ℕ → Server
  store : Redis.Store
  sent : List Sent
  /-- The oldest first. -/
  runs : List Execution

inductive FleetEvent where
  /-- An action of a replica in which the limiter has no part. -/
  | own (replica : ℕ) (m : Moment)
  | call (replica id : ℕ) (nowMs : ℤ) (hex : Option String)
  /-- Redis runs the script of a call that was sent at some time before. -/
  | execute (replica id : ℕ) (execAt : ℤ)
  /-- Redis runs the script of some other call. -/
  | simulate (c : KeyedCall)
  | hear (replica id : ℕ) (result : Except LimiterError Decision)

/-- Does `Allow` get as far as its script? -/
def runsScript (c : KeyedCall) : Bool :=
  !decide (c.quota.limit ≤ 0 ∨ c.quota.window ≤ 0) &&
    !decide (c.alg = .slidingWindow ∧ c.hex = none)

/-- The script of a call that was sent, when it runs. -/
def Sent.call (c : Sent) (alg : Algorithm) (execAt : ℤ) : KeyedCall :=
  ⟨alg, c.key, c.quota, c.nowMs, execAt, c.hex⟩

/-- Is this what `Allow` makes of the reply? -/
def Execution.gives (x : Execution) (d : Decision) : Bool :=
  match x.reply with
  | .ok r => decide (x.call.limiter.decision x.call.quota r = d)
  | .error _ => false

/-- Is the action one in which the limiter has a part? -/
def Moment.ofLimiter : Moment → Bool
  | .move _ .call => true
  | .move _ (.reply _) => true
  | _ => false

namespace Fleet

def start (config : Breaker.Config) (s₀ : Redis.Store) : Fleet :=
  ⟨fun _ => Server.start config, s₀, [], []⟩

def put (f : Fleet) (i : ℕ) (s : Server) : Fleet :=
  { f with servers := Function.update f.servers i s }

/-- The call that a request has sent. -/
def sentBy (f : Fleet) (o : Owner) : Option Sent := f.sent.find? fun c => c.owner == o

/-- Redis runs a script. -/
def execute (f : Fleet) (e : KeyStore.Expiry) (o : Option Owner) (c : KeyedCall) : Fleet :=
  let (reply, store) := c.reply e f.store
  { f with store := store, runs := f.runs ++ [⟨o, c, reply⟩] }

/-- Can a request be told this? A decision comes from a run of its own script;
an error can come at any time. -/
def canHear (f : Fleet) (o : Owner) : Except LimiterError Decision → Bool
  | .error _ => true
  | .ok d => f.runs.any fun x => x.owner == some o && x.gives d

def step (rl : RateLimit) (e : KeyStore.Expiry) (f : Fleet) : FleetEvent → Option Fleet
  | .own i m => if m.ofLimiter then none else ((f.servers i).step rl m).map (f.put i)
  | .call i id nowMs hex =>
    ((f.servers i).request id).bind fun r =>
      ((f.servers i).step rl (.move id .call)).map fun s =>
        { f.put i s with
          sent := f.sent ++ [⟨(i, id), r.tenant.id, r.tenant.tier.quota, nowMs, hex⟩] }
  | .execute i id execAt =>
    (f.sentBy (i, id)).bind fun c =>
      if runsScript (c.call rl.limiterName execAt) then
        some (f.execute e (some (i, id)) (c.call rl.limiterName execAt))
      else none
  | .simulate c => if runsScript c then some (f.execute e none c) else none
  | .hear i id result =>
    if f.canHear (i, id) result then
      ((f.servers i).step rl (.move id (.reply result))).map (f.put i)
    else none

end Fleet

-- ---------------------------------------------------------------------------
-- What a replica does not forget
-- ---------------------------------------------------------------------------

section Replica

variable {rl : RateLimit} {s s' : Server} {m : Moment}

/-- A replica has been sent the request, for this tenant. -/
def Server.Serves (s : Server) (id : ℕ) (t : Tenant) : Prop :=
  ∃ r ∈ s.requests, r.id = id ∧ r.tenant = t

/-- A replica goes on serving the requests that it was sent. -/
theorem serves_step (hDistinct : Distinct s) (hStep : s.step rl m = some s') {id : ℕ} {t : Tenant}
    (hServes : s.Serves id t) : s'.Serves id t := by
  obtain ⟨r, hr, hId, hTenant⟩ := hServes
  obtain ⟨id', t', -, -, rfl⟩ | ⟨m, r', b, p, a, -, hMem, -, -, rfl⟩ := step_cases hStep
  · exact ⟨r, List.mem_cons_of_mem _ hr, hId, hTenant⟩
  · by_cases hMoved : r.id = r'.id
    · obtain rfl := List.inj_on_of_nodup_map hDistinct hr hMem hMoved
      exact ⟨_, List.mem_map.mpr ⟨r, hr, if_pos rfl⟩, hId, hTenant⟩
    · exact ⟨r, List.mem_map.mpr ⟨r, hr, if_neg hMoved⟩, hId, hTenant⟩

theorem serves_unique (hDistinct : Distinct s) {r : Request} (hr : r ∈ s.requests) {t : Tenant}
    (hServes : s.Serves r.id t) : r.tenant = t := by
  obtain ⟨r', hr', hId, rfl⟩ := hServes
  rw [List.inj_on_of_nodup_map hDistinct hr' hr hId]

theorem told_of_does {t : Tenant} {b b' : Breaker} {p p' : Point} {m : Move} {k : String}
    {result : Except LimiterError Decision} (hDoes : Does rl t b p m b' p' (.returned k result)) :
    m = .reply result := by
  cases hDoes
  rfl

/-- What a request has been told, it was told before, or is told by this step. -/
theorem told_step (hStep : s.step rl m = some s') {r : Request} (hr : r ∈ s'.requests) {k : String}
    {result : Except LimiterError Decision} (hTold : .returned k result ∈ r.story) :
    (∃ r₀ ∈ s.requests, r₀.id = r.id ∧ .returned k result ∈ r₀.story) ∨
      m = .move r.id (.reply result) := by
  obtain ⟨id', t', -, -, rfl⟩ | ⟨m, r', b, p, a, rfl, hMem, -, hDoes, rfl⟩ := step_cases hStep
  · rcases List.mem_cons.mp hr with rfl | hOld
    · -- a request that has just arrived has not been told anything
      cases hTold
    · exact .inl ⟨r, hOld, rfl, hTold⟩
  · obtain ⟨r₀, hr₀, rfl⟩ := List.mem_map.mp hr
    split at hTold
    · rename_i hId
      rw [if_pos hId]
      rcases List.mem_append.mp hTold with hOld | hNew
      · exact .inl ⟨r', hMem, rfl, hOld⟩
      · -- only a reply adds an answer to the story
        obtain rfl := List.mem_singleton.mp hNew
        exact .inr (congrArg (Moment.move r'.id) (told_of_does hDoes))
    · rename_i hId
      rw [if_neg hId]
      exact .inl ⟨r₀, hr₀, rfl, hTold⟩

/-- A request keeps the tenant that it came with. -/
theorem request_origin (hStep : s.step rl m = some s') {r : Request} (hr : r ∈ s'.requests) :
    (∃ r₀ ∈ s.requests, r₀.id = r.id ∧ r₀.tenant = r.tenant) ∨ m = .arrive r.id r.tenant := by
  obtain ⟨id', t', rfl, -, rfl⟩ | ⟨m, r', b, p, a, -, hMem, -, -, rfl⟩ := step_cases hStep
  · rcases List.mem_cons.mp hr with rfl | hOld
    · exact .inr rfl
    · exact .inl ⟨r, hOld, rfl, rfl⟩
  · obtain ⟨r₀, hr₀, rfl⟩ := List.mem_map.mp hr
    split
    · exact .inl ⟨r', hMem, rfl, rfl⟩
    · exact .inl ⟨r₀, hr₀, rfl, rfl⟩

end Replica

-- ---------------------------------------------------------------------------
-- What holds of the fleet
-- ---------------------------------------------------------------------------

/-- What holds after the events so far. -/
structure FleetInv (rl : RateLimit) (e : KeyStore.Expiry) (s₀ : Redis.Store)
    (events : List FleetEvent) (f : Fleet) : Prop where
  arrived  : ∀ i, ∀ r ∈ (f.servers i).requests, .own i (.arrive r.id r.tenant) ∈ events
  stories  : ∀ i, StoriesOk rl (f.servers i)
  distinct : ∀ i, Distinct (f.servers i)
  /-- A call is sent for a request, under its tenant's key and quota. -/
  sent     : ∀ c ∈ f.sent, ∃ t, (f.servers c.owner.1).Serves c.owner.2 t ∧
    c.key = t.id ∧ c.quota = t.tier.quota
  /-- A script runs for a request as its call was sent. -/
  owned    : ∀ x ∈ f.runs, ∀ o, x.owner = some o → ∃ c, f.sentBy o = some c ∧
    x.call = c.call rl.limiterName x.call.execAt
  others   : ∀ x ∈ f.runs, x.owner = none → .simulate x.call ∈ events
  /-- A decision is what some run of the request's script has replied. -/
  told     : ∀ i, ∀ r ∈ (f.servers i).requests, ∀ k d, .returned k (.ok d) ∈ r.story →
    ∃ x ∈ f.runs, x.owner = some (i, r.id) ∧ x.gives d = true
  runs     : f.runs.map (fun x => (x.call, x.reply)) =
    Machine.trace (KeyedCall.reply e) s₀ (f.runs.map Execution.call)
  store    : f.store = Machine.final (KeyedCall.reply e) s₀ (f.runs.map Execution.call)

section Inv

variable {rl : RateLimit} {e : KeyStore.Expiry} {s₀ : Redis.Store} {events : List FleetEvent}
  {f : Fleet}

/-- Nothing was sent or run yet. -/
theorem fleetInv_start (config : Breaker.Config) :
    FleetInv rl e s₀ [] (Fleet.start config s₀) where
  arrived := fun _ _ hr => absurd hr List.not_mem_nil
  stories := fun _ _ hr => absurd hr List.not_mem_nil
  distinct := fun _ => List.nodup_nil
  sent := fun _ hc => absurd hc List.not_mem_nil
  owned := fun _ hx => absurd hx List.not_mem_nil
  others := fun _ hx => absurd hx List.not_mem_nil
  told := fun _ _ hr => absurd hr List.not_mem_nil
  runs := rfl
  store := rfl

theorem owner_of_sentBy {o : Owner} {c : Sent} (hSent : f.sentBy o = some c) :
    c ∈ f.sent ∧ c.owner = o :=
  ⟨List.mem_of_find?_eq_some hSent, by simpa using List.find?_some hSent⟩

/-- One replica takes a step; what the others are told is as it was. -/
theorem FleetInv.put (hInv : FleetInv rl e s₀ events f) {i : ℕ} {m : Moment} {s : Server}
    (hStep : (f.servers i).step rl m = some s) (ev : FleetEvent)
    (hArrived : ∀ id t, m = .arrive id t → ev = .own i (.arrive id t))
    (hTold : ∀ id d, m = .move id (.reply (.ok d)) →
      ∃ x ∈ f.runs, x.owner = some (i, id) ∧ x.gives d = true) :
    FleetInv rl e s₀ (events ++ [ev]) (f.put i s) := by
  have hHere : (f.put i s).servers i = s := by simp [Fleet.put]
  have hOther : ∀ {j}, j ≠ i → (f.put i s).servers j = f.servers j := fun hji => by
    simp [Fleet.put, hji]
  refine ⟨fun j r hr => ?_, fun j => ?_, fun j => ?_, fun c hc => ?_, hInv.owned,
    fun x hx ho => List.mem_append_left _ (hInv.others x hx ho), fun j r hr k d hd => ?_,
    hInv.runs, hInv.store⟩
  · by_cases hji : j = i
    · rw [hji, hHere] at hr
      rw [hji]
      -- a request of this replica was there before, or has just arrived
      rcases request_origin hStep hr with ⟨r₀, hr₀, hId, hTenant⟩ | hNew
      · rw [← hId, ← hTenant]
        exact List.mem_append_left _ (hInv.arrived i r₀ hr₀)
      · rw [hArrived _ _ hNew]
        exact List.mem_append_right _ (List.mem_singleton_self _)
    · rw [hOther hji] at hr
      exact List.mem_append_left _ (hInv.arrived j r hr)
  · by_cases hji : j = i
    · rw [hji, hHere]
      exact storiesOk_step (hInv.stories i) hStep
    · rw [hOther hji]
      exact hInv.stories j
  · by_cases hji : j = i
    · rw [hji, hHere]
      exact distinct_step (hInv.distinct i) hStep
    · rw [hOther hji]
      exact hInv.distinct j
  · -- a call that was sent still belongs to the request that sent it
    obtain ⟨t, hServes, hCall⟩ := hInv.sent c hc
    refine ⟨t, ?_, hCall⟩
    by_cases hci : c.owner.1 = i
    · rw [hci] at hServes ⊢
      rw [hHere]
      exact serves_step (hInv.distinct i) hStep hServes
    · rwa [hOther hci]
  · by_cases hji : j = i
    · rw [hji, hHere] at hr
      rw [hji]
      -- what a request was told it was told before, or by this very reply
      rcases told_step hStep hr hd with ⟨r₀, hr₀, hId, hOld⟩ | hNew
      · rw [← hId]
        exact hInv.told i r₀ hr₀ k d hOld
      · exact hTold r.id d hNew
    · rw [hOther hji] at hr
      exact hInv.told j r hr k d hd

/-- Redis runs a script. -/
theorem FleetInv.execute (hInv : FleetInv rl e s₀ events f) {o : Option Owner} {c : KeyedCall}
    (hOwner : ∀ o', o = some o' → ∃ c', f.sentBy o' = some c' ∧
      c = c'.call rl.limiterName c.execAt) {ev : FleetEvent}
    (hNobody : o = none → ev = .simulate c) :
    FleetInv rl e s₀ (events ++ [ev]) (f.execute e o c) := by
  have hRuns : (f.execute e o c).runs = f.runs ++ [⟨o, c, (c.reply e f.store).1⟩] := rfl
  refine ⟨fun i r hr => List.mem_append_left _ (hInv.arrived i r hr), hInv.stories, hInv.distinct,
    hInv.sent, fun x hx => ?_, fun x hx ho => ?_, fun j r hr k d hd => ?_, ?_, ?_⟩
  · rw [hRuns] at hx
    rcases List.mem_append.mp hx with hOld | hNew
    · exact hInv.owned x hOld
    · obtain rfl := List.mem_singleton.mp hNew
      exact hOwner
  · rw [hRuns] at hx
    rcases List.mem_append.mp hx with hOld | hNew
    · exact List.mem_append_left _ (hInv.others x hOld ho)
    · obtain rfl := List.mem_singleton.mp hNew
      rw [hNobody ho]
      exact List.mem_append_right _ (List.mem_singleton_self _)
  · -- an execution more: what was told before still has its execution
    obtain ⟨x, hx, hRest⟩ := hInv.told j r hr k d hd
    exact ⟨x, List.mem_append_left _ hx, hRest⟩
  · -- the executions are the run of their calls on one store
    rw [hRuns, List.map_append, List.map_append, hInv.runs, List.map_singleton, List.map_singleton,
      Machine.trace_concat, ← hInv.store]
  · rw [hRuns, List.map_append, List.map_singleton, Machine.final_concat, ← hInv.store]
    rfl

/-- Every event keeps what replicas, calls and script runs know of each other. -/
theorem fleetInv_step {f' : Fleet} {ev : FleetEvent} (hInv : FleetInv rl e s₀ events f)
    (hStep : f.step rl e ev = some f') : FleetInv rl e s₀ (events ++ [ev]) f' := by
  cases ev with
  | own i m =>
    rw [Fleet.step] at hStep
    split at hStep
    · cases hStep
    · rename_i hOwn
      obtain ⟨s, hServer, rfl⟩ := Option.map_eq_some_iff.mp hStep
      -- any step of the replica alone, which tells no decision
      exact hInv.put hServer _ (fun id t hArrive => by rw [hArrive])
        fun id d hReply => absurd (by rw [hReply]; rfl) hOwn
  | call i id nowMs hex =>
    obtain ⟨r, hRequest, hSend⟩ := Option.bind_eq_some_iff.mp hStep
    obtain ⟨s, hServer, rfl⟩ := Option.map_eq_some_iff.mp hSend
    -- the limiter call leaves for Redis, with the key and quota of its request
    have hPut := hInv.put hServer (.call i id nowMs hex)
      (fun _ _ hArrive => by cases hArrive) fun _ _ hReply => by cases hReply
    refine ⟨hPut.arrived, hPut.stories, hPut.distinct, fun c hc => ?_, fun x hx o ho => ?_,
      hPut.others, hPut.told, hPut.runs, hPut.store⟩
    · rcases List.mem_append.mp hc with hOld | hNew
      · exact hPut.sent c hOld
      · obtain rfl := List.mem_singleton.mp hNew
        refine ⟨r.tenant, ?_, rfl, rfl⟩
        have hServes : (f.servers i).Serves id r.tenant :=
          ⟨r, List.mem_of_find?_eq_some hRequest, by simpa using List.find?_some hRequest, rfl⟩
        show (Function.update f.servers i s i).Serves id r.tenant
        rw [Function.update_self]
        exact serves_step (hInv.distinct i) hServer hServes
    · -- the calls sent before are still found, since the new one comes last
      obtain ⟨c, hSent, hCall⟩ := hPut.owned x hx o ho
      refine ⟨c, ?_, hCall⟩
      rw [Fleet.sentBy, List.find?_append]
      rw [Fleet.sentBy] at hSent
      exact Option.or_eq_some_iff.mpr (.inl hSent)
  | execute i id execAt =>
    obtain ⟨c, hSent, hRun⟩ := Option.bind_eq_some_iff.mp hStep
    split at hRun
    · -- Redis runs the script for a call that was sent, once more or for the first time
      cases hRun
      exact hInv.execute (fun o ho => ⟨c, by rw [← Option.some.inj ho, hSent], rfl⟩)
        fun hNobody => by cases hNobody
    · cases hRun
  | simulate c =>
    rw [Fleet.step] at hStep
    split at hStep
    · cases hStep
      exact hInv.execute (fun o ho => by cases ho) fun _ => rfl
    · cases hStep
  | hear i id result =>
    rw [Fleet.step] at hStep
    split at hStep
    · -- a decision is heard only if some execution of the call gave it
      rename_i hCan
      obtain ⟨s, hServer, rfl⟩ := Option.map_eq_some_iff.mp hStep
      refine hInv.put hServer _ (fun _ _ hArrive => by cases hArrive) fun id' d hReply => ?_
      cases hReply
      obtain ⟨x, hx, hGives⟩ := List.any_eq_true.mp hCan
      rw [Bool.and_eq_true, beq_iff_eq] at hGives
      exact ⟨x, hx, hGives⟩
    · cases hStep

theorem fleetInv_run {config : Breaker.Config}
    (hRun : run (Fleet.step rl e) (Fleet.start config s₀) events = some f) :
    FleetInv rl e s₀ events f :=
  run_invariant (P := FleetInv rl e s₀) (C := fun _ _ _ => True) (fleetInv_start config)
    (fun _ _ _ _ _ hInv hStep _ => fleetInv_step hInv hStep) hRun everyStep_true

end Inv

-- ---------------------------------------------------------------------------
-- The script runs on one key
-- ---------------------------------------------------------------------------

/-- The calls on a key whose scripts have run, in that order. -/
def Fleet.callsOn (f : Fleet) (key : String) : List Call :=
  (f.runs.filter fun x => decide (x.call.key = key)).map fun x => x.call.toCall

/-- All calls on the key have one quota: those of requests by their tenants'
tier, and any other calls too. -/
structure OneQuota (rl : RateLimit) (events : List FleetEvent) (key : String) (q : Quota) :
    Prop where
  tenants : ∀ i id t, .own i (.arrive id t) ∈ events → t.id = key → t.tier.quota = q
  others  : ∀ c, .simulate c ∈ events → c.key = key → c.alg = rl.limiterName ∧ c.quota = q

section OnKey

variable {rl : RateLimit} {e : KeyStore.Expiry} {s₀ : Redis.Store} {events : List FleetEvent}
  {f : Fleet} {key : String} {q : Quota}

/-- Every script that ran on the key ran with its algorithm and its quota. -/
theorem FleetInv.quota_on_key (hInv : FleetInv rl e s₀ events f)
    (hQuota : OneQuota rl events key q) {x : Execution} (hx : x ∈ f.runs)
    (hKey : x.call.key = key) : x.call.alg = rl.limiterName ∧ x.call.quota = q := by
  cases hOwner : x.owner with
  | none => exact hQuota.others x.call (hInv.others x hx hOwner) hKey
  | some o =>
    obtain ⟨c, hSent, hCall⟩ := hInv.owned x hx o hOwner
    obtain ⟨hMem, rfl⟩ := owner_of_sentBy hSent
    obtain ⟨t, ⟨r, hr, hId, rfl⟩, hcKey, hcQuota⟩ := hInv.sent c hMem
    have hArrived := hInv.arrived c.owner.1 r hr
    rw [hCall] at hKey ⊢
    exact ⟨rfl, hcQuota.trans (hQuota.tenants _ _ _ hArrived (hcKey.symm.trans hKey))⟩

/-- What the scripts of the key's calls replied is what they would have replied
to a single gateway that makes these calls alone. -/
theorem FleetInv.transcript_on_key (hInv : FleetInv rl e s₀ events f)
    (hQuota : OneQuota rl events key q) :
    (f.runs.filter fun x => decide (x.call.key = key)).map (fun x => (x.call.toCall, x.reply)) =
      transcript e (RedisLimiter.script { alg := rl.limiterName } key q) s₀ (f.callsOn key) := by
  set runs := f.runs.filter fun x => decide (x.call.key = key) with hRuns
  -- the calls on other keys leave this key alone
  have hAlone : runs.map (fun x => (x.call, x.reply)) =
      Machine.trace (KeyedCall.reply e) s₀ (runs.map Execution.call) := by
    have hRestrict := (local_reply e).restricted s₀ (f.runs.map Execution.call)
      fun k => decide (k = key)
    rw [← hInv.runs, List.filter_map, List.filter_map] at hRestrict
    exact hRestrict
  -- and every call on the key carries the one quota
  have hSame : Machine.trace (KeyedCall.reply e) s₀ (runs.map Execution.call) =
      Machine.trace (fun s c =>
        serve e (RedisLimiter.script { alg := rl.limiterName } key q) s c.toCall) s₀
        (runs.map Execution.call) := by
    refine Machine.trace_congr _ _ fun c hc s => ?_
    obtain ⟨x, hx, rfl⟩ := List.mem_map.mp hc
    obtain ⟨hMem, hKey⟩ := List.mem_filter.mp hx
    obtain ⟨hAlg, hCallQuota⟩ := hInv.quota_on_key hQuota hMem (of_decide_eq_true hKey)
    rw [KeyedCall.reply_eq_serve, KeyedCall.limiter, hAlg, hCallQuota, of_decide_eq_true hKey]
  have hMap := Machine.map_trace
    (serve e (RedisLimiter.script { alg := rl.limiterName } key q)) s₀ KeyedCall.toCall
    (runs.map Execution.call)
  rw [← hSame, ← hAlone, List.map_map, List.map_map] at hMap
  exact hMap

end OnKey

-- ---------------------------------------------------------------------------
-- The requests that are forwarded
-- ---------------------------------------------------------------------------

/-- Is the response marked as one that no decision was made on? -/
def marked (effects : List Effect) : Bool :=
  decide (.setHeader "X-RateLimit-Degraded" "true" ∈ effects)

/-- The stamp of the call that a request has sent. -/
def Fleet.stampOf (f : Fleet) (o : Owner) : Option ℤ := (f.sentBy o).map Sent.nowMs

/-- The requests that a replica has forwarded for a key, not marked, whose limiter
calls are stamped in `P`. -/
def Fleet.enforced (f : Fleet) (key : String) (P : ℤ → Bool) (i : ℕ) : ℕ :=
  (f.servers i).requests.countP fun r =>
    decide (r.tenant.id = key) && decide (0 < forwards (did r.story)) && !marked (did r.story) &&
      (f.stampOf (i, r.id)).any P

section Forwarded

variable {rl : RateLimit} {e : KeyStore.Expiry} {s₀ : Redis.Store} {events : List FleetEvent}
  {f : Fleet}

/-- A request that was told a decision was told what a run of its own script
replied. -/
theorem FleetInv.decided (hInv : FleetInv rl e s₀ events f) {i : ℕ} {r : Request}
    (hr : r ∈ (f.servers i).requests) {d : Decision} (hDecision : decisionOf r.story = some d) :
    ∃ x ∈ f.runs, x.owner = some (i, r.id) ∧ x.call.key = r.tenant.id ∧
      f.stampOf (i, r.id) = some x.call.nowMs ∧
      admitted (x.call.toCall, x.reply) = d.allowed := by
  obtain ⟨a, hTold, hGives⟩ := List.exists_of_findSome?_eq_some hDecision
  obtain ⟨k, rfl⟩ : ∃ k, a = .returned k (.ok d) := by
    split at hGives
    · cases hGives
      exact ⟨_, rfl⟩
    · cases hGives
  -- the decision was told, so an execution of the call of the request gave it
  obtain ⟨x, hx, hOwner, hReply⟩ := hInv.told i r hr k d hTold
  obtain ⟨c, hSent, hCall⟩ := hInv.owned x hx _ hOwner
  obtain ⟨hMem, hcOwner⟩ := owner_of_sentBy hSent
  obtain ⟨t, hServes, hKey, -⟩ := hInv.sent c hMem
  rw [hcOwner] at hServes
  refine ⟨x, hx, hOwner, ?_, ?_, ?_⟩
  · rw [hCall, serves_unique (hInv.distinct i) hr hServes]
    exact hKey
  · rw [Fleet.stampOf, hSent, hCall]
    rfl
  · unfold Execution.gives at hReply
    split at hReply
    · rename_i rep hRep
      rw [admitted, hRep, ← of_decide_eq_true hReply]
      rfl
    · cases hReply

/-- Whoever is forwarded without the mark had its call admitted by its own
script. -/
theorem FleetInv.granted (hInv : FleetInv rl e s₀ events f) {i : ℕ} {r : Request}
    (hr : r ∈ (f.servers i).requests) (hForwarded : 0 < forwards (did r.story))
    (hUnmarked : marked (did r.story) = false) :
    ∃ x ∈ f.runs, x.owner = some (i, r.id) ∧ x.call.key = r.tenant.id ∧
      f.stampOf (i, r.id) = some x.call.nowMs ∧ admitted (x.call.toCall, x.reply) = true := by
  have hBounded := bounded_of_storyOk (hInv.stories i r hr)
  -- forwarded without the mark: the limiter decided, and it allowed the request
  have hDecided : decisionOf r.story ≠ none := fun hNone =>
    of_decide_eq_false hUnmarked (hBounded.marked hForwarded hNone)
  obtain ⟨d, hDecision⟩ := Option.ne_none_iff_exists'.mp hDecided
  have hAllowed : d.allowed = true := by
    have hMost := hBounded.forwarded
    rw [hDecision, RateLimit.forwarding] at hMost
    cases hd : d.allowed with
    | true => rfl
    | false =>
      rw [hd] at hMost
      exact absurd hForwarded (by simpa using hMost)
  rw [← hAllowed]
  exact hInv.decided hr hDecision

/-- A replica has forwarded no more requests than Redis has admitted runs for
them. -/
theorem FleetInv.enforced_le (hInv : FleetInv rl e s₀ events f) (key : String) (P : ℤ → Bool)
    (i : ℕ) :
    f.enforced key P i ≤ f.runs.countP fun x =>
      (decide (x.call.key = key) && (P x.call.nowMs && admitted (x.call.toCall, x.reply))) &&
        decide (x.owner.map Prod.fst = some i) := by
  rw [Fleet.enforced, List.countP_eq_length_filter, List.countP_eq_length_filter]
  set forwarded := (f.servers i).requests.filter _ with hForwarded
  set granted := f.runs.filter _ with hGranted
  -- a replica gives each of its requests its own id
  have hOwners : (forwarded.map fun r => some (i, r.id)).Nodup := by
    have hIds : (forwarded.map Request.id).Nodup :=
      (hInv.distinct i).sublist (List.filter_sublist.map _)
    have hInj := hIds.map (f := fun id => some (i, id)) fun a b hab => by simpa using hab
    rwa [List.map_map] at hInj
  -- every forwarded request owns one of the runs
  have hSubset : (forwarded.map fun r => some (i, r.id)) ⊆ granted.map Execution.owner := by
    intro o ho
    obtain ⟨r, hr, rfl⟩ := List.mem_map.mp ho
    obtain ⟨hMem, hThat⟩ := List.mem_filter.mp (hForwarded ▸ hr)
    simp only [Bool.and_eq_true, decide_eq_true_eq, Bool.not_eq_true'] at hThat
    obtain ⟨⟨⟨hKey, hSome⟩, hUnmarked⟩, hStamp⟩ := hThat
    obtain ⟨x, hx, hOwner, hxKey, hxStamp, hAdmitted⟩ := hInv.granted hMem hSome hUnmarked
    rw [hxStamp] at hStamp
    refine List.mem_map.mpr ⟨x, List.mem_filter.mpr ⟨hx, ?_⟩, hOwner⟩
    have hP : P x.call.nowMs = true := hStamp
    simp [hxKey, hKey, hP, hAdmitted, hOwner]
  have hLength := (List.subperm_of_subset hOwners hSubset).length_le
  rwa [List.length_map, List.length_map] at hLength

/-- Failing closed, no response is marked. -/
theorem unmarked_of_closed (hClosed : rl.failOpen = false) {t : Tenant} {p : Point}
    {story : List Action} (hStory : StoryOk rl t p story) : marked (did story) = false := by
  cases p with
  | acting rest =>
    obtain ⟨g, outcome, done, rfl, hEffects⟩ := hStory
    rw [did_story]
    -- only the fail-open branch writes the degraded header
    have hNever : .setHeader "X-RateLimit-Degraded" "true" ∉ rl.effects t outcome := by
      obtain ⟨cause, -, hPolicy⟩ | ⟨d, -, hAnswer⟩ := effects_cases rl t outcome
      · rw [hPolicy]
        simp [RateLimit.applyFailurePolicy, hClosed]
      · rw [hAnswer]
        cases hAllowed : d.allowed <;> simp [RateLimit.answer, writeRateLimitHeaders, hAllowed]
    exact decide_eq_false fun hDone => hNever (hEffects ▸ List.mem_append_left _ hDone)
  | entered => obtain rfl := hStory; rfl
  | published => obtain ⟨g, rfl⟩ := hStory; rfl
  | admitted => obtain ⟨g, rfl⟩ := hStory; rfl
  | waiting => obtain ⟨g, rfl⟩ := hStory; rfl
  | returned result => obtain ⟨g, rfl⟩ := hStory; rfl

end Forwarded

/-- Classes that exclude each other count no element twice. -/
theorem sum_countP_le {α κ : Type} [DecidableEq κ] (R : Finset κ) (g : α → Bool)
    (classOf : α → Option κ) (xs : List α) :
    ∑ i ∈ R, xs.countP (fun x => g x && decide (classOf x = some i)) ≤ xs.countP g := by
  induction xs with
  | nil => simp
  | cons x xs ih =>
    simp only [List.countP_cons, Finset.sum_add_distrib]
    refine Nat.add_le_add ih ?_
    cases hg : g x with
    | false => simp
    | true =>
      -- an element counts in its own class, if that is summed over
      cases hClass : classOf x with
      | none => simp
      | some k =>
        simp only [Bool.true_and, Option.some_inj, decide_eq_true_eq, Finset.sum_ite_eq, if_true]
        by_cases hOwn : k ∈ R
        · rw [if_pos hOwn]
        · rw [if_neg hOwn]
          exact zero_le_one

/-- What the replicas have forwarded for a key, against the run of its calls. -/
theorem FleetInv.enforced_sum_le {rl : RateLimit} {e : KeyStore.Expiry} {s₀ : Redis.Store}
    {events : List FleetEvent} {f : Fleet} (hInv : FleetInv rl e s₀ events f) {key : String}
    {q : Quota} (hQuota : OneQuota rl events key q) (R : Finset ℕ) (P : ℤ → Bool) :
    ∑ i ∈ R, f.enforced key P i ≤
      (admittedCalls (transcript e (RedisLimiter.script { alg := rl.limiterName } key q) s₀
        (f.callsOn key))).countP fun c => P c.nowMs := by
  refine (Finset.sum_le_sum fun i _ => hInv.enforced_le key P i).trans ?_
  refine (sum_countP_le R _ (fun x => x.owner.map Prod.fst) f.runs).trans (le_of_eq ?_)
  rw [← hInv.transcript_on_key hQuota, admittedCalls, List.countP_map, List.countP_filter,
    List.countP_map, List.countP_filter]
  refine List.countP_congr fun x _ => ?_
  simp [KeyedCall.toCall, and_comm, and_left_comm]

/--
**A fleet enforces one quota.** Any number of replicas share one Redis. After
every interleaving of their requests' actions, of script runs that come late,
repeatedly or not at all, of lost replies and of the calls of the simulator:
the requests that the replicas, taken together, have forwarded for a key
without marking them as degraded are no more than the calls that the scripts
have admitted in the run of the key's own calls, from the keyspace as it was in
the beginning; and the same for those that are stamped in any set of times.
Failing closed, this is every request that is forwarded.
-/
theorem fleet_enforces {rl : RateLimit} {e : KeyStore.Expiry} {config : Breaker.Config}
    {s₀ : Redis.Store} {events : List FleetEvent} {f : Fleet}
    (hRun : run (Fleet.step rl e) (Fleet.start config s₀) events = some f) {key : String}
    {q : Quota} (hQuota : OneQuota rl events key q) (R : Finset ℕ) (P : ℤ → Bool) :
    (∑ i ∈ R, f.enforced key P i ≤
      (admittedCalls (transcript e (RedisLimiter.script { alg := rl.limiterName } key q) s₀
        (f.callsOn key))).countP fun c => P c.nowMs) ∧
    (rl.failOpen = false → ∀ i, ∀ r ∈ (f.servers i).requests, marked (did r.story) = false) :=
  have hInv := fleetInv_run hRun
  ⟨hInv.enforced_sum_le hQuota R P,
    fun hClosed i r hr => unmarked_of_closed hClosed (hInv.stories i r hr)⟩

/-- One request on each of two replicas. The script of replica 0 runs twice, and its
request is forwarded on its decision; the reply to replica 1 is lost, and its request is
marked and forwarded. -/
def lostReply (t : Tenant) (hex hex' : Option String) : List FleetEvent :=
  [.own 0 (.arrive 1 t), .own 1 (.arrive 1 t), .own 0 (.move 1 (.publish 0)),
   .own 1 (.move 1 (.publish 0)), .own 0 (.move 1 (.consult 0)), .own 1 (.move 1 (.consult 0)),
   .call 0 1 0 hex, .call 1 1 3 hex', .execute 0 1 5, .execute 1 1 6, .execute 0 1 7,
   .hear 0 1 (.ok ⟨true, 1, 0, 0, 1000000000⟩), .hear 1 1 (.error .contextDone),
   .own 0 (.move 1 (.report 8)), .own 1 (.move 1 (.report 8)),
   .own 0 (.move 1 .act), .own 0 (.move 1 .act), .own 0 (.move 1 .act), .own 0 (.move 1 .act),
   .own 0 (.move 1 .act), .own 1 (.move 1 .act), .own 1 (.move 1 .act), .own 1 (.move 1 .act),
   .own 1 (.move 1 .act)]

/-- Both requests are of one tenant. -/
theorem oneQuota_lostReply (rl : RateLimit) (t : Tenant) (hex hex' : Option String) :
    OneQuota rl (lostReply t hex hex') t.id t.tier.quota where
  tenants := fun i id t' hArrived _ => by
    simp only [lostReply, List.mem_cons, FleetEvent.own.injEq, Moment.arrive.injEq, reduceCtorEq,
      and_false, or_false, List.not_mem_nil] at hArrived
    obtain ⟨-, -, rfl⟩ | ⟨-, -, rfl⟩ := hArrived <;> rfl
  others := fun c hOther _ => by simp [lostReply] at hOther

/-- One call per second, and one request that is forwarded on a decision. -/
theorem fleet_enforces_demo :
    let acme : Tenant := ⟨"acme", ⟨"free", 1, 1000000000, 0⟩⟩
    ∃ f, run (Fleet.step ⟨.tokenBucket, true⟩ .honoured)
        (Fleet.start (Breaker.Config.of 5 1 []) KeyStore.empty)
        (lostReply acme none none) = some f ∧
      ∑ i ∈ {0, 1}, f.enforced "acme" (fun _ => true) i = 1 ∧
      ∑ i ∈ {0, 1}, f.enforced "acme" (fun _ => true) i ≤
        (admittedCalls (transcript .honoured
          (RedisLimiter.script { alg := .tokenBucket } "acme" acme.tier.quota) KeyStore.empty
          (f.callsOn "acme"))).countP fun _ => true := by
  intro acme
  obtain ⟨f, hRun, hForwarded⟩ : ∃ f, run (Fleet.step ⟨.tokenBucket, true⟩ .honoured)
      (Fleet.start (Breaker.Config.of 5 1 []) KeyStore.empty) (lostReply acme none none) = some f ∧
      ∑ i ∈ {0, 1}, f.enforced "acme" (fun _ => true) i = 1 :=
    Option.map_eq_some_iff.mp (by decide +kernel)
  exact ⟨f, hRun, hForwarded, (fleet_enforces hRun (oneQuota_lostReply _ acme _ _) _ _).1⟩

-- ---------------------------------------------------------------------------
-- The budget of a key
-- ---------------------------------------------------------------------------

theorem countP_admittedCalls (tr : List Served) :
    (admittedCalls tr).countP (fun _ => true) = admittedCount tr := by
  rw [admittedCalls, List.countP_map, List.countP_filter]
  exact List.countP_congr fun _ _ => by simp

/--
**The token bucket of a fleet.** Under the token bucket, with a key that was
never used: the requests that the replicas have forwarded for it without
marking them are within the burst plus the refill of the time that the stamps
of its calls, in the order in which their scripts ran, have moved forward. Where
Redis removes keys, its clock has to keep pace with the stamps.
-/
theorem fleet_budget {rl : RateLimit} (hAlg : rl.limiterName = .tokenBucket)
    {e : KeyStore.Expiry} {config : Breaker.Config} {s₀ : Redis.Store}
    {events : List FleetEvent} {f : Fleet}
    (hRun : run (Fleet.step rl e) (Fleet.start config s₀) events = some f) {key : String}
    {q : Quota} (hq : ValidQuota q) (hQuota : OneQuota rl events key q)
    (hUnused : s₀ (RedisLimiter.redisKey { alg := .tokenBucket } key) = none)
    (hPace : KeepsPace e (f.callsOn key)) (R : Finset ℕ) :
    ((∑ i ∈ R, f.enforced key (fun _ => true) i : ℕ) : ℚ) ≤ q.burstCapacity +
      q.ratePerSecond / 1000 * (ArrivalCurve.forwardTravel (stamps (f.callsOn key)) : ℤ) := by
  have hSum := (fleetInv_run hRun).enforced_sum_le hQuota R fun _ => true
  rw [hAlg, script_tokenBucket rfl, countP_admittedCalls] at hSum
  have hBurst : (0 : ℚ) ≤ q.burstCapacity := zero_le_one.trans (mod_cast hq.burst_pos)
  exact (Nat.cast_le.mpr hSum).trans
    (tokenBucket_paid_le_travel hBurst hq.rate_pos hUnused hPace)

/-- The stamps go from 0 to 3 and back to 0, which is 3 ms of forward travel. -/
theorem fleet_budget_demo :
    let acme : Tenant := ⟨"acme", ⟨"free", 1, 1000000000, 0⟩⟩
    ∃ f, run (Fleet.step ⟨.tokenBucket, true⟩ .honoured)
        (Fleet.start (Breaker.Config.of 5 1 []) KeyStore.empty)
        (lostReply acme none none) = some f ∧
      ∑ i ∈ {0, 1}, f.enforced "acme" (fun _ => true) i = 1 ∧
      ((∑ i ∈ {0, 1}, f.enforced "acme" (fun _ => true) i : ℕ) : ℚ) ≤
        acme.tier.quota.burstCapacity + acme.tier.quota.ratePerSecond / 1000 *
          (ArrivalCurve.forwardTravel (stamps (f.callsOn "acme")) : ℤ) := by
  intro acme
  obtain ⟨f, hRun, hSeen⟩ : ∃ f, run (Fleet.step ⟨.tokenBucket, true⟩ .honoured)
      (Fleet.start (Breaker.Config.of 5 1 []) KeyStore.empty) (lostReply acme none none) = some f ∧
      (f.callsOn "acme", ∑ i ∈ {0, 1}, f.enforced "acme" (fun _ => true) i) =
        ([⟨0, 5, "0-"⟩, ⟨3, 6, "3-"⟩, ⟨0, 7, "0-"⟩], 1) :=
    Option.map_eq_some_iff.mp (by decide +kernel)
  obtain ⟨hCalls, hForwarded⟩ := Prod.mk.inj hSeen
  -- the repeated call on the first stamp travels nothing
  refine ⟨f, hRun, hForwarded, fleet_budget rfl hRun (by constructor <;> decide)
    (oneQuota_lostReply _ acme _ _) rfl ?_ _⟩
  rw [hCalls]
  simp [KeepsPace, Follows]

end RatelimitGateway.Middleware
