import RatelimitGateway.Limiter.Justified
import RatelimitGateway.Middleware.Fleet

/-!
# Who a fleet turns away

The other side of `fleet_enforces`. Clocks that disagree, calls that are in flight
for long, scripts that run again and replies that are lost can let a caller have
more than its quota. They never let it have less, beyond what its own calls,
counted as often as their scripts ran, were granted.

* `fleet_refusals_justified` — a request is answered with 429 only by a script
  that found no room beside the calls admitted before it.
-/

namespace RatelimitGateway.Middleware

open Limiter Transitions

/-- Is the request answered with 429? -/
def throttled (effects : List Effect) : Bool :=
  decide (.httpError "rate limit exceeded" 429 ∈ effects)

/-- Only a decision that refuses is answered with 429. -/
theorem refused_of_throttled {rl : RateLimit} {t : Tenant} {p : Point} {story : List Action}
    (hStory : StoryOk rl t p story) (hThrottled : throttled (did story) = true) :
    ∃ d, decisionOf story = some d ∧ d.allowed = false := by
  have hDone := of_decide_eq_true hThrottled
  cases p with
  | acting rest =>
    obtain ⟨g, outcome, done, rfl, hEffects⟩ := hStory
    rw [did_story] at hDone
    -- the 429 comes with the answer of the limiter, not with the failure policy
    have hMem : .httpError "rate limit exceeded" 429 ∈ rl.effects t outcome :=
      hEffects ▸ List.mem_append_left _ hDone
    rw [decisionOf_story]
    obtain ⟨cause, -, hPolicy⟩ | ⟨d, hDecision, hAnswer⟩ := effects_cases rl t outcome
    · rw [hPolicy, RateLimit.applyFailurePolicy] at hMem
      split at hMem <;> simp at hMem
    · refine ⟨d, hDecision, ?_⟩
      rw [hAnswer] at hMem
      by_contra hAllowed
      rw [Bool.not_eq_false] at hAllowed
      simp [RateLimit.answer, writeRateLimitHeaders, hAllowed] at hMem
  | entered => obtain rfl := hStory; simp [did] at hDone
  | published => obtain ⟨g, rfl⟩ := hStory; simp [did] at hDone
  | admitted => obtain ⟨g, rfl⟩ := hStory; simp [did] at hDone
  | waiting => obtain ⟨g, rfl⟩ := hStory; simp [did] at hDone
  | returned result => obtain ⟨g, rfl⟩ := hStory; simp [did] at hDone

/-- The script runs on a key, in their order. -/
def Fleet.runsOn (f : Fleet) (key : String) : List Execution :=
  f.runs.filter fun x => decide (x.call.key = key)

/-- The calls among these that were admitted. -/
def admittedOf (runs : List Execution) : List Call :=
  admittedCalls (runs.map fun x => (x.call.toCall, x.reply))

section Refused

variable {rl : RateLimit} {e : KeyStore.Expiry} {s₀ : Redis.Store} {events : List FleetEvent}
  {f : Fleet} {key : String} {q : Quota}

/-- Whoever is answered with 429 had its call refused by its own script. -/
theorem FleetInv.refused (hInv : FleetInv rl e s₀ events f) {i : ℕ} {r : Request}
    (hr : r ∈ (f.servers i).requests) (hKey : r.tenant.id = key)
    (hThrottled : throttled (did r.story) = true) :
    ∃ pre x post, f.runsOn key = pre ++ x :: post ∧ x.owner = some (i, r.id) ∧
      admitted (x.call.toCall, x.reply) = false := by
  obtain ⟨d, hDecision, hRefused⟩ := refused_of_throttled (hInv.stories i r hr) hThrottled
  obtain ⟨x, hx, hOwner, hxKey, -, hAdmitted⟩ := hInv.decided hr hDecision
  have hMem : x ∈ f.runsOn key :=
    List.mem_filter.mpr ⟨hx, decide_eq_true (hxKey.trans hKey)⟩
  obtain ⟨pre, post, hSplit⟩ := List.append_of_mem hMem
  exact ⟨pre, x, post, hSplit, hOwner, hAdmitted.trans hRefused⟩

/-- The script runs on a key, as a run of the limiter. -/
theorem FleetInv.justifiedInv (hInv : FleetInv rl e s₀ events f) (hq : ValidQuota q)
    (hQuota : OneQuota rl events key q) (hUnused : Unused { alg := rl.limiterName } key s₀) :
    ∃ s, JustifiedInv { alg := rl.limiterName } e key q
      ((f.runsOn key).map fun x => (x.call.toCall, x.reply)) s := by
  have hAlone := justifiedInv_run (e := e) hq hUnused (f.callsOn key)
  rw [← hInv.transcript_on_key hQuota] at hAlone
  exact ⟨_, hAlone⟩

end Refused

/--
**Who a fleet turns away.** Any number of replicas share one Redis, in which the
key was never used. After every interleaving of their requests' actions, of
script runs that come late, repeatedly or not at all, of lost replies and of the
calls of the simulator: whatever request for the key is answered with 429, by
whatever replica, its own script ran and found no room beside the calls on the
key that were admitted before. If the calls on the key stay within the allowance,
counted as often as their scripts ran, no request is answered so.
-/
theorem fleet_refusals_justified {rl : RateLimit} {e : KeyStore.Expiry} {config : Breaker.Config}
    {s₀ : Redis.Store} {events : List FleetEvent} {f : Fleet}
    (hRun : run (Fleet.step rl e) (Fleet.start config s₀) events = some f) {key : String}
    {q : Quota} (hq : ValidQuota q) (hQuota : OneQuota rl events key q)
    (hUnused : Unused { alg := rl.limiterName } key s₀) :
    (∀ i, ∀ r ∈ (f.servers i).requests, r.tenant.id = key → throttled (did r.story) = true →
      ∃ pre x post, f.runsOn key = pre ++ x :: post ∧ x.owner = some (i, r.id) ∧
        ¬Room rl.limiterName q (admittedOf pre) x.call.toCall) ∧
    (Within rl.limiterName q (f.callsOn key) →
      ∀ i, ∀ r ∈ (f.servers i).requests, r.tenant.id = key → throttled (did r.story) = false) := by
  have hInv := fleetInv_run hRun
  obtain ⟨s, hJustified⟩ := hInv.justifiedInv hq hQuota hUnused
  refine ⟨fun i r hr hKey hThrottled => ?_, fun hWithin i r hr hKey => ?_⟩
  · -- the execution that refused it found no room among the calls before
    obtain ⟨pre, x, post, hSplit, hOwner, hRefused⟩ := hInv.refused hr hKey hThrottled
    refine ⟨pre, x, post, hSplit, hOwner, fun hRoom => ?_⟩
    rw [hSplit, List.map_append, List.map_cons] at hJustified
    exact absurd (hJustified.admitted _ _ _ rfl hRoom) (by rw [hRefused]; decide)
  · by_contra hSome
    rw [Bool.not_eq_false] at hSome
    obtain ⟨pre, x, post, hSplit, -, hRefused⟩ := hInv.refused hr hKey hSome
    have hCalls : ((f.runsOn key).map fun x => (x.call.toCall, x.reply)).map Prod.fst =
        f.callsOn key := List.map_map
    -- within the allowance every execution on the key admits
    have hAll := hJustified.all_admitted (hCalls ▸ hWithin) (f.runsOn key).length
    rw [List.take_of_length_le (by rw [List.length_map]), hSplit] at hAll
    have hAdmit := hAll (x.call.toCall, x.reply) (by simp)
    rw [hRefused] at hAdmit
    cases hAdmit

/-- One call per second. The clock of replica 1 is two seconds ahead of that of
replica 0, whose first request is served and whose second one is not. -/
def turnedAway (t : Tenant) (hex : Option String) : List FleetEvent :=
  [.own 0 (.arrive 1 t), .own 1 (.arrive 1 t), .own 0 (.arrive 2 t),
   .own 0 (.move 1 (.publish 0)), .own 1 (.move 1 (.publish 0)), .own 0 (.move 2 (.publish 0)),
   .own 0 (.move 1 (.consult 0)), .own 1 (.move 1 (.consult 0)), .own 0 (.move 2 (.consult 0)),
   .call 0 1 0 hex, .call 1 1 2000 hex, .call 0 2 0 hex,
   .execute 0 1 0, .execute 1 1 0, .execute 0 2 0,
   .hear 0 2 (.ok ⟨false, 1, 0, 1000000000, 1000000000⟩),
   .own 0 (.move 2 (.report 0)), .own 0 (.move 2 .act), .own 0 (.move 2 .act),
   .own 0 (.move 2 .act), .own 0 (.move 2 .act), .own 0 (.move 2 .act), .own 0 (.move 2 .act)]

/-- Both requests are of one tenant. -/
theorem oneQuota_turnedAway (rl : RateLimit) (t : Tenant) (hex : Option String) :
    OneQuota rl (turnedAway t hex) t.id t.tier.quota where
  tenants := fun i id t' hArrived _ => by
    simp only [turnedAway, List.mem_cons, FleetEvent.own.injEq, Moment.arrive.injEq, reduceCtorEq,
      and_false, or_false, List.not_mem_nil] at hArrived
    obtain ⟨-, -, rfl⟩ | ⟨-, -, rfl⟩ | ⟨-, -, rfl⟩ := hArrived <;> rfl
  others := fun c hOther _ => by simp [turnedAway] at hOther

/-- One call per second, and the second request is turned away. -/
theorem fleet_refusals_justified_demo :
    let acme : Tenant := ⟨"acme", ⟨"free", 1, 1000000000, 0⟩⟩
    ∃ f, run (Fleet.step ⟨.tokenBucket, true⟩ .honoured)
        (Fleet.start (Breaker.Config.of 5 1 []) KeyStore.empty) (turnedAway acme none) = some f ∧
      ((f.servers 0).requests.map fun r => throttled (did r.story)) = [true, false] ∧
      ∀ i, ∀ r ∈ (f.servers i).requests, r.tenant.id = "acme" → throttled (did r.story) = true →
        ∃ pre x post, f.runsOn "acme" = pre ++ x :: post ∧ x.owner = some (i, r.id) ∧
          ¬Room .tokenBucket acme.tier.quota (admittedOf pre) x.call.toCall := by
  intro acme
  obtain ⟨f, hRun, hThrottled⟩ : ∃ f, run (Fleet.step ⟨.tokenBucket, true⟩ .honoured)
      (Fleet.start (Breaker.Config.of 5 1 []) KeyStore.empty) (turnedAway acme none) = some f ∧
      ((f.servers 0).requests.map fun r => throttled (did r.story)) = [true, false] :=
    Option.map_eq_some_iff.mp (by decide +kernel)
  exact ⟨f, hRun, hThrottled, (fleet_refusals_justified hRun (by constructor <;> decide)
    (oneQuota_turnedAway _ acme _) ⟨rfl, fun _ => rfl⟩).1⟩

end RatelimitGateway.Middleware
