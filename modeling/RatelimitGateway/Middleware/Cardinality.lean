import Mathlib
import RatelimitGateway.Dashboard.Stats
import RatelimitGateway.Lib.Lookup
import RatelimitGateway.Proxy.Observe

/-!
# The metrics are fixed by the configuration

Translated from `internal/middleware/metrics.go` and the wiring in
`cmd/gateway/main.go`: the label names of the five collectors of the gateway, and
who writes to them. A series is created when its label values are used first, and
stays: callers who could choose a label value could create any number of series.
Those of the Go runtime and the values of the series are left out.

* `series_iff`         — the series that runs of one gateway can create: those that its
  configuration lists, and all of them;
* `length_exported_le` — there are no more than five for each tier and 906.
-/

namespace RatelimitGateway.Middleware

open Limiter Transitions Dashboard

/-- A time series of one of the collectors, by its label values. -/
inductive Series where
  | decisions (labels : Labels)
  | limiterLatency (algorithm : String)
  | limiterErrors (cause policy : String)
  | breakerState (state : String)
  | upstreamLatency (status : String)
  deriving DecidableEq

/-- The series that an effect writes to. -/
def Effect.series : Effect → List Series
  | .setBreakerState state _ => [.breakerState state]
  | .incLimiterErrors cause policy => [.limiterErrors cause policy]
  | .incDecisions tier algorithm decision source => [.decisions ⟨tier, algorithm, decision, source⟩]
  | _ => []

/-- The series that an action of `Wrap` writes to. -/
def Action.series (rl : RateLimit) : Action → List Series
  | .publish gauges => gauges.flatMap Effect.series
  -- The latency of the limiter is observed as soon as its call returns.
  | .returned _ _ => [.limiterLatency rl.limiterName.name]
  | .effect e => e.series
  | _ => []

/-- A gateway process: its requests, the statuses that `Observe` has reported, and
what the simulator has recorded. -/
structure Process where
  server   : Server
  statuses : List String
  recorded : List Labels

inductive Happening where
  | arrive (id : ℕ) (req : HttpRequest)
  | move (id : ℕ) (m : Move)
  /-- A forwarded request has been handled by the reverse proxy. -/
  | upstream (actions : List Proxy.Action) (ending : Proxy.Ending)
  | simulate (body : Option SimulateRequest) (answers : ℕ → Except LimiterError Decision)

namespace Process

def start (config : Breaker.Config) : Process := ⟨Server.start config, [], []⟩

def step (g : Dashboard.Gateway) (p : Process) : Happening → Option Process
  | .arrive id req =>
    (p.server.step g.rl (.arrive id (g.resolver.resolve req).toTenant)).map fun s =>
      { p with server := s }
  | .move id m => (p.server.step g.rl (.move id m)).map fun s => { p with server := s }
  | .upstream actions ending =>
    some { p with statuses := p.statuses ++ Proxy.observe actions ending }
  | .simulate body answers =>
    some { p with
      recorded := p.recorded ++ Dashboard.recorded (handleSimulate g.handler body answers).2 }

/-- The series of the process. -/
def series (rl : RateLimit) (p : Process) : List Series :=
  (p.server.requests.flatMap fun r => r.story.flatMap (Action.series rl)) ++
    p.statuses.map .upstreamLatency ++ p.recorded.map .decisions

end Process

-- ---------------------------------------------------------------------------
-- The configuration
-- ---------------------------------------------------------------------------

/-- The tiers of the callers: of anonymous ones, and of those with a key. -/
def callerTiers (f : FileFormat) : List String :=
  (f.anonymousTier :: (f.keys.filter fun x => x.1 ≠ "").map fun x => x.2.tier).dedup

/-- The series that a configuration allows. -/
def exported (f : FileFormat) (rl : RateLimit) : List Series :=
  ((callerTiers f).flatMap fun tier => ["allowed", "throttled", "degraded"].map fun decision =>
    .decisions ⟨tier, rl.limiterName.name, decision, sourceProxy⟩) ++
  ((f.tiers.map Prod.fst).flatMap fun tier => ["allowed", "throttled"].map fun decision =>
    .decisions ⟨tier, rl.limiterName.name, decision, sourceSimulator⟩) ++
  [.limiterLatency rl.limiterName.name,
    .limiterErrors "breaker_open" rl.policy, .limiterErrors "limiter_error" rl.policy] ++
  [Breaker.State.closed, .open, .halfOpen].map (fun s => .breakerState s.name) ++
  (List.range' 100 900).map fun code => .upstreamLatency code.repr

/-- The series of proxied decisions, by caller. -/
theorem exported_proxied {f : FileFormat} {tier decision : String} (rl : RateLimit)
    (hTier : tier ∈ callerTiers f) (hDecision : decision ∈ ["allowed", "throttled", "degraded"]) :
    .decisions ⟨tier, rl.limiterName.name, decision, sourceProxy⟩ ∈ exported f rl := by
  simp only [exported, List.mem_append, List.mem_flatMap, List.mem_map]
  exact .inl (.inl (.inl (.inl ⟨tier, hTier, decision, hDecision, rfl⟩)))

/-- A simulated decision is counted under a series that is exported. -/
theorem exported_simulated {f : FileFormat} {tier : String} (rl : RateLimit)
    (hTier : tier ∈ f.tiers.map Prod.fst) (d : Decision) :
    .decisions ⟨tier, rl.limiterName.name, outcome d, sourceSimulator⟩ ∈ exported f rl := by
  simp only [exported, List.mem_append, List.mem_flatMap, List.mem_map]
  refine .inl (.inl (.inl (.inr ⟨tier, List.mem_map.mp hTier, outcome d, ?_, rfl⟩)))
  unfold outcome
  split <;> simp

theorem exported_latency (f : FileFormat) (rl : RateLimit) :
    .limiterLatency rl.limiterName.name ∈ exported f rl := by simp [exported]

/-- So is an error of the limiter. -/
theorem exported_errors {cause : String} (f : FileFormat) (rl : RateLimit)
    (hCause : cause ∈ ["breaker_open", "limiter_error"]) :
    .limiterErrors cause rl.policy ∈ exported f rl := by
  simp only [exported, List.mem_append]
  refine .inl (.inl (.inr ?_))
  rcases List.mem_pair.mp hCause with rfl | rfl <;> simp

theorem exported_state (f : FileFormat) (rl : RateLimit) (s : Breaker.State) :
    .breakerState s.name ∈ exported f rl := by
  simp only [exported, List.mem_append]
  refine .inl (.inr (List.mem_map.mpr ⟨s, ?_, rfl⟩))
  cases s <;> simp

theorem exported_status {code : ℕ} (f : FileFormat) (rl : RateLimit) (hLow : 100 ≤ code)
    (hHigh : code ≤ 999) : .upstreamLatency code.repr ∈ exported f rl := by
  simp only [exported, List.mem_append]
  exact .inr (List.mem_map.mpr ⟨code, List.mem_range'_1.mpr ⟨hLow, by omega⟩, rfl⟩)

-- ---------------------------------------------------------------------------
-- What a process writes to
-- ---------------------------------------------------------------------------

section Written

variable {f : FileFormat} {rl : RateLimit} {t : Tenant}

/-- Every series that the effects write to is one of the configuration. -/
def Within (f : FileFormat) (rl : RateLimit) (effects : List Effect) : Prop :=
  ∀ e ∈ effects, ∀ x ∈ e.series, x ∈ exported f rl

/-- The gauges of the breaker are exported. -/
theorem within_gauges (f : FileFormat) (rl : RateLimit) (now : ℤ) (b : Breaker) :
    Within f rl (recordBreakerState now b) := by
  intro e he x hx
  obtain ⟨s, -, rfl⟩ := List.mem_map.mp he
  rw [List.mem_singleton.mp hx]
  exact exported_state f rl s

/-- What the failure policy counts is exported. -/
theorem within_refused {cause : String} (hCause : cause ∈ ["breaker_open", "limiter_error"])
    (hTier : t.tier.name ∈ callerTiers f) :
    Within f rl (.incLimiterErrors cause rl.policy :: rl.applyFailurePolicy t) := by
  have hErrors := exported_errors f rl hCause
  have hDegraded := exported_proxied rl hTier (show "degraded" ∈ _ by simp)
  unfold Within RateLimit.applyFailurePolicy
  split <;> simpa [Effect.series] using ⟨hErrors, hDegraded⟩

/-- So is what an answer counts. -/
theorem within_answer (hTier : t.tier.name ∈ callerTiers f) (d : Decision) :
    Within f rl (rl.answer t d) := by
  have hAllowed := exported_proxied rl hTier (show "allowed" ∈ _ by simp)
  have hThrottled := exported_proxied rl hTier (show "throttled" ∈ _ by simp)
  unfold Within RateLimit.answer writeRateLimitHeaders
  split
  · simpa [Effect.series] using hAllowed
  · simpa [Effect.series] using hThrottled

/-- The effects that a request has still to do. -/
def Point.rest : Point → List Effect
  | .acting rest => rest
  | _ => []

/-- What a request has written to, and will. -/
structure Known (f : FileFormat) (rl : RateLimit) (r : Request) : Prop where
  tier  : r.tenant.tier.name ∈ callerTiers f
  story : ∀ a ∈ r.story, ∀ x ∈ a.series rl, x ∈ exported f rl
  rest  : Within f rl r.point.rest

/-- An action counts under exported series only, and leaves only such effects to do. -/
theorem known_does {r : Request} {b b' : Breaker} {p : Point} {m : Move} {a : Action}
    (hKnown : Known f rl r) (hDoes : Does rl r.tenant b r.point m b' p a) :
    (∀ x ∈ a.series rl, x ∈ exported f rl) ∧ Within f rl p.rest := by
  have hNone : Within f rl [] := fun e he => absurd he List.not_mem_nil
  have hRest := hKnown.rest
  generalize r.point = q at hDoes hRest
  cases hDoes with
  | published =>
    refine ⟨fun x hx => ?_, hNone⟩
    obtain ⟨e, he, hx⟩ := List.mem_flatMap.mp hx
    exact within_gauges f rl _ _ e he x hx
  | admitted => exact ⟨fun x hx => absurd hx List.not_mem_nil, hNone⟩
  | refused =>
    exact ⟨fun x hx => absurd hx List.not_mem_nil, within_refused (by simp) hKnown.tier⟩
  | called => exact ⟨fun x hx => absurd hx List.not_mem_nil, hNone⟩
  | replied =>
    refine ⟨fun x hx => ?_, hNone⟩
    rw [List.mem_singleton.mp hx]
    exact exported_latency f rl
  | failed =>
    exact ⟨fun x hx => absurd hx List.not_mem_nil, within_refused (by simp) hKnown.tier⟩
  | decided => exact ⟨fun x hx => absurd hx List.not_mem_nil, within_answer hKnown.tier _⟩
  | acted =>
    exact ⟨hRest _ List.mem_cons_self, fun e he => hRest e (List.mem_cons_of_mem _ he)⟩

/-- So does every step. -/
theorem known_step {s s' : Server} {e : Moment} (hKnown : ∀ r ∈ s.requests, Known f rl r)
    (hTier : ∀ id t, e = .arrive id t → t.tier.name ∈ callerTiers f)
    (hStep : s.step rl e = some s') : ∀ r ∈ s'.requests, Known f rl r := by
  obtain ⟨id, t, rfl, -, rfl⟩ | ⟨m, r, b, p, a, -, hMem, -, hDoes, rfl⟩ := step_cases hStep
  · refine List.forall_mem_cons.mpr ⟨⟨hTier id t rfl, ?_, ?_⟩, hKnown⟩
    · exact fun a ha => absurd ha List.not_mem_nil
    · exact fun e he => absurd he List.not_mem_nil
  · intro r' hr'
    obtain ⟨r₀, hr₀, rfl⟩ := List.mem_map.mp hr'
    split
    · obtain ⟨hAction, hRest⟩ := known_does (hKnown r hMem) hDoes
      refine ⟨(hKnown r hMem).tier, fun a' ha' => ?_, hRest⟩
      rcases List.mem_append.mp ha' with hOld | hNew
      · exact (hKnown r hMem).story a' hOld
      · rw [List.mem_singleton.mp hNew]
        exact hAction
    · exact hKnown r₀ hr₀

end Written

-- ---------------------------------------------------------------------------
-- What the callers, the upstream and the operator can choose
-- ---------------------------------------------------------------------------

section Chosen

variable {f : FileFormat} {trust : Bool} {r : Resolver}

/-- The tiers of callers: that of the anonymous ones, and those of the keys. -/
theorem mem_callerTiers {tier : String} : tier ∈ callerTiers f ↔
    tier = f.anonymousTier ∨ ∃ key entry, key ≠ "" ∧ (key, entry) ∈ f.keys ∧ entry.tier = tier := by
  simp only [callerTiers, List.mem_dedup, List.mem_cons, List.mem_map, List.mem_filter,
    decide_eq_true_eq, Prod.exists]
  refine or_congr_right ⟨?_, ?_⟩
  · rintro ⟨key, entry, ⟨hMem, hSome⟩, hTier⟩
    exact ⟨key, entry, hSome, hMem, hTier⟩
  · rintro ⟨key, entry, hSome, hMem, hTier⟩
    exact ⟨key, entry, ⟨hMem, hSome⟩, hTier⟩

theorem name_anon (hLoad : load f trust = .ok r) : r.anon.name = f.anonymousTier := by
  have hAnon := anon_of_load hLoad
  obtain ⟨tier, -, hTier⟩ := Option.map_eq_some_iff.mp hAnon
  rw [← hTier]

/-- A caller chooses its key, and with it the tier of the key or the anonymous one. -/
theorem callerTier (hLoad : load f trust = .ok r) (req : HttpRequest) :
    (r.resolve req).tier.name ∈ callerTiers f := by
  have hAnon : r.anon.name ∈ callerTiers f := mem_callerTiers.mpr (.inl (name_anon hLoad))
  unfold Resolver.resolve
  dsimp only
  split
  · rename_i hSome
    rw [(loaded_of_load hLoad).keys]
    cases hEntry : f.keys.lookup (apiKey req) with
    | none => exact hAnon
    | some entry =>
      obtain ⟨tier, hTier⟩ := (loaded_of_load hLoad).defined _ _ hEntry
      rw [Option.bind_some, hTier]
      exact mem_callerTiers.mpr (.inr ⟨_, entry, hSome, Lookup.mem_of_lookup hEntry, rfl⟩)
  · exact hAnon

/-- A handler that names a status names one of three digits. -/
theorem status_serve (actions : List Proxy.Action) :
    (Proxy.serve actions).status = 0 ∨
      (100 ≤ (Proxy.serve actions).status ∧ (Proxy.serve actions).status ≤ 999) := by
  induction actions using List.reverseRecOn with
  | nil => exact .inl rfl
  | append_singleton actions a ih =>
    rw [Proxy.serve, List.foldl_append, ← Proxy.serve, List.foldl_cons, List.foldl_nil]
    cases a with
    | writeHeader c => exact .inr c.valid
    | write =>
      refine .inr ?_
      show 100 ≤ (if (Proxy.serve actions).status = 0 then 200 else _) ∧
        (if (Proxy.serve actions).status = 0 then 200 else _) ≤ 999
      split <;> omega
    | flush => exact ih

/-- A status that is recorded has three digits. -/
theorem status_observe {actions : List Proxy.Action} {ending : Proxy.Ending} {status : String}
    (h : status ∈ Proxy.observe actions ending) :
    ∃ code, 100 ≤ code ∧ code ≤ 999 ∧ status = code.repr := by
  cases ending with
  | panics => cases h
  | returns =>
    have hStatus := status_serve actions
    refine ⟨if (Proxy.serve actions).status = 0 then 200 else (Proxy.serve actions).status, ?_, ?_,
      List.mem_singleton.mp h⟩
    · split <;> omega
    · split <;> omega

/-- The operator chooses a tier, and only a configured one is simulated. -/
theorem simulated_within {g : Dashboard.Gateway} (hLoad : load f trust = .ok g.resolver)
    {body : Option SimulateRequest} {answers : ℕ → Except LimiterError Decision} {l : Labels}
    (hl : l ∈ recorded (handleSimulate g.handler body answers).2) :
    .decisions l ∈ exported f g.rl := by
  rcases handleSimulate_cases g.handler body answers with
    ⟨text, hNone⟩ | ⟨req, tier, ds, -, hTier, -, ⟨-, hDone⟩ | ⟨err, -, hFailed⟩⟩
  · rw [hNone] at hl
    cases hl
  all_goals
    -- the tier was looked up in the resolver, so the file has it
    have hKnown : tier.name ∈ f.tiers.map Prod.fst := by
      obtain ⟨hName, hMem⟩ := tier_of_loaded (loaded_of_load hLoad) hTier
      exact hName ▸ hMem
  · rw [hDone, recorded_steps] at hl
    obtain ⟨d, -, rfl⟩ := List.mem_map.mp hl
    exact exported_simulated g.rl hKnown d
  · rw [hFailed, recorded_append, recorded_steps] at hl
    rcases List.mem_append.mp hl with hl | hl
    · obtain ⟨d, -, rfl⟩ := List.mem_map.mp hl
      exact exported_simulated g.rl hKnown d
    · cases hl

end Chosen

-- ---------------------------------------------------------------------------
-- Every series is one of the configuration
-- ---------------------------------------------------------------------------

structure SeriesInv (f : FileFormat) (rl : RateLimit) (p : Process) : Prop where
  requests : ∀ r ∈ p.server.requests, Known f rl r
  statuses : ∀ status ∈ p.statuses, ∃ code, 100 ≤ code ∧ code ≤ 999 ∧ status = code.repr
  recorded : ∀ l ∈ p.recorded, .decisions l ∈ exported f rl

/-- Every happening adds exported series only. -/
theorem seriesInv_step {f : FileFormat} {trust : Bool} {g : Dashboard.Gateway}
    (hLoad : load f trust = .ok g.resolver) {p p' : Process} {e : Happening}
    (hInv : SeriesInv f g.rl p) (hStep : p.step g e = some p') : SeriesInv f g.rl p' := by
  cases e with
  | arrive id req =>
    obtain ⟨s, hServer, rfl⟩ := Option.map_eq_some_iff.mp hStep
    refine ⟨known_step hInv.requests ?_ hServer, hInv.statuses, hInv.recorded⟩
    rintro id' t hArrive
    cases hArrive
    exact callerTier hLoad req
  | move id m =>
    -- a request that is there already, with the tier it came with
    obtain ⟨s, hServer, rfl⟩ := Option.map_eq_some_iff.mp hStep
    refine ⟨known_step hInv.requests ?_ hServer, hInv.statuses, hInv.recorded⟩
    rintro id' t hArrive
    cases hArrive
  | upstream actions ending =>
    cases hStep
    refine ⟨hInv.requests, fun status hStatus => ?_, hInv.recorded⟩
    exact (List.mem_append.mp hStatus).elim (hInv.statuses status) status_observe
  | simulate body answers =>
    cases hStep
    refine ⟨hInv.requests, hInv.statuses, fun l hl => ?_⟩
    exact (List.mem_append.mp hl).elim (hInv.recorded l) (simulated_within hLoad)

/-- So does every run of the process. -/
theorem seriesInv_run {f : FileFormat} {trust : Bool} {g : Dashboard.Gateway}
    (hLoad : load f trust = .ok g.resolver) {config : Breaker.Config} {p : Process}
    (hReach : Reachable (Process.step g) (Process.start config) p) : SeriesInv f g.rl p :=
  reachable_invariant ⟨fun _ hr => absurd hr List.not_mem_nil,
    fun _ hs => absurd hs List.not_mem_nil, fun _ hl => absurd hl List.not_mem_nil⟩
    (fun _ _ _ hInv hStep => seriesInv_step hLoad hInv hStep) hReach

/-- Whatever the process exposes is among the exported series. -/
theorem SeriesInv.exported {f : FileFormat} {rl : RateLimit} {p : Process}
    (hInv : SeriesInv f rl p) {x : Series} (hx : x ∈ p.series rl) : x ∈ exported f rl := by
  rcases List.mem_append.mp hx with hx | hx
  · rcases List.mem_append.mp hx with hx | hx
    · obtain ⟨r, hr, hx⟩ := List.mem_flatMap.mp hx
      obtain ⟨a, ha, hx⟩ := List.mem_flatMap.mp hx
      exact (hInv.requests r hr).story a ha x hx
    · obtain ⟨status, hStatus, rfl⟩ := List.mem_map.mp hx
      obtain ⟨code, hLow, hHigh, rfl⟩ := hInv.statuses status hStatus
      exact exported_status f rl hLow hHigh
  · obtain ⟨l, hl, rfl⟩ := List.mem_map.mp hx
    exact hInv.recorded l hl

-- ---------------------------------------------------------------------------
-- Every series of the configuration can be created
-- ---------------------------------------------------------------------------

section Attained

variable {f : FileFormat} {trust : Bool} (g : Dashboard.Gateway)

/-- A request does what it has left to do. -/
theorem run_acts (b : Breaker) (t : Tenant) (rest : List Effect) (story : List Action) :
    run (Process.step g) ⟨⟨b, [⟨0, t, .acting rest, story⟩]⟩, [], []⟩
        (List.replicate rest.length (.move 0 .act)) =
      some ⟨⟨b, [⟨0, t, .acting [], story ++ rest.map .effect⟩]⟩, [], []⟩ := by
  induction rest generalizing story with
  | nil => simp [run]
  | cons e rest ih =>
    have hStep : Process.step g ⟨⟨b, [⟨0, t, .acting (e :: rest), story⟩]⟩, [], []⟩ (.move 0 .act) =
        some ⟨⟨b, [⟨0, t, .acting rest, story ++ [.effect e]⟩]⟩, [], []⟩ := rfl
    rw [List.length_cons, List.replicate_succ, run, hStep, Option.bind_some, ih]
    simp

/-- A process that has served one request, whose limiter call was answered so. -/
theorem reachable_answered (config : Breaker.Config) (req : HttpRequest)
    (result : Except LimiterError Decision) :
    ∃ p, Reachable (Process.step g) (Process.start config) p ∧
      (∀ s : Breaker.State, .breakerState s.name ∈ p.series g.rl) ∧
      .limiterLatency g.rl.limiterName.name ∈ p.series g.rl ∧
      ∀ e ∈ g.rl.effects (g.resolver.resolve req).toTenant (some result), ∀ x ∈ e.series,
        x ∈ p.series g.rl := by
  let t := (g.resolver.resolve req).toTenant
  -- one request from beginning to end, with the given answer of the limiter
  have hRun : ∃ es b, run (Process.step g) (Process.start config) es =
      some ⟨⟨b, [⟨0, t, .acting [],
        head (recordBreakerState 0 (Breaker.init config)) t (some result) ++
          (g.rl.effects t (some result)).map .effect⟩]⟩, [], []⟩ := by
    refine ⟨[.arrive 0 req, .move 0 (.publish 0), .move 0 (.consult 0), .move 0 .call,
      .move 0 (.reply result), .move 0 (.report 0)] ++
        List.replicate (g.rl.effects t (some result)).length (.move 0 .act), ?_⟩
    cases result with
    | error err => exact ⟨_, run_trans rfl (run_acts g _ _ _ _)⟩
    | ok d => exact ⟨_, run_trans rfl (run_acts g _ _ _ _)⟩
  obtain ⟨es, b, hRun⟩ := hRun
  refine ⟨_, ⟨es, hRun⟩, fun s => ?_, ?_, fun e he x hx => ?_⟩
  all_goals
    refine List.mem_append_left _ (List.mem_append_left _ ?_)
    rw [List.flatMap_singleton, List.flatMap_append, List.mem_append]
  · -- the three gauges come from `recordBreakerState`
    refine .inl (List.mem_flatMap.mpr ⟨_, List.mem_cons_self, List.mem_flatMap.mpr ?_⟩)
    refine ⟨.setBreakerState s.name (if s = (Breaker.init config).observe 0 then 1 else 0),
      List.mem_map.mpr ⟨s, ?_, rfl⟩, List.mem_singleton_self _⟩
    cases s <;> simp
  · exact .inl (List.mem_flatMap.mpr ⟨.returned t.id result, by simp [head],
      List.mem_singleton_self _⟩)
  · exact .inr (List.mem_flatMap.mpr ⟨.effect e, List.mem_map_of_mem he, hx⟩)

/-- A process whose breaker has refused a request. -/
theorem reachable_refused (req : HttpRequest) :
    ∃ p, Reachable (Process.step g) (Process.start (Breaker.Config.of 1 5 [])) p ∧
      .limiterErrors "breaker_open" g.rl.policy ∈ p.series g.rl := by
  have hRun : ∃ p, run (Process.step g) (Process.start (Breaker.Config.of 1 5 []))
      [.arrive 0 req, .move 0 (.publish 0), .move 0 (.consult 0), .move 0 .call,
        .move 0 (.reply (.error .contextDone)), .move 0 (.report 0),
        .arrive 1 req, .move 1 (.publish 0), .move 1 (.consult 0), .move 1 .act] = some p ∧
      .limiterErrors "breaker_open" g.rl.policy ∈ p.series g.rl := by
    refine ⟨_, rfl, ?_⟩
    refine List.mem_append_left _ (List.mem_append_left _ (List.mem_flatMap.mpr ?_))
    refine ⟨_, List.mem_cons_self, List.mem_flatMap.mpr ⟨.effect (.incLimiterErrors "breaker_open"
      g.rl.policy), ?_, List.mem_singleton_self _⟩⟩
    exact List.mem_append_right _ (List.mem_singleton_self _)
  obtain ⟨p, hRun, hMem⟩ := hRun
  exact ⟨p, ⟨_, hRun⟩, hMem⟩

variable {g}

/-- Every tier of the callers is that of some request. -/
theorem exists_caller (hLoad : load f trust = .ok g.resolver) {tier : String}
    (hTier : tier ∈ callerTiers f) : ∃ req, (g.resolver.resolve req).tier.name = tier := by
  rcases mem_callerTiers.mp hTier with rfl | ⟨key, entry, hSome, hMem, rfl⟩
  · exact ⟨⟨fun _ => "", ""⟩, name_anon hLoad⟩
  · have hEntry : f.keys.lookup key = some entry := Lookup.lookup_of_mem f.keys_nodup hMem
    obtain ⟨tier, hTier⟩ := (loaded_of_load hLoad).defined key entry hEntry
    refine ⟨withKey key, ?_⟩
    have hKey := apiKey_withKey hSome
    rw [Resolver.resolve]
    simp only [hKey, ne_eq, hSome, not_false_eq_true, if_true]
    rw [(loaded_of_load hLoad).keys, hEntry, Option.bind_some, hTier]
    rfl

/-- Every series of the configuration is one that some run creates. -/
theorem attained_of_exported (hLoad : load f trust = .ok g.resolver) {x : Series}
    (hx : x ∈ exported f g.rl) : ∃ config p,
      Reachable (Process.step g) (Process.start config) p ∧ x ∈ p.series g.rl := by
  let config := Breaker.Config.of 1 5 []
  simp only [exported, List.mem_append, List.mem_flatMap, List.mem_map] at hx
  rcases hx with (((⟨tier, hTier, decision, hDecision, rfl⟩ | ⟨tier, hTier, decision, hDecision,
    rfl⟩) | hx) | ⟨s, -, rfl⟩) | ⟨code, hCode, rfl⟩
  · -- a proxied decision, by the answer of the limiter
    obtain ⟨req, rfl⟩ := exists_caller hLoad hTier
    have hResult : ∃ result, Effect.incDecisions (g.resolver.resolve req).tier.name
        g.rl.limiterName.name decision sourceProxy ∈
          g.rl.effects (g.resolver.resolve req).toTenant (some result) := by
      simp only [List.mem_cons, List.not_mem_nil, or_false] at hDecision
      rcases hDecision with rfl | rfl | rfl
      · exact ⟨.ok ⟨true, 0, 0, 0, 0⟩, by simp [RateLimit.effects, RateLimit.answer]⟩
      · exact ⟨.ok ⟨false, 0, 0, 0, 0⟩, by simp [RateLimit.effects, RateLimit.answer]⟩
      · exact ⟨.error .contextDone,
          by simp [RateLimit.effects, RateLimit.applyFailurePolicy]⟩
    obtain ⟨result, hEffect⟩ := hResult
    obtain ⟨p, hReach, -, -, hSeries⟩ := reachable_answered g config req result
    exact ⟨config, p, hReach, hSeries _ hEffect _ (List.mem_singleton_self _)⟩
  · -- a simulated one
    obtain ⟨⟨name, tier'⟩, hMem, rfl⟩ := List.mem_map.mp (List.mem_map.mpr hTier)
    have hKnown : g.resolver.tier name = some { tier' with name := name } := by
      rw [(loaded_of_load hLoad).tiers, Lookup.lookup_of_mem f.tiers_nodup hMem]
      rfl
    have hResult : ∃ d, outcome d = decision := by
      rcases List.mem_pair.mp hDecision with rfl | rfl
      · exact ⟨⟨true, 0, 0, 0, 0⟩, rfl⟩
      · exact ⟨⟨false, 0, 0, 0, 0⟩, rfl⟩
    obtain ⟨d, rfl⟩ := hResult
    refine ⟨config, _, ⟨[.simulate (some ⟨name, 1⟩) fun _ => .ok d], rfl⟩, ?_⟩
    refine List.mem_append_right _ (List.mem_map_of_mem ?_)
    simp [Process.start, handleSimulate, Dashboard.Gateway.handler, hKnown, maxSimulationRequests,
      simulateLoop, recorded]
  · -- an error counter, or the latency of the limiter
    have hErrors : x = .limiterErrors "breaker_open" g.rl.policy ∨
        x = .limiterErrors "limiter_error" g.rl.policy ∨
          x = .limiterLatency g.rl.limiterName.name := by
      simp only [List.mem_cons, List.not_mem_nil, or_false] at hx
      tauto
    obtain ⟨p, hReach, -, hLatency, hSeries⟩ :=
      reachable_answered g config ⟨fun _ => "", ""⟩ (.error .contextDone)
    rcases hErrors with rfl | rfl | rfl
    · obtain ⟨p, hReach, hMem⟩ := reachable_refused g ⟨fun _ => "", ""⟩
      exact ⟨config, p, hReach, hMem⟩
    · exact ⟨config, p, hReach, hSeries _ List.mem_cons_self _ (List.mem_singleton_self _)⟩
    · exact ⟨config, p, hReach, hLatency⟩
  · obtain ⟨p, hReach, hState, -⟩ :=
      reachable_answered g config ⟨fun _ => "", ""⟩ (.error .contextDone)
    exact ⟨config, p, hReach, hState s⟩
  · -- a status code: the upstream writes it
    obtain ⟨hLow, hHigh⟩ := List.mem_range'_1.mp hCode
    refine ⟨config, _, ⟨[.upstream [.writeHeader ⟨code, hLow, by omega⟩] .returns], rfl⟩, ?_⟩
    refine List.mem_append_left _ (List.mem_append_right _ (List.mem_map_of_mem ?_))
    have hSome : code ≠ 0 := by omega
    simp [Process.start, Proxy.observe, Proxy.serve, Proxy.StatusRecorder.act,
      Proxy.StatusRecorder.writeHeader, hSome]

/-- The callers have no more tiers than there are. -/
theorem length_callerTiers_le (hLoad : load f trust = .ok g.resolver) :
    (callerTiers f).length ≤ f.tiers.length := by
  have hSub : callerTiers f ⊆ f.tiers.map Prod.fst := by
    intro tier hTier
    obtain ⟨req, rfl⟩ := exists_caller hLoad hTier
    exact resolve_tier hLoad req
  have hNodup : (callerTiers f).Nodup := List.nodup_dedup _
  simpa using (List.subperm_of_subset hNodup hSub).length_le

/-- How many series there can be. -/
theorem length_exported_le (hLoad : load f trust = .ok g.resolver) :
    (exported f g.rl).length ≤ 5 * f.tiers.length + 906 := by
  have hCallers := length_callerTiers_le hLoad
  have hLength : (exported f g.rl).length =
      (callerTiers f).length * 3 + f.tiers.length * 2 + 906 := by
    simp only [exported, List.length_append, List.length_flatMap, List.length_map, List.length_cons,
      List.length_nil, List.length_range', List.map_const', List.sum_replicate, smul_eq_mul,
      Nat.reduceAdd]
  omega

end Attained

/--
**The metrics are fixed by the configuration.** For every configuration that `Load`
accepts: whatever requests arrive, with whatever keys and addresses, however their
actions interleave, whatever the limiter and the upstream answer and whatever is
simulated, the series that a gateway creates are among those of its configuration,
at most five for each tier and 906 others; and there is none of these that it can
not create.
-/
theorem series_iff {f : FileFormat} {trust : Bool} {g : Dashboard.Gateway}
    (hLoad : load f trust = .ok g.resolver) :
    (∀ x, (∃ config p, Reachable (Process.step g) (Process.start config) p ∧
      x ∈ p.series g.rl) ↔ x ∈ exported f g.rl) ∧
    ∀ config p, Reachable (Process.step g) (Process.start config) p →
      (p.series g.rl).toFinset.card ≤ 5 * f.tiers.length + 906 := by
  refine ⟨fun x => ⟨?_, attained_of_exported hLoad⟩, fun config p hReach => ?_⟩
  · rintro ⟨config, p, hReach, hx⟩
    exact (seriesInv_run hLoad hReach).exported hx
  · have hSub : (p.series g.rl).toFinset ⊆ (exported f g.rl).toFinset := by
      intro x hx
      rw [List.mem_toFinset] at hx ⊢
      exact (seriesInv_run hLoad hReach).exported hx
    calc (p.series g.rl).toFinset.card ≤ (exported f g.rl).toFinset.card := Finset.card_le_card hSub
      _ ≤ (exported f g.rl).length := List.toFinset_card_le _
      _ ≤ 5 * f.tiers.length + 906 := length_exported_le hLoad

/-- One tier: whatever happens, there are no more than 911 series. -/
theorem series_iff_demo :
    ∃ r, load (oneKey "acme") false = .ok r ∧ ∀ config p,
      Reachable (Process.step ⟨r, ⟨.tokenBucket, true⟩⟩) (Process.start config) p →
        (p.series ⟨.tokenBucket, true⟩).toFinset.card ≤ 911 :=
  ⟨_, rfl, (series_iff (f := oneKey "acme") (g := ⟨_, ⟨.tokenBucket, true⟩⟩) rfl).2⟩

end RatelimitGateway.Middleware
