import Mathlib
import RatelimitGateway.Dashboard.Histogram
import RatelimitGateway.Dashboard.Simulate
import RatelimitGateway.Middleware.Requests
import RatelimitGateway.Tenant.Anonymous

/-!
# The dashboard counters balance

Translated from `internal/dashboard`: `handleStats` reads the counters back
that the middleware and the simulator have incremented. What the Prometheus
registry gathers is a parameter: `Gathers` states what is relied on. Counters
are natural numbers. Of the response, what does not come from the registry or
from the configuration is left out.

* `counters_balance` — what the response adds up to, after any run.
-/

namespace RatelimitGateway.Dashboard

open Limiter Middleware

-- ---------------------------------------------------------------------------
-- dashboard.go
-- ---------------------------------------------------------------------------

/-- `dto.Metric`, with its label pairs and the value of its counter. -/
structure LabelledMetric extends Metric where
  label : List (String × String)
  counter : ℕ
  deriving DecidableEq

/-- `dto.MetricFamily`. -/
structure MetricFamily where
  name : String
  metric : List LabelledMetric
  deriving DecidableEq

/-- The window is sent as its `String`. -/
structure TierStat where
  name : String
  limit : ℤ
  window : ℤ
  burst : ℤ
  allowed : ℕ
  throttled : ℕ
  deriving DecidableEq

structure StatsResponse where
  allowed : ℕ
  throttled : ℕ
  degraded : ℕ
  errors : ℕ
  tiers : List TierStat
  limiter : Option LatencyStat
  upstream : Option LatencyStat
  deriving DecidableEq

/-- `map[string]*tierStat`. -/
abbrev ByTier := String → Option TierStat

/-- `labelMap`; a name that is not there has the value "". -/
def labelMap (pairs : List (String × String)) : String → String :=
  pairs.foldl (fun out p => Function.update out p.1 p.2) fun _ => ""

/-- The seeds: every tier, without traffic. -/
def TierStat.fresh (t : Tier) : TierStat := ⟨t.name, t.limit, t.window, t.burst, 0, 0⟩

def seed (tiers : List Tier) : ByTier :=
  tiers.foldl (fun byTier t => Function.update byTier t.name (some (.fresh t))) fun _ => none

/-- The switch on the decision that adds to the totals. -/
def StatsResponse.add (resp : StatsResponse) (decision : String) (value : ℕ) : StatsResponse :=
  if decision = "allowed" then { resp with allowed := resp.allowed + value }
  else if decision = "throttled" then { resp with throttled := resp.throttled + value }
  else if decision = "degraded" then { resp with degraded := resp.degraded + value }
  else resp

/-- The one that adds to a tier. -/
def TierStat.add (stat : TierStat) (decision : String) (value : ℕ) : TierStat :=
  if decision = "allowed" then { stat with allowed := stat.allowed + value }
  else if decision = "throttled" then { stat with throttled := stat.throttled + value }
  else stat

/-- The loop over the metrics of `gateway_rate_limit_decisions_total`. -/
def addDecision : StatsResponse × ByTier → LabelledMetric → StatsResponse × ByTier
  | (resp, byTier), m =>
    let labels := labelMap m.label
    let value := m.counter
    let resp := resp.add (labels "decision") value
    match byTier (labels "tier") with
    | none => (resp, byTier)
    | some stat =>
      (resp, Function.update byTier (labels "tier") (some (stat.add (labels "decision") value)))

/-- One family; `range` is the order in which Go visits the keys of a map. -/
def addFamily (range : List Bound → List Bound) (acc : StatsResponse × ByTier)
    (family : MetricFamily) : StatsResponse × ByTier :=
  let (resp, byTier) := acc
  if family.name = "gateway_rate_limit_decisions_total" then family.metric.foldl addDecision acc
  else if family.name = "gateway_limiter_errors_total" then
    ({ resp with errors := resp.errors + (family.metric.map (·.counter)).sum }, byTier)
  else if family.name = "gateway_limiter_duration_seconds" then
    ({ resp with limiter := aggregateHistogram range (family.metric.map (·.toMetric)) }, byTier)
  else if family.name = "gateway_upstream_duration_seconds" then
    ({ resp with upstream := aggregateHistogram range (family.metric.map (·.toMetric)) }, byTier)
  else acc

/-- `Tiers` returns the configured tiers sorted by name. -/
def tiersByName (r : Resolver) : List Tier :=
  (r.tiers.map Prod.snd).mergeSort fun a b => a.name ≤ b.name

/-- `handleStats`, from what has been gathered on. -/
def handleStats (r : Resolver) (range : List Bound → List Bound)
    (families : List MetricFamily) : StatsResponse :=
  let zero : LatencyStat := ⟨(0 : ℚ), (0 : ℚ), (0 : ℚ), 0⟩
  let (resp, byTier) := families.foldl (addFamily range)
    (⟨0, 0, 0, 0, [], some zero, some zero⟩, seed (tiersByName r))
  { resp with tiers := (tiersByName r).filterMap fun t => byTier t.name }

-- ---------------------------------------------------------------------------
-- The traffic
-- ---------------------------------------------------------------------------

/-- A proxied request, with what it has been told in the end, or a burst of the
simulator, with the answers of the limiter. -/
inductive Traffic where
  | proxied (req : HttpRequest) (outcome : Outcome)
  | simulate (body : Option SimulateRequest) (answers : ℕ → Except LimiterError Decision)

/-- The increment of the `Decisions` counter that an effect is. -/
def increment : Effect → Option Labels
  | .incDecisions tier algorithm decision source => some ⟨tier, algorithm, decision, source⟩
  | _ => none

/-- The middleware and the dashboard of one gateway. -/
structure Gateway where
  resolver : Resolver
  rl : RateLimit

def Gateway.handler (g : Gateway) : Handler := ⟨g.resolver, g.rl.limiterName⟩

/-- The increments of the counter, in order. -/
def Gateway.increments (g : Gateway) : Traffic → List Labels
  | .proxied req outcome =>
    (g.rl.effects (g.resolver.resolve req).toTenant outcome).filterMap increment
  | .simulate body answers => recorded (handleSimulate g.handler body answers).2

/-- The proxied requests that have been handled. -/
def handled (traffic : List Traffic) : ℕ :=
  traffic.countP fun
    | .proxied .. => true
    | .simulate .. => false

/-- The simulated limiter calls that returned a decision. -/
def Gateway.simulated (g : Gateway) (traffic : List Traffic) : ℕ :=
  (traffic.map fun
    | .proxied .. => 0
    | .simulate body answers =>
      (decided (handleSimulate g.handler body answers).2).length).sum

-- ---------------------------------------------------------------------------
-- The registry
-- ---------------------------------------------------------------------------

/-- The metrics of the decisions counter. -/
def decisionMetrics (families : List MetricFamily) : List LabelledMetric :=
  families.flatMap fun family =>
    if family.name = "gateway_rate_limit_decisions_total" then family.metric else []

/-- The metric of some label values: they are paired with their names, in any
order, and the value is the number of increments. -/
structure Reports (increments : List Labels) (l : Labels) (m : LabelledMetric) : Prop where
  label   : m.label.Perm [("tier", l.tier), ("algorithm", l.algorithm),
    ("decision", l.decision), ("source", l.source)]
  counter : m.counter = increments.count l

/-- What a registry gathers after some increments of the decisions counter: one
metric for each combination of label values that was incremented. -/
def Gathers (increments : List Labels) (families : List MetricFamily) : Prop :=
  ∃ combinations : List Labels, combinations.Nodup ∧ (∀ l ∈ increments, l ∈ combinations) ∧
    List.Forall₂ (Reports increments) combinations (decisionMetrics families)

-- ---------------------------------------------------------------------------
-- Counting by label
-- ---------------------------------------------------------------------------

/-- Counting by adding ones. -/
theorem sum_indicator {κ : Type*} [DecidableEq κ] (a : κ) (keys : List κ) :
    (keys.map fun k => if a == k then 1 else 0).sum = keys.count a := by
  induction keys with
  | nil => rfl
  | cons k keys ih =>
    rw [List.map_cons, List.sum_cons, ih, List.count_cons, Nat.add_comm, Bool.beq_comm]

/-- Every element is counted under exactly one of the keys. -/
theorem sum_countP_by_key {α κ : Type*} [DecidableEq κ] (key : α → κ) (p : α → Bool)
    {keys : List κ} (hKeys : keys.Nodup) {xs : List α} (hCover : ∀ x ∈ xs, key x ∈ keys) :
    (keys.map fun k => xs.countP fun x => p x && key x == k).sum = xs.countP p := by
  induction xs with
  | nil => simp
  | cons x xs ih =>
    obtain ⟨hHead, hTail⟩ := List.forall_mem_cons.mp hCover
    have hOnce : (keys.map fun k => if key x == k then 1 else 0).sum = 1 := by
      rw [sum_indicator, List.count_eq_one_of_mem hKeys hHead]
    simp only [List.countP_cons, List.sum_map_add, ih hTail]
    cases hCounted : p x with
    | true => simpa using hOnce
    | false => simp

-- ---------------------------------------------------------------------------
-- What the loops add
-- ---------------------------------------------------------------------------

/-- The values of the metrics whose labels are picked. -/
def total (p : (String → String) → Bool) (metrics : List LabelledMetric) : ℕ :=
  (metrics.map fun m => if p (labelMap m.label) then m.counter else 0).sum

@[simp] theorem total_append (p : (String → String) → Bool) (ms ms' : List LabelledMetric) :
    total p (ms ++ ms') = total p ms + total p ms' := by
  simp [total]

def decisionIs (d : String) (labels : String → String) : Bool := labels "decision" = d

def tierIs (name : String) (d : String) (labels : String → String) : Bool :=
  decisionIs d labels && labels "tier" == name

def TierStat.plus (stat : TierStat) (allowed throttled : ℕ) : TierStat :=
  { stat with allowed := stat.allowed + allowed, throttled := stat.throttled + throttled }

/-- What some metrics add to the totals and to the tiers. -/
structure Adds (metrics : List LabelledMetric) (acc acc' : StatsResponse × ByTier) : Prop where
  allowed   : acc'.1.allowed = acc.1.allowed + total (decisionIs "allowed") metrics
  throttled : acc'.1.throttled = acc.1.throttled + total (decisionIs "throttled") metrics
  degraded  : acc'.1.degraded = acc.1.degraded + total (decisionIs "degraded") metrics
  byTier    : ∀ name, acc'.2 name = (acc.2 name).map fun stat =>
    stat.plus (total (tierIs name "allowed") metrics) (total (tierIs name "throttled") metrics)

/-- What leaves the totals as they are adds nothing. -/
theorem adds_nothing {acc acc' : StatsResponse × ByTier} (hAllowed : acc'.1.allowed = acc.1.allowed)
    (hThrottled : acc'.1.throttled = acc.1.throttled) (hDegraded : acc'.1.degraded = acc.1.degraded)
    (hTiers : acc'.2 = acc.2) : Adds [] acc acc' := by
  refine ⟨hAllowed, hThrottled, hDegraded, fun name => ?_⟩
  show acc'.2 name = (acc.2 name).map id
  rw [hTiers, Option.map_id, id]

/-- Metrics add up, one batch after the other. -/
theorem adds_append {ms ms' : List LabelledMetric} {acc acc' acc'' : StatsResponse × ByTier}
    (h : Adds ms acc acc') (h' : Adds ms' acc' acc'') : Adds (ms ++ ms') acc acc'' := by
  refine ⟨?_, ?_, ?_, fun name => ?_⟩
  · rw [h'.allowed, h.allowed, total_append, Nat.add_assoc]
  · rw [h'.throttled, h.throttled, total_append, Nat.add_assoc]
  · rw [h'.degraded, h.degraded, total_append, Nat.add_assoc]
  · rw [h'.byTier, h.byTier, Option.map_map]
    simp [Function.comp_def, TierStat.plus, Nat.add_assoc]

/-- A loop adds what its steps add. -/
theorem adds_foldl {ι : Type*} {step : StatsResponse × ByTier → ι → StatsResponse × ByTier}
    {metrics : ι → List LabelledMetric} (hStep : ∀ acc i, Adds (metrics i) acc (step acc i))
    (is : List ι) (acc : StatsResponse × ByTier) :
    Adds (is.flatMap metrics) acc (is.foldl step acc) := by
  induction is generalizing acc with
  | nil => exact adds_nothing rfl rfl rfl rfl
  | cons i is ih => exact adds_append (hStep acc i) (ih (step acc i))

theorem total_singleton (p : (String → String) → Bool) (m : LabelledMetric) :
    total p [m] = if p (labelMap m.label) then m.counter else 0 := by
  simp [total]

/-- A value is added to the total of its label, and to no other. -/
theorem add_response (resp : StatsResponse) (d : String) (value : ℕ) :
    (resp.add d value).allowed = resp.allowed + (if d = "allowed" then value else 0) ∧
    (resp.add d value).throttled = resp.throttled + (if d = "throttled" then value else 0) ∧
    (resp.add d value).degraded = resp.degraded + (if d = "degraded" then value else 0) := by
  unfold StatsResponse.add
  split_ifs <;> simp_all

theorem add_tier (stat : TierStat) (d : String) (value : ℕ) :
    stat.add d value =
      stat.plus (if d = "allowed" then value else 0) (if d = "throttled" then value else 0) := by
  unfold TierStat.add TierStat.plus
  split_ifs <;> simp_all

/-- A metric of an unknown tier adds to the totals only. -/
theorem addDecision_eq (resp : StatsResponse) (byTier : ByTier) (m : LabelledMetric) :
    addDecision (resp, byTier) m =
      (resp.add (labelMap m.label "decision") m.counter,
        Function.update byTier (labelMap m.label "tier")
          ((byTier (labelMap m.label "tier")).map
            (·.add (labelMap m.label "decision") m.counter))) := by
  unfold addDecision
  dsimp only
  cases hTier : byTier (labelMap m.label "tier") with
  | none =>
    have hSame : Function.update byTier (labelMap m.label "tier") none = byTier := by
      rw [← hTier, Function.update_eq_self]
    rw [Option.map_none, hSame]
  | some stat => rfl

/-- One metric adds its own value. -/
theorem adds_addDecision (acc : StatsResponse × ByTier) (m : LabelledMetric) :
    Adds [m] acc (addDecision acc m) := by
  obtain ⟨resp, byTier⟩ := acc
  obtain ⟨hAllowed, hThrottled, hDegraded⟩ :=
    add_response resp (labelMap m.label "decision") m.counter
  rw [addDecision_eq]
  refine ⟨?_, ?_, ?_, fun name => ?_⟩
  · simpa [total_singleton, decisionIs] using hAllowed
  · simpa [total_singleton, decisionIs] using hThrottled
  · simpa [total_singleton, decisionIs] using hDegraded
  · by_cases hTier : labelMap m.label "tier" = name
    · subst hTier
      simp [total_singleton, tierIs, decisionIs, add_tier]
    · simp [total_singleton, tierIs, hTier, TierStat.plus, Function.update_of_ne (Ne.symm hTier)]

/-- A family adds its metrics if it is the one of the decisions. -/
theorem adds_addFamily (range : List Bound → List Bound) (acc : StatsResponse × ByTier)
    (family : MetricFamily) :
    Adds (if family.name = "gateway_rate_limit_decisions_total" then family.metric else [])
      acc (addFamily range acc family) := by
  unfold addFamily
  dsimp only
  split_ifs with hDecisions
  · have hLoop := adds_foldl adds_addDecision family.metric acc
    simpa using hLoop
  · exact adds_nothing rfl rfl rfl rfl
  · exact adds_nothing rfl rfl rfl rfl
  · exact adds_nothing rfl rfl rfl rfl
  · exact adds_nothing rfl rfl rfl rfl

-- ---------------------------------------------------------------------------
-- What has been gathered
-- ---------------------------------------------------------------------------

/-- What a loop has stored under a key that occurs once. -/
theorem foldl_update_of_mem {ι κ ω : Type*} [DecidableEq κ] (key : ι → κ) (value : ι → ω)
    (init : κ → ω) {is : List ι} (hKeys : (is.map key).Nodup) {i : ι} (hMem : i ∈ is) :
    is.foldl (fun out i => Function.update out (key i) (value i)) init (key i) = value i := by
  induction is using List.reverseRecOn with
  | nil => cases hMem
  | append_singleton is last ih =>
    rw [List.map_append, List.nodup_append] at hKeys
    rw [List.foldl_append, List.foldl_cons, List.foldl_nil]
    rcases List.mem_append.mp hMem with hEarlier | hLast
    · have hOther : key i ≠ key last :=
        hKeys.2.2 (key i) (List.mem_map_of_mem hEarlier) (key last) (by simp)
      rw [Function.update_of_ne hOther]
      exact ih hKeys.1 hEarlier
    · obtain rfl := List.mem_singleton.mp hLast
      exact Function.update_self ..

/-- The labels of a metric can be read back. -/
theorem labelMap_of_reports {incs : List Labels} {l : Labels} {m : LabelledMetric}
    (h : Reports incs l m) : labelMap m.label "tier" = l.tier ∧
      labelMap m.label "decision" = l.decision := by
  have hNames : (m.label.map Prod.fst).Nodup := (h.label.map Prod.fst).nodup_iff.mpr (by simp)
  have hFound : ∀ p ∈ m.label, labelMap m.label p.1 = p.2 :=
    fun p hp => foldl_update_of_mem Prod.fst Prod.snd _ hNames hp
  exact ⟨hFound ("tier", l.tier) (h.label.mem_iff.mpr (by simp)),
    hFound ("decision", l.decision) (h.label.mem_iff.mpr (by simp))⟩

/-- Counting those that are one and pass a test. -/
theorem countP_eq_count {α : Type*} [DecidableEq α] (q : α → Bool) (xs : List α) (a : α) :
    (xs.countP fun x => q x && x == a) = if q a then xs.count a else 0 := by
  cases hPicked : q a with
  | true =>
    refine List.countP_congr fun x _ => ?_
    rw [Bool.and_eq_true, and_iff_right_of_imp]
    intro hSame
    rwa [eq_of_beq hSame]
  | false =>
    refine List.countP_eq_zero.mpr fun x _ hBoth => ?_
    rw [Bool.and_eq_true] at hBoth
    rw [eq_of_beq hBoth.2, hPicked] at hBoth
    cases hBoth.1

/-- The values of the metrics that are picked count the increments that are. -/
theorem total_of_gathers {incs : List Labels} {families : List MetricFamily}
    (hGathers : Gathers incs families) {p : (String → String) → Bool} {q : Labels → Bool}
    (hPick : ∀ l m, Reports incs l m → p (labelMap m.label) = q l) :
    total p (decisionMetrics families) = incs.countP q := by
  obtain ⟨combinations, hNodup, hCover, hReports⟩ := hGathers
  rw [← sum_countP_by_key id q hNodup hCover]
  clear hNodup hCover
  generalize decisionMetrics families = metrics at hReports
  induction hReports with
  | nil => rfl
  | @cons l m ls ms hReport _ ih =>
    have hHead : (if p (labelMap m.label) then m.counter else 0) =
        incs.countP fun l' => q l' && id l' == l := by
      rw [hPick l m hReport, hReport.counter]
      exact (countP_eq_count q incs l).symm
    rw [List.map_cons, List.sum_cons, ← ih, ← hHead]
    rfl

-- ---------------------------------------------------------------------------
-- The response
-- ---------------------------------------------------------------------------

/-- What `handleStats` reports of the metrics of the counter. -/
theorem handleStats_eq (r : Resolver) (range : List Bound → List Bound)
    (families : List MetricFamily) (hNames : ((tiersByName r).map Tier.name).Nodup) :
    (handleStats r range families).allowed =
      total (decisionIs "allowed") (decisionMetrics families) ∧
    (handleStats r range families).throttled =
      total (decisionIs "throttled") (decisionMetrics families) ∧
    (handleStats r range families).degraded =
      total (decisionIs "degraded") (decisionMetrics families) ∧
    (handleStats r range families).tiers = (tiersByName r).map fun t =>
      (TierStat.fresh t).plus (total (tierIs t.name "allowed") (decisionMetrics families))
        (total (tierIs t.name "throttled") (decisionMetrics families)) := by
  -- from the empty answer, with every tier seeded at zero
  have hAdds := adds_foldl (adds_addFamily range) families
    (⟨0, 0, 0, 0, [], some ⟨(0 : ℚ), (0 : ℚ), (0 : ℚ), 0⟩, some ⟨(0 : ℚ), (0 : ℚ), (0 : ℚ), 0⟩⟩,
      seed (tiersByName r))
  refine ⟨?_, ?_, ?_, ?_⟩
  · exact hAdds.allowed.trans (Nat.zero_add _)
  · exact hAdds.throttled.trans (Nat.zero_add _)
  · exact hAdds.degraded.trans (Nat.zero_add _)
  · refine List.filterMap_eq_map_iff_forall_eq_some.mpr fun t ht => ?_
    -- the tiers have different names, so each has its own entry
    have hSeed : seed (tiersByName r) t.name = some (.fresh t) :=
      foldl_update_of_mem Tier.name (fun t => some (TierStat.fresh t)) _ hNames ht
    rw [hAdds.byTier]
    dsimp only
    rw [hSeed]
    rfl

-- ---------------------------------------------------------------------------
-- The tiers
-- ---------------------------------------------------------------------------

section Tiers

variable {f : FileFormat} {trust : Bool} {r : Resolver}

theorem tiers_of_load (h : load f trust = .ok r) :
    r.tiers = f.tiers.map fun (name, tier) => (name, { tier with name := name }) := by
  obtain ⟨anon, keys, -, -, rfl⟩ := load_eq_ok h
  rfl

/-- Every configured tier is listed once. -/
theorem perm_names (h : load f trust = .ok r) :
    ((tiersByName r).map Tier.name).Perm (f.tiers.map Prod.fst) := by
  refine ((List.mergeSort_perm _ _).map _).trans (List.Perm.of_eq ?_)
  rw [tiers_of_load h, List.map_map, List.map_map]
  rfl

/-- The tiers are shown by ascending name. -/
theorem sorted_names (h : load f trust = .ok r) :
    ((tiersByName r).map Tier.name).Pairwise (· < ·) := by
  have hSorted : ((tiersByName r).map Tier.name).Pairwise (· ≤ ·) := by
    rw [List.pairwise_map]
    have hLe := @List.pairwise_mergeSort Tier (fun a b => decide (a.name ≤ b.name))
      (fun a b c hab hbc => by simp only [decide_eq_true_eq] at *; exact hab.trans hbc)
      (fun a b => by simpa using le_total a.name b.name) (r.tiers.map Prod.snd)
    exact hLe.imp fun hab => of_decide_eq_true hab
  have hNodup := (perm_names h).nodup_iff.mpr f.tiers_nodup
  exact (hSorted.and hNodup).imp fun hab => lt_of_le_of_ne hab.1 hab.2

theorem mem_names_of_lookup {name : String} {tier : Tier} (h : f.tiers.lookup name = some tier) :
    name ∈ f.tiers.map Prod.fst := by
  obtain ⟨entry, hMem, hName⟩ := List.lookup_isSome_iff.mp (Option.isSome_of_eq_some h)
  rw [beq_iff_eq.mp hName]
  exact List.mem_map_of_mem hMem

theorem tier_of_loaded (hLoaded : Loaded f trust r) {name : String} {tier : Tier}
    (hTier : r.tier name = some tier) : tier.name = name ∧ name ∈ f.tiers.map Prod.fst := by
  rw [hLoaded.tiers] at hTier
  obtain ⟨tier', hLookup, rfl⟩ := Option.map_eq_some_iff.mp hTier
  exact ⟨rfl, mem_names_of_lookup hLookup⟩

/-- Every caller has a configured tier. -/
theorem resolve_tier (h : load f trust = .ok r) (req : HttpRequest) :
    (r.resolve req).tier.name ∈ f.tiers.map Prod.fst := by
  have hLoaded := loaded_of_load h
  by_cases hKnown : ∃ key, Presents req key ∧ Configured f key
  · obtain ⟨key, hPresents, hConfigured⟩ := hKnown
    obtain ⟨entry, tier, -, hTier, hResolved⟩ := resolve_of_presents hLoaded hPresents hConfigured
    rw [hResolved]
    exact mem_names_of_lookup hTier
  · have hNone : PresentsNone f req :=
      fun key hPresents hConfigured => hKnown ⟨key, hPresents, hConfigured⟩
    obtain ⟨tier, hTier, hAnon⟩ := Option.map_eq_some_iff.mp (anon_of_load h)
    rw [resolve_of_none hLoaded hNone, ← hAnon]
    exact mem_names_of_lookup hTier

end Tiers

-- ---------------------------------------------------------------------------
-- The increments
-- ---------------------------------------------------------------------------

/-- A proxied request is counted once, under its tier. -/
theorem increments_proxied (g : Gateway) (req : HttpRequest) (outcome : Outcome) :
    g.increments (.proxied req outcome) =
      [⟨(g.resolver.resolve req).tier.name, g.rl.limiterName.name,
        label (Outcome.decision outcome), sourceProxy⟩] := by
  rw [Gateway.increments]
  obtain ⟨cause, hNone, hEffects⟩ | ⟨d, hSome, hEffects⟩ :=
    effects_cases g.rl (g.resolver.resolve req).toTenant outcome
  · rw [hNone, hEffects]
    rw [RateLimit.applyFailurePolicy]
    cases g.rl.failOpen <;> rfl
  · rw [hSome, hEffects]
    rw [RateLimit.answer, label]
    cases d.allowed <;> rfl

section Traffic

variable {f : FileFormat} {trust : Bool} {g : Gateway}

/-- As many decisions are recorded as were made. -/
theorem length_recorded (hLoaded : Loaded f trust g.resolver) (body : Option SimulateRequest)
    (answers : ℕ → Except LimiterError Decision) :
    (recorded (handleSimulate g.handler body answers).2).length =
      (decided (handleSimulate g.handler body answers).2).length := by
  cases body with
  | none => rfl
  | some req =>
    have hNames : ∀ name tier, g.resolver.tier name = some tier → tier.name = name :=
      fun name tier hTier => (tier_of_loaded hLoaded hTier).1
    have hAccounted := simulate_accounted hNames (h := g.handler) (some req) answers
    rw [hAccounted.records req rfl, List.length_map]

/-- Each of them is one increment. -/
theorem length_increments (hLoaded : Loaded f trust g.resolver) (traffic : List Traffic) :
    (traffic.flatMap g.increments).length = handled traffic + g.simulated traffic := by
  induction traffic with
  | nil => rfl
  | cons t traffic ih =>
    rw [List.flatMap_cons, List.length_append, ih]
    cases t with
    | proxied req outcome =>
      have hHandled : handled (.proxied req outcome :: traffic) = handled traffic + 1 :=
        List.countP_cons_of_pos rfl
      have hSimulated : g.simulated (.proxied req outcome :: traffic) = g.simulated traffic :=
        Nat.zero_add _
      rw [increments_proxied, hHandled, hSimulated, List.length_singleton]
      omega
    | simulate body answers =>
      have hHandled : handled (.simulate body answers :: traffic) = handled traffic :=
        List.countP_cons_of_neg Bool.false_ne_true
      have hSimulated : g.simulated (.simulate body answers :: traffic) =
          (decided (handleSimulate g.handler body answers).2).length + g.simulated traffic := rfl
      rw [Gateway.increments, length_recorded hLoaded, hHandled, hSimulated]
      omega

/-- Every increment is for a configured tier, under one of three decisions. -/
theorem known_of_increment (h : load f trust = .ok g.resolver) {traffic : List Traffic}
    {l : Labels} (hl : l ∈ traffic.flatMap g.increments) :
    l.tier ∈ f.tiers.map Prod.fst ∧ l.decision ∈ ["allowed", "throttled", "degraded"] := by
  obtain ⟨t, -, hl⟩ := List.mem_flatMap.mp hl
  cases t with
  | proxied req outcome =>
    rw [increments_proxied, List.mem_singleton] at hl
    subst hl
    refine ⟨resolve_tier h req, ?_⟩
    -- the middleware labels a request allowed, throttled or degraded
    show label (Outcome.decision outcome) ∈ _
    cases Outcome.decision outcome with
    | none => simp [label]
    | some d => cases hAllowed : d.allowed <;> simp [label, hAllowed]
  | simulate body answers =>
    obtain ⟨⟨name, tier, hTier, hName⟩, d, hDecision⟩ := known_of_recorded hl
    obtain ⟨rfl, hKnown⟩ := tier_of_loaded (loaded_of_load h) hTier
    refine ⟨hName ▸ hKnown, ?_⟩
    rw [hDecision]
    cases hAllowed : d.allowed <;> simp [outcome, hAllowed]

end Traffic

/-- The increments of all tiers, under one decision. -/
theorem sum_tiers {f : FileFormat} {trust : Bool} {r : Resolver} (h : load f trust = .ok r)
    {incs : List Labels} (hKnown : ∀ l ∈ incs, l.tier ∈ f.tiers.map Prod.fst) (d : String) :
    ((tiersByName r).map fun t =>
      incs.countP fun l => l.decision == d && l.tier == t.name).sum =
        incs.countP fun l => l.decision == d := by
  have hPerm := perm_names h
  rw [← sum_countP_by_key Labels.tier (fun l => l.decision == d)
    (hPerm.nodup_iff.mpr f.tiers_nodup) fun l hl => hPerm.mem_iff.mpr (hKnown l hl),
    List.map_map]
  rfl

/--
**The counters balance.** For every configuration that `Load` accepts and every
run of proxied requests and simulator bursts, whatever the limiter answers them
and in whatever order their increments take place: what /api/stats reports as
allowed, throttled and degraded adds up to the proxied requests that were
handled and the simulated limiter calls that returned a decision; the figures
of the tiers add up to the totals, and every configured tier is listed once, in
the order of the names; and every burst is accounted for (`SimulateAccounted`).
-/
theorem counters_balance {f : FileFormat} {trust : Bool} {g : Gateway}
    (hLoad : load f trust = .ok g.resolver) (range : List Bound → List Bound)
    (traffic : List Traffic) {incs : List Labels}
    (hOrder : incs.Perm (traffic.flatMap g.increments)) {families : List MetricFamily}
    (hGathers : Gathers incs families) :
    let stats := handleStats g.resolver range families
    stats.allowed + stats.throttled + stats.degraded = handled traffic + g.simulated traffic ∧
    (stats.tiers.map (·.allowed)).sum = stats.allowed ∧
    (stats.tiers.map (·.throttled)).sum = stats.throttled ∧
    (stats.tiers.map (·.name)).Perm (f.tiers.map Prod.fst) ∧
    (stats.tiers.map (·.name)).Pairwise (· < ·) ∧
    ∀ body answers, SimulateAccounted g.handler body answers
      (handleSimulate g.handler body answers).1 (handleSimulate g.handler body answers).2 := by
  intro stats
  have hLoaded := loaded_of_load hLoad
  have hKnown : ∀ l ∈ incs, l.tier ∈ f.tiers.map Prod.fst ∧
      l.decision ∈ ["allowed", "throttled", "degraded"] :=
    fun l hl => known_of_increment hLoad (hOrder.mem_iff.mp hl)
  -- the series of a decision add up to its increments
  have hTotal : ∀ d, total (decisionIs d) (decisionMetrics families) =
      incs.countP fun l => l.decision == d := by
    intro d
    refine total_of_gathers hGathers fun l m hReport => ?_
    rw [decisionIs, (labelMap_of_reports hReport).2]
    rfl
  have hTier : ∀ name d, total (tierIs name d) (decisionMetrics families) =
      incs.countP fun l => l.decision == d && l.tier == name := by
    intro name d
    refine total_of_gathers hGathers fun l m hReport => ?_
    rw [tierIs, decisionIs, (labelMap_of_reports hReport).1, (labelMap_of_reports hReport).2]
    rfl
  obtain ⟨hAllowed, hThrottled, hDegraded, hTiers⟩ := handleStats_eq g.resolver range families
    ((perm_names hLoad).nodup_iff.mpr f.tiers_nodup)
  refine ⟨?_, ?_, ?_, ?_, ?_, ?_⟩
  · -- every increment bears one of the three decisions
    have hDistinct : ["allowed", "throttled", "degraded"].Nodup := by decide
    have hSplit := sum_countP_by_key Labels.decision (fun _ => true) hDistinct
      fun l hl => (hKnown l hl).2
    rw [hAllowed, hThrottled, hDegraded, hTotal, hTotal, hTotal,
      ← length_increments hLoaded, ← hOrder.length_eq]
    simpa [Nat.add_assoc] using hSplit
  · -- every increment bears the name of a tier, and each tier has one row
    rw [hTiers, hAllowed, hTotal, ← sum_tiers hLoad (fun l hl => (hKnown l hl).1), List.map_map]
    refine congrArg List.sum (List.map_congr_left fun t _ => ?_)
    exact (Nat.zero_add _).trans (hTier t.name "allowed")
  · rw [hTiers, hThrottled, hTotal, ← sum_tiers hLoad (fun l hl => (hKnown l hl).1), List.map_map]
    refine congrArg List.sum (List.map_congr_left fun t _ => ?_)
    exact (Nat.zero_add _).trans (hTier t.name "throttled")
  · rw [hTiers, List.map_map]
    exact perm_names hLoad
  · rw [hTiers, List.map_map]
    exact sorted_names hLoad
  · exact simulate_accounted fun name tier hName => (tier_of_loaded hLoaded hName).1

/-- A request that the breaker refused, and a burst whose second call fails. -/
theorem counters_balance_demo :
    let families : List MetricFamily := [⟨"gateway_rate_limit_decisions_total",
      [⟨⟨none⟩, [("algorithm", "token_bucket"), ("decision", "allowed"),
          ("source", "simulator"), ("tier", "free")], 1⟩,
        ⟨⟨none⟩, [("algorithm", "token_bucket"), ("decision", "degraded"),
          ("source", "proxy"), ("tier", "free")], 1⟩]⟩]
    ∃ r, load (oneKey "acme") false = .ok r ∧
      let stats := handleStats r id families
      stats.allowed + stats.throttled + stats.degraded = 2 ∧
        (stats.tiers.map (·.allowed)).sum = stats.allowed := by
  intro families
  let free : Tier := ⟨"free", 10, 1000000000, 10⟩
  let g : Gateway := ⟨⟨[("key-abc", ⟨⟨"acme", free⟩, true⟩)], [("free", free)], free, false⟩,
    ⟨.tokenBucket, true⟩⟩
  have hLoad : load (oneKey "acme") false = .ok g.resolver := rfl
  -- a request let through without a decision, and a burst whose second call fails
  let traffic : List Traffic := [.proxied ⟨fun _ => "", "203.0.113.7:51234"⟩ none,
    .simulate (some ⟨"free", 2⟩) fun i =>
      if i = 0 then .ok ⟨true, 10, 9, 0, 0⟩ else .error .contextDone]
  let incs : List Labels := [⟨"free", "token_bucket", "allowed", "simulator"⟩,
    ⟨"free", "token_bucket", "degraded", "proxy"⟩]
  have hOrder : incs.Perm (traffic.flatMap g.increments) := by decide +kernel
  have hGathers : Gathers incs families := ⟨incs, by decide, fun l hl => hl,
    .cons ⟨by decide, by decide⟩ (.cons ⟨by decide, by decide⟩ .nil)⟩
  have hBalance := counters_balance hLoad id traffic hOrder hGathers
  exact ⟨_, hLoad, hBalance.1.trans (by decide +kernel), hBalance.2.1⟩

end RatelimitGateway.Dashboard
