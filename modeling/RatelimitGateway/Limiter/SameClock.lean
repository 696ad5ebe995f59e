import RatelimitGateway.Limiter.FixedWindow
import RatelimitGateway.Limiter.SlidingWindow
import RatelimitGateway.Limiter.TokenBucket

/-!
# Redis on the gateways' clock

Redis expires keys as the scripts ask, on the clock that the gateways read,
and a script runs at the time its call is stamped (`OnTime`). What each
algorithm keeps under its keys between the calls of a run with in-order
stamps:

* `KeptBucket`   — the key holds a bucket, if anything;
* `KeptLog`      — it holds at most `limit` entries, none from the future;
* `KeptCounters` — no window after the last stamp has a counter, and every
  counter lives to the end of its window;

and all three as one (`Kept`), for whichever algorithm `Allow` runs.
-/

namespace RatelimitGateway.Limiter

open KeyStore Redis

/-- The script runs at the time the call is stamped. -/
def OnTime (c : Call) : Prop := c.execAt = c.nowMs

-- ---------------------------------------------------------------------------
-- sliding_window.lua
-- ---------------------------------------------------------------------------

def KeptLog (key : String) (limit t : ℤ) (s : Store) : Prop :=
  ∀ x, s key = some x → ∃ z, x.value = .zset z ∧ (z.card : ℤ) ≤ limit ∧ ∀ e ∈ z.entries, e.1 ≤ t

/-- The key can be used as a log. -/
theorem KeptLog.holdsZset {key : String} {limit t : ℤ} {s : Store} (h : KeptLog key limit t s)
    (c : Clock) : HoldsZset c s key := by
  intro v hv
  obtain ⟨x, hx, rfl⟩ := exists_entry hv
  obtain ⟨z, hz, -⟩ := h x hx
  exact ⟨z, hz⟩

/-- The log a call finds keeps what `KeptLog` says, whether or not it has run
out. -/
theorem KeptLog.found {key : String} {limit t : ℤ} {s : Store} (hKept : KeptLog key limit t s)
    (hLimit : 0 ≤ limit) (c : Call) :
    ((foundLog .honoured key s c).card : ℤ) ≤ limit ∧
      ∀ e ∈ (foundLog .honoured key s c).entries, e.1 ≤ t := by
  cases hFind : find ⟨.honoured, c.execAt⟩ s key with
  | none =>
    rw [foundLog_of_gone hFind]
    exact ⟨hLimit, fun e he => absurd he SortedSet.not_mem_empty⟩
  | some x =>
    obtain ⟨v, d⟩ := x
    obtain ⟨z, rfl, hCard, hScores⟩ := hKept _ (find_eq_some_iff.mp hFind).1
    rw [foundLog_of_find hFind]
    exact ⟨hCard, hScores⟩

/-- The log a call leaves keeps it too. -/
theorem card_logAfter_le {nowMs windowMs limit : ℤ} {member : String} {log : SortedSet ℤ String}
    (hCard : (log.card : ℤ) ≤ limit) :
    ((logAfter nowMs windowMs limit member log).card : ℤ) ≤ limit := by
  have hPruned := SortedSet.card_removeUpTo_le (nowMs - windowMs) log
  unfold logAfter
  dsimp only
  split
  · have hAdded := SortedSet.card_add_le nowMs member (log.removeUpTo (nowMs - windowMs))
    omega
  · omega

/-- A call leaves such a log. -/
theorem keptLog_update {key : String} {windowMs limit t : ℤ} {s : Store} {c : Call} {k : Clock}
    {log : SortedSet ℤ String} (hCard : (log.card : ℤ) ≤ limit)
    (hScores : ∀ e ∈ log.entries, e.1 ≤ t) (hLate : t ≤ c.nowMs) :
    KeptLog key limit c.nowMs (Function.update s key
      (logEntry k windowMs (logAfter c.nowMs windowMs limit c.member log))) := by
  intro x hx
  obtain rfl := entry_of_logUpdate hx
  refine ⟨_, rfl, card_logAfter_le hCard, fun e he => ?_⟩
  rcases mem_logAfter he with rfl | ⟨hMem, -⟩
  · exact le_rfl
  · exact (hScores e hMem).trans hLate

-- ---------------------------------------------------------------------------
-- fixed_window.lua
-- ---------------------------------------------------------------------------

def KeptCounters (keyPrefix : String) (windowMs t : ℤ) (s : Store) : Prop :=
  ∀ (k : ℤ) (x : Entry Value), s (windowKey keyPrefix (.whole k)) = some x → k * windowMs ≤ t ∧
    ∃ n D : ℤ, x = ⟨.counter n, some D⟩ ∧ 1 ≤ n ∧ (k + 1) * windowMs ≤ D

/-- The window of a stamp. -/
theorem windowIndex_eq_iff {windowMs : ℤ} (hWindow : 1 ≤ windowMs) {nowMs k : ℤ} :
    windowIndex nowMs windowMs = .whole k ↔
      k * windowMs ≤ nowMs ∧ nowMs < (k + 1) * windowMs := by
  have hPos : (0 : ℚ) < windowMs := by exact_mod_cast hWindow
  rw [windowIndex_whole hWindow, WindowIndex.whole.injEq, Int.floor_eq_iff, le_div_iff₀ hPos,
    div_lt_iff₀ hPos]
  norm_cast

/-- How far the end of the window is. -/
theorem resetAfterMs_eq {windowMs nowMs k : ℤ} (hWindow : 1 ≤ windowMs)
    (hIndex : windowIndex nowMs windowMs = .whole k) :
    (windowIndex nowMs windowMs).resetAfterMs nowMs windowMs = (k + 1) * windowMs - nowMs := by
  have hEnd := ((windowIndex_eq_iff hWindow).mp hIndex).2
  rw [hIndex]
  exact max_eq_right (by omega)

/-- The key of a window can be used as a counter. -/
theorem KeptCounters.holdsCounter {keyPrefix : String} {windowMs t : ℤ} {s : Store}
    (h : KeptCounters keyPrefix windowMs t s) (c : Clock) (k : ℤ) :
    HoldsCounter c s (windowKey keyPrefix (.whole k)) := by
  intro v hv
  obtain ⟨x, hx, rfl⟩ := exists_entry hv
  obtain ⟨-, n, D, rfl, -, -⟩ := h k x hx
  exact ⟨n, rfl⟩

/-- What a call does to the counter of its window. -/
theorem serve_counter {e : Expiry} {keyPrefix : String} {windowMs limit : ℤ} {s : Store}
    {c : Call} {k : ℤ} (hType : HoldsCounter ⟨e, c.execAt⟩ s (windowKey keyPrefix (.whole k)))
    (hIndex : windowIndex c.nowMs windowMs = .whole k) :
    serve e (fixedWindowCall keyPrefix windowMs limit) s c =
      (.ok (fixedReply c.nowMs windowMs limit
          (counterAt ⟨e, c.execAt⟩ s (windowKey keyPrefix (.whole k)) + 1)),
        Function.update s (windowKey keyPrefix (.whole k)) (some
          (counterEntry ⟨e, c.execAt⟩ s (windowKey keyPrefix (.whole k)) windowMs))) :=
  exec_fixedWindow limit (congrArg (windowKey keyPrefix) hIndex) hType

/-- A call leaves such counters. -/
theorem keptCounters_update {keyPrefix : String} {windowMs t : ℤ} (hWindow : 1 ≤ windowMs)
    {s : Store} {c : Call} {k : ℤ} (hKept : KeptCounters keyPrefix windowMs t s)
    (hLate : t ≤ c.nowMs) (hOnTime : OnTime c)
    (hIndex : windowIndex c.nowMs windowMs = .whole k) :
    KeptCounters keyPrefix windowMs c.nowMs (Function.update s (windowKey keyPrefix (.whole k))
      (some (counterEntry ⟨.honoured, c.execAt⟩ s (windowKey keyPrefix (.whole k)) windowMs))) := by
  obtain ⟨hLow, hHigh⟩ := (windowIndex_eq_iff hWindow).mp hIndex
  intro j x hx
  by_cases hjk : j = k
  · subst hjk
    rw [Function.update_self] at hx
    obtain rfl := Option.some.inj hx
    refine ⟨hLow, ?_⟩
    cases hFind : find ⟨.honoured, c.execAt⟩ s (windowKey keyPrefix (.whole j)) with
    | none =>
      -- the counter is new, and its window is not over yet
      refine ⟨1, c.execAt + windowMs, (counterEntry_of_gone windowMs hFind).2, le_rfl, ?_⟩
      rw [hOnTime, add_mul, one_mul]
      omega
    | some y =>
      -- the counter found keeps its deadline
      obtain ⟨-, n, D, rfl, hCount, hEnd⟩ := hKept j y (find_eq_some_iff.mp hFind).1
      exact ⟨n + 1, D, (counterEntry_of_found windowMs hCount hFind).2, by omega, hEnd⟩
  · rw [update_windowKey_of_ne hjk] at hx
    obtain ⟨hBefore, hRest⟩ := hKept j x hx
    exact ⟨hBefore.trans hLate, hRest⟩

-- ---------------------------------------------------------------------------
-- Whichever algorithm `Allow` runs
-- ---------------------------------------------------------------------------

/-- A quota with a limit, and a window of a whole number of milliseconds. -/
structure WholeQuota (q : Quota) : Prop where
  limit  : 1 ≤ q.limit
  window : 1 ≤ q.windowMs
  whole  : q.window = q.windowMs * 1000000

/-- A quota with a limit, and a window of at least one millisecond. -/
structure ValidQuota (q : Quota) : Prop where
  limit  : 1 ≤ q.limit
  window : 1 ≤ q.windowMs

theorem WholeQuota.valid {q : Quota} (hq : WholeQuota q) : ValidQuota q := ⟨hq.limit, hq.window⟩

theorem ValidQuota.window_pos {q : Quota} (hq : ValidQuota q) : 0 < q.window := by
  by_contra hNone
  have hTrunc : q.windowMs ≤ (0 : ℤ).tdiv 1000000 :=
    Int.tdiv_le_tdiv (by decide) (not_lt.mp hNone)
  exact absurd (hq.window.trans hTrunc) (by decide)

/-- The bucket of a quota refills. -/
theorem ValidQuota.rate_pos {q : Quota} (hq : ValidQuota q) : 0 < q.ratePerSecond := by
  have hLimit : (0 : ℚ) < q.limit := by exact_mod_cast hq.limit
  have hWindow : (0 : ℚ) < q.window := by exact_mod_cast hq.window_pos
  unfold Quota.ratePerSecond
  rw [if_neg (not_le.mpr hq.window_pos)]
  positivity

theorem ValidQuota.burst_pos {q : Quota} (hq : ValidQuota q) : 1 ≤ q.burstCapacity := by
  unfold Quota.burstCapacity
  split
  · omega
  · exact hq.limit

theorem ValidQuota.appliedLimit_pos {q : Quota} (hq : ValidQuota q) (l : RedisLimiter) :
    1 ≤ l.appliedLimit q := by
  unfold RedisLimiter.appliedLimit
  split
  · exact hq.burst_pos
  · exact hq.limit

/-- The script of a call of `Allow`. -/
def RedisLimiter.script (l : RedisLimiter) (key : String) (q : Quota) (c : Call) : Script Reply :=
  l.run key q c.nowMs c.member

/-- No call was ever made on the key. -/
structure Unused (l : RedisLimiter) (key : String) (s : Store) : Prop where
  entry    : s (l.redisKey key) = none
  counters : NoCounters s (l.redisKey key)

/-- What the algorithm keeps under the key between calls, up to the stamp
`t`. -/
def Kept (l : RedisLimiter) (key : String) (q : Quota) (t : ℤ) (s : Store) : Prop :=
  match l.alg with
  | .tokenBucket => KeptBucket (l.redisKey key) s
  | .slidingWindow => KeptLog (l.redisKey key) q.limit t s
  | .fixedWindow => KeptCounters (l.redisKey key) q.windowMs t s

section ByAlgorithm

variable {l : RedisLimiter} {key : String} {q : Quota} {t : ℤ} {s : Store}

theorem script_tokenBucket (hAlg : l.alg = .tokenBucket) : l.script key q =
    tokenBucketCall (l.redisKey key) q.ratePerSecond q.burstCapacity := by
  funext c
  simp only [RedisLimiter.script, RedisLimiter.run, hAlg, tokenBucketCall]

theorem script_slidingWindow (hAlg : l.alg = .slidingWindow) : l.script key q =
    slidingWindowCall (l.redisKey key) q.windowMs q.limit := by
  funext c
  simp only [RedisLimiter.script, RedisLimiter.run, hAlg, slidingWindowCall]

theorem script_fixedWindow (hAlg : l.alg = .fixedWindow) : l.script key q =
    fixedWindowCall (l.redisKey key) q.windowMs q.limit := by
  funext c
  simp only [RedisLimiter.script, RedisLimiter.run, hAlg, fixedWindowCall]

theorem kept_tokenBucket (hAlg : l.alg = .tokenBucket) :
    Kept l key q t s ↔ KeptBucket (l.redisKey key) s := by
  simp only [Kept, hAlg]

theorem kept_slidingWindow (hAlg : l.alg = .slidingWindow) :
    Kept l key q t s ↔ KeptLog (l.redisKey key) q.limit t s := by
  simp only [Kept, hAlg]

theorem kept_fixedWindow (hAlg : l.alg = .fixedWindow) :
    Kept l key q t s ↔ KeptCounters (l.redisKey key) q.windowMs t s := by
  simp only [Kept, hAlg]

end ByAlgorithm

/-- What is kept up to a stamp is kept up to a later one. -/
theorem Kept.mono {l : RedisLimiter} {key : String} {q : Quota} {t t' : ℤ} {s : Store}
    (h : Kept l key q t s) (ht : t ≤ t') : Kept l key q t' s := by
  unfold Kept at h ⊢
  split at h
  · exact h
  · intro x hx
    obtain ⟨z, hz, hCard, hScores⟩ := h x hx
    exact ⟨z, hz, hCard, fun e he => (hScores e he).trans ht⟩
  · intro k x hx
    obtain ⟨hBefore, hRest⟩ := h k x hx
    exact ⟨hBefore.trans ht, hRest⟩

/-- On an unused key there is nothing to keep. -/
theorem kept_of_unused {l : RedisLimiter} {key : String} {s : Store} (h : Unused l key s)
    (q : Quota) (t : ℤ) : Kept l key q t s := by
  unfold Kept
  split
  · intro x hx
    exact absurd (h.entry.symm.trans hx) nofun
  · intro x hx
    exact absurd (h.entry.symm.trans hx) nofun
  · intro k x hx
    exact absurd ((h.counters k).symm.trans hx) nofun

/-- Every call is answered, and keeps what the algorithm keeps. -/
theorem kept_step {l : RedisLimiter} {key : String} {q : Quota} (hq : ValidQuota q) {t : ℤ}
    {s : Store} (hKept : Kept l key q t s) {c : Call} (hLate : t ≤ c.nowMs) (hOnTime : OnTime c) :
    (∃ r, (serve .honoured (l.script key q) s c).1 = .ok r) ∧
      Kept l key q c.nowMs (serve .honoured (l.script key q) s c).2 := by
  cases hAlg : l.alg with
  | tokenBucket =>
    rw [kept_tokenBucket hAlg] at hKept ⊢
    rw [script_tokenBucket hAlg, serve_bucket (hKept.holdsHash _)]
    exact ⟨⟨_, rfl⟩, keptBucket_update⟩
  | slidingWindow =>
    rw [kept_slidingWindow hAlg] at hKept ⊢
    rw [script_slidingWindow hAlg, serve_log (hKept.holdsZset _)]
    obtain ⟨hCard, hScores⟩ := hKept.found (zero_le_one.trans hq.limit) c
    exact ⟨⟨_, rfl⟩, keptLog_update hCard hScores hLate⟩
  | fixedWindow =>
    rw [kept_fixedWindow hAlg] at hKept ⊢
    have hIndex := windowIndex_whole hq.window c.nowMs
    rw [script_fixedWindow hAlg, serve_counter (hKept.holdsCounter _ _) hIndex]
    exact ⟨⟨_, rfl⟩, keptCounters_update hq.window hKept hLate hOnTime hIndex⟩

/-- A run with in-order stamps keeps what every call keeps up to its stamp. -/
theorem run_onTime {script : Call → Script Reply} {P : ℤ → Store → Prop} {s : Store}
    (hInit : ∀ t, P t s) (hMono : ∀ t t' s, P t s → t ≤ t' → P t' s)
    (hStep : ∀ t s c, P t s → t ≤ c.nowMs → OnTime c → P c.nowMs (serve .honoured script s c).2)
    {calls : List Call} (hOrder : InOrder calls) (hOnTime : ∀ c ∈ calls, OnTime c) {t : ℤ}
    (hLate : ∀ c ∈ calls, c.nowMs ≤ t) : P t (keyspace .honoured script s calls) := by
  have hInv : ∀ t, (∀ x ∈ transcript .honoured script s calls, x.1.nowMs ≤ t) →
      P t (keyspace .honoured script s calls) := by
    refine Machine.trace_invariant_of_prefix
      (C := fun pre i => (∀ j ∈ pre, j.nowMs ≤ i.nowMs) ∧ OnTime i)
      (P := fun tr s => ∀ t, (∀ x ∈ tr, x.1.nowMs ≤ t) → P t s) (fun t _ => hInit t) ?_ ?_
    · -- the step at the stamp of the call, which bounds all the earlier ones
      rintro tr s c ⟨hEarlier, hNow⟩ hKept t ht
      have hBefore := hKept c.nowMs fun x hx => hEarlier x.1 (List.mem_map_of_mem hx)
      refine hMono _ _ _ (hStep _ _ _ hBefore le_rfl hNow) ?_
      exact ht _ (List.mem_append_right _ (List.mem_singleton_self _))
    · rintro pre c post rfl
      have hPair := List.pairwise_append.mp hOrder
      exact ⟨fun j hj => hPair.2.2 j hj c List.mem_cons_self,
        hOnTime c (List.mem_append_right _ List.mem_cons_self)⟩
  exact hInv t fun x hx => hLate x.1 (Machine.fst_mem_of_mem_trace _ _ hx)

/-- What the last call of such a run finds. -/
theorem before_onTime {script : Call → Script Reply} {P : ℤ → Store → Prop} {s : Store}
    (hInit : ∀ t, P t s) (hMono : ∀ t t' s, P t s → t ≤ t' → P t' s)
    (hStep : ∀ t s c, P t s → t ≤ c.nowMs → OnTime c → P c.nowMs (serve .honoured script s c).2)
    {calls : List Call} {c : Call} (hOrder : InOrder (calls ++ [c]))
    (hOnTime : ∀ a ∈ calls ++ [c], OnTime a) :
    P c.nowMs (keyspace .honoured script s calls) ∧ OnTime c := by
  have hPair := List.pairwise_append.mp hOrder
  refine ⟨run_onTime hInit hMono hStep hPair.1 (fun a ha => ?_) fun a ha => ?_, ?_⟩
  · exact hOnTime a (List.mem_append_left _ ha)
  · exact hPair.2.2 a ha c (List.mem_singleton_self c)
  · exact hOnTime c (List.mem_append_right _ (List.mem_singleton_self c))

/-- A run with in-order stamps on an unused key. -/
theorem kept_before {l : RedisLimiter} {key : String} {q : Quota} (hq : ValidQuota q) {s : Store}
    (hUnused : Unused l key s) {calls : List Call} {c : Call} (hOrder : InOrder (calls ++ [c]))
    (hOnTime : ∀ a ∈ calls ++ [c], OnTime a) :
    Kept l key q c.nowMs (keyspace .honoured (l.script key q) s calls) ∧ OnTime c :=
  before_onTime (kept_of_unused hUnused q) (fun _ _ _ hKept => hKept.mono)
    (fun _ _ _ hKept hAfter hNow => (kept_step hq hKept hAfter hNow).2) hOrder hOnTime

end RatelimitGateway.Limiter
