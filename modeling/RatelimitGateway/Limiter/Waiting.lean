import RatelimitGateway.Limiter.Conversion
import RatelimitGateway.Limiter.RetryAfter

/-!
# Waiting after a refusal

When a refused client may call again, for every quota that `Allow` accepts. The
time is read off the key as the call finds it (`waitMs`): the missing part of a
token has to flow in, the oldest entry has to age out, or the window has to
end. A single call after it is admitted and a single call before it is refused.

Windows of less than a millisecond are whole windows to the bucket, which knows
a quota by its rate, and never refuse anything under the other two algorithms.

* `reopensAfter_wait` — a refusal lasts exactly as long as its hint says.
-/

namespace RatelimitGateway.Limiter

open KeyStore Redis

/-- How long the key needs before it admits again, from what the call finds. -/
def RedisLimiter.waitMs (l : RedisLimiter) (key : String) (q : Quota) (s : Store) (c : Call) : ℤ :=
  match l.alg with
  | .tokenBucket =>
    ⌈(1 - found .honoured (l.redisKey key) q.ratePerSecond q.burstCapacity s c) /
      q.ratePerSecond * 1000⌉
  | .slidingWindow =>
    slidingReset c.nowMs q.windowMs
      ((foundLog .honoured (l.redisKey key) s c).removeUpTo (c.nowMs - q.windowMs))
  | .fixedWindow => (windowIndex c.nowMs q.windowMs).resetAfterMs c.nowMs q.windowMs

/-- The call is refused with the hint `wait`, and the next call is admitted if
and only if it comes so much later. -/
def ReopensAfter (script : Call → Script Reply) (s : Store) (c : Call) (wait : ℤ) : Prop :=
  ∃ r, (serve .honoured script s c).1 = .ok r ∧ r.allowed = 0 ∧ r.retryAfterMs = wait ∧
    ∀ c', OnTime c' → c.nowMs ≤ c'.nowMs →
      (admitted (c', (serve .honoured script (serve .honoured script s c).2 c').1) = true ↔
        c.nowMs + wait ≤ c'.nowMs)

/-- No key of any algorithm was ever written for the caller. -/
structure NeverUsed (l : RedisLimiter) (key : String) (s : Store) : Prop where
  entry    : s (l.redisKey key) = none
  counters : ∀ i, s (windowKey (l.redisKey key) i) = none

theorem NeverUsed.unused {l : RedisLimiter} {key : String} {s : Store} (h : NeverUsed l key s) :
    Unused l key s := ⟨h.entry, fun k => h.counters (.whole k)⟩

-- ---------------------------------------------------------------------------
-- Windows of a millisecond or more
-- ---------------------------------------------------------------------------

/-- A call after the window is admitted, not only the first. -/
theorem BlockedCounter.released {keyPrefix : String} {windowMs limit t E : ℤ} {s : Store}
    {c : Call} (hWindow : 1 ≤ windowMs) (hLimit : 1 ≤ limit)
    (hKept : KeptCounters keyPrefix windowMs t s)
    (hBlocked : BlockedCounter keyPrefix windowMs limit E t s) (hAhead : t < E)
    (hLate : E ≤ c.nowMs) :
    admitted (c, (serve .honoured (fixedWindowCall keyPrefix windowMs limit) s c).1) = true := by
  obtain ⟨k, -, -, -, -, -, rfl, -, -, -⟩ := hBlocked
  obtain ⟨j, hIndex⟩ : ∃ j, windowIndex c.nowMs windowMs = .whole j :=
    ⟨_, windowIndex_whole hWindow c.nowMs⟩
  obtain ⟨-, hEnd⟩ := (windowIndex_eq_iff hWindow).mp hIndex
  -- the call is in a later window, which no call has reached yet
  have hLater : k + 1 ≤ j := by
    have := lt_of_mul_lt_mul_right (hLate.trans_lt hEnd) (by omega)
    omega
  have hUnused : s (windowKey keyPrefix (.whole j)) = none := by
    cases hEntry : s (windowKey keyPrefix (.whole j)) with
    | none => rfl
    | some x =>
      have hReached := (hKept j x hEntry).1
      have := mul_le_mul_of_nonneg_right hLater (zero_le_one.trans hWindow)
      omega
  rw [serve_counter (hKept.holdsCounter _ _) hIndex, admitted_fixedReply,
    (counterEntry_of_gone windowMs (find_eq_none_of_absent hUnused)).1, decide_eq_true_eq]
  omega

section ByAlgorithm

variable {l : RedisLimiter} {key : String} {q : Quota} {t E : ℤ} {s : Store} {c : Call}

/-- The hint of a refusal is the wait. -/
theorem retryAfterMs_of_refused (hq : ValidQuota q) (hKept : Kept l key q t s) {r : Reply}
    (hReply : (serve .honoured (l.script key q) s c).1 = .ok r) (hRefused : r.allowed = 0) :
    r.retryAfterMs = l.waitMs key q s c := by
  unfold RedisLimiter.waitMs
  cases hAlg : l.alg with
  | tokenBucket =>
    rw [kept_tokenBucket hAlg] at hKept
    rw [script_tokenBucket hAlg, serve_bucket (hKept.holdsHash _)] at hReply
    obtain rfl := Except.ok.inj hReply
    exact if_pos ⟨bucketReply_refused.mp hRefused, hq.rate_pos⟩
  | slidingWindow =>
    rw [kept_slidingWindow hAlg] at hKept
    rw [script_slidingWindow hAlg, serve_log (hKept.holdsZset _)] at hReply
    obtain rfl := Except.ok.inj hReply
    generalize foundLog .honoured (l.redisKey key) s c = log at hRefused ⊢
    have hFull := slidingReply_refused.mp hRefused
    simp only [slidingReply, hFull, if_false, logAfter]
  | fixedWindow =>
    rw [kept_fixedWindow hAlg] at hKept
    have hIndex := windowIndex_whole hq.window c.nowMs
    rw [script_fixedWindow hAlg, serve_counter (hKept.holdsCounter _ _) hIndex] at hReply
    obtain rfl := Except.ok.inj hReply
    exact if_pos (fixedReply_refused.mp hRefused)

/-- A call that is not admitted is refused. -/
theorem refused_of_not_admitted (hq : ValidQuota q) (hKept : Kept l key q t s)
    (hNot : admitted (c, (serve .honoured (l.script key q) s c).1) = false) :
    ∃ r, (serve .honoured (l.script key q) s c).1 = .ok r ∧ r.allowed = 0 := by
  -- no script answers with an error here, so a call not admitted is refused
  cases hAlg : l.alg with
  | tokenBucket =>
    rw [kept_tokenBucket hAlg] at hKept
    rw [script_tokenBucket hAlg, serve_bucket (hKept.holdsHash _)] at hNot ⊢
    rw [admitted_bucketReply, decide_eq_false_iff_not] at hNot
    exact ⟨_, rfl, bucketReply_refused.mpr (not_le.mp hNot)⟩
  | slidingWindow =>
    rw [kept_slidingWindow hAlg] at hKept
    rw [script_slidingWindow hAlg, serve_log (hKept.holdsZset _)] at hNot ⊢
    rw [admitted_slidingReply, decide_eq_false_iff_not] at hNot
    exact ⟨_, rfl, slidingReply_refused.mpr hNot⟩
  | fixedWindow =>
    rw [kept_fixedWindow hAlg] at hKept
    have hIndex := windowIndex_whole hq.window c.nowMs
    rw [script_fixedWindow hAlg, serve_counter (hKept.holdsCounter _ _) hIndex] at hNot ⊢
    rw [admitted_fixedReply, decide_eq_false_iff_not] at hNot
    exact ⟨_, rfl, fixedReply_refused.mpr (not_le.mp hNot)⟩

/-- A blocked key admits every call from the time on, not only one at the time:
what the key holds has expired or has aged by then. -/
theorem blocked_released (hq : ValidQuota q) (hKept : Kept l key q t s)
    (hBlocked : Blocked l key q E t s) (hAhead : t < E) (hLate : E ≤ c.nowMs) :
    admitted (c, (serve .honoured (l.script key q) s c).1) = true := by
  unfold Blocked at hBlocked
  cases hAlg : l.alg with
  | tokenBucket =>
    simp only [hAlg] at hBlocked
    rw [script_tokenBucket hAlg]
    exact hBlocked.released hq.rate_pos hq.burst_pos (hAhead.le.trans hLate) hLate
  | slidingWindow =>
    simp only [hAlg] at hBlocked
    rw [script_slidingWindow hAlg]
    exact hBlocked.released hq.limit hLate
  | fixedWindow =>
    simp only [hAlg] at hBlocked
    rw [kept_fixedWindow hAlg] at hKept
    rw [script_fixedWindow hAlg]
    exact hBlocked.released hq.window hq.limit hKept hAhead hLate

/-- A refusal lasts as long as it says, on any key that in-order calls lead to. -/
theorem reopensAfter_of_kept (hq : ValidQuota q) (hKept : Kept l key q c.nowMs s)
    (hOnTime : OnTime c) (hNot : admitted (c, (serve .honoured (l.script key q) s c).1) = false) :
    ReopensAfter (l.script key q) s c (l.waitMs key q s c) := by
  obtain ⟨r, hReply, hRefused⟩ := refused_of_not_admitted hq hKept hNot
  obtain ⟨hPositive, hBlocked⟩ := blocked_of_refused hq hKept le_rfl hOnTime hReply hRefused
  have hAfter := (kept_step hq hKept le_rfl hOnTime).2
  have hHint := retryAfterMs_of_refused hq hKept hReply hRefused
  rw [hHint] at hBlocked hPositive
  refine ⟨r, hReply, hRefused, hHint,
    fun c' hOnTime' hLate => ⟨fun hAdmitted => ?_, fun hOver => ?_⟩⟩
  · by_contra hEarly
    obtain ⟨⟨r', hReply', hRefused'⟩, -⟩ :=
      blocked_poll hq hBlocked hLate (not_le.mp hEarly) hOnTime'
    simp [admitted, hReply', hRefused'] at hAdmitted
  · exact blocked_released hq hAfter hBlocked (by omega) hOver

end ByAlgorithm

-- ---------------------------------------------------------------------------
-- Windows of less than a millisecond
-- ---------------------------------------------------------------------------

/-- The same rate and the same burst, over a longer window. -/
def Quota.scaled (q : Quota) : Quota := ⟨q.limit * 1000000, q.window * 1000000, q.burstCapacity⟩

section ShortWindow

variable {l : RedisLimiter} {key : String} {q : Quota} {s : Store} {calls : List Call} {c : Call}

/-- The longer window is at least a millisecond. -/
theorem scaled_valid (hLimit : 0 < q.limit) (hWindow : 0 < q.window) : ValidQuota q.scaled := by
  have hMs : q.scaled.windowMs = q.window := Int.mul_tdiv_cancel _ (by decide)
  refine ⟨?_, ?_⟩
  · show 1 ≤ q.limit * 1000000
    omega
  · omega

/-- It has the same rate. -/
theorem scaled_ratePerSecond (hWindow : 0 < q.window) :
    q.scaled.ratePerSecond = q.ratePerSecond := by
  have hPos : (0 : ℚ) < q.window := by exact_mod_cast hWindow
  have hLong : ¬ q.scaled.window ≤ 0 := not_le.mpr (mul_pos hWindow (by decide))
  rw [Quota.ratePerSecond, if_neg hLong, Quota.ratePerSecond, if_neg (not_le.mpr hWindow)]
  unfold Quota.scaled
  push_cast
  field_simp

/-- And the same burst. -/
theorem scaled_burstCapacity (hLimit : 0 < q.limit) :
    q.scaled.burstCapacity = q.burstCapacity := by
  have hPos : 0 < q.burstCapacity := by
    unfold Quota.burstCapacity
    split <;> assumption
  exact if_pos hPos

/-- The log of a window that passes at once is always pruned to nothing. -/
theorem shortSlidingWindow_admits (hAlg : l.alg = .slidingWindow) (hLimit : 0 < q.limit)
    (hShort : q.windowMs = 0) (hUnused : NeverUsed l key s) (hOrder : InOrder (calls ++ [c]))
    (hOnTime : ∀ a ∈ calls ++ [c], OnTime a) :
    admitted (c, (serve .honoured (l.script key q)
      (keyspace .honoured (l.script key q) s calls) c).1) = true := by
  rw [script_slidingWindow hAlg, hShort]
  have hKept : KeptLog (l.redisKey key) q.limit c.nowMs
      (keyspace .honoured (slidingWindowCall (l.redisKey key) 0 q.limit) s calls) := by
    refine (before_onTime (P := KeptLog (l.redisKey key) q.limit)
      (fun t x hx => absurd (hUnused.entry.symm.trans hx) nofun) ?_ ?_ hOrder hOnTime).1
    · intro t t' s hKept ht x hx
      obtain ⟨z, hz, hCard, hScores⟩ := hKept x hx
      exact ⟨z, hz, hCard, fun e he => (hScores e he).trans ht⟩
    · intro t s c hKept hLate _
      rw [serve_log (hKept.holdsZset _)]
      obtain ⟨hCard, hScores⟩ := hKept.found hLimit.le c
      exact keptLog_update hCard hScores hLate
  -- a window of 0 ms prunes every entry that is no later than the call
  obtain ⟨-, hScores⟩ := hKept.found hLimit.le c
  rw [serve_log (hKept.holdsZset _), admitted_slidingReply, decide_eq_true_eq, sub_zero,
    SortedSet.card_removeUpTo_eq_zero_iff.mpr hScores]
  exact hLimit

/-- The counter of a window that passes at once has always run out. -/
theorem shortFixedWindow_admits (hAlg : l.alg = .fixedWindow) (hLimit : 0 < q.limit)
    (hShort : q.windowMs = 0) (hUnused : NeverUsed l key s) (hOrder : InOrder (calls ++ [c]))
    (hOnTime : ∀ a ∈ calls ++ [c], OnTime a) :
    admitted (c, (serve .honoured (l.script key q)
      (keyspace .honoured (l.script key q) s calls) c).1) = true := by
  rw [script_fixedWindow hAlg, hShort]
  obtain ⟨hRunOut, hNow⟩ : RunOut (l.redisKey key) c.nowMs
      (keyspace .honoured (fixedWindowCall (l.redisKey key) 0 q.limit) s calls) ∧ OnTime c := by
    refine before_onTime (P := RunOut (l.redisKey key))
      (fun t i x hx => absurd ((hUnused.counters i).symm.trans hx) nofun) ?_
      (fun t s c h hLate hNow => (serve_runOut h hLate hNow).2) hOrder hOnTime
    intro t t' s h ht i x hx
    obtain ⟨v, D, hx, hD⟩ := h i x hx
    exact ⟨v, D, hx, hD.trans ht⟩
  rw [(serve_runOut hRunOut le_rfl hNow).1, admitted_fixedReply]
  exact decide_eq_true hLimit

end ShortWindow

-- ---------------------------------------------------------------------------
-- Every quota
-- ---------------------------------------------------------------------------

/-- Every refusal is for the wait. -/
theorem reopensAfter_wait {l : RedisLimiter} {key : String} {q : Quota} (hLimit : 0 < q.limit)
    (hWindow : 0 < q.window) {s : Store} (hUnused : NeverUsed l key s) {calls : List Call}
    {c : Call} (hOrder : InOrder (calls ++ [c])) (hOnTime : ∀ a ∈ calls ++ [c], OnTime a) :
    let script := l.script key q
    let before := keyspace .honoured script s calls
    admitted (c, (serve .honoured script before c).1) = false →
      ReopensAfter script before c (l.waitMs key q before c) := by
  intro script before hNot
  have hNow : OnTime c := hOnTime c (List.mem_append_right _ (List.mem_singleton_self c))
  -- a quota that the converted one agrees with settles the wait
  have hValid : ∀ q', ValidQuota q' → l.script key q' = script →
      l.waitMs key q' before c = l.waitMs key q before c →
      ReopensAfter script before c (l.waitMs key q before c) := by
    intro q' hq hScript hWait
    have hKept : Kept l key q' c.nowMs before := by
      rw [show before = keyspace .honoured (l.script key q') s calls by rw [hScript]]
      exact (kept_before hq hUnused.unused hOrder hOnTime).1
    have hReopens := reopensAfter_of_kept hq hKept hNow (by rw [hScript]; exact hNot)
    rwa [hScript, hWait] at hReopens
  rcases lt_or_ge q.windowMs 1 with hShort | hLong
  · -- under a millisecond: the bucket is scaled up, and the windows refuse nobody
    have hZero : q.windowMs = 0 := by
      have := (windowMs_bounds hWindow).1
      omega
    cases hAlg : l.alg with
    | tokenBucket =>
      refine hValid q.scaled (scaled_valid hLimit hWindow) ?_ ?_
      · rw [script_tokenBucket hAlg, scaled_ratePerSecond hWindow, scaled_burstCapacity hLimit,
          ← script_tokenBucket hAlg]
      · simp only [RedisLimiter.waitMs, hAlg, scaled_ratePerSecond hWindow,
          scaled_burstCapacity hLimit]
    | slidingWindow =>
      exact absurd (hNot.symm.trans
        (shortSlidingWindow_admits hAlg hLimit hZero hUnused hOrder hOnTime)) nofun
    | fixedWindow =>
      exact absurd (hNot.symm.trans
        (shortFixedWindow_admits hAlg hLimit hZero hUnused hOrder hOnTime)) nofun
  · exact hValid q ⟨hLimit, hLong⟩ rfl rfl

end RatelimitGateway.Limiter
