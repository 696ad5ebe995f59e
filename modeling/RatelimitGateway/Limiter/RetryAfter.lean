import RatelimitGateway.Limiter.SameClock

/-!
# When to come back

A refusal leaves the key in a state in which every call before a certain time
is refused and the first one at that time is admitted, and refusals in between
leave it in such a state for the same time (`Blocked`). The time is the stamp
of the refusal plus its `retry_after_ms`, for all three algorithms: the bucket
counts on to the same token, the log keeps the same oldest entry, and the
counter of the window only grows.

* `retryAfter_sound_and_tight` — `retry_after_ms` is exact.
-/

namespace RatelimitGateway.Limiter

open KeyStore Redis

-- ---------------------------------------------------------------------------
-- token_bucket.lua
-- ---------------------------------------------------------------------------

/-- The bucket refills its first token at `E`, and not before. -/
def BlockedBucket (key : String) (rate : ℚ) (E t : ℤ) (s : Store) : Prop :=
  ∃ (tokens : ℚ) (updated D : ℤ),
    s key = some ⟨.hash ⟨some tokens, some (updated : ℚ)⟩, some D⟩ ∧ updated ≤ t ∧ E < D ∧
      ⌈(1 - tokens) / rate * 1000⌉ = E - updated

section Bucket

variable {key : String} {rate burst : ℚ} {s : Store} {c : Call}

/-- A bucket without a whole token, as the refusal leaves it. -/
theorem blockedBucket_update {avail : ℚ} (hRate : 0 < rate) (hBurst : 1 ≤ burst)
    (hEmpty : avail < 1) (hOnTime : OnTime c) :
    BlockedBucket key rate (c.nowMs + ⌈(1 - avail) / rate * 1000⌉) c.nowMs
      (Function.update s key
        (some (bucketEntry ⟨.honoured, c.execAt⟩ rate burst c.nowMs 1 avail))) := by
  have hLeft : tokensLeft 1 avail = avail := if_neg (not_le.mpr hEmpty)
  have hReset : bucketReset rate burst 1 avail = ⌈(burst - avail) / rate * 1000⌉ := by
    unfold bucketReset
    rw [hLeft, if_pos ⟨hEmpty.trans_le hBurst, hRate⟩]
  refine ⟨avail, c.nowMs, c.nowMs + (⌈(burst - avail) / rate * 1000⌉ + 1000), ?_, le_rfl, ?_, ?_⟩
  · rw [Function.update_self, bucketEntry, hLeft, hReset, hOnTime]
  · -- the bucket outlives the wait: a full bucket takes longer than a token
    have hLonger : (1 - avail) / rate * 1000 ≤ (burst - avail) / rate * 1000 := by
      have := div_le_div_of_nonneg_right (sub_le_sub_right hBurst avail) hRate.le
      linarith
    have := Int.ceil_mono hLonger
    omega
  · omega

/-- What a call finds in a bucket that has not run out. -/
theorem found_of_entry {tokens : ℚ} {updated D : ℤ}
    (hEntry : s key = some ⟨.hash ⟨some tokens, some (updated : ℚ)⟩, some D⟩)
    (hLive : c.execAt < D) (hLate : updated ≤ c.nowMs) :
    found .honoured key rate burst s c =
      min burst (tokens + ((c.nowMs - updated : ℤ) : ℚ) / 1000 * rate) := by
  rw [found_of_live (find_before hEntry hLive), max_eq_right (by omega)]

/-- What a call finds while the bucket is blocked. -/
theorem found_blocked {E t : ℤ} (hRate : 0 < rate) (hBurst : 1 ≤ burst)
    {tokens : ℚ} {updated D : ℤ}
    (hEntry : s key = some ⟨.hash ⟨some tokens, some (updated : ℚ)⟩, some D⟩)
    (hUpdated : updated ≤ t) (hEnd : E < D) (hCeil : ⌈(1 - tokens) / rate * 1000⌉ = E - updated)
    (hLate : t ≤ c.nowMs) (hEarly : c.nowMs < E) (hOnTime : OnTime c) :
    found .honoured key rate burst s c < 1 ∧
      ⌈(1 - found .honoured key rate burst s c) / rate * 1000⌉ = E - c.nowMs := by
  have hFound : found .honoured key rate burst s c =
      min burst (tokens + ((c.nowMs - updated : ℤ) : ℚ) / 1000 * rate) :=
    found_of_entry hEntry (by rw [hOnTime]; omega) (by omega)
  -- before the end of the wait the refill has not reached a token
  have hBelow : tokens + ((c.nowMs - updated : ℤ) : ℚ) / 1000 * rate < 1 := by
    rw [← not_le, le_refill_iff hRate, hCeil]
    omega
  rw [hFound, min_eq_right (hBelow.le.trans hBurst)]
  refine ⟨hBelow, ?_⟩
  have hShift : (1 - (tokens + ((c.nowMs - updated : ℤ) : ℚ) / 1000 * rate)) / rate * 1000 =
      (1 - tokens) / rate * 1000 - ((c.nowMs - updated : ℤ) : ℚ) := by
    field_simp
    ring
  rw [hShift, Int.ceil_sub_intCast, hCeil]
  omega

end Bucket

section BucketCalls

variable {key : String} {rate : ℚ} {burst t E : ℤ} {s : Store} {c : Call}

/-- A refusal blocks the bucket for as long as its hint says. -/
theorem BlockedBucket.of_refused (hRate : 0 < rate) (hBurst : 1 ≤ burst)
    (hKept : KeptBucket key s) (hOnTime : OnTime c) {r : Reply}
    (hReply : (serve .honoured (tokenBucketCall key rate burst) s c).1 = .ok r)
    (hRefused : r.allowed = 0) :
    1 ≤ r.retryAfterMs ∧ BlockedBucket key rate (c.nowMs + r.retryAfterMs) c.nowMs
      (serve .honoured (tokenBucketCall key rate burst) s c).2 := by
  have hCapacity : (1 : ℚ) ≤ burst := by exact_mod_cast hBurst
  rw [serve_bucket (hKept.holdsHash _)] at hReply ⊢
  obtain rfl := Except.ok.inj hReply
  generalize found .honoured key rate burst s c = avail at hRefused ⊢
  have hEmpty : avail < 1 := bucketReply_refused.mp hRefused
  have hRetry : (bucketReply rate burst 1 avail).retryAfterMs = ⌈(1 - avail) / rate * 1000⌉ :=
    if_pos ⟨hEmpty, hRate⟩
  rw [hRetry]
  refine ⟨?_, blockedBucket_update hRate hCapacity hEmpty hOnTime⟩
  have hMissing : 0 < 1 - avail := sub_pos.mpr hEmpty
  exact Int.one_le_ceil_iff.mpr (by positivity)

/-- A call before that is refused, and changes nothing about it. -/
theorem BlockedBucket.poll (hRate : 0 < rate) (hBurst : 1 ≤ burst)
    (hBlocked : BlockedBucket key rate E t s) (hLate : t ≤ c.nowMs) (hEarly : c.nowMs < E)
    (hOnTime : OnTime c) :
    (∃ r, (serve .honoured (tokenBucketCall key rate burst) s c).1 = .ok r ∧ r.allowed = 0) ∧
      BlockedBucket key rate E c.nowMs
        (serve .honoured (tokenBucketCall key rate burst) s c).2 := by
  obtain ⟨tokens, updated, D, hEntry, hUpdated, hEnd, hCeil⟩ := hBlocked
  have hCapacity : (1 : ℚ) ≤ burst := by exact_mod_cast hBurst
  rw [serve_bucket (holdsHash_of_entry hEntry)]
  obtain ⟨hEmpty, hSame⟩ :=
    found_blocked hRate hCapacity hEntry hUpdated hEnd hCeil hLate hEarly hOnTime
  generalize found .honoured key rate burst s c = avail at hEmpty hSame ⊢
  refine ⟨⟨_, rfl, bucketReply_refused.mpr hEmpty⟩, ?_⟩
  rw [← add_sub_cancel c.nowMs E, ← hSame]
  exact blockedBucket_update hRate hCapacity hEmpty hOnTime

/-- By the time it is due the token has flowed in, or the bucket has expired. -/
theorem BlockedBucket.released (hRate : 0 < rate) (hBurst : 1 ≤ burst)
    (hBlocked : BlockedBucket key rate E t s) (hOrder : t ≤ c.nowMs) (hLate : E ≤ c.nowMs) :
    admitted (c, (serve .honoured (tokenBucketCall key rate burst) s c).1) = true := by
  obtain ⟨tokens, updated, D, hEntry, hUpdated, -, hCeil⟩ := hBlocked
  have hCapacity : (1 : ℚ) ≤ burst := by exact_mod_cast hBurst
  rw [serve_bucket (holdsHash_of_entry hEntry), admitted_bucketReply, decide_eq_true_eq]
  rcases lt_or_ge c.execAt D with hLive | hGone
  · rw [found_of_entry hEntry hLive (by omega)]
    refine le_min hCapacity ((le_refill_iff hRate _).mpr ?_)
    omega
  · rw [found_of_gone (find_after hEntry hGone)]
    exact hCapacity

end BucketCalls

-- ---------------------------------------------------------------------------
-- sliding_window.lua
-- ---------------------------------------------------------------------------

/-- The log is full, and its oldest entry ages out at `E`. -/
def BlockedLog (key : String) (windowMs limit E t : ℤ) (s : Store) : Prop :=
  ∃ (z : SortedSet ℤ String) (D : ℤ), s key = some ⟨.zset z, some D⟩ ∧ E < D ∧
    (z.card : ℤ) = limit ∧ (∀ e ∈ z.entries, E ≤ e.1 + windowMs ∧ e.1 ≤ t) ∧
      ∃ e ∈ z.entries, e.1 + windowMs = E

section Log

variable {key : String} {windowMs limit : ℤ} {s : Store} {c : Call}

/-- A full log, as the refusal leaves it: it is not changed but for its
deadline. -/
theorem blockedLog_update {z : SortedSet ℤ String} {x : ℤ × String} (hLimit : 1 ≤ limit)
    (hCard : (z.card : ℤ) = limit) (hLowest : z.lowest? = some x)
    (hScores : ∀ e ∈ z.entries, e.1 ≤ c.nowMs) (hOnTime : OnTime c) :
    BlockedLog key windowMs limit (x.1 + windowMs) c.nowMs
      (Function.update s key (logEntry ⟨.honoured, c.execAt⟩ windowMs z)) := by
  have hOldest := hScores x (SortedSet.lowest?_mem hLowest)
  refine ⟨z, c.nowMs + (windowMs + 1000), ?_, by omega, hCard, fun e he => ⟨?_, hScores e he⟩,
    x, SortedSet.lowest?_mem hLowest, rfl⟩
  · rw [Function.update_self, logEntry, if_neg (by omega), hOnTime]
  · have := SortedSet.lowest?_le hLowest he
    omega

/-- A refusal blocks the log until its oldest entry ages out. -/
theorem BlockedLog.of_refused {t : ℤ} (hLimit : 1 ≤ limit) (hKept : KeptLog key limit t s)
    (hLate : t ≤ c.nowMs) (hOnTime : OnTime c) {r : Reply}
    (hReply : (serve .honoured (slidingWindowCall key windowMs limit) s c).1 = .ok r)
    (hRefused : r.allowed = 0) :
    1 ≤ r.retryAfterMs ∧ BlockedLog key windowMs limit (c.nowMs + r.retryAfterMs) c.nowMs
      (serve .honoured (slidingWindowCall key windowMs limit) s c).2 := by
  rw [serve_log (hKept.holdsZset _)] at hReply ⊢
  obtain rfl := Except.ok.inj hReply
  obtain ⟨hCard, hScores⟩ := hKept.found (by omega) c
  generalize foundLog .honoured key s c = log at hRefused hCard hScores ⊢
  have hSmaller := SortedSet.card_removeUpTo_le (c.nowMs - windowMs) log
  have hFull := slidingReply_refused.mp hRefused
  have hAfter : logAfter c.nowMs windowMs limit c.member log =
      log.removeUpTo (c.nowMs - windowMs) := if_neg hFull
  obtain ⟨x, hx⟩ : ∃ x, (log.removeUpTo (c.nowMs - windowMs)).lowest? = some x :=
    SortedSet.exists_lowest (by omega)
  obtain ⟨hMem, hYoung⟩ := SortedSet.mem_removeUpTo.mp (SortedSet.lowest?_mem hx)
  -- the log is full, and its oldest entry is the next to age out
  have hRetry : (slidingReply c.nowMs windowMs limit c.member log).retryAfterMs =
      x.1 + windowMs - c.nowMs := by
    simp only [slidingReply, hFull, if_false, hAfter, slidingReset, hx]
    exact max_eq_right (by omega)
  rw [hRetry, hAfter]
  refine ⟨by omega, ?_⟩
  rw [show c.nowMs + (x.1 + windowMs - c.nowMs) = x.1 + windowMs by omega]
  refine blockedLog_update hLimit (by omega) hx (fun e he => ?_) hOnTime
  exact (hScores e (SortedSet.mem_removeUpTo.mp he).1).trans hLate

/-- A call before that is refused, and adds nothing. -/
theorem BlockedLog.poll {t E : ℤ} (hLimit : 1 ≤ limit)
    (hBlocked : BlockedLog key windowMs limit E t s) (hLate : t ≤ c.nowMs)
    (hEarly : c.nowMs < E) (hOnTime : OnTime c) :
    (∃ r, (serve .honoured (slidingWindowCall key windowMs limit) s c).1 = .ok r ∧
        r.allowed = 0) ∧
      BlockedLog key windowMs limit E c.nowMs
        (serve .honoured (slidingWindowCall key windowMs limit) s c).2 := by
  obtain ⟨z, D, hEntry, hEnd, hCard, hAges, e, he, hOldest⟩ := hBlocked
  rw [serve_log (holdsZset_of_entry hEntry),
    foundLog_of_find (find_before hEntry (by rw [hOnTime]; omega))]
  -- nothing has aged out, so the log is as full as it was
  have hPruned : z.removeUpTo (c.nowMs - windowMs) = z :=
    SortedSet.removeUpTo_eq_self fun x hx => by
      have := (hAges x hx).1
      omega
  have hFull : ¬ ((z.removeUpTo (c.nowMs - windowMs)).card : ℤ) < limit := by
    rw [hPruned]
    omega
  have hAfter : logAfter c.nowMs windowMs limit c.member z = z := by
    unfold logAfter
    dsimp only
    rw [if_neg hFull, hPruned]
  refine ⟨⟨_, rfl, slidingReply_refused.mpr hFull⟩, ?_⟩
  obtain ⟨x, hx⟩ := SortedSet.exists_lowest (z := z) (by omega)
  -- the oldest entry is the one that ends the wait
  have hEqual : x.1 + windowMs = E := by
    have := SortedSet.lowest?_le hx he
    have := (hAges x (SortedSet.lowest?_mem hx)).1
    omega
  rw [hAfter, ← hEqual]
  exact blockedLog_update hLimit hCard hx (fun y hy => (hAges y hy).2.trans hLate) hOnTime

/-- A call after that is admitted. -/
theorem BlockedLog.released {t E : ℤ} (hLimit : 1 ≤ limit)
    (hBlocked : BlockedLog key windowMs limit E t s) (hLate : E ≤ c.nowMs) :
    admitted (c, (serve .honoured (slidingWindowCall key windowMs limit) s c).1) = true := by
  obtain ⟨z, D, hEntry, -, hCard, -, e, he, hOldest⟩ := hBlocked
  rw [serve_log (holdsZset_of_entry hEntry), admitted_slidingReply, decide_eq_true_eq]
  rcases lt_or_ge c.execAt D with hLive | hGone
  · -- the oldest entry has aged out
    rw [foundLog_of_find (find_before hEntry hLive)]
    have hFreed : (z.removeUpTo (c.nowMs - windowMs)).card < z.card :=
      SortedSet.card_removeUpTo_lt he (by omega)
    omega
  · rw [foundLog_of_gone (find_after hEntry hGone)]
    have hEmpty := SortedSet.card_removeUpTo_le (c.nowMs - windowMs)
      (SortedSet.empty : SortedSet ℤ String)
    have hNone : (SortedSet.empty : SortedSet ℤ String).card = 0 := rfl
    omega

end Log

-- ---------------------------------------------------------------------------
-- fixed_window.lua
-- ---------------------------------------------------------------------------

/-- The window that ends at `E` is full, and the one after it is unused. -/
def BlockedCounter (keyPrefix : String) (windowMs limit E t : ℤ) (s : Store) : Prop :=
  ∃ k n D : ℤ, s (windowKey keyPrefix (.whole k)) = some ⟨.counter n, some D⟩ ∧ 1 ≤ n ∧
    limit ≤ n ∧ E = (k + 1) * windowMs ∧ k * windowMs ≤ t ∧ E ≤ D ∧
      s (windowKey keyPrefix (.whole (k + 1))) = none

/-- A counter of a full window, as the refusal leaves it. -/
theorem blockedCounter_update {keyPrefix : String} {windowMs limit : ℤ} {s : Store} {c : Call}
    {k n D : ℤ} (hEntry : find ⟨.honoured, c.execAt⟩ s (windowKey keyPrefix (.whole k)) =
      some ⟨.counter n, some D⟩) (hCount : 1 ≤ n) (hFull : limit ≤ n + 1)
    (hStart : k * windowMs ≤ c.nowMs) (hEnd : (k + 1) * windowMs ≤ D)
    (hNext : s (windowKey keyPrefix (.whole (k + 1))) = none) :
    BlockedCounter keyPrefix windowMs limit ((k + 1) * windowMs) c.nowMs
      (Function.update s (windowKey keyPrefix (.whole k)) (some
        (counterEntry ⟨.honoured, c.execAt⟩ s (windowKey keyPrefix (.whole k)) windowMs))) := by
  refine ⟨k, n + 1, D, ?_, by omega, hFull, rfl, hStart, hEnd, ?_⟩
  · rw [Function.update_self, (counterEntry_of_found windowMs hCount hEntry).2]
  · rwa [update_windowKey_of_ne (by omega)]

section CounterCalls

variable {keyPrefix : String} {windowMs limit t E : ℤ} {s : Store} {c : Call}

/-- A refusal blocks the counter until its window ends. -/
theorem BlockedCounter.of_refused (hWindow : 1 ≤ windowMs) (hLimit : 1 ≤ limit)
    (hKept : KeptCounters keyPrefix windowMs t s) (hLate : t ≤ c.nowMs) {r : Reply}
    (hReply : (serve .honoured (fixedWindowCall keyPrefix windowMs limit) s c).1 = .ok r)
    (hRefused : r.allowed = 0) :
    1 ≤ r.retryAfterMs ∧ BlockedCounter keyPrefix windowMs limit (c.nowMs + r.retryAfterMs)
      c.nowMs (serve .honoured (fixedWindowCall keyPrefix windowMs limit) s c).2 := by
  obtain ⟨k, hIndex⟩ : ∃ k, windowIndex c.nowMs windowMs = .whole k :=
    ⟨_, windowIndex_whole hWindow c.nowMs⟩
  obtain ⟨hStart, hBefore⟩ := (windowIndex_eq_iff hWindow).mp hIndex
  rw [serve_counter (hKept.holdsCounter _ _) hIndex] at hReply ⊢
  obtain rfl := Except.ok.inj hReply
  have hOver : limit <
      counterAt ⟨.honoured, c.execAt⟩ s (windowKey keyPrefix (.whole k)) + 1 :=
    fixedReply_refused.mp hRefused
  have hRetry : (fixedReply c.nowMs windowMs limit (counterAt ⟨.honoured, c.execAt⟩ s
      (windowKey keyPrefix (.whole k)) + 1)).retryAfterMs = (k + 1) * windowMs - c.nowMs := by
    rw [← resetAfterMs_eq hWindow hIndex]
    exact if_pos hOver
  rw [hRetry, show c.nowMs + ((k + 1) * windowMs - c.nowMs) = (k + 1) * windowMs by omega]
  refine ⟨by omega, ?_⟩
  cases hFind : find ⟨.honoured, c.execAt⟩ s (windowKey keyPrefix (.whole k)) with
  | none =>
    -- a counter that is gone starts at one, which is within the limit
    rw [(counterEntry_of_gone windowMs hFind).1] at hOver
    omega
  | some x =>
    obtain ⟨-, n, D, rfl, hCount, hEnd⟩ := hKept k x (find_eq_some_iff.mp hFind).1
    rw [(counterEntry_of_found windowMs hCount hFind).1] at hOver
    refine blockedCounter_update hFind hCount (by omega) hStart hEnd ?_
    -- no call has been stamped in the next window
    cases hNext : s (windowKey keyPrefix (.whole (k + 1))) with
    | none => rfl
    | some y =>
      have := (hKept (k + 1) y hNext).1
      omega

/-- A call before that is refused; the counter goes on counting. -/
theorem BlockedCounter.poll (hWindow : 1 ≤ windowMs)
    (hBlocked : BlockedCounter keyPrefix windowMs limit E t s) (hLate : t ≤ c.nowMs)
    (hEarly : c.nowMs < E) (hOnTime : OnTime c) :
    (∃ r, (serve .honoured (fixedWindowCall keyPrefix windowMs limit) s c).1 = .ok r ∧
        r.allowed = 0) ∧
      BlockedCounter keyPrefix windowMs limit E c.nowMs
        (serve .honoured (fixedWindowCall keyPrefix windowMs limit) s c).2 := by
  obtain ⟨k, n, D, hEntry, hCount, hFull, rfl, hStart, hEnd, hNext⟩ := hBlocked
  have hIndex := (windowIndex_eq_iff hWindow).mpr ⟨hStart.trans hLate, hEarly⟩
  have hFind : find ⟨.honoured, c.execAt⟩ s (windowKey keyPrefix (.whole k)) =
      some ⟨.counter n, some D⟩ := find_before hEntry (by rw [hOnTime]; omega)
  rw [serve_counter (holdsCounter_of_entry hEntry) hIndex,
    (counterEntry_of_found windowMs hCount hFind).1]
  exact ⟨⟨_, rfl, fixedReply_refused.mpr (by omega)⟩,
    blockedCounter_update hFind hCount (by omega) (hStart.trans hLate) hEnd hNext⟩

/-- The first call of the next window is admitted. -/
theorem BlockedCounter.release (hWindow : 1 ≤ windowMs) (hLimit : 1 ≤ limit)
    (hBlocked : BlockedCounter keyPrefix windowMs limit E t s) (hNow : c.nowMs = E) :
    admitted (c, (serve .honoured (fixedWindowCall keyPrefix windowMs limit) s c).1) = true := by
  obtain ⟨k, n, D, hEntry, hCount, hFull, rfl, hStart, hEnd, hNext⟩ := hBlocked
  have hIndex : windowIndex c.nowMs windowMs = .whole (k + 1) := by
    refine (windowIndex_eq_iff hWindow).mpr ⟨hNow.ge, ?_⟩
    rw [hNow, add_mul (k + 1), one_mul]
    omega
  have hFind := find_eq_none_of_absent (c := ⟨.honoured, c.execAt⟩) hNext
  rw [serve_counter (holdsCounter_of_gone hFind) hIndex, admitted_fixedReply,
    (counterEntry_of_gone windowMs hFind).1, decide_eq_true_eq]
  omega

end CounterCalls

-- ---------------------------------------------------------------------------
-- Whichever algorithm `Allow` runs
-- ---------------------------------------------------------------------------

/-- From `t` on every call before `E` is refused, and the first one at `E` is
admitted. -/
def Blocked (l : RedisLimiter) (key : String) (q : Quota) (E t : ℤ) (s : Store) : Prop :=
  match l.alg with
  | .tokenBucket => BlockedBucket (l.redisKey key) q.ratePerSecond E t s
  | .slidingWindow => BlockedLog (l.redisKey key) q.windowMs q.limit E t s
  | .fixedWindow => BlockedCounter (l.redisKey key) q.windowMs q.limit E t s

section ByAlgorithm

variable {l : RedisLimiter} {key : String} {q : Quota} {t E : ℤ} {s : Store} {c : Call}

/-- A refusal blocks the key for as long as its reply says. -/
theorem blocked_of_refused (hq : ValidQuota q) (hKept : Kept l key q t s) (hLate : t ≤ c.nowMs)
    (hOnTime : OnTime c) {r : Reply}
    (hReply : (serve .honoured (l.script key q) s c).1 = .ok r) (hRefused : r.allowed = 0) :
    1 ≤ r.retryAfterMs ∧ Blocked l key q (c.nowMs + r.retryAfterMs) c.nowMs
      (serve .honoured (l.script key q) s c).2 := by
  -- each script keeps its own reason for the refusal
  unfold Blocked
  cases hAlg : l.alg with
  | tokenBucket =>
    rw [kept_tokenBucket hAlg] at hKept
    rw [script_tokenBucket hAlg] at hReply ⊢
    exact BlockedBucket.of_refused hq.rate_pos hq.burst_pos hKept hOnTime hReply hRefused
  | slidingWindow =>
    rw [kept_slidingWindow hAlg] at hKept
    rw [script_slidingWindow hAlg] at hReply ⊢
    exact BlockedLog.of_refused hq.limit hKept hLate hOnTime hReply hRefused
  | fixedWindow =>
    rw [kept_fixedWindow hAlg] at hKept
    rw [script_fixedWindow hAlg] at hReply ⊢
    exact BlockedCounter.of_refused hq.window hq.limit hKept hLate hReply hRefused

/-- A call before the time is refused, and changes nothing that matters. -/
theorem blocked_poll (hq : ValidQuota q) (hBlocked : Blocked l key q E t s) (hLate : t ≤ c.nowMs)
    (hEarly : c.nowMs < E) (hOnTime : OnTime c) :
    (∃ r, (serve .honoured (l.script key q) s c).1 = .ok r ∧ r.allowed = 0) ∧
      Blocked l key q E c.nowMs (serve .honoured (l.script key q) s c).2 := by
  unfold Blocked at hBlocked ⊢
  cases hAlg : l.alg with
  | tokenBucket =>
    simp only [hAlg] at hBlocked ⊢
    rw [script_tokenBucket hAlg]
    exact hBlocked.poll hq.rate_pos hq.burst_pos hLate hEarly hOnTime
  | slidingWindow =>
    simp only [hAlg] at hBlocked ⊢
    rw [script_slidingWindow hAlg]
    exact hBlocked.poll hq.limit hLate hEarly hOnTime
  | fixedWindow =>
    simp only [hAlg] at hBlocked ⊢
    rw [script_fixedWindow hAlg]
    exact hBlocked.poll hq.window hLate hEarly hOnTime

/-- The first call at the time is admitted. -/
theorem blocked_release (hq : ValidQuota q) (hBlocked : Blocked l key q E t s) (hLate : t ≤ E)
    (hNow : c.nowMs = E) : admitted (c, (serve .honoured (l.script key q) s c).1) = true := by
  unfold Blocked at hBlocked
  cases hAlg : l.alg with
  | tokenBucket =>
    simp only [hAlg] at hBlocked
    rw [script_tokenBucket hAlg]
    exact hBlocked.released hq.rate_pos hq.burst_pos (by omega) hNow.ge
  | slidingWindow =>
    simp only [hAlg] at hBlocked
    rw [script_slidingWindow hAlg]
    exact hBlocked.released hq.limit hNow.ge
  | fixedWindow =>
    simp only [hAlg] at hBlocked
    rw [script_fixedWindow hAlg]
    exact hBlocked.release hq.window hq.limit hNow

/-- A list of calls before the time. -/
theorem blocked_polls (hq : ValidQuota q) (hBlocked : Blocked l key q E t s)
    {polls : List Call} (hOrder : InOrder polls)
    (hPolls : ∀ p ∈ polls, OnTime p ∧ t ≤ p.nowMs ∧ p.nowMs < E) :
    (∀ x ∈ transcript .honoured (l.script key q) s polls, ∃ r, x.2 = .ok r ∧ r.allowed = 0) ∧
      ∃ t', (t' = t ∨ ∃ p ∈ polls, t' = p.nowMs) ∧
        Blocked l key q E t' (keyspace .honoured (l.script key q) s polls) := by
  induction polls generalizing s t with
  | nil => exact ⟨nofun, t, .inl rfl, hBlocked⟩
  | cons p polls ih =>
    obtain ⟨hOnTime, hLate, hEarly⟩ := hPolls p List.mem_cons_self
    obtain ⟨hRefused, hNext⟩ := blocked_poll hq hBlocked hLate hEarly hOnTime
    obtain ⟨hFirst, hRest⟩ := List.pairwise_cons.mp hOrder
    obtain ⟨hAll, t', ht', hEnd⟩ := ih hNext hRest fun a ha =>
      ⟨(hPolls a (List.mem_cons_of_mem _ ha)).1, hFirst a ha,
        (hPolls a (List.mem_cons_of_mem _ ha)).2.2⟩
    refine ⟨List.forall_mem_cons.mpr ⟨hRefused, hAll⟩, t', .inr ?_, hEnd⟩
    -- the last poll is the first one or a later one
    rcases ht' with rfl | ⟨a, ha, rfl⟩
    · exact ⟨p, List.mem_cons_self, rfl⟩
    · exact ⟨a, List.mem_cons_of_mem _ ha, rfl⟩

/-- Calls up to the time of which none is admitted are all before it. -/
theorem blocked_unadmitted (hq : ValidQuota q) (hBlocked : Blocked l key q E t s)
    {polls : List Call} (hOrder : InOrder polls)
    (hPolls : ∀ p ∈ polls, OnTime p ∧ t ≤ p.nowMs ∧ p.nowMs ≤ E)
    (hNone : ∀ x ∈ transcript .honoured (l.script key q) s polls, admitted x = false) :
    ∀ p ∈ polls, p.nowMs < E := by
  induction polls generalizing s t with
  | nil => exact nofun
  | cons p polls ih =>
    obtain ⟨hOnTime, hLate, hUpTo⟩ := hPolls p List.mem_cons_self
    obtain ⟨hHead, hTail⟩ := List.forall_mem_cons.mp hNone
    obtain ⟨hFirst, hRest⟩ := List.pairwise_cons.mp hOrder
    -- a poll at the end of the wait would have been admitted
    have hEarly : p.nowMs < E := by
      by_contra hAt
      have hNow : p.nowMs = E := by omega
      have hTaken := blocked_release hq hBlocked (hLate.trans hUpTo) hNow
      exact absurd (hTaken.symm.trans hHead) nofun
    have hNext := (blocked_poll hq hBlocked hLate hEarly hOnTime).2
    refine List.forall_mem_cons.mpr ⟨hEarly, ih hNext hRest (fun a ha => ?_) hTail⟩
    exact ⟨(hPolls a (List.mem_cons_of_mem _ ha)).1, hFirst a ha,
      (hPolls a (List.mem_cons_of_mem _ ha)).2.2⟩

end ByAlgorithm

/--
**`retry_after_ms` is sound and tight.** In every state that calls with
in-order stamps lead to, for each algorithm: a refused call at `t` with
`retry_after_ms = d` has `1 ≤ d`; however many calls follow it before `t + d`,
all of them are refused; and a call at `t + d` is admitted if no call was
admitted since.
-/
theorem retryAfter_sound_and_tight {l : RedisLimiter} {key : String} {q : Quota}
    (hq : WholeQuota q) {s : Store} (hUnused : Unused l key s) {calls : List Call} {c : Call}
    (hOrder : InOrder (calls ++ [c])) (hOnTime : ∀ a ∈ calls ++ [c], OnTime a) :
    let script := l.script key q
    let before := keyspace .honoured script s calls
    let after := (serve .honoured script before c).2
    ∀ r, (serve .honoured script before c).1 = .ok r → r.allowed = 0 →
      1 ≤ r.retryAfterMs ∧
      ∀ polls, InOrder (c :: polls) → (∀ p ∈ polls, OnTime p) →
        ((∀ p ∈ polls, p.nowMs < c.nowMs + r.retryAfterMs) →
          ∀ x ∈ transcript .honoured script after polls, ∃ r', x.2 = .ok r' ∧ r'.allowed = 0) ∧
        ((∀ p ∈ polls, p.nowMs ≤ c.nowMs + r.retryAfterMs) →
          (∀ x ∈ transcript .honoured script after polls, admitted x = false) →
          ∀ c', OnTime c' → c'.nowMs = c.nowMs + r.retryAfterMs →
            admitted (c', (serve .honoured script (keyspace .honoured script after polls) c').1)
              = true) := by
  intro script before after r hReply hRefused
  obtain ⟨hKept, hNow⟩ := kept_before hq.valid hUnused hOrder hOnTime
  obtain ⟨hPositive, hBlocked⟩ := blocked_of_refused hq.valid hKept le_rfl hNow hReply hRefused
  refine ⟨hPositive, fun polls hPolls hPollsOnTime => ?_⟩
  obtain ⟨hAfter, hInOrder⟩ := List.pairwise_cons.mp hPolls
  refine ⟨fun hEarly => ?_, fun hUpTo hNone c' hOnTime' hAt => ?_⟩
  · -- sound: while it is blocked every poll is refused
    exact (blocked_polls hq.valid hBlocked hInOrder fun p hp =>
      ⟨hPollsOnTime p hp, hAfter p hp, hEarly p hp⟩).1
  · -- tight: none was admitted, so all came before the end, and at the end it opens
    have hEarly := blocked_unadmitted hq.valid hBlocked hInOrder
      (fun p hp => ⟨hPollsOnTime p hp, hAfter p hp, hUpTo p hp⟩) hNone
    obtain ⟨-, t', ht', hStill⟩ := blocked_polls hq.valid hBlocked hInOrder fun p hp =>
      ⟨hPollsOnTime p hp, hAfter p hp, hEarly p hp⟩
    refine blocked_release hq.valid hStill ?_ hAt
    rcases ht' with rfl | ⟨p, hp, rfl⟩
    · omega
    · exact (hEarly p hp).le

/-- One per second: the call at 500 ms is refused for another 600 ms. -/
theorem retryAfter_sound_and_tight_demo :
    let script := RedisLimiter.script ⟨.slidingWindow, "rl"⟩ "acme" ⟨1, 1000000000, 0⟩
    let after := (serve .honoured script
      (keyspace .honoured script empty [⟨100, 100, "a"⟩]) ⟨500, 500, "b"⟩).2
    (1 : ℤ) ≤ 600 ∧
    (∀ x ∈ transcript .honoured script after [⟨700, 700, "c"⟩, ⟨1099, 1099, "d"⟩],
      ∃ r', x.2 = .ok r' ∧ r'.allowed = 0) ∧
    admitted (⟨1100, 1100, "e"⟩, (serve .honoured script
      (keyspace .honoured script after [⟨700, 700, "c"⟩, ⟨1099, 1099, "d"⟩])
        ⟨1100, 1100, "e"⟩).1) = true := by
  intro script after
  obtain ⟨hPositive, hPolls⟩ := @retryAfter_sound_and_tight ⟨.slidingWindow, "rl"⟩ "acme"
    ⟨1, 1000000000, 0⟩ ⟨by decide, by decide, by decide⟩ empty ⟨rfl, fun _ => rfl⟩
    [⟨100, 100, "a"⟩] ⟨500, 500, "b"⟩ (by simp [InOrder]) (by simp [OnTime])
    ⟨0, 0, 600, 600⟩ (by decide +kernel) rfl
  obtain ⟨hRefused, hAdmitted⟩ := hPolls [⟨700, 700, "c"⟩, ⟨1099, 1099, "d"⟩]
    (by simp [InOrder]) (by simp [OnTime])
  exact ⟨hPositive, hRefused (by simp), hAdmitted (by simp) (by decide +kernel) _ rfl rfl⟩

end RatelimitGateway.Limiter
