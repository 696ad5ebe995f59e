import RatelimitGateway.Limiter.Remaining

/-!
# Coherent replies

The three scripts build the four fields of a reply in different ways. What a
caller may rely on in any of them does not depend on the clock, nor on the
quota staying what it was when the key was last written (`Coherent`): all it
takes is that a bucket never holds a negative balance, and that a counter
never goes below one (`Sound`).

* `replies_coherent` — every reply of every run is coherent, and a bucket is
  left with less than its burst.
-/

namespace RatelimitGateway.Limiter

open KeyStore Redis

/-- What a reply may say under an applied limit. -/
structure Coherent (applied : ℤ) (r : Reply) : Prop where
  verdict  : r.allowed = 0 ∨ r.allowed = 1
  bounded  : 0 ≤ r.remaining ∧ r.remaining ≤ applied
  allowed  : r.allowed = 1 → r.remaining ≤ applied - 1 ∧ r.retryAfterMs = 0
  refused  : r.allowed = 0 →
    r.remaining = 0 ∧ 1 ≤ r.retryAfterMs ∧ r.retryAfterMs ≤ r.resetAfterMs

-- ---------------------------------------------------------------------------
-- token_bucket.lua
-- ---------------------------------------------------------------------------

section Bucket

variable {rate avail : ℚ} {burst : ℤ}

/-- A call leaves less than a full bucket. -/
theorem tokensLeft_bounds (hBurst : 1 ≤ burst) (hAvail : 0 ≤ avail) (hFull : avail ≤ burst) :
    0 ≤ tokensLeft 1 avail ∧ tokensLeft 1 avail < burst := by
  have hOne : (1 : ℚ) ≤ burst := by exact_mod_cast hBurst
  unfold tokensLeft
  split
  · constructor <;> linarith
  · exact ⟨hAvail, by linarith⟩

/-- The reply to a call that finds between nothing and the burst is coherent. -/
theorem coherent_bucketReply (hRate : 0 < rate) (hBurst : 1 ≤ burst) (hAvail : 0 ≤ avail)
    (hFull : avail ≤ burst) : Coherent burst (bucketReply rate burst 1 avail) := by
  have hOne : (1 : ℚ) ≤ burst := by exact_mod_cast hBurst
  obtain ⟨hLow, hHigh⟩ := tokensLeft_bounds hBurst hAvail hFull
  have hFloor : ⌊tokensLeft 1 avail⌋ < burst := Int.floor_lt.mpr hHigh
  unfold bucketReply
  refine ⟨?_, ⟨Int.floor_nonneg.mpr hLow, hFloor.le⟩, fun hTaken => ?_, fun hRefused => ?_⟩
  · dsimp only
    split <;> simp
  · -- allowed: a whole token was there, so the wait is zero
    have hEnough : 1 ≤ avail := by
      by_contra hShort
      simp [hShort] at hTaken
    refine ⟨?_, if_neg fun h => absurd h.1 (not_lt.mpr hEnough)⟩
    dsimp only
    omega
  · -- refused: part of a token is missing, and a full bucket takes longer than one token
    have hShort : avail < 1 := by
      by_contra hEnough
      simp [not_lt.mp hEnough] at hRefused
    have hLeft : tokensLeft 1 avail = avail := if_neg (not_le.mpr hShort)
    have hWait : 0 < (1 - avail) / rate * 1000 :=
      mul_pos (div_pos (by linarith) hRate) (by norm_num)
    have hLonger : (1 - avail) / rate * 1000 ≤ (burst - avail) / rate * 1000 := by
      gcongr
    refine ⟨?_, ?_, ?_⟩
    · dsimp only
      rw [hLeft, Int.floor_eq_zero_iff]
      exact ⟨hAvail, hShort⟩
    · dsimp only
      rw [if_pos ⟨hShort, hRate⟩]
      exact Int.one_le_ceil_iff.mpr hWait
    · dsimp only
      rw [if_pos ⟨hShort, hRate⟩, bucketReset, if_pos ⟨hHigh, hRate⟩, hLeft]
      exact Int.ceil_le_ceil hLonger

/-- The key holds a bucket with a balance that is not negative, if anything. -/
def HoldsBalance (key : String) (s : Store) : Prop :=
  ∀ x, s key = some x → ∃ tokens updated, x.value = .hash ⟨some tokens, some updated⟩ ∧ 0 ≤ tokens

theorem HoldsBalance.kept {key : String} {s : Store} (h : HoldsBalance key s) :
    KeptBucket key s := by
  intro x hx
  obtain ⟨tokens, updated, hValue, -⟩ := h x hx
  exact ⟨_, hValue⟩

/-- A call finds no negative balance either, whatever it asks for. -/
theorem HoldsBalance.found_nonneg {key : String} {s : Store} (h : HoldsBalance key s)
    (hRate : 0 < rate) (hBurst : 1 ≤ burst) (e : Expiry) (c : Call) :
    0 ≤ found e key rate burst s c := by
  have hZero : (0 : ℚ) ≤ burst := by exact_mod_cast zero_le_one.trans hBurst
  cases hFind : find ⟨e, c.execAt⟩ s key with
  | none =>
    rw [found_of_gone hFind]
    exact hZero
  | some x =>
    obtain ⟨v, d⟩ := x
    obtain ⟨tokens, updated, rfl, hTokens⟩ := h _ (find_eq_some_iff.mp hFind).1
    have hFound : found e key rate burst s c =
        min (burst : ℚ) (tokens + max 0 (c.nowMs - updated) / 1000 * rate) := by
      simp only [found, bucketFields, valueAt, hFind, Option.map_some, available]
    have hElapsed : (0 : ℚ) ≤ max 0 (c.nowMs - updated) / 1000 * rate := by positivity
    rw [hFound]
    exact le_min hZero (by linarith)

end Bucket

/-- What a call leaves under the key, between zero and the burst it asked for. -/
def LeavesLess (key : String) (burst : ℤ) (s : Store) : Prop :=
  ∃ tokens updated d, s key = some ⟨.hash ⟨some tokens, some updated⟩, d⟩ ∧
    0 ≤ tokens ∧ tokens < burst

/-- What is left of a bucket is a balance. -/
theorem LeavesLess.holdsBalance {key : String} {burst : ℤ} {s : Store}
    (h : LeavesLess key burst s) : HoldsBalance key s := by
  obtain ⟨tokens, updated, d, hEntry, hTokens, -⟩ := h
  intro x hx
  obtain rfl := Option.some.inj (hEntry.symm.trans hx)
  exact ⟨tokens, updated, rfl, hTokens⟩

/-- The token bucket replies coherently, and leaves less than its burst. -/
theorem coherent_tokenBucket {e : Expiry} {key : String} {rate : ℚ} {burst : ℤ} (hRate : 0 < rate)
    (hBurst : 1 ≤ burst) {s : Store} (hBalance : HoldsBalance key s) (c : Call) :
    (∃ r, (serve e (tokenBucketCall key rate burst) s c).1 = .ok r ∧ Coherent burst r) ∧
      LeavesLess key burst (serve e (tokenBucketCall key rate burst) s c).2 := by
  have hAvail := hBalance.found_nonneg hRate hBurst e c
  have hFull : found e key rate burst s c ≤ burst := found_le_burst s c
  obtain ⟨hLow, hHigh⟩ := tokensLeft_bounds hBurst hAvail hFull
  rw [serve_bucket (hBalance.kept.holdsHash _)]
  refine ⟨⟨_, rfl, coherent_bucketReply hRate hBurst hAvail hFull⟩, ?_⟩
  exact ⟨_, _, _, Function.update_self .., hLow, hHigh⟩

-- ---------------------------------------------------------------------------
-- sliding_window.lua
-- ---------------------------------------------------------------------------

/-- The key holds a log, if anything. -/
def HoldsLog (key : String) (s : Store) : Prop := ∀ x, s key = some x → ∃ z, x.value = .zset z

theorem HoldsLog.holdsZset {key : String} {s : Store} (h : HoldsLog key s) (c : Clock) :
    HoldsZset c s key := by
  intro v hv
  obtain ⟨x, hx, rfl⟩ := exists_entry hv
  exact h x hx

/-- A log is left as a log. -/
theorem holdsLog_update {key : String} {s : Store} {k : Clock} {windowMs : ℤ}
    {log : SortedSet ℤ String} :
    HoldsLog key (Function.update s key (logEntry k windowMs log)) := by
  intro x hx
  obtain rfl := entry_of_logUpdate hx
  exact ⟨log, rfl⟩

/-- Every entry that survives the prune has time left, in the log or not. -/
theorem coherent_slidingReply {windowMs limit : ℤ} (hLimit : 1 ≤ limit) (c : Call)
    (log : SortedSet ℤ String) :
    Coherent limit (slidingReply c.nowMs windowMs limit c.member log) := by
  by_cases hRoom : ((log.removeUpTo (c.nowMs - windowMs)).card : ℤ) < limit
  · simp only [slidingReply, hRoom, if_true]
    refine ⟨.inr rfl, ⟨le_max_left _ _, ?_⟩, fun _ => ⟨?_, rfl⟩, fun h => by cases h⟩
    · dsimp only
      omega
    · dsimp only
      omega
  · -- refused: the log is full, so it has an oldest entry, still inside the window
    have hAfter : logAfter c.nowMs windowMs limit c.member log =
        log.removeUpTo (c.nowMs - windowMs) := by
      unfold logAfter
      exact if_neg hRoom
    obtain ⟨⟨score, member⟩, hFirst⟩ := SortedSet.exists_lowest
      (z := log.removeUpTo (c.nowMs - windowMs)) (by omega)
    have hLater := (SortedSet.mem_removeUpTo.mp (SortedSet.lowest?_mem hFirst)).2
    have hReset : slidingReset c.nowMs windowMs (logAfter c.nowMs windowMs limit c.member log) =
        max 0 (score + windowMs - c.nowMs) := by
      simp only [slidingReset, hAfter, hFirst]
    simp only [slidingReply, hRoom, if_false, hReset]
    dsimp only at hLater
    refine ⟨.inl rfl, ⟨le_max_left _ _, ?_⟩, fun h => (by cases h), fun _ => ⟨?_, ?_, le_rfl⟩⟩
    · dsimp only
      omega
    · dsimp only
      omega
    · dsimp only
      omega

/-- The sliding window replies coherently over any log. -/
theorem coherent_slidingWindow {e : Expiry} {key : String} {windowMs limit : ℤ}
    (hLimit : 1 ≤ limit) {s : Store} (hLog : HoldsLog key s) (c : Call) :
    (∃ r, (serve e (slidingWindowCall key windowMs limit) s c).1 = .ok r ∧ Coherent limit r) ∧
      HoldsLog key (serve e (slidingWindowCall key windowMs limit) s c).2 := by
  rw [serve_log (hLog.holdsZset _)]
  exact ⟨⟨_, rfl, coherent_slidingReply hLimit c _⟩, holdsLog_update⟩

-- ---------------------------------------------------------------------------
-- fixed_window.lua
-- ---------------------------------------------------------------------------

/-- Every window that has a counter counts at least one call. -/
def HoldsCounts (keyPrefix : String) (s : Store) : Prop :=
  ∀ (k : ℤ) (x : Entry Value), s (windowKey keyPrefix (.whole k)) = some x →
    ∃ n : ℤ, x.value = .counter n ∧ 1 ≤ n

/-- A count can be incremented. -/
theorem HoldsCounts.holdsCounter {keyPrefix : String} {s : Store} (h : HoldsCounts keyPrefix s)
    (c : Clock) (k : ℤ) : HoldsCounter c s (windowKey keyPrefix (.whole k)) := by
  intro v hv
  obtain ⟨x, hx, rfl⟩ := exists_entry hv
  obtain ⟨n, hValue, -⟩ := h k x hx
  exact ⟨n, hValue⟩

/-- No window has counted less than nothing. -/
theorem HoldsCounts.counterAt_nonneg {keyPrefix : String} {s : Store}
    (h : HoldsCounts keyPrefix s) (c : Clock) (k : ℤ) :
    0 ≤ counterAt c s (windowKey keyPrefix (.whole k)) := by
  unfold counterAt
  split
  · rename_i n hSeen
    obtain ⟨x, hx, hValue⟩ := exists_entry hSeen
    obtain ⟨m, hCounter, hOne⟩ := h k x hx
    obtain rfl := Value.counter.inj (hValue.symm.trans hCounter)
    omega
  · exact le_rfl

/-- The end of the window is ahead of every call that is stamped in it. -/
theorem coherent_fixedReply {windowMs limit count : ℤ} (hWindow : 1 ≤ windowMs)
    (hLimit : 1 ≤ limit) (hCount : 1 ≤ count) (nowMs : ℤ) :
    Coherent limit (fixedReply nowMs windowMs limit count) := by
  have hIndex := windowIndex_whole hWindow nowMs
  have hEnd := ((windowIndex_eq_iff hWindow).mp hIndex).2
  have hReset := resetAfterMs_eq hWindow hIndex
  unfold fixedReply
  rw [hReset]
  -- the counter was above the limit before this call or is not
  by_cases hOver : count > limit
  · simp only [hOver, if_true]
    refine ⟨.inl rfl, ⟨le_max_left _ _, ?_⟩, fun h => (by cases h), fun _ => ⟨?_, ?_, le_rfl⟩⟩
    · dsimp only
      omega
    · dsimp only
      omega
    · dsimp only
      omega
  · simp only [hOver, if_false]
    refine ⟨.inr rfl, ⟨le_max_left _ _, ?_⟩, fun _ => ⟨?_, rfl⟩, fun h => by cases h⟩
    · dsimp only
      omega
    · dsimp only
      omega

/-- The fixed window replies coherently over any counts. -/
theorem coherent_fixedWindow {e : Expiry} {keyPrefix : String} {windowMs limit : ℤ}
    (hWindow : 1 ≤ windowMs) (hLimit : 1 ≤ limit) {s : Store} (hCounts : HoldsCounts keyPrefix s)
    (c : Call) :
    (∃ r, (serve e (fixedWindowCall keyPrefix windowMs limit) s c).1 = .ok r ∧
        Coherent limit r) ∧
      HoldsCounts keyPrefix (serve e (fixedWindowCall keyPrefix windowMs limit) s c).2 := by
  have hIndex := windowIndex_whole hWindow c.nowMs
  generalize ⌊(c.nowMs : ℚ) / windowMs⌋ = k at hIndex
  have hBefore := hCounts.counterAt_nonneg ⟨e, c.execAt⟩ k
  rw [serve_counter (hCounts.holdsCounter _ k) hIndex]
  refine ⟨⟨_, rfl, coherent_fixedReply hWindow hLimit (by omega) c.nowMs⟩, fun j x hx => ?_⟩
  dsimp only at hx
  -- the counter of the call goes up by one; the others are as they were
  by_cases hjk : j = k
  · subst hjk
    rw [Function.update_self] at hx
    obtain rfl := Option.some.inj hx
    exact ⟨_, rfl, by omega⟩
  · rw [update_windowKey_of_ne hjk] at hx
    exact hCounts j x hx

-- ---------------------------------------------------------------------------
-- Runs under changing quotas
-- ---------------------------------------------------------------------------

/-- One call under a quota of its own. -/
def serveUnder (e : Expiry) (l : RedisLimiter) (key : String) (s : Store) (x : Quota × Call) :
    Except RedisError Reply × Store :=
  serve e (l.script key x.1) s x.2

/-- What the algorithm leaves under the key, whatever the quota was. -/
def Sound (l : RedisLimiter) (key : String) (s : Store) : Prop :=
  match l.alg with
  | .tokenBucket => HoldsBalance (l.redisKey key) s
  | .slidingWindow => HoldsLog (l.redisKey key) s
  | .fixedWindow => HoldsCounts (l.redisKey key) s

/-- An unused key is sound. -/
theorem sound_of_unused {l : RedisLimiter} {key : String} {s : Store} (h : Unused l key s) :
    Sound l key s := by
  unfold Sound
  split
  · intro x hx
    rw [h.entry] at hx
    cases hx
  · intro x hx
    rw [h.entry] at hx
    cases hx
  · intro k x hx
    rw [h.counters k] at hx
    cases hx

/-- One call from a sound store. -/
theorem coherent_step {e : Expiry} {l : RedisLimiter} {key : String} {q : Quota}
    (hq : ValidQuota q) {s : Store} (hSound : Sound l key s) (c : Call) :
    (∃ r, (serve e (l.script key q) s c).1 = .ok r ∧ Coherent (l.appliedLimit q) r) ∧
      Sound l key (serve e (l.script key q) s c).2 ∧
      (l.alg = .tokenBucket →
        LeavesLess (l.redisKey key) q.burstCapacity (serve e (l.script key q) s c).2) := by
  unfold Sound RedisLimiter.appliedLimit at *
  cases hAlg : l.alg with
  | tokenBucket =>
    rw [hAlg] at hSound
    rw [script_tokenBucket hAlg]
    obtain ⟨hReply, hLess⟩ := coherent_tokenBucket hq.rate_pos hq.burst_pos hSound c (e := e)
    exact ⟨hReply, hLess.holdsBalance, fun _ => hLess⟩
  | slidingWindow =>
    rw [hAlg] at hSound
    rw [script_slidingWindow hAlg]
    obtain ⟨hReply, hLog⟩ := coherent_slidingWindow hq.limit hSound c (e := e)
    exact ⟨hReply, hLog, fun h => by cases h⟩
  | fixedWindow =>
    rw [hAlg] at hSound
    rw [script_fixedWindow hAlg]
    obtain ⟨hReply, hCounts⟩ := coherent_fixedWindow hq.window hq.limit hSound c (e := e)
    exact ⟨hReply, hCounts, fun h => by cases h⟩

/-- What holds after every call of a run. -/
structure CoherentInv (l : RedisLimiter) (key : String)
    (tr : List ((Quota × Call) × Except RedisError Reply)) (s : Store) : Prop where
  replies : ∀ y ∈ tr, ∃ r, y.2 = .ok r ∧ Coherent (l.appliedLimit y.1.1) r
  sound   : Sound l key s

/-- Every run keeps the key sound and replies coherently, under whatever quotas. -/
theorem coherentInv_run {e : Expiry} {l : RedisLimiter} {key : String} {s : Store}
    (hUnused : Unused l key s) {run : List (Quota × Call)} (hQuotas : ∀ x ∈ run, ValidQuota x.1) :
    CoherentInv l key (Machine.trace (serveUnder e l key) s run)
      (Machine.final (serveUnder e l key) s run) := by
  refine Machine.trace_invariant_of_prefix (C := fun _ (x : Quota × Call) => ValidQuota x.1)
    (P := CoherentInv l key) ⟨fun y hy => (by cases hy), sound_of_unused hUnused⟩ ?_ ?_
  · rintro tr s x hq ⟨hReplies, hSound⟩
    obtain ⟨hReply, hNext, -⟩ := coherent_step hq hSound x.2 (e := e)
    refine ⟨fun y hy => ?_, hNext⟩
    rcases List.mem_append.mp hy with hOld | hNew
    · exact hReplies y hOld
    · rw [List.mem_singleton.mp hNew]
      exact hReply
  · rintro pre x post rfl
    exact hQuotas x (List.mem_append_right _ List.mem_cons_self)

/--
**Every reply is coherent.** On an unused key, for calls in any order of
stamps, each under a quota of its own, whether or not Redis removes keys that
have run out, and whenever it does: every reply is coherent under the limit of
its call, and after every call a bucket holds a balance from zero up to, but
not including, the burst of that call.
-/
theorem replies_coherent {e : Expiry} {l : RedisLimiter} {key : String} {s : Store}
    (hUnused : Unused l key s) {run : List (Quota × Call)} (hQuotas : ∀ x ∈ run, WholeQuota x.1) :
    (∀ y ∈ Machine.trace (serveUnder e l key) s run,
        ∃ r, y.2 = .ok r ∧ Coherent (l.appliedLimit y.1.1) r) ∧
      (l.alg = .tokenBucket → ∀ pre x post, run = pre ++ x :: post →
        LeavesLess (l.redisKey key) x.1.burstCapacity
          (Machine.final (serveUnder e l key) s (pre ++ [x]))) := by
  have hValid : ∀ x ∈ run, ValidQuota x.1 := fun x hx => (hQuotas x hx).valid
  refine ⟨(coherentInv_run hUnused hValid).replies, ?_⟩
  rintro hAlg pre x post rfl
  have hPre : ∀ y ∈ pre, ValidQuota y.1 := fun y hy => hValid y (List.mem_append_left _ hy)
  have hBefore := (coherentInv_run hUnused hPre (e := e)).sound
  have hq := hValid x (List.mem_append_right _ List.mem_cons_self)
  rw [Machine.final_concat]
  exact (coherent_step hq hBefore x.2).2.2 hAlg

/-- The clock steps back by two seconds, and the limit drops from 5 to 1. -/
theorem replies_coherent_demo :
    let run : List (Quota × Call) :=
      [(⟨5, 1000000000, 0⟩, ⟨3000, 3000, ""⟩), (⟨1, 1000000000, 0⟩, ⟨1000, 1000, ""⟩)]
    (∀ y ∈ Machine.trace (serveUnder .honoured ⟨.tokenBucket, "rl"⟩ "acme") empty run,
        ∃ r, y.2 = .ok r ∧
          Coherent (RedisLimiter.appliedLimit ⟨.tokenBucket, "rl"⟩ y.1.1) r) ∧
      (Algorithm.tokenBucket = .tokenBucket →
        ∀ (pre : List (Quota × Call)) (x : Quota × Call) (post : List (Quota × Call)),
          run = pre ++ x :: post →
          LeavesLess (RedisLimiter.redisKey ⟨.tokenBucket, "rl"⟩ "acme") x.1.burstCapacity
            (Machine.final (serveUnder .honoured ⟨.tokenBucket, "rl"⟩ "acme") empty
              (pre ++ [x]))) := by
  intro run
  refine @replies_coherent .honoured ⟨.tokenBucket, "rl"⟩ "acme" empty ⟨rfl, fun _ => rfl⟩ run
    fun x hx => ?_
  simp only [run, List.mem_cons, List.not_mem_nil, or_false] at hx
  rcases hx with rfl | rfl <;> exact ⟨by decide, by decide, by decide⟩

end RatelimitGateway.Limiter
