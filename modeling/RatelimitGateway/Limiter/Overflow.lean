import RatelimitGateway.Limiter.Coherent
import RatelimitGateway.Limiter.Conversion
import RatelimitGateway.Limiter.Waiting

/-!
# Hints that do not fit a duration

`Allow` turns the milliseconds of a reply into a duration by a product of
machine integers. The hints of the two window algorithms never exceed the
window, which is a duration itself; those of a token bucket are the time it
takes to refill, and nothing relates that to the window: a large burst with a
slow refill needs longer than a duration can say.

* `hints_exact_iff` — when the hints of a call are exact, and the tiers whose
  hints always are.
-/

namespace RatelimitGateway.Limiter

open KeyStore Redis

/-- The milliseconds that fit a duration. -/
def maxHintMs : ℤ := 9223372036854

/-- A quota that `tenant.Load` accepts: machine integers, the limit and the
window positive. -/
structure AcceptedQuota (q : Quota) : Prop where
  limit  : 0 < q.limit ∧ q.limit < 2 ^ 63
  window : 0 < q.window ∧ q.window < 2 ^ 63
  burst  : -2 ^ 63 ≤ q.burst ∧ q.burst < 2 ^ 63

/-- The durations of the decision are the milliseconds of the reply. -/
structure Exact (l : RedisLimiter) (q : Quota) (r : Reply) : Prop where
  retry  : (l.decision q r).retryAfter = r.retryAfterMs * 1000000
  reset  : (l.decision q r).resetAfter = r.resetAfterMs * 1000000
  nonneg : 0 ≤ (l.decision q r).retryAfter ∧ 0 ≤ (l.decision q r).resetAfter

/-- An accepted quota refills. -/
theorem AcceptedQuota.rate_pos {q : Quota} (hq : AcceptedQuota q) : 0 < q.ratePerSecond := by
  have hLimit : (0 : ℚ) < q.limit := by exact_mod_cast hq.limit.1
  have hWindow : (0 : ℚ) < q.window := by exact_mod_cast hq.window.1
  unfold Quota.ratePerSecond
  rw [if_neg (not_le.mpr hq.window.1)]
  positivity

theorem AcceptedQuota.burst_pos {q : Quota} (hq : AcceptedQuota q) : 1 ≤ q.burstCapacity := by
  have hLimit := hq.limit.1
  unfold Quota.burstCapacity
  split <;> omega

/-- A window is a duration, so its milliseconds fit one. -/
theorem AcceptedQuota.windowMs_le {q : Quota} (hq : AcceptedQuota q) :
    0 ≤ q.windowMs ∧ q.windowMs ≤ maxHintMs := by
  have hWindow := hq.window
  obtain ⟨hLow, hHigh, -⟩ := windowMs_bounds hWindow.1
  unfold maxHintMs
  omega

/-- A number of milliseconds fits into a duration, or wraps around. -/
theorem int64_ms_eq_iff {ms : ℤ} (hMs : 0 ≤ ms) :
    int64 (ms * 1000000) = ms * 1000000 ↔ ms ≤ maxHintMs := by
  unfold int64 maxHintMs
  constructor
  · intro hSame
    have hRange := Int.bmod_lt (x := ms * 1000000) (m := 2 ^ 64) (by decide)
    omega
  · intro hFits
    exact Int.bmod_eq_of_le (by omega) (by omega)

/-- The longer of the two hints decides. -/
theorem exact_iff {l : RedisLimiter} {q : Quota} {r : Reply} (hRetry : 0 ≤ r.retryAfterMs)
    (hReset : r.retryAfterMs ≤ r.resetAfterMs) : Exact l q r ↔ r.resetAfterMs ≤ maxHintMs := by
  have hLong := int64_ms_eq_iff (hRetry.trans hReset)
  constructor
  · intro hExact
    exact hLong.mp hExact.reset
  · intro hFits
    have hShort := (int64_ms_eq_iff hRetry).mpr (hReset.trans hFits)
    refine ⟨hShort, hLong.mpr hFits, ?_, ?_⟩
    · show 0 ≤ int64 (r.retryAfterMs * 1000000)
      rw [hShort]
      omega
    · show 0 ≤ int64 (r.resetAfterMs * 1000000)
      rw [hLong.mpr hFits]
      omega

-- ---------------------------------------------------------------------------
-- One call
-- ---------------------------------------------------------------------------

/-- What is missing from the bucket after the call refills within the longest
duration. -/
def RefillFits (rate : ℚ) (burst : ℤ) (avail : ℚ) : Prop :=
  burst - tokensLeft 1 avail ≤ maxHintMs / 1000 * rate

/-- The hints of a bucket are exact when its refill fits. -/
theorem exact_bucketReply {l : RedisLimiter} {q : Quota} {rate : ℚ} {burst : ℤ}
    (hRate : 0 < rate) (hBurst : 1 ≤ burst) {avail : ℚ} (hAvail : 0 ≤ avail)
    (hFull : avail ≤ burst) :
    Exact l q (bucketReply rate burst 1 avail) ↔ RefillFits rate burst avail := by
  have hCoherent := coherent_bucketReply hRate hBurst hAvail hFull
  have hHints : 0 ≤ (bucketReply rate burst 1 avail).retryAfterMs ∧
      (bucketReply rate burst 1 avail).retryAfterMs ≤
        (bucketReply rate burst 1 avail).resetAfterMs := by
    rcases hCoherent.verdict with hRefused | hAllowed
    · obtain ⟨-, hOne, hLess⟩ := hCoherent.refused hRefused
      exact ⟨by omega, hLess⟩
    · rw [(hCoherent.allowed hAllowed).2]
      exact ⟨le_rfl, bucketReset_nonneg⟩
  rw [exact_iff hHints.1 hHints.2]
  show bucketReset rate burst 1 avail ≤ maxHintMs ↔ _
  rw [bucketReset, if_pos ⟨(tokensLeft_bounds hBurst hAvail hFull).2, hRate⟩,
    ← le_refill_iff hRate, RefillFits, sub_le_iff_le_add']

/-- The log has room for the call, or an entry that runs out within the longest
duration. -/
def LogFits (nowMs windowMs limit : ℤ) (log : SortedSet ℤ String) : Prop :=
  ((log.removeUpTo (nowMs - windowMs)).card : ℤ) < limit ∨
    ∃ x ∈ log.entries, nowMs - windowMs < x.1 ∧ x.1 + windowMs - nowMs ≤ maxHintMs

/-- Those of a log are when its age-out fits. -/
theorem exact_slidingReply {l : RedisLimiter} {q : Quota} {windowMs limit : ℤ} (hLimit : 1 ≤ limit)
    (hWindow : windowMs ≤ maxHintMs) (c : Call) (log : SortedSet ℤ String) :
    Exact l q (slidingReply c.nowMs windowMs limit c.member log) ↔
      LogFits c.nowMs windowMs limit log := by
  have hSome : 0 < (logAfter c.nowMs windowMs limit c.member log).card := logAfter_pos hLimit
  obtain ⟨⟨score, member⟩, hFirst⟩ := SortedSet.exists_lowest hSome
  have hReset : slidingReset c.nowMs windowMs (logAfter c.nowMs windowMs limit c.member log) =
      max 0 (score + windowMs - c.nowMs) := by
    simp only [slidingReset, hFirst]
  have hLeast := fun y hy => SortedSet.lowest?_le hFirst (y := y) hy
  have hMember := SortedSet.lowest?_mem hFirst
  have hPositive : (0 : ℤ) ≤ maxHintMs := by decide
  dsimp only at hLeast
  unfold LogFits
  by_cases hRoom : ((log.removeUpTo (c.nowMs - windowMs)).card : ℤ) < limit
  · -- the call is in the log itself
    have hAfter : logAfter c.nowMs windowMs limit c.member log =
        (log.removeUpTo (c.nowMs - windowMs)).add c.nowMs c.member := if_pos hRoom
    have hNow := hLeast (c.nowMs, c.member) (by
      rw [hAfter]
      exact SortedSet.mem_add.mpr (.inl rfl))
    refine iff_of_true ?_ (.inl hRoom)
    simp only [slidingReply, hRoom, if_true, hReset]
    refine (exact_iff (le_refl (0 : ℤ)) (le_max_left _ _)).mpr ?_
    dsimp only at hNow ⊢
    omega
  · -- the log is full: the reset time is the age-out of its oldest entry
    have hAfter : logAfter c.nowMs windowMs limit c.member log =
        log.removeUpTo (c.nowMs - windowMs) := if_neg hRoom
    rw [hAfter] at hLeast hMember
    obtain ⟨hOld, hLater⟩ := SortedSet.mem_removeUpTo.mp hMember
    simp only [slidingReply, hRoom, if_false, hReset]
    rw [exact_iff (le_max_left _ _) le_rfl, false_or]
    dsimp only
    constructor
    · intro hFits
      exact ⟨_, hOld, hLater, by omega⟩
    · rintro ⟨x, hx, hAlive, hFits⟩
      have hScore := hLeast x (SortedSet.mem_removeUpTo.mpr ⟨hx, hAlive⟩)
      omega

/-- The end of the window is never further than the window is long. -/
theorem windowIndex_reset_bounds {windowMs : ℤ} (hWindow : 0 ≤ windowMs) (nowMs : ℤ) :
    0 ≤ (windowIndex nowMs windowMs).resetAfterMs nowMs windowMs ∧
      (windowIndex nowMs windowMs).resetAfterMs nowMs windowMs ≤ windowMs := by
  rcases hWindow.lt_or_eq with hSome | rfl
  · have hIndex := windowIndex_whole hSome nowMs
    obtain ⟨hStart, hEnd⟩ := (windowIndex_eq_iff hSome).mp hIndex
    rw [resetAfterMs_eq hSome hIndex, add_mul, one_mul]
    rw [add_mul, one_mul] at hEnd
    omega
  · unfold windowIndex
    rw [if_neg (not_not.mpr rfl)]
    split
    · exact ⟨le_rfl, le_rfl⟩
    · split <;> exact ⟨le_rfl, le_rfl⟩

/-- A window that fits has hints that fit. -/
theorem exact_fixedReply {l : RedisLimiter} {q : Quota} {windowMs : ℤ} (hWindow : 0 ≤ windowMs)
    (hFits : windowMs ≤ maxHintMs) (nowMs limit count : ℤ) :
    Exact l q (fixedReply nowMs windowMs limit count) := by
  obtain ⟨hLow, hHigh⟩ := windowIndex_reset_bounds hWindow nowMs
  unfold fixedReply
  split
  · exact (exact_iff hLow le_rfl).mpr (hHigh.trans hFits)
  · exact (exact_iff le_rfl hLow).mpr (hHigh.trans hFits)

-- ---------------------------------------------------------------------------
-- Reachable states
-- ---------------------------------------------------------------------------

/-- The log of some of the calls `pre`, under their stamps. -/
def LogOfStamps (key : String) (pre : List Call) (s : Store) : Prop :=
  ∀ x, s key = some x → ∃ z, x.value = .zset z ∧ ∀ e ∈ z.entries, ∃ a ∈ pre, e.1 = a.nowMs

theorem LogOfStamps.holdsLog {key : String} {pre : List Call} {s : Store}
    (h : LogOfStamps key pre s) : HoldsLog key s := by
  intro x hx
  obtain ⟨z, hValue, -⟩ := h x hx
  exact ⟨z, hValue⟩

/-- Every entry that a call finds carries the stamp of a call. -/
theorem LogOfStamps.found {key : String} {pre : List Call} {s : Store} (h : LogOfStamps key pre s)
    (e : Expiry) (c : Call) : ∀ x ∈ (foundLog e key s c).entries, ∃ a ∈ pre, x.1 = a.nowMs := by
  intro x hx
  cases hFind : find ⟨e, c.execAt⟩ s key with
  | none =>
    rw [foundLog_of_gone hFind] at hx
    exact absurd hx SortedSet.not_mem_empty
  | some y =>
    obtain ⟨v, d⟩ := y
    obtain ⟨z, rfl, hScores⟩ := h _ (find_eq_some_iff.mp hFind).1
    rw [foundLog_of_find hFind] at hx
    exact hScores x hx

/-- So does every entry that it leaves. -/
theorem logOfStamps_update {key : String} {pre : List Call} {s : Store} {k : Clock}
    {windowMs limit : ℤ} {c : Call} {log : SortedSet ℤ String}
    (hLog : ∀ x ∈ log.entries, ∃ a ∈ pre, x.1 = a.nowMs) :
    LogOfStamps key (pre ++ [c]) (Function.update s key
      (logEntry k windowMs (logAfter c.nowMs windowMs limit c.member log))) := by
  intro x hx
  obtain rfl := entry_of_logUpdate hx
  refine ⟨_, rfl, fun y hy => ?_⟩
  rcases mem_logAfter hy with rfl | ⟨hOld, -⟩
  · exact ⟨c, List.mem_append_right _ (List.mem_singleton_self c), rfl⟩
  · obtain ⟨a, ha, hScore⟩ := hLog y hOld
    exact ⟨a, List.mem_append_left _ ha, hScore⟩

/-- The keys of all windows hold counters, if anything. -/
def OnlyCounters (keyPrefix : String) (s : Store) : Prop :=
  ∀ (i : WindowIndex) (x : Entry Value), s (windowKey keyPrefix i) = some x →
    ∃ n : ℤ, x.value = .counter n

theorem OnlyCounters.holdsCounter {keyPrefix : String} {s : Store} (h : OnlyCounters keyPrefix s)
    (c : Clock) (i : WindowIndex) : HoldsCounter c s (windowKey keyPrefix i) := by
  intro v hv
  obtain ⟨x, hx, rfl⟩ := exists_entry hv
  exact h i x hx

/-- What the calls `pre` leave under the key, each under some quota. -/
def Reached (l : RedisLimiter) (key : String) (pre : List Call) (s : Store) : Prop :=
  match l.alg with
  | .tokenBucket => HoldsBalance (l.redisKey key) s
  | .slidingWindow => LogOfStamps (l.redisKey key) pre s
  | .fixedWindow => OnlyCounters (l.redisKey key) s

/-- No call was made on an unused key. -/
theorem reached_of_unused {l : RedisLimiter} {key : String} {s : Store} (h : NeverUsed l key s) :
    Reached l key [] s := by
  unfold Reached
  split
  · intro x hx
    rw [h.entry] at hx
    cases hx
  · intro x hx
    rw [h.entry] at hx
    cases hx
  · intro i x hx
    rw [h.counters i] at hx
    cases hx

/-- When the hints of a call are exact, in terms of what it finds. -/
def HintsFit (e : Expiry) (l : RedisLimiter) (key : String) (q : Quota) (s : Store) (c : Call) :
    Prop :=
  match l.alg with
  | .tokenBucket => RefillFits q.ratePerSecond q.burstCapacity
      (found e (l.redisKey key) q.ratePerSecond q.burstCapacity s c)
  | .slidingWindow => LogFits c.nowMs q.windowMs q.limit (foundLog e (l.redisKey key) s c)
  | .fixedWindow => True

/-- One call in a reachable state. -/
theorem exact_step {e : Expiry} {l : RedisLimiter} {key : String} {q : Quota}
    (hq : AcceptedQuota q) {pre : List Call} {s : Store} (hReached : Reached l key pre s)
    (c : Call) :
    (∃ r, (serve e (l.script key q) s c).1 = .ok r ∧ (Exact l q r ↔ HintsFit e l key q s c)) ∧
      Reached l key (pre ++ [c]) (serve e (l.script key q) s c).2 := by
  have hLimit : 1 ≤ q.limit := hq.limit.1
  obtain ⟨hLow, hHigh⟩ := hq.windowMs_le
  unfold Reached HintsFit at *
  cases hAlg : l.alg with
  | tokenBucket =>
    rw [hAlg] at hReached
    dsimp only at hReached ⊢
    rw [script_tokenBucket hAlg]
    have hLess := (coherent_tokenBucket hq.rate_pos hq.burst_pos hReached c (e := e)).2
    refine ⟨?_, hLess.holdsBalance⟩
    rw [serve_bucket (hReached.kept.holdsHash _)]
    refine ⟨_, rfl, exact_bucketReply hq.rate_pos hq.burst_pos ?_ (found_le_burst s c)⟩
    exact hReached.found_nonneg hq.rate_pos hq.burst_pos e c
  | slidingWindow =>
    -- the log holds stamps of earlier calls, so the reset time is known from them
    rw [hAlg] at hReached
    dsimp only at hReached ⊢
    rw [script_slidingWindow hAlg, serve_log (hReached.holdsLog.holdsZset _)]
    exact ⟨⟨_, rfl, exact_slidingReply hLimit hHigh c _⟩, logOfStamps_update (hReached.found e c)⟩
  | fixedWindow =>
    -- the hints are at most the window, which fits into an int64 of milliseconds
    rw [hAlg] at hReached
    dsimp only at hReached ⊢
    have hRun := exec_fixedWindow (c := ⟨e, c.execAt⟩) q.limit rfl
      (hReached.holdsCounter _ (windowIndex c.nowMs q.windowMs))
    rw [script_fixedWindow hAlg, serve, fixedWindowCall, hRun]
    refine ⟨⟨_, rfl, iff_of_true (exact_fixedReply hLow hHigh _ _ _) trivial⟩, fun i x hx => ?_⟩
    dsimp only at hx
    by_cases hKey : windowKey (l.redisKey key) i =
        windowKey (l.redisKey key) (windowIndex c.nowMs q.windowMs)
    · rw [hKey, Function.update_self] at hx
      obtain rfl := Option.some.inj hx
      exact ⟨_, rfl⟩
    · rw [Function.update_of_ne hKey] at hx
      exact hReached i x hx

/-- Every run leads to a key that its calls have reached. -/
theorem reached_run {e : Expiry} {l : RedisLimiter} {key : String} {s : Store}
    (hUnused : NeverUsed l key s) {run : List (Quota × Call)}
    (hQuotas : ∀ x ∈ run, AcceptedQuota x.1) :
    Reached l key (run.map Prod.snd) (Machine.final (serveUnder e l key) s run) := by
  have hRun := @Machine.trace_invariant_of_prefix _ _ _ (serveUnder e l key)
    (fun _ x => AcceptedQuota x.1) (fun tr s => Reached l key ((tr.map Prod.fst).map Prod.snd) s) s
    (reached_of_unused hUnused) ?_ run ?_
  · rwa [Machine.map_fst_trace] at hRun
  · intro tr s x hq hReached
    rw [List.map_append, List.map_append]
    exact (exact_step hq hReached x.2).2
  · rintro pre x post rfl
    exact hQuotas x (List.mem_append_right _ List.mem_cons_self)

-- ---------------------------------------------------------------------------
-- The tiers whose hints are always exact
-- ---------------------------------------------------------------------------

/-- Every call under `q` has exact hints, in every state that calls under
accepted quotas leave, the stamps never stepping back. -/
def HintsExact (l : RedisLimiter) (q : Quota) : Prop :=
  ∀ (e : Expiry) (key : String) (s : Store) (run : List (Quota × Call)) (c : Call),
    NeverUsed l key s → (∀ x ∈ run, AcceptedQuota x.1) → InOrder (run.map Prod.snd ++ [c]) →
    ∃ r, (serve e (l.script key q) (Machine.final (serveUnder e l key) s run) c).1 = .ok r ∧
      Exact l q r

/-- A drained bucket refills within the longest duration. -/
theorem burst_le_iff {q : Quota} (hq : AcceptedQuota q) :
    (q.burstCapacity : ℚ) ≤ maxHintMs / 1000 * q.ratePerSecond ↔
      q.burstCapacity * q.window ≤ maxHintMs * 1000000 * q.limit := by
  have hWindow : (0 : ℚ) < q.window := by exact_mod_cast hq.window.1
  have hRate : (maxHintMs : ℚ) / 1000 * q.ratePerSecond =
      ((maxHintMs * 1000000 * q.limit : ℤ) : ℚ) / q.window := by
    unfold Quota.ratePerSecond
    rw [if_neg (not_le.mpr hq.window.1)]
    push_cast
    field_simp
    ring
  rw [hRate, le_div_iff₀ hWindow]
  exact_mod_cast Iff.rfl

/-- `n` calls at one time. -/
def drain (n : ℕ) (q : Quota) : List (Quota × Call) := List.replicate n (q, ⟨0, 0, ""⟩)

/-- Calls at one time take one token each, until none is left. -/
theorem found_drained {e : Expiry} {l : RedisLimiter} (hAlg : l.alg = .tokenBucket) {key : String}
    {q : Quota} (hq : AcceptedQuota q) {s : Store} (hAbsent : s (l.redisKey key) = none) {n : ℕ}
    (hn : (n : ℤ) ≤ q.burstCapacity) :
    KeptBucket (l.redisKey key) (Machine.final (serveUnder e l key) s (drain n q)) ∧
      found e (l.redisKey key) q.ratePerSecond q.burstCapacity
        (Machine.final (serveUnder e l key) s (drain n q)) ⟨0, 0, ""⟩ = q.burstCapacity - n := by
  induction n with
  | zero =>
    refine ⟨keptBucket_of_absent hAbsent, ?_⟩
    rw [Nat.cast_zero, sub_zero]
    exact found_of_gone (find_eq_none_of_absent hAbsent)
  | succ n ih =>
    obtain ⟨hKept, hFound⟩ := ih (by omega)
    -- a call is still to come, so a whole token is left
    have hOne : (1 : ℚ) ≤ q.burstCapacity - n := by
      have hLess : ((n + 1 : ℕ) : ℤ) ≤ q.burstCapacity := hn
      have hCast : ((n + 1 : ℕ) : ℚ) ≤ q.burstCapacity := by exact_mod_cast hLess
      push_cast at hCast
      linarith
    have hSame : Follows e ⟨0, 0, ""⟩ ⟨0, 0, ""⟩ := fun _ => by decide
    rw [drain, List.replicate_succ', Machine.final_concat, ← drain, serveUnder,
      script_tokenBucket hAlg, serve_bucket (hKept.holdsHash _), hFound]
    refine ⟨keptBucket_update, ?_⟩
    dsimp only
    -- no time passes between the calls: nothing is refilled
    rw [found_next hq.rate_pos hSame, tokensLeft, if_pos hOne]
    push_cast
    simp only [max_self, zero_div, zero_mul, add_zero]
    rw [min_eq_right (by linarith [n.cast_nonneg (α := ℚ)])]
    ring

/-- The last token of a bucket that has just been drained takes the longest
hint. -/
theorem burst_le_of_hintsExact {l : RedisLimiter} (hAlg : l.alg = .tokenBucket) {q : Quota}
    (hq : AcceptedQuota q) (hExact : HintsExact l q) :
    (q.burstCapacity : ℚ) ≤ maxHintMs / 1000 * q.ratePerSecond := by
  obtain ⟨n, hn⟩ : ∃ n : ℕ, q.burstCapacity = (n : ℤ) + 1 :=
    ⟨(q.burstCapacity - 1).toNat, by have := hq.burst_pos; omega⟩
  have hUnused : NeverUsed l "" empty := ⟨rfl, fun _ => rfl⟩
  have hQuotas : ∀ x ∈ drain n q, AcceptedQuota x.1 := by
    intro x hx
    rw [List.eq_of_mem_replicate hx]
    exact hq
  have hOrder : InOrder ((drain n q).map Prod.snd ++ [⟨0, 0, ""⟩]) := by
    refine List.pairwise_of_forall_mem_list fun a ha b hb => ?_
    have hZero : ∀ a ∈ (drain n q).map Prod.snd ++ [⟨0, 0, ""⟩], a.nowMs = 0 := by
      intro a ha
      rcases List.mem_append.mp ha with hOld | hNew
      · obtain ⟨x, hx, rfl⟩ := List.mem_map.mp hOld
        rw [List.eq_of_mem_replicate hx]
      · rw [List.mem_singleton.mp hNew]
    rw [hZero a ha, hZero b hb]
  -- all but one of the tokens are taken at time 0, then the last one
  obtain ⟨r, hReply, hFits⟩ := hExact .honoured "" empty (drain n q) ⟨0, 0, ""⟩ hUnused hQuotas
    hOrder
  obtain ⟨⟨r', hReply', hIff⟩, -⟩ := exact_step hq
    (reached_run (e := .honoured) hUnused hQuotas) ⟨0, 0, ""⟩ (e := .honoured)
  obtain rfl := Except.ok.inj (hReply.symm.trans hReply')
  have hRefill := hIff.mp hFits
  have hFound := (@found_drained .honoured l hAlg "" q hq empty rfl n (by omega)).2
  -- the reset time of the last reply is the refill of the whole bucket
  have hLast : (q.burstCapacity : ℚ) - n = 1 := by
    rw [hn]
    push_cast
    ring
  simp only [HintsFit, hAlg, RefillFits] at hRefill
  rw [hFound, hLast, tokensLeft, if_pos le_rfl, sub_self, sub_zero] at hRefill
  exact hRefill

/-- Where it is enough, every state that can be reached has exact hints. -/
theorem hintsFit_of_burst {e : Expiry} {l : RedisLimiter} {key : String} {q : Quota}
    (hq : AcceptedQuota q)
    (hBurst : l.alg = .tokenBucket →
      (q.burstCapacity : ℚ) ≤ maxHintMs / 1000 * q.ratePerSecond)
    {pre : List Call} {s : Store} (hReached : Reached l key pre s) {c : Call}
    (hOrder : InOrder (pre ++ [c])) : HintsFit e l key q s c := by
  have hLimit : 1 ≤ q.limit := hq.limit.1
  obtain ⟨-, hHigh⟩ := hq.windowMs_le
  unfold Reached HintsFit at *
  cases hAlg : l.alg with
  | tokenBucket =>
    rw [hAlg] at hReached
    have hAvail := HoldsBalance.found_nonneg hReached hq.rate_pos hq.burst_pos e c
    -- what is missing is at most the capacity, whose refill fits
    have hLeft := (tokensLeft_bounds hq.burst_pos hAvail (found_le_burst s c)).1
    show _ - _ ≤ _
    linarith [hBurst hAlg]
  | slidingWindow =>
    rw [hAlg] at hReached
    by_cases hRoom : (((foundLog e (l.redisKey key) s c).removeUpTo
        (c.nowMs - q.windowMs)).card : ℤ) < q.limit
    · exact .inl hRoom
    · -- the log is full of calls that were stamped before this one
      obtain ⟨x, hFirst⟩ := SortedSet.exists_lowest
        (z := (foundLog e (l.redisKey key) s c).removeUpTo (c.nowMs - q.windowMs)) (by omega)
      obtain ⟨hOld, hLater⟩ := SortedSet.mem_removeUpTo.mp (SortedSet.lowest?_mem hFirst)
      obtain ⟨a, ha, hScore⟩ := LogOfStamps.found hReached e c x hOld
      have hBefore := (List.pairwise_append.mp hOrder).2.2 a ha c (List.mem_singleton_self c)
      exact .inr ⟨x, hOld, hLater, by omega⟩
  | fixedWindow => trivial

/--
**Hint durations.** For a tier that `Load` accepts and every state that calls
under accepted quotas leave, the clocks reading what they may: the hints of
the next call are exact, and not negative, exactly when `HintsFit` holds of the
state and the call. While stamps do not step back, all hints of a tier are
exact under the two window algorithms, and under the token bucket exactly when
its burst refills from nothing within 9223372036854 ms.
-/
theorem hints_exact_iff {l : RedisLimiter} {q : Quota} (hq : AcceptedQuota q) :
    (∀ (e : Expiry) (key : String) (s : Store) (run : List (Quota × Call)) (c : Call),
      NeverUsed l key s → (∀ x ∈ run, AcceptedQuota x.1) →
      ∃ r, (serve e (l.script key q) (Machine.final (serveUnder e l key) s run) c).1 = .ok r ∧
        (Exact l q r ↔ HintsFit e l key q (Machine.final (serveUnder e l key) s run) c)) ∧
      (HintsExact l q ↔ (l.alg = .tokenBucket →
        q.burstCapacity * q.window ≤ maxHintMs * 1000000 * q.limit)) := by
  have hCall := fun (e : Expiry) (key : String) (s : Store) (run : List (Quota × Call))
    (c : Call) (hUnused : NeverUsed l key s) (hQuotas : ∀ x ∈ run, AcceptedQuota x.1) =>
      (exact_step (e := e) hq (reached_run (e := e) hUnused hQuotas) c).1
  refine ⟨hCall, fun hExact hAlg => ?_, fun hBurst e key s run c hUnused hQuotas hOrder => ?_⟩
  · exact (burst_le_iff hq).mp (burst_le_of_hintsExact hAlg hq hExact)
  · obtain ⟨r, hReply, hIff⟩ := hCall e key s run c hUnused hQuotas
    refine ⟨r, hReply, hIff.mpr ?_⟩
    exact hintsFit_of_burst hq (fun hAlg => (burst_le_iff hq).mpr (hBurst hAlg))
      (reached_run hUnused hQuotas) hOrder

/-- 100 per hour with a burst of a million: drained, it refills in 14 months. -/
theorem hints_exact_iff_demo :
    HintsExact ⟨.tokenBucket, "rl"⟩ ⟨100, 3600000000000, 1000000⟩ :=
  (hints_exact_iff ⟨by decide, by decide, by decide⟩).2.mpr fun _ => by decide

/-- One per 5e18 ns with a burst of two: the second of two calls at one time
leaves the bucket empty, for 1e13 ms. The product wraps to a negative
duration. -/
theorem hints_overflow : ¬ HintsExact ⟨.tokenBucket, "rl"⟩ ⟨1, 5000000000000000000, 2⟩ := by
  intro hExact
  obtain ⟨r, hReply, -, hReset, -⟩ := hExact .honoured "acme" empty
    [(⟨1, 5000000000000000000, 2⟩, ⟨0, 0, ""⟩)] ⟨0, 0, ""⟩ ⟨rfl, fun _ => rfl⟩
    (fun x hx => by
      rw [List.mem_singleton.mp hx]
      exact ⟨by decide, by decide, by decide⟩)
    (by simp [InOrder])
  have hRun : (serve .honoured
      (RedisLimiter.script ⟨.tokenBucket, "rl"⟩ "acme" ⟨1, 5000000000000000000, 2⟩)
      (Machine.final (serveUnder .honoured ⟨.tokenBucket, "rl"⟩ "acme") empty
        [(⟨1, 5000000000000000000, 2⟩, ⟨0, 0, ""⟩)]) ⟨0, 0, ""⟩).1 =
      .ok ⟨1, 0, 0, 10000000000000⟩ := by decide +kernel
  obtain rfl := Except.ok.inj (hRun.symm.trans hReply)
  exact absurd hReset (by decide)

end RatelimitGateway.Limiter
