import RatelimitGateway.Lib.Rounding
import RatelimitGateway.Limiter.SameClock

/-!
# The limiter in double precision

The quotas and the scripts once more, with the numbers that Go and Lua have for them:
every operation of `ratePerSecond` and of `token_bucket.lua` is rounded to a double.
A script reads its arguments, and Redis gives it back what it has stored, with enough
digits for the same double. None of these numbers is near the ends of the exponents.

The other two scripts handle whole numbers only. Stamps and windows in milliseconds
are far below 2^53, up to which every whole number is a double, and so are counts of
calls; a limit need not be.

* `exec_tokenBucket` — what the token bucket replies and leaves;
* `serve_window`     — the other two scripts reply as the exact ones, but for the
  remaining count, which is rounded.
-/

namespace RatelimitGateway.Limiter.Doubles

open KeyStore Redis

-- ---------------------------------------------------------------------------
-- Doubles
-- ---------------------------------------------------------------------------

/-- The double nearest to a number. -/
def float64 : ℚ → ℚ := Rounding.round 53

/-- The double nearest to a whole number, which is whole. -/
def float64Int (n : ℤ) : ℤ := ⌊float64 n⌋

theorem float64_mono : Monotone float64 := Rounding.round_mono (by decide)

@[simp] theorem float64_zero : float64 0 = 0 := Rounding.round_zero 53

theorem float64_nonneg {x : ℚ} (hx : 0 ≤ x) : 0 ≤ float64 x := Rounding.round_nonneg 53 hx

theorem float64_pos {x : ℚ} (hx : 0 < x) : 0 < float64 x := Rounding.round_pos (by decide) hx

@[simp] theorem float64_float64 (x : ℚ) : float64 (float64 x) = float64 x :=
  Rounding.round_round (by decide) x

theorem float64_neg_of_neg {x : ℚ} (hx : x < 0) : float64 x < 0 := by
  have hPos := float64_pos (neg_pos.mpr hx)
  rwa [float64, Rounding.round_neg, neg_pos] at hPos

/-- One less than a double is a double, up to 2^53. -/
theorem float64_sub_one {x : ℚ} (hDouble : float64 x = x) (hOne : 1 ≤ x) (hHigh : x ≤ 2 ^ 53) :
    float64 (x - 1) = x - 1 :=
  Rounding.round_sub_one (by decide) hDouble hOne hHigh

/-- Whole numbers up to 2^53 are doubles. -/
theorem float64_intCast {n : ℤ} (hn : |n| ≤ 2 ^ 53) : float64 n = n :=
  Rounding.round_intCast (by decide) hn

theorem float64Int_of_small {n : ℤ} (hn : |n| ≤ 2 ^ 53) : float64Int n = n := by
  rw [float64Int, float64_intCast hn, Int.floor_intCast]

theorem coe_float64Int (n : ℤ) : (float64Int n : ℚ) = float64 n := by
  obtain ⟨m, hm⟩ := Rounding.exists_round_intCast (K := ℚ) (p := 53) (by decide) n
  rw [float64Int, float64, hm, Int.floor_intCast]

theorem float64Int_mono : Monotone float64Int := fun _ _ h =>
  Int.floor_le_floor (float64_mono (Int.cast_le.mpr h))

/-- A second more than a number of milliseconds is more in double precision too, while
it fits into 64 bits. -/
theorem lt_float64Int_add {n : ℤ} (hn : 0 ≤ n) (hFits : float64Int (n + 1000) < 2 ^ 63) :
    n < float64Int (n + 1000) := by
  have hBelow : n + 1000 < 2 ^ 63 := by
    by_contra hAbove
    have hPower : ((2 ^ 63 : ℤ) : ℚ) = ((1 : ℤ) : ℚ) * 2 ^ (63 : ℤ) := by norm_num
    have hTop : float64Int (2 ^ 63) = 2 ^ 63 := by
      rw [float64Int, float64, hPower, Rounding.round_of_digits (by decide) (by decide), ← hPower,
        Int.floor_intCast]
    exact absurd (float64Int_mono (not_lt.mp hAbove)) (by omega)
  have hPositive : (0 : ℚ) < ((n + 1000 : ℤ) : ℚ) := by exact_mod_cast (by omega : 0 < n + 1000)
  have hHigh : |((n + 1000 : ℤ) : ℚ)| < 2 ^ (63 : ℤ) := by
    rw [abs_of_pos hPositive]
    exact_mod_cast hBelow
  -- below 2^63 a double is off by at most 512, half of its last digit
  have hUlp := Rounding.ulp_le 53 hPositive.ne' hHigh
  have hError := (abs_le.mp (Rounding.abs_round_sub_le 53 ((n + 1000 : ℤ) : ℚ))).1
  have hLast : (2 : ℚ) ^ ((63 : ℤ) - (53 : ℕ)) = 1024 := by norm_num
  rw [hLast] at hUlp
  have hClose : ((n + 488 : ℤ) : ℚ) ≤ float64 (n + 1000 : ℤ) := by
    have hBack : ((n + 488 : ℤ) : ℚ) = ((n + 1000 : ℤ) : ℚ) - 512 := by push_cast; ring
    rw [float64, hBack]
    linarith
  have hFloor : n + 488 ≤ float64Int (n + 1000) := Int.le_floor.mpr hClose
  omega

-- its digits are of interest only where it is evaluated
attribute [irreducible] float64

-- ---------------------------------------------------------------------------
-- limiter.go
-- ---------------------------------------------------------------------------

/-- `Duration.Seconds`. -/
def seconds (d : ℤ) : ℚ :=
  float64 (float64 (d.tdiv 1000000000 : ℤ) + float64 (float64 (d.tmod 1000000000 : ℤ) / 1000000000))

/-- `ratePerSecond` converts the quota into a token refill rate. -/
def ratePerSecond (q : Quota) : ℚ :=
  if q.window ≤ 0 then 0 else float64 (float64 q.limit / seconds q.window)

theorem one_le_float64 {n : ℤ} (hn : 1 ≤ n) : 1 ≤ float64 n := by
  have hOne : float64 (1 : ℤ) = (1 : ℤ) := float64_intCast (by decide)
  have hMono := float64_mono (Int.cast_le.mpr hn : ((1 : ℤ) : ℚ) ≤ n)
  rw [hOne, Int.cast_one] at hMono
  exact hMono

/-- A duration of some nanoseconds is some seconds. -/
theorem seconds_pos {d : ℤ} (hd : 0 < d) : 0 < seconds d := by
  have hWhole : 0 ≤ d.tdiv 1000000000 := Int.tdiv_nonneg hd.le (by decide)
  have hRest : 0 ≤ d.tmod 1000000000 := Int.tmod_nonneg _ hd.le
  have hSplit := Int.tmod_add_mul_tdiv d 1000000000
  refine float64_pos ?_
  rcases hWhole.eq_or_lt with hNone | hSome
  · have hPos : (0 : ℚ) < (d.tmod 1000000000 : ℤ) := by exact_mod_cast (by omega)
    have hPart := float64_pos (div_pos (float64_pos hPos) (by norm_num : (0 : ℚ) < 1000000000))
    rw [← hNone, Int.cast_zero, float64_zero, zero_add]
    exact hPart
  · have hPart := float64_nonneg (div_nonneg (float64_nonneg (Int.cast_nonneg hRest))
      (by norm_num : (0 : ℚ) ≤ 1000000000))
    exact add_pos_of_pos_of_nonneg (float64_pos (Int.cast_pos.mpr hSome)) hPart

theorem ratePerSecond_pos {q : Quota} (hLimit : 0 < q.limit) (hWindow : 0 < q.window) :
    0 < ratePerSecond q := by
  rw [ratePerSecond, if_neg (not_le.mpr hWindow)]
  exact float64_pos (div_pos (float64_pos (Int.cast_pos.mpr hLimit)) (seconds_pos hWindow))

-- ---------------------------------------------------------------------------
-- The scripts
-- ---------------------------------------------------------------------------

/-- `token_bucket.lua`. -/
def tokenBucket (maxTtl : ℤ) (key : String) (rate burst nowMs requested : ℚ) :
    Script Reply := do
  let bucket ← hmget key
  -- First time we have seen this key: start with a full bucket.
  let (tokens, updated) := match bucket with
    | (some tokens, some updated) => (tokens, updated)
    | _ => (burst, nowMs)
  let elapsedMs := max 0 (float64 (nowMs - updated))
  let tokens := min burst (float64 (tokens + float64 (float64 (elapsedMs / 1000) * rate)))
  let (tokens, allowed) : ℚ × ℤ :=
    if tokens ≥ requested then (float64 (tokens - requested), 1) else (tokens, 0)
  let resetAfterMs :=
    if tokens < burst ∧ rate > 0 then
      ⌈float64 (float64 (float64 (burst - tokens) / rate) * 1000)⌉
    else 0
  let retryAfterMs :=
    if allowed = 0 ∧ rate > 0 then
      ⌈float64 (float64 (float64 (requested - tokens) / rate) * 1000)⌉
    else 0
  let ttlMs := float64Int (resetAfterMs + 1000)
  hset key tokens nowMs
  pexpireUpTo maxTtl key ttlMs
  pure ⟨allowed, ⌊tokens⌋, retryAfterMs, resetAfterMs⟩

/-- `sliding_window.lua`. -/
def slidingWindow (key : String) (nowMs windowMs limit : ℤ) (member : String) :
    Script Reply := do
  let cutoff := nowMs - windowMs
  -- Drop everything that has aged out of the window.
  zremrangebyscore key cutoff
  let count ← zcard key
  let (count, allowed) : ℤ × ℤ ←
    if count < limit then do
      zadd key nowMs member
      pure (count + 1, 1)
    else
      pure (count, 0)
  -- The window frees a slot when its oldest surviving entry ages out.
  let oldest ← zrangeFirst key
  let (retryAfterMs, resetAfterMs) : ℤ × ℤ := match oldest with
    | some (score, _) =>
      let resetAfterMs := max 0 (score + windowMs - nowMs)
      (if allowed = 0 then resetAfterMs else 0, resetAfterMs)
    | none => (0, 0)
  pexpire key (windowMs + 1000)
  pure ⟨allowed, max 0 (float64Int (limit - count)), retryAfterMs, resetAfterMs⟩

/-- `fixed_window.lua`. -/
def fixedWindow (keyPrefix : String) (nowMs windowMs limit : ℤ) : Script Reply := do
  let index := windowIndex nowMs windowMs
  let key := windowKey keyPrefix index
  let count ← incr key
  -- Only the request that created the counter sets the TTL.
  if count = 1 then
    pexpire key windowMs
  let resetAfterMs := index.resetAfterMs nowMs windowMs
  let (allowed, retryAfterMs) : ℤ × ℤ := if count > limit then (0, resetAfterMs) else (1, 0)
  pure ⟨allowed, max 0 (float64Int (limit - count)), retryAfterMs, resetAfterMs⟩

-- ---------------------------------------------------------------------------
-- redis.go
-- ---------------------------------------------------------------------------

/-- The script `Allow` runs, with the arguments as the script reads them. -/
def run (maxTtl : ℤ) (l : RedisLimiter) (key : String) (q : Quota) (nowMs : ℤ)
    (member : String) : Script Reply :=
  match l.alg with
  | .tokenBucket =>
    tokenBucket maxTtl (l.redisKey key) (ratePerSecond q) (float64 q.burstCapacity)
      (float64 nowMs) 1
  | .slidingWindow =>
    slidingWindow (l.redisKey key) nowMs q.windowMs (float64Int q.limit) member
  | .fixedWindow => fixedWindow (l.redisKey key) nowMs q.windowMs (float64Int q.limit)

/-- `Allow`, with these scripts. -/
def allow (maxTtl : ℤ) (l : RedisLimiter) (key : String) (q : Quota) (nowMs : ℤ)
    (hex : Option String) (c : Clock) (s : Store) : Except LimiterError Decision × Store :=
  if q.limit ≤ 0 ∨ q.window ≤ 0 then
    (.error (.invalidQuota q.limit q.window), s)
  else if l.alg = .slidingWindow ∧ hex = none then
    (.error .generateMember, s)
  else
    match exec (run maxTtl l key q nowMs (uniqueMember nowMs (hex.getD ""))) c s with
    | (.ok r, s') => (.ok (l.decision q r), s')
    | (.error e, s') => (.error (.runScript l.alg e), s')

/-- The script of a call of `Allow`. -/
def script (maxTtl : ℤ) (l : RedisLimiter) (key : String) (q : Quota) (c : Call) :
    Script Reply :=
  run maxTtl l key q c.nowMs c.member

-- ---------------------------------------------------------------------------
-- token_bucket.lua
-- ---------------------------------------------------------------------------

/-- The milliseconds between two stamps, not counted backwards. -/
def elapsed (updated nowMs : ℚ) : ℚ := max 0 (float64 (nowMs - updated))

/-- What some tokens have become after some time. -/
def refilled (rate burst tokens elapsedMs : ℚ) : ℚ :=
  min burst (float64 (tokens + float64 (float64 (elapsedMs / 1000) * rate)))

/-- The tokens in the bucket at `nowMs`, before the call takes any. -/
def available (rate burst nowMs : ℚ) : Option ℚ × Option ℚ → ℚ
  | (some tokens, some updated) => refilled rate burst tokens (elapsed updated nowMs)
  | _ => refilled rate burst burst (elapsed nowMs nowMs)

/-- The tokens a call leaves behind when it finds `avail` of them. -/
def tokensLeft (requested avail : ℚ) : ℚ :=
  if requested ≤ avail then float64 (avail - requested) else avail

/-- How long it takes for some tokens to flow in. -/
def msFor (rate missing : ℚ) : ℤ := ⌈float64 (float64 (float64 missing / rate) * 1000)⌉

/-- `reset_after_ms` of a call that leaves some tokens. -/
def bucketReset (rate burst tokens : ℚ) : ℤ :=
  if tokens < burst ∧ 0 < rate then msFor rate (burst - tokens) else 0

/-- The reply to a call that finds `avail` tokens. -/
def bucketReply (rate burst requested avail : ℚ) : Reply where
  allowed := if requested ≤ avail then 1 else 0
  remaining := ⌊tokensLeft requested avail⌋
  retryAfterMs := if avail < requested ∧ 0 < rate then msFor rate (requested - avail) else 0
  resetAfterMs := bucketReset rate burst (tokensLeft requested avail)

/-- The bucket a call leaves behind. -/
def bucketLeft (requested nowMs avail : ℚ) : Value :=
  .hash ⟨some (tokensLeft requested avail), some nowMs⟩

def bucketTtl (rate burst requested avail : ℚ) : ℤ :=
  float64Int (bucketReset rate burst (tokensLeft requested avail) + 1000)

/-- The refill step of the script, whichever way it read the bucket. -/
theorem refill_eq_available (rate : ℚ) {burst nowMs tokens updated : ℚ}
    (fields : Option ℚ × Option ℚ)
    (h : (match fields with
      | (some tokens, some updated) => (tokens, updated)
      | _ => (burst, nowMs)) = (tokens, updated)) :
    min burst (float64 (tokens +
        float64 (float64 (max 0 (float64 (nowMs - updated)) / 1000) * rate))) =
      available rate burst nowMs fields := by
  split at h
  · obtain ⟨rfl, rfl⟩ := Prod.mk.inj h
    rw [available, refilled, elapsed]
  · -- the hash is missing or incomplete: the script starts from a full bucket
    rename_i hNot
    obtain ⟨rfl, rfl⟩ := Prod.mk.inj h
    unfold available
    split
    · rename_i hf
      exact absurd rfl (hNot _ _)
    · rw [refilled, elapsed]

theorem exec_pexpireUpTo {maxTtl : ℤ} {c : Clock} {s : Store} {key : String} (ms : ℤ) :
    exec (pexpireUpTo maxTtl key ms) c s =
      if ms ≤ maxTtl then (.ok (), expireAt c s key (c.time + ms))
      else (.error .invalidExpire, s) := rfl

/-- **`token_bucket.lua`.** When `PEXPIRE` fails, the bucket is written already. -/
theorem exec_tokenBucket {maxTtl : ℤ} {c : Clock} {s : Store} {key : String}
    (hType : HoldsHash c s key) {rate burst nowMs avail : ℚ} (requested : ℚ)
    (hAvail : available rate burst nowMs (bucketFields c s key) = avail) :
    exec (tokenBucket maxTtl key rate burst nowMs requested) c s =
      if bucketTtl rate burst requested avail ≤ maxTtl then
        (.ok (bucketReply rate burst requested avail), Function.update s key
          (some ⟨bucketLeft requested nowMs avail,
            some (c.time + bucketTtl rate burst requested avail)⟩))
      else (.error .invalidExpire, write c s key (bucketLeft requested nowMs avail)) := by
  rw [tokenBucket, exec_bind_ok _ _ (exec_hmget hType)]
  split
  rename_i tokens updated hFields
  have hRefill := refill_eq_available rate _ hFields
  rw [hAvail] at hRefill
  simp only [hRefill, ge_iff_le, gt_iff_lt]
  by_cases hTake : requested ≤ avail
  · -- the request is taken: the balance and the reset time both leave it out
    have hLeft : tokensLeft requested avail = float64 (avail - requested) := if_pos hTake
    simp only [hTake, if_true]
    rw [exec_bind_ok _ _ (exec_hset hType _ _), exec_bind, exec_pexpireUpTo]
    simp only [bucketTtl, bucketReply, bucketLeft, bucketReset, msFor, hLeft, hTake,
      not_lt.mpr hTake, if_true, one_ne_zero, false_and, if_false]
    -- PEXPIRE takes the time to live, or refuses it with the HSET done
    by_cases hFits :
        float64Int (bucketReset rate burst (float64 (avail - requested)) + 1000) ≤ maxTtl
    · rw [bucketReset, msFor] at hFits
      rw [if_pos hFits, if_pos hFits]
      simp only [expireAt_write]
      rfl
    · rw [bucketReset, msFor] at hFits
      rw [if_neg hFits, if_neg hFits]
  · -- the request is refused: the balance is written back as found
    have hLeft : tokensLeft requested avail = avail := if_neg hTake
    simp only [hTake, if_false]
    rw [exec_bind_ok _ _ (exec_hset hType _ _), exec_bind, exec_pexpireUpTo]
    simp only [bucketTtl, bucketReply, bucketLeft, bucketReset, msFor, hLeft, hTake,
      not_le.mp hTake, true_and, if_false]
    by_cases hFits : float64Int (bucketReset rate burst avail + 1000) ≤ maxTtl
    · rw [bucketReset, msFor] at hFits
      rw [if_pos hFits, if_pos hFits]
      simp only [expireAt_write]
      rfl
    · rw [bucketReset, msFor] at hFits
      rw [if_neg hFits, if_neg hFits]

section Bucket

variable {maxTtl : ℤ} {e : Expiry} {key : String} {rate burst : ℚ} {s : Store} {c : Call}

def tokenBucketCall (maxTtl : ℤ) (key : String) (rate burst : ℚ) (c : Call) : Script Reply :=
  tokenBucket maxTtl key rate burst (float64 c.nowMs) 1

/-- The tokens that the call finds. -/
def found (e : Expiry) (key : String) (rate burst : ℚ) (s : Store) (c : Call) : ℚ :=
  available rate burst (float64 c.nowMs) (bucketFields ⟨e, c.execAt⟩ s key)

/-- The bucket that the call leaves, if it gets its reply. -/
def bucketEntry (rate burst : ℚ) (c : Call) (avail : ℚ) : Entry Value where
  value := bucketLeft 1 (float64 c.nowMs) avail
  deadline := some (c.execAt + bucketTtl rate burst 1 avail)

/-- A call is answered if `PEXPIRE` takes the time to live. -/
theorem serve_bucket (hType : HoldsHash ⟨e, c.execAt⟩ s key) :
    serve e (tokenBucketCall maxTtl key rate burst) s c =
      if bucketTtl rate burst 1 (found e key rate burst s c) ≤ maxTtl then
        (.ok (bucketReply rate burst 1 (found e key rate burst s c)), Function.update s key
          (some (bucketEntry rate burst c (found e key rate burst s c))))
      else (.error .invalidExpire, write ⟨e, c.execAt⟩ s key
        (bucketLeft 1 (float64 c.nowMs) (found e key rate burst s c))) :=
  exec_tokenBucket hType 1 rfl

/-- A call leaves a bucket, answered or not. -/
theorem keptBucket_serve (hKept : KeptBucket key s) :
    KeptBucket key (serve e (tokenBucketCall maxTtl key rate burst) s c).2 := by
  rw [serve_bucket (hKept.holdsHash _)]
  intro x hx
  split at hx
  · obtain rfl := Option.some.inj ((Function.update_self key _ s).symm.trans hx)
    exact ⟨_, rfl⟩
  · obtain rfl := Option.some.inj ((write_self _ s key _).symm.trans hx)
    exact ⟨_, rfl⟩

theorem keptBucket_run (hKept : KeptBucket key s) (calls : List Call) :
    KeptBucket key (keyspace e (tokenBucketCall maxTtl key rate burst) s calls) :=
  Machine.trace_invariant' (P := fun _ s => KeptBucket key s) hKept
    (fun _ _ _ h => keptBucket_serve h) calls

/-- What has not flowed in yet is not there sooner. -/
theorem refilled_mono (hRate : 0 ≤ rate) {tokens ms ms' : ℚ} (hLater : ms ≤ ms') :
    refilled rate burst tokens ms ≤ refilled rate burst tokens ms' := by
  have hSeconds := float64_mono (div_le_div_of_nonneg_right hLater (by norm_num : (0 : ℚ) ≤ 1000))
  have hInflow := float64_mono (mul_le_mul_of_nonneg_right hSeconds hRate)
  exact min_le_min_left _ (float64_mono (add_le_add_right hInflow _))

theorem elapsed_mono {updated nowMs nowMs' : ℚ} (hLater : nowMs ≤ nowMs') :
    elapsed updated nowMs ≤ elapsed updated nowMs' :=
  max_le_max_left _ (float64_mono (sub_le_sub_right hLater _))

/-- A full bucket stays full. -/
theorem refilled_full (hRate : 0 ≤ rate) (hDouble : float64 burst = burst) {ms : ℚ} (hms : 0 ≤ ms) :
    refilled rate burst burst ms = burst := by
  refine min_eq_left ?_
  have hInflow := float64_nonneg (mul_nonneg (float64_nonneg
    (div_nonneg hms (by norm_num : (0 : ℚ) ≤ 1000))) hRate)
  have hGrows := float64_mono (le_add_of_nonneg_right hInflow : burst ≤ _)
  rwa [hDouble] at hGrows

theorem found_of_gone (hRate : 0 ≤ rate) (hDouble : float64 burst = burst)
    (hGone : find ⟨e, c.execAt⟩ s key = none) : found e key rate burst s c = burst := by
  simp only [found, bucketFields, valueAt, hGone, Option.map_none, available]
  exact refilled_full hRate hDouble (le_max_left _ _)

/-- The tokens that a call finds in a bucket that is still there. -/
theorem found_of_live {tokens updated : ℚ} {d : Option ℤ}
    (hFind : find ⟨e, c.execAt⟩ s key = some ⟨.hash ⟨some tokens, some updated⟩, d⟩) :
    found e key rate burst s c =
      refilled rate burst tokens (elapsed updated (float64 c.nowMs)) := by
  simp only [found, bucketFields, valueAt, hFind, Option.map_some, available]

theorem msFor_mono (hRate : 0 < rate) {missing missing' : ℚ} (h : missing ≤ missing') :
    msFor rate missing ≤ msFor rate missing' := by
  have hSeconds := float64_mono (div_le_div_of_nonneg_right (float64_mono h) hRate.le)
  exact Int.ceil_le_ceil (float64_mono
    (mul_le_mul_of_nonneg_right hSeconds (by norm_num : (0 : ℚ) ≤ 1000)))

theorem msFor_pos (hRate : 0 < rate) {missing : ℚ} (h : 0 < missing) : 0 < msFor rate missing :=
  Int.ceil_pos.mpr (float64_pos (mul_pos (float64_pos (div_pos (float64_pos h) hRate))
    (by norm_num)))

/-- The time to a full bucket is not negative. -/
theorem bucketReset_nonneg {tokens : ℚ} : 0 ≤ bucketReset rate burst tokens := by
  unfold bucketReset
  split
  · rename_i hShort
    exact (msFor_pos hShort.2 (sub_pos.mpr hShort.1)).le
  · exact le_rfl

/-- The more tokens, the sooner the bucket is full. -/
theorem bucketReset_anti (hRate : 0 < rate) {tokens tokens' : ℚ} (h : tokens ≤ tokens') :
    bucketReset rate burst tokens' ≤ bucketReset rate burst tokens := by
  by_cases hShort : tokens' < burst
  · rw [bucketReset, if_pos ⟨hShort, hRate⟩, bucketReset, if_pos ⟨h.trans_lt hShort, hRate⟩]
    exact msFor_mono hRate (sub_le_sub_left h _)
  · rw [bucketReset, if_neg fun hBoth => hShort hBoth.1]
    exact bucketReset_nonneg

/-- And the shorter does a call that takes one have it live. -/
theorem bucketTtl_anti (hRate : 0 < rate) {avail avail' : ℚ} (hOne : 1 ≤ avail)
    (h : avail ≤ avail') : bucketTtl rate burst 1 avail' ≤ bucketTtl rate burst 1 avail := by
  have hLeft : tokensLeft 1 avail ≤ tokensLeft 1 avail' := by
    rw [tokensLeft, if_pos hOne, tokensLeft, if_pos (hOne.trans h)]
    exact float64_mono (sub_le_sub_right h _)
  exact float64Int_mono (add_le_add_left (bucketReset_anti hRate hLeft) _)

/-- The bucket outlives the time until it is full. -/
theorem bucketReset_lt_ttl {avail : ℚ} (hFits : bucketTtl rate burst 1 avail < 2 ^ 63) :
    bucketReset rate burst (tokensLeft 1 avail) < bucketTtl rate burst 1 avail :=
  lt_float64Int_add bucketReset_nonneg hFits

/-- A property that holds between two numbers for which it holds, is one of all that
later calls find, if it is one of the least and of the most that they do. -/
theorem forall_later_iff {G : ℚ → Prop} {found : Call → ℚ} {late : ℤ} {low high : ℚ}
    (hBetween : ∀ x, G low → G high → low ≤ x → x ≤ high → G x)
    (hRange : ∀ c, OnTime c → late ≤ c.nowMs → low ≤ found c ∧ found c ≤ high)
    (hLow : found ⟨late, late, ""⟩ = low)
    (hHigh : ∃ c, OnTime c ∧ late ≤ c.nowMs ∧ found c = high) :
    (∀ c, OnTime c → late ≤ c.nowMs → G (found c)) ↔ G high ∧ G low := by
  constructor
  · intro hAll
    obtain ⟨c, hOnTime, hLate, rfl⟩ := hHigh
    subst hLow
    exact ⟨hAll c hOnTime hLate, hAll _ rfl le_rfl⟩
  · rintro ⟨hTop, hBottom⟩ c hOnTime hLate
    obtain ⟨hAbove, hBelow⟩ := hRange c hOnTime hLate
    exact hBetween _ hBottom hTop hAbove hBelow

/-- What a later call finds of the bucket that a call leaves, while it lives. -/
theorem found_while_live {avail : ℚ} {c' : Call}
    (hLive : c'.execAt < c.execAt + bucketTtl rate burst 1 avail) :
    found .honoured key rate burst (Function.update s key (some (bucketEntry rate burst c avail)))
        c' =
      refilled rate burst (tokensLeft 1 avail) (elapsed (float64 c.nowMs) (float64 c'.nowMs)) :=
  found_of_live (find_before (Function.update_self key _ s) hLive)

theorem found_when_dead (hRate : 0 ≤ rate) (hDouble : float64 burst = burst) {avail : ℚ}
    {c' : Call} (hDead : c.execAt + bucketTtl rate burst 1 avail ≤ c'.execAt) :
    found .honoured key rate burst (Function.update s key (some (bucketEntry rate burst c avail)))
        c' = burst :=
  found_of_gone hRate hDouble (find_after (Function.update_self key _ s) hDead)

/-- What calls find in a bucket from a time on, while it still lives: the least at that
time, and the most, a full bucket, when it is gone. -/
theorem forall_found_iff (hRate : 0 ≤ rate) (hDouble : float64 burst = burst) (hOnTime : OnTime c)
    {avail : ℚ} {ms : ℤ} (hShort : ms < bucketTtl rate burst 1 avail) {G : ℚ → Prop}
    (hBetween : ∀ x low high, G low → G high → low ≤ x → x ≤ high → G x) :
    (∀ c', OnTime c' → c.nowMs + ms ≤ c'.nowMs → G (found .honoured key rate burst
        (Function.update s key (some (bucketEntry rate burst c avail))) c')) ↔
      G burst ∧ G (refilled rate burst (tokensLeft 1 avail)
        (elapsed (float64 c.nowMs) (float64 (c.nowMs + ms : ℤ)))) := by
  have hNow : c.execAt = c.nowMs := hOnTime
  refine forall_later_iff (fun x => hBetween x _ _) (fun c' hOnTime' hLate => ?_) ?_ ?_
  · -- before the entry expires the bucket is refilled; afterwards it is found full
    rcases lt_or_ge c'.execAt (c.execAt + bucketTtl rate burst 1 avail) with hLive | hDead
    · rw [found_while_live hLive]
      exact ⟨refilled_mono hRate (elapsed_mono (float64_mono (Int.cast_le.mpr hLate))),
        min_le_left _ _⟩
    · rw [found_when_dead hRate hDouble hDead]
      exact ⟨min_le_left _ _, le_rfl⟩
  · -- the two ends are met: right at the reset time, and once the entry is gone
    exact found_while_live (by dsimp only; omega)
  · exact ⟨⟨c.execAt + bucketTtl rate burst 1 avail, c.execAt + bucketTtl rate burst 1 avail, ""⟩,
      rfl, by dsimp only; omega, found_when_dead hRate hDouble le_rfl⟩

end Bucket

theorem script_tokenBucket {l : RedisLimiter} (hAlg : l.alg = .tokenBucket) (maxTtl : ℤ)
    (key : String) (q : Quota) : script maxTtl l key q =
      tokenBucketCall maxTtl (l.redisKey key) (ratePerSecond q) (float64 q.burstCapacity) := by
  funext c
  simp only [script, run, hAlg, tokenBucketCall]

-- ---------------------------------------------------------------------------
-- sliding_window.lua and fixed_window.lua
-- ---------------------------------------------------------------------------

/-- A reply with its remaining count as a double. -/
def rounded (r : Reply) : Reply := { r with remaining := float64Int r.remaining }

theorem max_float64Int (n : ℤ) : max 0 (float64Int n) = float64Int (max 0 n) := by
  have hZero : float64Int 0 = 0 := float64Int_of_small (by decide)
  rw [float64Int_mono.map_max, hZero]

/-- Only the remaining count is rounded. -/
theorem slidingWindow_eq (key : String) (nowMs windowMs limit : ℤ) (member : String) :
    slidingWindow key nowMs windowMs limit member =
      Limiter.slidingWindow key nowMs windowMs limit member >>= fun r => pure (rounded r) := by
  simp only [slidingWindow, Limiter.slidingWindow, bind_assoc, pure_bind, max_float64Int]
  refine bind_congr fun _ => bind_congr fun count => ?_
  by_cases hRoom : count < limit
  · simp only [hRoom, if_true, bind_assoc, pure_bind]
    refine bind_congr fun _ => bind_congr fun oldest => ?_
    cases oldest <;> rfl
  · simp only [hRoom, if_false, bind_assoc, pure_bind]
    refine bind_congr fun oldest => ?_
    cases oldest <;> rfl

/-- Here too. -/
theorem fixedWindow_eq (keyPrefix : String) (nowMs windowMs limit : ℤ) :
    fixedWindow keyPrefix nowMs windowMs limit =
      Limiter.fixedWindow keyPrefix nowMs windowMs limit >>= fun r => pure (rounded r) := by
  simp only [fixedWindow, Limiter.fixedWindow, bind_assoc, max_float64Int]
  refine bind_congr fun count => ?_
  by_cases hFirst : count = 1
  · simp only [hFirst, if_true, bind_assoc, pure_bind, rounded]
  · simp only [hFirst, if_false, pure_bind, rounded]

/-- A quota with a limit that is a double. -/
def wholeLimit (q : Quota) : Quota := { q with limit := float64Int q.limit }

/-- Rounding a reply leaves the store alone. -/
theorem exec_rounded {script : Script Reply} (c : Clock) (s : Store) :
    exec (script >>= fun r => pure (rounded r)) c s =
      ((exec script c s).1.map rounded, (exec script c s).2) := by
  rw [exec_bind]
  rcases exec script c s with ⟨x, s'⟩
  cases x <;> rfl

/-- **The other two scripts.** -/
theorem serve_window {maxTtl : ℤ} {l : RedisLimiter} (hAlg : l.alg ≠ .tokenBucket)
    (key : String) (q : Quota) (e : Expiry) (s : Store) (c : Call) :
    serve e (script maxTtl l key q) s c =
      ((serve e (l.script key (wholeLimit q)) s c).1.map rounded,
        (serve e (l.script key (wholeLimit q)) s c).2) := by
  unfold serve script run RedisLimiter.script RedisLimiter.run
  cases hName : l.alg with
  | tokenBucket => exact absurd hName hAlg
  | slidingWindow =>
    dsimp only
    rw [slidingWindow_eq, exec_rounded]
    rfl
  | fixedWindow =>
    dsimp only
    rw [fixedWindow_eq, exec_rounded]
    rfl

/-- The other two scripts leave the keys as the exact ones do. -/
theorem keyspace_window {maxTtl : ℤ} {l : RedisLimiter} (hAlg : l.alg ≠ .tokenBucket)
    (key : String) (q : Quota) (e : Expiry) (s : Store) (calls : List Call) :
    keyspace e (script maxTtl l key q) s calls =
      keyspace e (l.script key (wholeLimit q)) s calls := by
  unfold keyspace
  induction calls generalizing s with
  | nil => rw [Machine.final_nil, Machine.final_nil]
  | cons c calls ih => rw [Machine.final_cons, Machine.final_cons, ih, serve_window hAlg]

end RatelimitGateway.Limiter.Doubles
