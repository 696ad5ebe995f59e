import Mathlib.Algebra.Order.Floor.Ring
import Mathlib.Data.Rat.Floor
import RatelimitGateway.Redis.Commands

/-!
# The limiter: quotas, the three Lua scripts, and `Allow`

Translated from `internal/limiter`. The scripts keep their own words and
their order of commands; a Lua local that is assigned twice becomes two
bindings of one name.

Lua numbers are exact here: rationals in `token_bucket.lua`, which divides,
and integers in the other two scripts, which only ever handle whole
milliseconds and counts (their `math.ceil` is the identity there). A number
appended to a key is written in decimal.

Go durations are integers, in nanoseconds; `int64` marks the one place where
the Go code multiplies and could wrap.
-/

namespace RatelimitGateway.Limiter

open Redis

/-! ## limiter.go -/

/-- `Algorithm` selects a rate limiting strategy. -/
inductive Algorithm where
  | tokenBucket
  | slidingWindow
  | fixedWindow
  deriving DecidableEq, Repr

def Algorithm.name : Algorithm → String
  | .tokenBucket => "token_bucket"
  | .slidingWindow => "sliding_window"
  | .fixedWindow => "fixed_window"

/-- `Quota` is the allowance granted to one key. -/
structure Quota where
  limit : ℤ
  /-- The period over which `limit` applies, in nanoseconds. -/
  window : ℤ
  /-- Token bucket only; when not positive it defaults to `limit`. -/
  burst : ℤ
  deriving DecidableEq, Repr

/-- `ratePerSecond` converts the quota into a token refill rate. -/
def Quota.ratePerSecond (q : Quota) : ℚ :=
  if q.window ≤ 0 then 0 else (q.limit : ℚ) / ((q.window : ℚ) / 1000000000)

/-- `burstCapacity` returns the configured burst, defaulting to the limit. -/
def Quota.burstCapacity (q : Quota) : ℤ :=
  if 0 < q.burst then q.burst else q.limit

/-- `q.Window.Milliseconds()`. -/
def Quota.windowMs (q : Quota) : ℤ := q.window.tdiv 1000000

/-- `Decision` is the outcome of a single rate limit check. -/
structure Decision where
  allowed : Bool
  limit : ℤ
  remaining : ℤ
  /-- Nanoseconds, as `ResetAfter`. -/
  retryAfter : ℤ
  resetAfter : ℤ
  deriving DecidableEq, Repr

/-! ## The scripts -/

/-- The four integers a script returns. -/
structure Reply where
  allowed : ℤ
  remaining : ℤ
  retryAfterMs : ℤ
  resetAfterMs : ℤ
  deriving DecidableEq, Repr

/-- `token_bucket.lua`. -/
def tokenBucket (key : String) (rate burst nowMs requested : ℚ) : Script Reply := do
  let bucket ← hmget key
  -- First time we have seen this key: start with a full bucket.
  let (tokens, updated) := match bucket with
    | (some tokens, some updated) => (tokens, updated)
    | _ => (burst, nowMs)
  let elapsedMs := max 0 (nowMs - updated)
  let tokens := min burst (tokens + elapsedMs / 1000 * rate)
  let (tokens, allowed) : ℚ × ℤ :=
    if tokens ≥ requested then (tokens - requested, 1) else (tokens, 0)
  let resetAfterMs := if tokens < burst ∧ rate > 0 then ⌈(burst - tokens) / rate * 1000⌉ else 0
  let retryAfterMs :=
    if allowed = 0 ∧ rate > 0 then ⌈(requested - tokens) / rate * 1000⌉ else 0
  let ttlMs := resetAfterMs + 1000
  hset key tokens nowMs
  pexpire key ttlMs
  pure ⟨allowed, ⌊tokens⌋, retryAfterMs, resetAfterMs⟩

/-- `sliding_window.lua`. -/
def slidingWindow (key : String) (nowMs windowMs limit : ℤ) (member : String) :
    Script Reply := do
  let cutoff := nowMs - windowMs
  -- Drop everything that has aged out of the window.
  zremrangebyscore key cutoff
  let count ← zcard key
  let (count, allowed) : ℤ × ℤ ←
    if count < limit then do
      zadd key nowMs member
      pure (count + 1, 1)
    else
      pure (count, 0)
  -- The window frees a slot when its oldest surviving entry ages out.
  let oldest ← zrangeFirst key
  let (retryAfterMs, resetAfterMs) : ℤ × ℤ := match oldest with
    | some (score, _) =>
      let resetAfterMs := max 0 (score + windowMs - nowMs)
      (if allowed = 0 then resetAfterMs else 0, resetAfterMs)
    | none => (0, 0)
  pexpire key (windowMs + 1000)
  pure ⟨allowed, max 0 (limit - count), retryAfterMs, resetAfterMs⟩

/-- The value of `math.floor(now_ms / window_ms)`: a whole number, or what
dividing by a window of zero milliseconds leaves. -/
inductive WindowIndex where
  | whole (k : ℤ)
  | posInf
  | negInf
  | nan
  deriving DecidableEq, Repr

def windowIndex (nowMs windowMs : ℤ) : WindowIndex :=
  if windowMs ≠ 0 then .whole ⌊(nowMs : ℚ) / windowMs⌋
  else if 0 < nowMs then .posInf
  else if nowMs < 0 then .negInf
  else .nan

/-- The index as Lua appends it to a string. -/
def WindowIndex.render : WindowIndex → String
  | .whole k => k.repr
  | .posInf => "inf"
  | .negInf => "-inf"
  | .nan => "-nan"

/-- `math.max(0, (window_index + 1) * window_ms - now_ms)`; without a whole
index the product is not a number, and `math.max` keeps its first argument. -/
def WindowIndex.resetAfterMs (nowMs windowMs : ℤ) : WindowIndex → ℤ
  | .whole k => max 0 ((k + 1) * windowMs - nowMs)
  | _ => 0

/-- The counter of one window. -/
def windowKey (keyPrefix : String) (index : WindowIndex) : String :=
  keyPrefix ++ ":" ++ index.render

/-- `fixed_window.lua`. -/
def fixedWindow (keyPrefix : String) (nowMs windowMs limit : ℤ) : Script Reply := do
  let index := windowIndex nowMs windowMs
  let key := windowKey keyPrefix index
  let count ← incr key
  -- Only the request that created the counter sets the TTL.
  if count = 1 then
    pexpire key windowMs
  let resetAfterMs := index.resetAfterMs nowMs windowMs
  let (allowed, retryAfterMs) : ℤ × ℤ := if count > limit then (0, resetAfterMs) else (1, 0)
  pure ⟨allowed, max 0 (limit - count), retryAfterMs, resetAfterMs⟩

/-! ## redis.go -/

/-- Machine integers of 64 bits. -/
def int64 (n : ℤ) : ℤ := n.bmod (2 ^ 64)

/-- Errors of `Allow`: the decision is unknown. -/
inductive LimiterError where
  | invalidQuota (limit window : ℤ)
  | generateMember
  | runScript (alg : Algorithm) (error : RedisError)
  /-- The call's context was done before Redis answered. -/
  | contextDone
  deriving DecidableEq, Repr

/-- `RedisLimiter`, without its client and its clock. -/
structure RedisLimiter where
  alg : Algorithm
  keyPrefix : String := "rl"
  deriving DecidableEq, Repr

/-- `uniqueMember`, given the hexadecimal digits of its eight random bytes. -/
def uniqueMember (nowMs : ℤ) (hex : String) : String := nowMs.repr ++ "-" ++ hex

namespace RedisLimiter

def redisKey (l : RedisLimiter) (key : String) : String :=
  l.keyPrefix ++ ":" ++ l.alg.name ++ ":" ++ key

/-- The limit a decision reports. -/
def appliedLimit (l : RedisLimiter) (q : Quota) : ℤ :=
  match l.alg with
  | .tokenBucket => q.burstCapacity
  | _ => q.limit

/-- The script `Allow` runs, with the arguments it passes. -/
def run (l : RedisLimiter) (key : String) (q : Quota) (nowMs : ℤ) (member : String) :
    Script Reply :=
  match l.alg with
  | .tokenBucket => tokenBucket (l.redisKey key) q.ratePerSecond q.burstCapacity nowMs 1
  | .slidingWindow => slidingWindow (l.redisKey key) nowMs q.windowMs q.limit member
  | .fixedWindow => fixedWindow (l.redisKey key) nowMs q.windowMs q.limit

/-- The decision `Allow` builds from the reply of its script. -/
def decision (l : RedisLimiter) (q : Quota) (r : Reply) : Decision where
  allowed := r.allowed == 1
  limit := l.appliedLimit q
  remaining := r.remaining
  retryAfter := int64 (r.retryAfterMs * 1000000)
  resetAfter := int64 (r.resetAfterMs * 1000000)

/-- `Allow` evaluates the quota for `key`; `hex` is what the random source
gave, if it gave anything. -/
def allow (l : RedisLimiter) (key : String) (q : Quota) (nowMs : ℤ) (hex : Option String)
    (c : KeyStore.Clock) (s : Store) : Except LimiterError Decision × Store :=
  if q.limit ≤ 0 ∨ q.window ≤ 0 then
    (.error (.invalidQuota q.limit q.window), s)
  else if l.alg = .slidingWindow ∧ hex = none then
    (.error .generateMember, s)
  else
    match exec (l.run key q nowMs (uniqueMember nowMs (hex.getD ""))) c s with
    | (.ok r, s') => (.ok (l.decision q r), s')
    | (.error e, s') => (.error (.runScript l.alg e), s')

end RedisLimiter

end RatelimitGateway.Limiter
