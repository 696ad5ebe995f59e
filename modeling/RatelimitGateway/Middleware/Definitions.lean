import RatelimitGateway.Breaker.Definitions
import RatelimitGateway.Tenant.Definitions

/-!
# The middleware

Translated from `internal/middleware/ratelimit.go`. A handler writes to a
response and to the metrics; here it returns the list of what it does, in
order. `Wrap` is cut where it waits for the limiter: `wrapStart` is the part
up to the call, `wrapFinish` the part after it.

`recordBreakerState`, with which `Wrap` begins, takes a reading of its own of
the breaker and changes nothing in it, so it is a step apart from `wrapStart`.
The log lines, the latency histogram and the time the limiter may take are
left out: nothing depends on them here.
-/

namespace RatelimitGateway.Middleware

open Limiter

/-- Something a handler does. -/
inductive Effect where
  | setBreakerState (state : String) (value : ℤ)
  | incLimiterErrors (cause policy : String)
  | incDecisions (tier algorithm decision source : String)
  | setHeader (name value : String)
  /-- `http.Error`. -/
  | httpError (text : String) (code : ℕ)
  /-- `next.ServeHTTP`: the request is forwarded upstream. -/
  | serveNext
  deriving DecidableEq, Repr

def sourceProxy : String := "proxy"

/-- `RateLimit`, without its collaborators. -/
structure RateLimit where
  limiterName : Algorithm
  failOpen : Bool := true
  deriving DecidableEq, Repr

def second : ℤ := 1000000000

/-- `Duration.Round(time.Second)`: half away from zero, and at the ends of the
range where rounding would wrap around. -/
def roundToSecond (d : ℤ) : ℤ :=
  let r := d.tmod second
  if d < 0 then
    let r := -r
    if r + r < second then d + r
    else if int64 (d - second + r) < d then int64 (d - second + r) else -2 ^ 63
  else
    if r + r < second then d - r
    else if d < int64 (d + second - r) then int64 (d + second - r) else 2 ^ 63 - 1

/-- A duration in whole seconds, rounded. -/
def seconds (d : ℤ) : ℤ := (roundToSecond d).tdiv second

/-- `recordBreakerState` publishes the breaker position as a set of 0/1
gauges. -/
def recordBreakerState (now : ℤ) (b : Breaker) : List Effect :=
  [.closed, .open, .halfOpen].map fun s : Breaker.State =>
    .setBreakerState s.name (if s = b.observe now then 1 else 0)

/-- `writeRateLimitHeaders` advertises the quota to the caller. -/
def writeRateLimitHeaders (d : Decision) : List Effect :=
  [.setHeader "X-RateLimit-Limit" d.limit.repr,
   .setHeader "X-RateLimit-Remaining" d.remaining.repr,
   .setHeader "X-RateLimit-Reset" (seconds d.resetAfter).repr]

namespace RateLimit

/-- `policy` names the current failure policy, for metric labels. -/
def policy (rl : RateLimit) : String := if rl.failOpen then "fail_open" else "fail_closed"

/-- `applyFailurePolicy` handles a request whose quota could not be
evaluated. -/
def applyFailurePolicy (rl : RateLimit) (t : Tenant) : List Effect :=
  .incDecisions t.tier.name rl.limiterName.name "degraded" sourceProxy ::
    if rl.failOpen then [.setHeader "X-RateLimit-Degraded" "true", .serveNext]
    else [.setHeader "Retry-After" "1", .httpError "rate limiter unavailable" 503]

/-- `Wrap` up to the limiter call: is the call made, and if not, what happens
instead. -/
def wrapStart (rl : RateLimit) (t : Tenant) (now : ℤ) (b : Breaker) :
    Bool × List Effect × Breaker :=
  let (admitted, b) := b.allow now
  if admitted then (true, [], b)
  else (false, .incLimiterErrors "breaker_open" rl.policy :: rl.applyFailurePolicy t, b)

/-- What `Wrap` does with a decision. -/
def answer (rl : RateLimit) (t : Tenant) (d : Decision) : List Effect :=
  writeRateLimitHeaders d ++
    if d.allowed then
      [.incDecisions t.tier.name rl.limiterName.name "allowed" sourceProxy, .serveNext]
    else
      [.incDecisions t.tier.name rl.limiterName.name "throttled" sourceProxy,
       .setHeader "Retry-After" (max 1 (seconds d.retryAfter)).repr,
       .httpError "rate limit exceeded" 429]

/-- `Wrap` after the limiter call. -/
def wrapFinish (rl : RateLimit) (t : Tenant) (result : Except LimiterError Decision) (now : ℤ)
    (b : Breaker) : List Effect × Breaker :=
  match result with
  | .error _ =>
    (.incLimiterErrors "limiter_error" rl.policy :: rl.applyFailurePolicy t, b.failure now)
  | .ok d => (rl.answer t d, b.success)

end RateLimit

/-- Is the failure policy applied? -/
def degraded (effects : List Effect) : Bool :=
  effects.any fun
    | .incDecisions _ _ decision _ => decision == "degraded"
    | _ => false

theorem degraded_refused (rl : RateLimit) (t : Tenant) (e : Effect) :
    degraded (e :: rl.applyFailurePolicy t) = true := by
  simp [degraded, RateLimit.applyFailurePolicy]

theorem degraded_answer (rl : RateLimit) (t : Tenant) (d : Decision) :
    degraded (rl.answer t d) = false := by
  unfold degraded RateLimit.answer writeRateLimitHeaders
  split <;> simp

end RatelimitGateway.Middleware
