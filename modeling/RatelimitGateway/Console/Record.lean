import Mathlib
import RatelimitGateway.Middleware.Requests

/-!
# What the console shows of a response

The gateway tells the console what it decided in the status and the headers of
a response. `respond` is the response that the effects of `Wrap` make; the rest
is translated from `internal/console/static/app.js`: `sendOne` reads the
response and `record` shows it. The dots, the log and the countdown to the
reset are left out, and the numbers of JavaScript are exact.

The counters go by the status alone, and the meter is not touched by a response
without `X-RateLimit-Limit`: the mark of a degraded response is read and never
shown.

* `console_tells_iff` — the responses of which the console tells the truth.
-/

namespace RatelimitGateway.Console

open Limiter Middleware

-- ---------------------------------------------------------------------------
-- The response
-- ---------------------------------------------------------------------------

def rateLimitHeaders : List String :=
  ["X-RateLimit-Limit", "X-RateLimit-Remaining", "X-RateLimit-Reset", "X-RateLimit-Degraded"]

/-- What the upstream answers, with no rate limit headers of its own. -/
structure Upstream where
  status : ℕ
  header : String → Option String
  silent : ∀ name ∈ rateLimitHeaders, header name = none

/-- A response: its status, once it is fixed, and its headers. -/
structure Response where
  status : Option ℕ
  header : String → Option String

/-- The values of one header, as `Headers.get` joins them. -/
def combined : Option String → Option String → Option String
  | some own, some other => some (own ++ ", " ++ other)
  | own, other => own.or other

/-- What an effect of the handler does to the response. -/
def Response.act (upstream : Upstream) (w : Response) : Effect → Response
  | .setHeader name value => { w with header := Function.update w.header name (some value) }
  | .httpError _ code => { w with status := w.status.or (some code) }
  -- The reverse proxy adds the headers of the upstream to those that are set.
  | .serveNext =>
    { status := w.status.or (some upstream.status)
      header := fun name => combined (w.header name) (upstream.header name) }
  | _ => w

def respond (rl : RateLimit) (t : Tenant) (outcome : Outcome) (upstream : Upstream) : Response :=
  (rl.effects t outcome).foldl (Response.act upstream) ⟨none, fun _ => none⟩

-- ---------------------------------------------------------------------------
-- app.js
-- ---------------------------------------------------------------------------

/-- The value of decimal digits. -/
def digits (cs : List Char) : Option ℕ :=
  if cs ≠ [] ∧ cs.all Char.isDigit then some (Nat.ofDigitChars 10 cs 0) else none

/-- The value of a decimal integer. -/
def decimal : List Char → Option ℤ
  | '-' :: cs => (digits cs).map fun n : ℕ => -(n : ℤ)
  | cs => (digits cs).map fun n : ℕ => (n : ℤ)

/-- `Number`, where it is finite. Decimal integers are read here, and by `other`
the texts of any other form. -/
def number (other : String → Option ℚ) (v : String) : Option ℚ :=
  match decimal v.toList with
  | some n => some n
  | none => other v

def numberOrNull (other : String → Option ℚ) : Option String → Option ℚ
  | none => none
  | some v => if v = "" then none else number other v

structure Result where
  status : ℕ
  limit : Option ℚ
  remaining : Option ℚ
  reset : Option ℚ
  retryAfter : Option ℚ
  degraded : Bool
  deriving DecidableEq

/-- What `sendOne` reads off a response. -/
def sendOne (other : String → Option ℚ) (res : Response) : Result where
  status := res.status.getD 200
  limit := numberOrNull other (res.header "X-RateLimit-Limit")
  remaining := numberOrNull other (res.header "X-RateLimit-Remaining")
  reset := numberOrNull other (res.header "X-RateLimit-Reset")
  retryAfter := numberOrNull other (res.header "Retry-After")
  degraded := res.header "X-RateLimit-Degraded" = some "true"

/-- The status line of the meter. -/
inductive Status where
  | blank
  /-- "degraded — quota not enforced". -/
  | degraded
  /-- "throttled · retry in ?s", with the seconds if they are known. -/
  | throttled (retryAfter : Option ℚ)
  /-- "allowed". -/
  | allowed
  deriving DecidableEq

/-- The meter; its figures are a dash at first. -/
structure Meter where
  remaining : Option ℚ
  limit : Option ℚ
  pct : ℚ
  level : String
  tierBadge : String
  status : Status
  deriving DecidableEq

structure State where
  sent : ℕ
  allowed : ℕ
  throttled : ℕ
  meter : Meter
  deriving DecidableEq

/-- `describeTier` maps a limit back to the demo tier names. -/
def describeTier (limit : ℚ) : String :=
  if limit = 20 then "anonymous"
  else if limit = 150 then "free"
  else if limit = 10000 then "pro"
  else if limit = 200000 then "internal"
  else "custom"

def updateMeter (m : Meter) (result : Result) : Meter :=
  match result.limit with
  | none => m
  | some limit =>
    let remaining := result.remaining.getD 0
    let pct := if limit > 0 then max 0 (min 100 (remaining / limit * 100)) else 0
    { remaining := some remaining
      limit := some limit
      pct := pct
      level := if remaining = 0 then "empty" else if pct ≤ 25 then "low" else ""
      tierBadge := describeTier limit
      status :=
        if result.degraded then .degraded
        else if result.status = 429 then .throttled result.retryAfter
        else if result.status = 200 then .allowed
        else m.status }

def record (s : State) (result : Result) : State where
  sent := s.sent + 1
  allowed := if result.status = 200 then s.allowed + 1 else s.allowed
  throttled :=
    if result.status = 200 then s.throttled
    else if result.status = 429 then s.throttled + 1
    else s.throttled
  meter := updateMeter s.meter result

-- ---------------------------------------------------------------------------
-- What it is to tell the truth
-- ---------------------------------------------------------------------------

def Admitted (outcome : Outcome) : Prop := ∃ d, Outcome.decision outcome = some d ∧ d.allowed = true

/-- Refused for quota, to come back after these seconds. -/
def Refused (outcome : Outcome) (retryAfter : ℤ) : Prop :=
  ∃ d, Outcome.decision outcome = some d ∧ d.allowed = false ∧
    retryAfter = max 1 (seconds d.retryAfter)

/-- The console, once it has shown the response to a request. -/
def shown (other : String → Option ℚ) (rl : RateLimit) (t : Tenant) (outcome : Outcome)
    (upstream : Upstream) (s : State) : State :=
  record s (sendOne other (respond rl t outcome upstream))

/-- Whatever the console showed before, it tells of the request what the gateway
decided: its counters do, and its status line is the one of this response. -/
structure Tells (other : String → Option ℚ) (rl : RateLimit) (t : Tenant) (outcome : Outcome)
    (upstream : Upstream) : Prop where
  allowed : ∀ s, s.allowed < (shown other rl t outcome upstream s).allowed ↔ Admitted outcome
  throttled : ∀ s, s.throttled < (shown other rl t outcome upstream s).throttled ↔
    ∃ n, Refused outcome n
  line : ∃ line, (∀ s, (shown other rl t outcome upstream s).meter.status = line) ∧
    (line = .degraded ↔
      (respond rl t outcome upstream).header "X-RateLimit-Degraded" = some "true") ∧
    (line = .allowed → Admitted outcome) ∧
    ∀ r, line = .throttled r → ∃ n : ℤ, r = some (n : ℚ) ∧ Refused outcome n

-- ---------------------------------------------------------------------------
-- Numbers in headers
-- ---------------------------------------------------------------------------

theorem digits_repr (n : ℕ) : digits n.repr.toList = some n := by
  have hDigits : (Nat.toDigits 10 n).all Char.isDigit = true :=
    List.all_eq_true.mpr fun c hc => Nat.isDigit_of_mem_toDigits (by decide) (by decide) hc
  rw [Nat.toList_repr, digits, if_pos ⟨Nat.toDigits_ne_nil, hDigits⟩, Nat.ofDigitChars_ten_toDigits]

/-- The console reads back the numbers that the gateway writes. -/
theorem decimal_repr (n : ℤ) : decimal n.repr.toList = some n := by
  cases n with
  | ofNat m =>
    show decimal m.repr.toList = some (m : ℤ)
    have hDigits := digits_repr m
    unfold decimal
    split
    · -- a natural number has no sign
      rename_i cs hSign
      rw [hSign, digits, if_neg (by simp)] at hDigits
      cases hDigits
    · rw [hDigits, Option.map_some]
  | negSucc m =>
    show decimal ("-" ++ (m + 1).repr).toList = some (Int.negSucc m)
    have hSign : ("-" ++ (m + 1).repr).toList = '-' :: (m + 1).repr.toList := by
      rw [String.toList_append]
      rfl
    rw [hSign, decimal, digits_repr, Option.map_some]
    rfl

/-- What `strconv.FormatInt` writes is read back. -/
theorem numberOrNull_repr (other : String → Option ℚ) (n : ℤ) :
    numberOrNull other (some n.repr) = some (n : ℚ) := by
  have hRead := decimal_repr n
  have hSome : n.repr ≠ "" := by
    intro hEmpty
    rw [hEmpty] at hRead
    cases hRead
  rw [numberOrNull, if_neg hSome, number, hRead]

-- ---------------------------------------------------------------------------
-- The responses
-- ---------------------------------------------------------------------------

section Respond

variable (rl : RateLimit) (t : Tenant) (upstream : Upstream)

theorem silent_limit : upstream.header "X-RateLimit-Limit" = none :=
  upstream.silent _ (by decide)

theorem silent_degraded : upstream.header "X-RateLimit-Degraded" = none :=
  upstream.silent _ (by decide)

/-- A request that is refused for quota. -/
theorem respond_refused {outcome : Outcome} {d : Decision}
    (hDecision : Outcome.decision outcome = some d) (hRefused : d.allowed = false) :
    (respond rl t outcome upstream).status = some 429 ∧
    (respond rl t outcome upstream).header "X-RateLimit-Limit" = some d.limit.repr ∧
    (respond rl t outcome upstream).header "X-RateLimit-Degraded" = none ∧
    (respond rl t outcome upstream).header "Retry-After" =
      some (max 1 (seconds d.retryAfter)).repr := by
  rw [respond, effects_of_decision rl t hDecision]
  simp [RateLimit.answer, writeRateLimitHeaders, hRefused, Response.act]

/-- One that is admitted has the status of the upstream. -/
theorem respond_admitted {outcome : Outcome} {d : Decision}
    (hDecision : Outcome.decision outcome = some d) (hAllowed : d.allowed = true) :
    (respond rl t outcome upstream).status = some upstream.status ∧
    (respond rl t outcome upstream).header "X-RateLimit-Limit" = some d.limit.repr ∧
    (respond rl t outcome upstream).header "X-RateLimit-Degraded" = none := by
  rw [respond, effects_of_decision rl t hDecision]
  simp [RateLimit.answer, writeRateLimitHeaders, hAllowed, Response.act, combined,
    silent_limit, silent_degraded]

/-- Without a decision there is no limit to show. -/
theorem respond_undecided {outcome : Outcome} (hNone : Outcome.decision outcome = none) :
    (respond rl t outcome upstream).header "X-RateLimit-Limit" = none := by
  obtain ⟨cause, -, hEffects⟩ | ⟨d, hSome, -⟩ := effects_cases rl t outcome
  · rw [respond, hEffects]
    cases hPolicy : rl.failOpen <;>
      simp [RateLimit.applyFailurePolicy, hPolicy, Response.act, combined, silent_limit]
  · rw [hNone] at hSome
    cases hSome

end Respond

-- ---------------------------------------------------------------------------
-- What is shown of them
-- ---------------------------------------------------------------------------

/-- The status line, when the response has a limit. -/
theorem status_record (s : State) {result : Result} {limit : ℚ} (hLimit : result.limit = some limit)
    (hDegraded : result.degraded = false) :
    (record s result).meter.status =
      if result.status = 429 then .throttled result.retryAfter
      else if result.status = 200 then .allowed
      else s.meter.status := by
  simp [record, updateMeter, hLimit, hDegraded]

/-- Without one the meter stays. -/
theorem meter_record (s : State) {result : Result} (hLimit : result.limit = none) :
    (record s result).meter = s.meter := by
  simp [record, updateMeter, hLimit]

/-- The page before the first response. -/
def State.init : State := ⟨0, 0, 0, ⟨none, none, 0, "", "anonymous", .blank⟩⟩

theorem admitted_iff {outcome : Outcome} {d : Decision}
    (hDecision : Outcome.decision outcome = some d) : Admitted outcome ↔ d.allowed = true := by
  simp [Admitted, hDecision]

theorem exists_refused_iff {outcome : Outcome} {d : Decision}
    (hDecision : Outcome.decision outcome = some d) :
    (∃ n, Refused outcome n) ↔ d.allowed = false := by
  simp [Refused, hDecision]

section Tells

variable {other : String → Option ℚ} {rl : RateLimit} {t : Tenant} {outcome : Outcome}
  {upstream : Upstream}

/-- The console tells of a refusal, with its `Retry-After`. -/
theorem tells_of_refused {d : Decision} (hDecision : Outcome.decision outcome = some d)
    (hRefused : d.allowed = false) : Tells other rl t outcome upstream := by
  obtain ⟨hStatus, hLimit, hDegraded, hRetry⟩ :=
    respond_refused rl t upstream hDecision hRefused
  -- what was answered: a refusal, with the clamped wait
  have hNotAdmitted : ¬ Admitted outcome := by
    rw [admitted_iff hDecision, hRefused]
    decide
  have hFor : Refused outcome (max 1 (seconds d.retryAfter)) := ⟨d, hDecision, hRefused, rfl⟩
  -- what the page reads out of the answer
  have hRead : (sendOne other (respond rl t outcome upstream)).status = 429 := by
    rw [sendOne, hStatus, Option.getD_some]
  have hSeconds : (sendOne other (respond rl t outcome upstream)).retryAfter =
      some ((max 1 (seconds d.retryAfter) : ℤ) : ℚ) := by
    rw [sendOne, hRetry, numberOrNull_repr]
  have hLine : ∀ s, (shown other rl t outcome upstream s).meter.status =
      .throttled (some ((max 1 (seconds d.retryAfter) : ℤ) : ℚ)) := by
    intro s
    rw [shown, @status_record s _ d.limit (by rw [sendOne, hLimit, numberOrNull_repr])
      (by simp [sendOne, hDegraded]), if_pos hRead, hSeconds]
  -- the two counters, the line, and neither of the degraded notices
  refine ⟨fun s => iff_of_false ?_ hNotAdmitted, fun s => iff_of_true ?_ ⟨_, hFor⟩,
    _, hLine, iff_of_false (fun h => (by cases h)) (by simp [hDegraded]),
    fun h => (by cases h), fun r h => ?_⟩
  · simp [shown, record, hRead]
  · simp [shown, record, hRead]
  · exact ⟨_, (Status.throttled.inj h).symm, hFor⟩

/-- It tells of a request that was let through, if the upstream answers 200. -/
theorem tells_of_admitted {d : Decision} (hDecision : Outcome.decision outcome = some d)
    (hAllowed : d.allowed = true) (hUpstream : upstream.status = 200) :
    Tells other rl t outcome upstream := by
  obtain ⟨hStatus, hLimit, hDegraded⟩ := respond_admitted rl t upstream hDecision hAllowed
  have hAdmitted : Admitted outcome := ⟨d, hDecision, hAllowed⟩
  have hNotRefused : ¬ ∃ n, Refused outcome n := by
    rw [exists_refused_iff hDecision, hAllowed]
    decide
  have hRead : (sendOne other (respond rl t outcome upstream)).status = 200 := by
    rw [sendOne, hStatus, Option.getD_some, hUpstream]
  have hLine : ∀ s, (shown other rl t outcome upstream s).meter.status = .allowed := by
    intro s
    rw [shown, @status_record s _ d.limit (by rw [sendOne, hLimit, numberOrNull_repr])
      (by simp [sendOne, hDegraded]), if_neg (by rw [hRead]; decide), if_pos hRead]
  refine ⟨fun s => iff_of_true ?_ hAdmitted, fun s => iff_of_false ?_ hNotRefused,
    _, hLine, iff_of_false (fun h => (by cases h)) (by simp [hDegraded]),
    fun _ => hAdmitted, fun r h => (by cases h)⟩
  · simp [shown, record, hRead]
  · simp [shown, record, hRead]

/-- It tells of nothing but decisions, and of those let through only with a 200. -/
theorem decided_of_tells (hTells : Tells other rl t outcome upstream) :
    ∃ d, Outcome.decision outcome = some d ∧ (d.allowed = true → upstream.status = 200) := by
  cases hDecision : Outcome.decision outcome with
  | none =>
    -- the line is the one before, whichever that was
    have hLimit : (sendOne other (respond rl t outcome upstream)).limit = none := by
      rw [sendOne, respond_undecided rl t upstream hDecision]
      rfl
    have hKept : ∀ s, (shown other rl t outcome upstream s).meter = s.meter :=
      fun s => meter_record s hLimit
    obtain ⟨line, hLine, -⟩ := hTells.line
    have hBlank := hLine State.init
    have hAllowed := hLine { State.init with meter := { State.init.meter with status := .allowed } }
    rw [hKept] at hBlank hAllowed
    exact absurd (hBlank.trans hAllowed.symm) (by decide)
  | some d =>
    refine ⟨d, rfl, fun hAllowed => ?_⟩
    obtain ⟨hStatus, -⟩ := respond_admitted rl t upstream hDecision hAllowed
    -- an admitted call must show in the counter, which only a 200 does
    have hGrown := (hTells.allowed State.init).mpr ⟨d, hDecision, hAllowed⟩
    by_contra hOther
    have hRead : (sendOne other (respond rl t outcome upstream)).status ≠ 200 := by
      rw [sendOne, hStatus]
      exact hOther
    rw [shown, record, if_neg hRead] at hGrown
    exact lt_irrefl _ hGrown

end Tells

/--
**What the console tells.** For every response that `Wrap` can produce, and
whatever the console showed before: its counters and its status line tell what
the gateway decided exactly when the limiter made a decision and the upstream,
if the request was admitted, answered it with a 200.
-/
theorem console_tells_iff (other : String → Option ℚ) (rl : RateLimit) (t : Tenant)
    (outcome : Outcome) (upstream : Upstream) :
    Tells other rl t outcome upstream ↔
      ∃ d, Outcome.decision outcome = some d ∧ (d.allowed = true → upstream.status = 200) := by
  refine ⟨decided_of_tells, ?_⟩
  rintro ⟨d, hDecision, hUpstream⟩
  cases hAllowed : d.allowed with
  | true => exact tells_of_admitted hDecision hAllowed (hUpstream hAllowed)
  | false => exact tells_of_refused hDecision hAllowed

/-- A request served while the limiter is down is counted as allowed, and an
admitted one that the upstream has no page for is not. -/
theorem console_misleads :
    ¬ Tells (fun _ => none) ⟨.tokenBucket, true⟩ ⟨"acme", ⟨"free", 10, 1000000000, 0⟩⟩ none
      ⟨200, fun _ => none, fun _ _ => rfl⟩ ∧
    ¬ Tells (fun _ => none) ⟨.tokenBucket, true⟩ ⟨"acme", ⟨"free", 10, 1000000000, 0⟩⟩
      (some (.ok ⟨true, 10, 9, 0, 0⟩)) ⟨404, fun _ => none, fun _ _ => rfl⟩ := by
  constructor
  · intro hTells
    obtain ⟨d, hDecision, -⟩ := (hTells.allowed State.init).mp (by decide +kernel)
    cases hDecision
  · intro hTells
    have hGrown := (hTells.allowed State.init).mpr ⟨_, rfl, rfl⟩
    exact absurd hGrown (by decide +kernel)

end RatelimitGateway.Console
