import RatelimitGateway.Limiter.Reopening
import RatelimitGateway.Middleware.Definitions

/-!
# What the headers promise

A duration goes into a header as a number of seconds, rounded to the nearest
one. Half of the durations are rounded down: a client that waits for as long as
`Retry-After` says comes back too early, unless the wait is a whole number of
seconds, rounds up, or is below the one second that the header never falls
short of. At the end of the range of a duration nothing rounds up any more.

A bucket may also need a little longer than its own hint: the token that flows
in by then is a double, and can be less than one.

* `obeying_client_iff` — the waits and the durations that the headers cover.
-/

namespace RatelimitGateway.Middleware

open KeyStore Limiter Redis

-- ---------------------------------------------------------------------------
-- Rounding
-- ---------------------------------------------------------------------------

def IsInt64 (d : ℤ) : Prop := -2 ^ 63 ≤ d ∧ d < 2 ^ 63

/-- Rounding to seconds does not make the duration shorter: it is a whole
number of seconds, or half a second or more after one. Before zero a half is
rounded away from zero, and at both ends of the range to the side of zero. -/
def RoundsUp (d : ℤ) : Prop :=
  d % second = 0 ∨ (0 ≤ d ∧ second ≤ 2 * (d % second) ∧ d < 9223372036 * second) ∨
    (d < 0 ∧ (second < 2 * (d % second) ∨ d < -9223372036 * second))

/-- An `int64` is what is left of a number that has wrapped around. -/
theorem int64_spec (n : ℤ) : IsInt64 (int64 n) ∧ ∃ k, int64 n = n + k * 2 ^ 64 := by
  refine ⟨⟨?_, ?_⟩, -n.bdiv (2 ^ 64), ?_⟩
  · have := Int.le_bmod (x := n) (m := 2 ^ 64) (by decide)
    unfold int64
    omega
  · have := Int.bmod_lt (x := n) (m := 2 ^ 64) (by decide)
    unfold int64
    omega
  · rw [int64, Int.bmod_eq_self_sub_bdiv_mul]
    push_cast
    ring

/-- The seconds of a duration, with the one that rounding adds. -/
theorem seconds_of_nonneg {d : ℤ} (hRange : IsInt64 d) (hSign : 0 ≤ d) :
    seconds d = d / second +
      if second ≤ 2 * (d % second) ∧ d < 9223372036 * second then 1 else 0 := by
  obtain ⟨-, hHigh⟩ := hRange
  obtain ⟨⟨hLow', hHigh'⟩, k, hk⟩ := int64_spec (d + second - d % second)
  have hRem : d.tmod second = d % second := Int.tmod_eq_emod_of_nonneg hSign
  have hRound : 0 ≤ roundToSecond d ∧ roundToSecond d / second = d / second +
      if second ≤ 2 * (d % second) ∧ d < 9223372036 * second then 1 else 0 := by
    unfold roundToSecond
    rw [if_neg (not_lt.mpr hSign), hRem]
    unfold second at *
    split_ifs <;> omega
  rw [seconds, Int.tdiv_eq_ediv_of_nonneg hRound.1, hRound.2]

/-- Before zero the seconds are those of the opposite duration. -/
theorem seconds_of_neg {d : ℤ} (hRange : IsInt64 d) (hSign : d < 0) :
    seconds d = -(-d / second +
      if second ≤ 2 * (-d % second) ∧ -d < 9223372036 * second then 1 else 0) := by
  obtain ⟨hLow, -⟩ := hRange
  obtain ⟨⟨hLow', hHigh'⟩, k, hk⟩ := int64_spec (d - second + -d % second)
  have hRem : d.tmod second = -(-d % second) := by
    rw [← Int.tmod_eq_emod_of_nonneg (by omega), Int.neg_tmod, neg_neg]
  have hRound : roundToSecond d ≤ 0 ∧ -roundToSecond d / second = -d / second +
      if second ≤ 2 * (-d % second) ∧ -d < 9223372036 * second then 1 else 0 := by
    unfold roundToSecond
    rw [if_pos hSign, hRem, neg_neg]
    unfold second at *
    dsimp only
    split_ifs <;> omega
  rw [seconds, ← hRound.2, ← Int.tdiv_eq_ediv_of_nonneg (by omega), Int.neg_tdiv, neg_neg]

/-- The seconds cover the duration when it rounds up. -/
theorem le_seconds_iff {d : ℤ} (hRange : IsInt64 d) : d ≤ seconds d * second ↔ RoundsUp d := by
  unfold RoundsUp
  rcases le_or_gt 0 d with hSign | hSign
  · rw [seconds_of_nonneg hRange hSign]
    obtain ⟨-, hHigh⟩ := hRange
    unfold second
    split_ifs <;> omega
  · rw [seconds_of_neg hRange hSign]
    obtain ⟨hLow, -⟩ := hRange
    unfold second
    split_ifs <;> omega

/-- `Retry-After` is never less than one second. -/
theorem le_retryAfter_iff {d : ℤ} (hRange : IsInt64 d) :
    d ≤ max 1 (seconds d) * second ↔ d ≤ second ∨ RoundsUp d := by
  rw [← le_seconds_iff hRange, max_mul_of_nonneg _ _ (by decide : (0 : ℤ) ≤ second), one_mul,
    le_max_iff]

/-- The number of seconds in `Retry-After` covers the wait: the wait is at most
a second, a whole number of seconds, or half a second or more after one, and
not at the end of the range of a duration. -/
def WaitRoundsUp (ms : ℤ) : Prop :=
  ms ≤ 1000 ∨ (ms ≤ 9223372036000 ∧ (ms % 1000 = 0 ∨ 500 ≤ ms % 1000))

/-- No duration has more seconds than fit into it. -/
theorem seconds_le {d : ℤ} (hRange : IsInt64 d) : seconds d ≤ 9223372036 := by
  rcases le_or_gt 0 d with hSign | hSign
  · rw [seconds_of_nonneg hRange hSign]
    obtain ⟨-, hHigh⟩ := hRange
    unfold second
    split_ifs <;> omega
  · rw [seconds_of_neg hRange hSign]
    unfold second
    split_ifs <;> omega

/-- The seconds of `Retry-After` cover the wait when it does. -/
theorem wait_le_iff (ms : ℤ) :
    ms ≤ 1000 * max 1 (seconds (int64 (ms * 1000000))) ↔ WaitRoundsUp ms := by
  unfold WaitRoundsUp
  rcases le_or_gt ms 1000 with hShort | hLong
  · have := le_max_left 1 (seconds (int64 (ms * 1000000)))
    exact iff_of_true (by omega) (.inl hShort)
  rcases lt_or_ge (ms * 1000000) (2 ^ 63) with hFits | hOver
  · have hSame : int64 (ms * 1000000) = ms * 1000000 :=
      Int.bmod_eq_of_le (by omega) (by omega)
    have hRounded := le_retryAfter_iff (d := ms * 1000000) ⟨by omega, hFits⟩
    rw [hSame]
    generalize max 1 (seconds (ms * 1000000)) = n at hRounded
    unfold RoundsUp second at hRounded
    omega
  · -- the duration has wrapped around, and the wait is out of reach
    have := seconds_le (int64_spec (ms * 1000000)).1
    refine iff_of_false ?_ ?_ <;> omega

/-- `Retry-After` is a second, or no more than half a second beyond the wait. -/
theorem retryAfter_bounds (ms : ℤ) :
    max 1 (seconds (int64 (ms * 1000000))) ≤ 9223372036 ∧
      (0 < ms → max 1 (seconds (int64 (ms * 1000000))) = 1 ∨
        1000 * max 1 (seconds (int64 (ms * 1000000))) ≤ ms + 500) := by
  have hMost := seconds_le (int64_spec (ms * 1000000)).1
  refine ⟨max_le (by decide) hMost, fun hPositive => ?_⟩
  rcases lt_or_ge (ms * 1000000) (2 ^ 63) with hFits | hOver
  · have hSame : int64 (ms * 1000000) = ms * 1000000 :=
      Int.bmod_eq_of_le (by omega) (by omega)
    rw [hSame, seconds_of_nonneg ⟨by omega, hFits⟩ (by omega)]
    unfold second
    split_ifs <;> omega
  · omega

-- ---------------------------------------------------------------------------
-- The headers of an answer
-- ---------------------------------------------------------------------------

section Answer

variable {rl : RateLimit} {tn : Tenant} {d : Decision}

theorem throttled_answer_iff :
    .httpError "rate limit exceeded" 429 ∈ rl.answer tn d ↔ d.allowed = false := by
  cases hAllowed : d.allowed <;> simp [RateLimit.answer, writeRateLimitHeaders, hAllowed]

theorem retryAfter_header {n : ℤ} (h : .setHeader "Retry-After" n.repr ∈ rl.answer tn d) :
    n = max 1 (seconds d.retryAfter) := by
  cases hAllowed : d.allowed <;>
    simp [RateLimit.answer, writeRateLimitHeaders, hAllowed, Int.repr_inj] at h
  exact h

/-- `X-RateLimit-Reset` says the seconds of the reset time. -/
theorem reset_header {n : ℤ} (h : .setHeader "X-RateLimit-Reset" n.repr ∈ rl.answer tn d) :
    n = seconds d.resetAfter := by
  cases hAllowed : d.allowed <;>
    simp [RateLimit.answer, writeRateLimitHeaders, hAllowed, Int.repr_inj] at h
  · exact h
  · exact h

end Answer

/-- The decision that `Allow` makes of the reply of its script. -/
theorem allow_of_serve (maxTtl : ℤ) {l : RedisLimiter} {key : String} {q : Quota}
    (hLimit : 0 < q.limit) (hWindow : 0 < q.window) (s : Store) {c : Call} {hex : String}
    (hMember : c.member = uniqueMember c.nowMs hex) :
    Doubles.allow maxTtl l key q c.nowMs (some hex) ⟨.honoured, c.execAt⟩ s =
      ((serve .honoured (Doubles.script maxTtl l key q) s c).1.map (l.decision q) |>.mapError
        (.runScript l.alg), (serve .honoured (Doubles.script maxTtl l key q) s c).2) := by
  unfold Doubles.allow serve Doubles.script
  rw [if_neg (by omega), if_neg nofun, Option.getD_some, hMember]
  rcases exec (Doubles.run maxTtl l key q c.nowMs (uniqueMember c.nowMs hex))
    ⟨.honoured, c.execAt⟩ s with ⟨x, s'⟩
  cases x <;> rfl

/-- A client that is told to come back later was refused by the script. -/
theorem reply_of_throttled (rl : RateLimit) (tn : Tenant) {l : RedisLimiter} {q : Quota}
    {x : Except RedisError Reply} {now : ℤ} {b : Breaker}
    (hThrottled : .httpError "rate limit exceeded" 429 ∈
      (rl.wrapFinish tn ((x.map (l.decision q)).mapError (.runScript l.alg)) now b).1) :
    ∃ r, x = .ok r ∧ r.allowed ≠ 1 ∧
      (rl.wrapFinish tn ((x.map (l.decision q)).mapError (.runScript l.alg)) now b).1 =
        rl.answer tn (l.decision q r) := by
  cases x with
  | error e =>
    simp [Except.map, Except.mapError, RateLimit.wrapFinish, RateLimit.applyFailurePolicy]
      at hThrottled
    split at hThrottled <;> simp at hThrottled
  | ok r =>
    refine ⟨r, rfl, fun hAllowed => ?_, rfl⟩
    have hDecision := throttled_answer_iff.mp hThrottled
    simp [RedisLimiter.decision, hAllowed] at hDecision

/-- The wait that `Retry-After` announces is enough. In a bucket there is a token by then,
whatever its hint was; the other waits round up. -/
def WaitCovered (maxTtl : ℤ) (l : RedisLimiter) (key : String) (q : Quota) (s : Store)
    (c : Call) : Prop :=
  match l.alg with
  | .tokenBucket =>
    let ms := Doubles.waitMs l key q s c
    Doubles.HasToken maxTtl (Doubles.ratePerSecond q) (Doubles.float64 q.burstCapacity)
      (Doubles.tokensAfter l key q s c (1000 * max 1 (seconds (int64 (ms * 1000000)))))
  | _ => WaitRoundsUp (l.waitMs key q s c)

/-- A covered wait is one after which the key has reopened. -/
theorem waitCovered_iff {maxTtl : ℤ} {l : RedisLimiter} {key : String} {q : Quota} {s : Store}
    {c : Call} : WaitCovered maxTtl l key q s c ↔ Doubles.Reopens maxTtl l key q s c
      (1000 * max 1 (seconds (int64 (Doubles.waitMs l key q s c * 1000000)))) := by
  unfold WaitCovered Doubles.Reopens Doubles.waitMs
  cases l.alg with
  | tokenBucket => exact Iff.rfl
  | slidingWindow => exact (wait_le_iff _).symm
  | fixedWindow => exact (wait_le_iff _).symm

end RatelimitGateway.Middleware
