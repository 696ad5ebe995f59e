import Mathlib.Tactic.Linarith
import RatelimitGateway.Middleware.Pipeline

/-!
# The load on a limiter that only fails

How many limiter calls a replica starts while every call that completes
fails. As long as the breaker is closed, every call that was started is still
in flight or has been counted as a failure; the trip freezes that number. From
then on calls are only started as probes, at most `maxProbes` an episode, and
episodes are a cooldown apart (`LoadInv`, whose `E` counts the episodes that
are over).

* `bounded_load` — at most
  `threshold + C - 1 + maxProbes * (1 + T / cooldown)` calls in a stretch of
  length `T` with at most `C` calls in flight.
-/

namespace RatelimitGateway.Middleware

open Transitions Breaker

/-- The calls started since the stretch began, by where the breaker stands. -/
inductive LoadInv (C : ℕ) (t₀ T : ℤ) (b : Breaker) (inFlight started : ℕ) (clock : ℤ) : Prop
  | closed (hState : b.state = .closed) (hBelow : b.failures < b.config.threshold)
      (hLoad : started ≤ b.failures + inFlight)
  | open (E : ℕ) (hState : b.state = .open)
      (hLoad : started + 1 ≤ b.config.threshold + C + b.config.maxProbes * E)
      (hOpened : E = 0 ∨ t₀ + (E - 1) * b.config.cooldown ≤ b.openedAt)
      (hWithin : E = 0 ∨ (E - 1) * b.config.cooldown ≤ T)
  | halfOpen (E : ℕ) (hState : b.state = .halfOpen) (hProbes : b.probes ≤ b.config.maxProbes)
      (hLoad : started + 1 ≤ b.config.threshold + C + b.config.maxProbes * E + b.probes)
      (hEntered : E = 0 ∨ t₀ + E * b.config.cooldown ≤ clock)
      (hWithin : E = 0 ∨ E * b.config.cooldown ≤ T)

section Steps

variable {C : ℕ} {t₀ T now clock : ℤ} {b b' : Breaker} {inFlight started : ℕ}

/-- Closed, every call that was started has failed or is in flight. -/
theorem LoadInv.of_closed (h : LoadInv C t₀ T b inFlight started clock)
    (hClosed : b.state = .closed) :
    b.failures < b.config.threshold ∧ started ≤ b.failures + inFlight := by
  cases h with
  | closed hState hBelow hLoad => exact ⟨hBelow, hLoad⟩
  | «open» E hState => exact absurd (hClosed.symm.trans hState) nofun
  | halfOpen E hState => exact absurd (hClosed.symm.trans hState) nofun

/-- Open, the started calls are those before the trip and the probes of the episodes
since. -/
theorem LoadInv.of_open (h : LoadInv C t₀ T b inFlight started clock) (hOpen : b.state = .open) :
    ∃ E : ℕ, started + 1 ≤ b.config.threshold + C + b.config.maxProbes * E ∧
      (E = 0 ∨ t₀ + (E - 1) * b.config.cooldown ≤ b.openedAt) ∧
      (E = 0 ∨ (E - 1) * b.config.cooldown ≤ T) := by
  cases h with
  | closed hState => exact absurd (hOpen.symm.trans hState) nofun
  | «open» E hState hLoad hOpened hWithin => exact ⟨E, hLoad, hOpened, hWithin⟩
  | halfOpen E hState => exact absurd (hOpen.symm.trans hState) nofun

/-- Half-open, the probes of this episode come to them. -/
theorem LoadInv.of_halfOpen (h : LoadInv C t₀ T b inFlight started clock)
    (hHalf : b.state = .halfOpen) :
    ∃ E : ℕ, b.probes ≤ b.config.maxProbes ∧
      started + 1 ≤ b.config.threshold + C + b.config.maxProbes * E + b.probes ∧
      (E = 0 ∨ t₀ + E * b.config.cooldown ≤ clock) ∧ (E = 0 ∨ E * b.config.cooldown ≤ T) := by
  cases h with
  | closed hState => exact absurd (hHalf.symm.trans hState) nofun
  | «open» E hState => exact absurd (hHalf.symm.trans hState) nofun
  | halfOpen E hState hProbes hLoad hEntered hWithin =>
    exact ⟨E, hProbes, hLoad, hEntered, hWithin⟩

/-- Nothing was started yet. -/
theorem loadInv_start (hSound : Sound b) (hC : 1 ≤ C) : LoadInv C t₀ T b inFlight 0 clock := by
  have hThreshold := b.config.threshold_pos
  cases hState : b.state with
  | closed => exact .closed hState (hSound.failures hState) (by omega)
  | «open» => exact .open 0 hState (by omega) (.inl rfl) (.inl rfl)
  | halfOpen => exact .halfOpen 0 hState (hSound.probes hState) (by omega) (.inl rfl) (.inl rfl)

/-- One more call is started. -/
theorem loadInv_admitted (hInv : LoadInv C t₀ T b inFlight started clock)
    (hAllow : b.allow now = (true, b')) (hClock : clock ≤ now) (hTo : now ≤ t₀ + T) :
    LoadInv C t₀ T b' (inFlight + 1) (started + 1) now := by
  obtain ⟨hClosed, -, rfl⟩ | ⟨-, -, hFalse, -⟩ | ⟨hOpen, hCooled, -, rfl⟩ |
    ⟨hHalf, hRoom, -, rfl⟩ | ⟨-, -, hFalse, -⟩ := allow_cases hAllow
  · -- closed: one more call in flight
    obtain ⟨hBelow, hLoad⟩ := hInv.of_closed hClosed
    exact .closed hClosed hBelow (by omega)
  · cases hFalse
  · -- a new episode, a cooldown after the trip
    obtain ⟨E, hLoad, hOpened, -⟩ := hInv.of_open hOpen
    have hEntered : E = 0 ∨ t₀ + E * b.config.cooldown ≤ now := by
      refine hOpened.imp_right fun h => ?_
      calc t₀ + E * b.config.cooldown
          = t₀ + (E - 1) * b.config.cooldown + b.config.cooldown := by ring
        _ ≤ b.openedAt + b.config.cooldown := by omega
        _ ≤ now := hCooled
    refine .halfOpen E rfl b.config.maxProbes_pos (by simpa using hLoad) hEntered ?_
    exact hEntered.imp_right fun h => by show _ ≤ _; dsimp only; omega
  · -- one more probe of the episode
    obtain ⟨E, -, hLoad, hEntered, hWithin⟩ := hInv.of_halfOpen hHalf
    exact .halfOpen E hHalf hRoom (by dsimp only; omega)
      (hEntered.imp_right fun h => h.trans hClock) hWithin
  · cases hFalse

/-- A refusal starts none. -/
theorem loadInv_refused (hInv : LoadInv C t₀ T b inFlight started clock)
    (hAllow : b.allow now = (false, b')) (hClock : clock ≤ now) :
    LoadInv C t₀ T b' inFlight started now := by
  have hSame : b' = b := by
    obtain ⟨-, hTrue, -⟩ | ⟨-, -, -, h⟩ | ⟨-, -, hTrue, -⟩ | ⟨-, -, hTrue, -⟩ | ⟨-, -, -, h⟩ :=
      allow_cases hAllow
    · cases hTrue
    · exact h
    · cases hTrue
    · cases hTrue
    · exact h
  subst hSame
  cases hInv with
  | closed hState hBelow hLoad => exact .closed hState hBelow hLoad
  | «open» E hState hLoad hOpened hWithin => exact .open E hState hLoad hOpened hWithin
  | halfOpen E hState hProbes hLoad hEntered hWithin =>
    exact .halfOpen E hState hProbes hLoad (hEntered.imp_right fun h => h.trans hClock) hWithin

/-- A call fails. -/
theorem loadInv_failed (hInv : LoadInv C t₀ T b (inFlight + 1) started clock)
    (hFailure : b.failure now = b') (hRoom : inFlight + 1 ≤ C) (hClock : clock ≤ now)
    (hFrom : t₀ ≤ now) (hTo : now ≤ t₀ + T) : LoadInv C t₀ T b' inFlight started now := by
  obtain ⟨hClosed, hBelow', rfl⟩ | ⟨hClosed, -, rfl⟩ | ⟨hOpen, rfl⟩ | ⟨hHalf, rfl⟩ :=
    failure_cases hFailure
  · -- below the threshold: one call less in flight, one failure more
    obtain ⟨-, hLoad⟩ := hInv.of_closed hClosed
    exact .closed hClosed hBelow' (by dsimp only; omega)
  · -- the trip: what was started is in flight or was counted
    obtain ⟨hBelow, hLoad⟩ := hInv.of_closed hClosed
    exact .open 0 rfl (by dsimp only; omega) (.inl rfl) (.inl rfl)
  · -- a late failure, which an open breaker ignores
    obtain ⟨E, hLoad, hOpened, hWithin⟩ := hInv.of_open hOpen
    exact .open E hOpen hLoad hOpened hWithin
  · -- the episode is over
    obtain ⟨E, hProbes, hLoad, hEntered, hWithin⟩ := hInv.of_halfOpen hHalf
    refine .open (E + 1) rfl ?_ (.inr ?_) (.inr ?_)
    · show started + 1 ≤ b.config.threshold + C + b.config.maxProbes * (E + 1)
      rw [Nat.mul_succ]
      omega
    · show t₀ + ((E + 1 : ℕ) - 1) * b.config.cooldown ≤ now
      rw [Nat.cast_succ, add_sub_cancel_right]
      rcases hEntered with rfl | h
      · simpa using hFrom
      · exact h.trans hClock
    · show ((E + 1 : ℕ) - 1) * b.config.cooldown ≤ T
      rw [Nat.cast_succ, add_sub_cancel_right]
      rcases hWithin with rfl | h
      · simp only [Nat.cast_zero, zero_mul]
        omega
      · exact h

/-- What the invariant says of the number of calls. -/
theorem loadInv_bound (hInv : LoadInv C t₀ T b inFlight started clock) (hRoom : inFlight ≤ C)
    (hT : 0 ≤ T) (hCooldown : 0 < b.config.cooldown) :
    (started : ℤ) ≤ b.config.threshold + C - 1 +
      b.config.maxProbes * (1 + T / b.config.cooldown) := by
  have hQuot : 0 ≤ T / b.config.cooldown := Int.ediv_nonneg hT hCooldown.le
  -- with at most `1 + T / cooldown` episodes the probes stay within the last term
  have hProbes : ∀ n : ℤ, n ≤ 1 + T / b.config.cooldown →
      (b.config.maxProbes : ℤ) * n ≤ b.config.maxProbes * (1 + T / b.config.cooldown) :=
    fun n hn => Int.mul_le_mul_of_nonneg_left hn (by omega)
  cases hInv with
  | closed hState hBelow hLoad =>
    have hFloor := hProbes 0 (by omega)
    rw [mul_zero] at hFloor
    omega
  | «open» E hState hLoad hOpened hWithin =>
    -- the episodes are a cooldown apart, the first one at the earliest at the start
    have hEpisodes : (E : ℤ) ≤ 1 + T / b.config.cooldown := by
      rcases hWithin with rfl | h
      · omega
      · have := (Int.le_ediv_iff_mul_le hCooldown).mpr h
        omega
    have := hProbes E hEpisodes
    omega
  | halfOpen E hState hRoom' hLoad hEntered hWithin =>
    have hEpisodes : (E : ℤ) + 1 ≤ 1 + T / b.config.cooldown := by
      rcases hWithin with rfl | h
      · omega
      · have := (Int.le_ediv_iff_mul_le hCooldown).mpr h
        omega
    have := hProbes (E + 1) hEpisodes
    rw [mul_add, mul_one] at this
    omega

end Steps

-- ---------------------------------------------------------------------------
-- A stretch of a run
-- ---------------------------------------------------------------------------

/-- A step of a stretch from `t₀` to `t₀ + T` in which every call that
completes fails and at most `C` calls are in flight. -/
structure InStretch (C : ℕ) (t₀ T : ℤ) (g : Gateway) (e : Event) (g' : Gateway) : Prop where
  fails    : ∀ id d now, e ≠ .complete id (.ok d) now
  clock    : ∀ now, e.now = some now → g.clock ≤ now ∧ t₀ ≤ now ∧ now ≤ t₀ + T
  inFlight : g'.flights.length ≤ C

/-- What holds of the breaker in every reachable state. -/
structure BreakerInv (config : Config) (g : Gateway) : Prop where
  config : g.breaker.config = config
  sound  : Sound g.breaker

/-- The breaker stays sound, under its configuration. -/
theorem breakerInv_step {rl : RateLimit} {config : Config} {g g' : Gateway} {e : Event}
    (hInv : BreakerInv config g) (hStep : g.step rl e = some g') : BreakerInv config g' := by
  obtain ⟨hConfig, hSound⟩ := hInv
  cases did_of_step hStep with
  | called hNew hAllow => exact ⟨(config_of_allow hAllow).trans hConfig, hSound.allow hAllow⟩
  | skipped hNew hAllow => exact ⟨(config_of_allow hAllow).trans hConfig, hSound.allow hAllow⟩
  | hungUp => exact ⟨hConfig, hSound⟩
  | answered =>
    have hReport : g.breaker.report true 0 = g.breaker.success := rfl
    exact ⟨(config_of_report hReport).trans hConfig, hSound.report hReport⟩
  | @failed _ _ now =>
    have hReport : g.breaker.report false now = g.breaker.failure now := rfl
    exact ⟨(config_of_report hReport).trans hConfig, hSound.report hReport⟩

/-- Every step of the pipeline is one of these. -/
theorem loadInv_step {rl : RateLimit} {C : ℕ} {t₀ T : ℤ} {g g' : Gateway} {e : Event}
    {started : ℕ} (hRoom : g.flights.length ≤ C)
    (hInv : LoadInv C t₀ T g.breaker g.flights.length started g.clock)
    (hStep : g.step rl e = some g') (hStretch : InStretch C t₀ T g e g') :
    ∃ started', g'.calls + started = g.calls + started' ∧
      LoadInv C t₀ T g'.breaker g'.flights.length started' g'.clock := by
  obtain ⟨hFails, hTimes, -⟩ := hStretch
  cases did_of_step hStep with
  | called hNew hAllow =>
    obtain ⟨hClock, -, hTo⟩ := hTimes _ rfl
    exact ⟨started + 1, by dsimp only; omega, loadInv_admitted hInv hAllow hClock hTo⟩
  | skipped hNew hAllow =>
    obtain ⟨hClock, -, -⟩ := hTimes _ rfl
    exact ⟨started, rfl, loadInv_refused hInv hAllow hClock⟩
  | hungUp =>
    refine ⟨started, rfl, ?_⟩
    rw [length_hungUp]
    exact hInv
  -- every call of the stretch fails
  | answered => exact absurd rfl (hFails _ _ _)
  | failed hFlight =>
    obtain ⟨hClock, hFrom, hTo⟩ := hTimes _ rfl
    rw [length_without hFlight] at hInv hRoom
    exact ⟨started, rfl, loadInv_failed hInv rfl hRoom hClock hFrom hTo⟩

/--
**Bounded load on a dead limiter.** From any reachable state, with a clock
that never steps back: a stretch of length `T` in which every limiter call
that completes fails, and at most `C` calls are in flight, starts at most
`threshold + C - 1 + maxProbes * (1 + T / cooldown)` limiter calls.
-/
theorem bounded_load {rl : RateLimit} {config : Config} (hCooldown : 0 < config.cooldown) {C : ℕ}
    (hC : 1 ≤ C) {clock t₀ T : ℤ} (hT : 0 ≤ T) {g₀ g : Gateway}
    (hReach : Reachable (Gateway.step rl) (Gateway.start config clock) g₀)
    (hInFlight : g₀.flights.length ≤ C) {events : List Event}
    (hRun : run (Gateway.step rl) g₀ events = some g)
    (hStretch : EveryStep (Gateway.step rl) (InStretch C t₀ T) g₀ events) :
    (g.calls : ℤ) - g₀.calls ≤
      config.threshold + C - 1 + config.maxProbes * (1 + T / config.cooldown) := by
  have hFirst : BreakerInv config g₀ :=
    reachable_invariant (I := BreakerInv config) ⟨rfl, sound_init config⟩
      (fun _ _ _ => breakerInv_step) hReach
  -- the count starts at 0 with whatever the breaker was in
  have hLast : BreakerInv config g ∧ g.flights.length ≤ C ∧ ∃ started,
      g.calls = g₀.calls + started ∧
        LoadInv C t₀ T g.breaker g.flights.length started g.clock := by
    refine run_invariant (P := fun _ g => BreakerInv config g ∧ g.flights.length ≤ C ∧ ∃ started,
      g.calls = g₀.calls + started ∧
        LoadInv C t₀ T g.breaker g.flights.length started g.clock) ?_ ?_ hRun hStretch
    · exact ⟨hFirst, hInFlight, 0, rfl, loadInv_start hFirst.sound hC⟩
    · rintro _ g e g' - ⟨hBreaker, hRoom, started, hCalls, hLoad⟩ hStep hHere
      obtain ⟨started', hMore, hLoad'⟩ := loadInv_step hRoom hLoad hStep hHere
      exact ⟨breakerInv_step hBreaker hStep, hHere.inFlight, started', by omega, hLoad'⟩
  obtain ⟨hBreaker, hRoom, started, hCalls, hLoad⟩ := hLast
  rw [← hBreaker.config] at hCooldown
  have hBound := loadInv_bound hLoad hRoom hT hCooldown
  rw [hBreaker.config] at hBound
  omega

/-- A breaker that one failure opens: the trip, and a probe a cooldown later. -/
theorem bounded_load_demo :
    ∃ g, run (Gateway.step ⟨.tokenBucket, true⟩) (Gateway.start (Config.of 1 5 []) 0)
        [.begin 1 ⟨"acme", ⟨"free", 10, 1000, 0⟩⟩ true 0, .complete 1 (.error .contextDone) 1,
         .begin 2 ⟨"acme", ⟨"free", 10, 1000, 0⟩⟩ true 6] = some g ∧
      (g.calls : ℤ) - 0 ≤ 1 + 1 - 1 + 1 * (1 + 7 / 5) := by
  obtain ⟨g, hRun⟩ : ∃ g, run (Gateway.step ⟨.tokenBucket, true⟩)
      (Gateway.start (Config.of 1 5 []) 0)
        [.begin 1 ⟨"acme", ⟨"free", 10, 1000, 0⟩⟩ true 0, .complete 1 (.error .contextDone) 1,
         .begin 2 ⟨"acme", ⟨"free", 10, 1000, 0⟩⟩ true 6] = some g := ⟨_, rfl⟩
  refine ⟨g, hRun, @bounded_load ⟨.tokenBucket, true⟩ (Config.of 1 5 []) (by decide) 1 le_rfl 0 0 7
    (by decide) (Gateway.start (Config.of 1 5 []) 0) g ⟨[], rfl⟩ (by decide) _ hRun ?_⟩
  clear hRun g
  intro g hg
  cases hg
  -- each step is in the stretch: a failure or no completion, in order, one call at a time
  refine ⟨⟨nofun, by simp [Event.now, Gateway.start], by decide⟩, ?_⟩
  intro g hg
  cases hg
  refine ⟨⟨nofun, by simp [Event.now], by decide⟩, ?_⟩
  intro g hg
  cases hg
  exact ⟨⟨nofun, by simp [Event.now], by decide⟩, trivial⟩

end RatelimitGateway.Middleware
