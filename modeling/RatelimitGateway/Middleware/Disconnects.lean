import RatelimitGateway.Middleware.Pipeline

/-!
# Clients that hang up

The context of a limiter call is done when its client hangs up, and `Wrap`
reports every error of the limiter to the breaker, this one too. So a few
clients that hang up one after another look to the breaker like a limiter
that has failed.

* `undisturbed_iff` — with a limiter that answers every connected client, the
  breaker stays closed and no connected client is degraded exactly when no
  `threshold` limiter calls in a row end in an error.
-/

namespace RatelimitGateway.Middleware

open Limiter Transitions Breaker

-- ---------------------------------------------------------------------------
-- Failures in a row
-- ---------------------------------------------------------------------------

/-- How many of the last outcomes are failures, without a success between. -/
def streak (outcomes : List Bool) : ℕ := outcomes.foldl (fun n ok => if ok then 0 else n + 1) 0

theorem streak_concat (outcomes : List Bool) (ok : Bool) :
    streak (outcomes ++ [ok]) = if ok then 0 else streak outcomes + 1 := by
  simp [streak]

/-- The streak is the longest run of failures at the end. -/
theorem replicate_suffix_iff {n : ℕ} {outcomes : List Bool} :
    List.replicate n false <:+ outcomes ↔ n ≤ streak outcomes := by
  induction outcomes using List.reverseRecOn generalizing n with
  | nil => simp [streak]
  | append_singleton outcomes ok ih =>
    rw [streak_concat]
    cases n with
    | zero => simp
    | succ n =>
      rw [List.replicate_succ']
      cases ok with
      | true => simp [List.suffix_concat_iff]
      | false => simp [List.suffix_concat_iff, ih]

/-- A run of failures anywhere ends somewhere. -/
theorem replicate_infix_concat {n : ℕ} {outcomes : List Bool} {ok : Bool} :
    List.replicate n false <:+: outcomes ++ [ok] ↔
      n ≤ streak (outcomes ++ [ok]) ∨ List.replicate n false <:+: outcomes := by
  rw [List.infix_concat_iff, replicate_suffix_iff]

-- ---------------------------------------------------------------------------
-- Runs
-- ---------------------------------------------------------------------------

/-- How a limiter call ended, if the event ends one. -/
def Event.outcome : Event → Option Bool
  | .complete _ (.ok _) _ => some true
  | .complete _ (.error _) _ => some false
  | _ => none

/-- How the limiter calls ended, in the order in which they did. -/
def outcomes (events : List Event) : List Bool := events.filterMap Event.outcome

/-- The limiter answers every call whose client is still connected: a call
fails only when its context is done. -/
def Answers (g : Gateway) (e : Event) (_ : Gateway) : Prop :=
  ∀ id err now f, e = .complete id (.error err) now → g.flight id = some f →
    f.connected = false

/-- Only a completion can fail. -/
theorem answers_begin {g g' : Gateway} {id : ℕ} {t : Tenant} {connected : Bool} {now : ℤ} :
    Answers g (.begin id t connected now) g' :=
  fun _ _ _ _ hEvent => by cases hEvent

theorem answers_disconnect {g g' : Gateway} {id : ℕ} : Answers g (.disconnect id) g' :=
  fun _ _ _ _ hEvent => by cases hEvent

/-- The breaker is closed, and no request whose client is connected has been
given the degraded treatment. -/
structure Undisturbed (g : Gateway) : Prop where
  closed : g.breaker.state = .closed
  served : ∀ r ∈ g.responses, r.connected = true → degraded r.effects = false

/-- Failures are counted exactly, for as long as the breaker is closed. -/
structure CountInv (config : Config) (events : List Event) (g : Gateway) : Prop where
  undisturbed : Undisturbed g
  config      : g.breaker.config = config
  failures    : g.breaker.failures = streak (outcomes events)

theorem outcomes_concat (events : List Event) (e : Event) :
    outcomes (events ++ [e]) = outcomes events ++ e.outcome.toList := by
  rw [outcomes, List.filterMap_append]
  cases h : e.outcome <;> simp [outcomes, h]

/-- Some `threshold` limiter calls in a row, in the order in which they ended,
ended in an error. -/
def Overrun (config : Config) (events : List Event) : Prop :=
  List.replicate config.threshold false <:+: outcomes events

/-- A run of failures gets as long as `threshold` at a failure. -/
theorem overrun_concat {config : Config} {events : List Event} {e : Event} :
    Overrun config (events ++ [e]) ↔ Overrun config events ∨
      e.outcome = some false ∧ config.threshold ≤ streak (outcomes (events ++ [e])) := by
  have hThreshold := config.threshold_pos
  unfold Overrun
  rw [outcomes_concat]
  cases hOutcome : e.outcome with
  | none => simp
  | some ok =>
    rw [Option.toList_some, replicate_infix_concat, or_comm]
    cases ok with
    | false => simp
    | true =>
      rw [streak_concat, if_pos rfl]
      simp
      omega

/-- One step from a closed breaker: either it completes a run of `threshold`
failures and the breaker opens, or the count stays exact. -/
theorem countInv_step {rl : RateLimit} {config : Config} {events : List Event} {g g' : Gateway}
    {e : Event} (hInv : CountInv config events g) (hStep : g.step rl e = some g')
    (hAnswers : Answers g e g') :
    (e.outcome = some false ∧ config.threshold ≤ streak (outcomes (events ++ [e])) ∧
      g'.breaker.state = .open) ∨
    ¬ (e.outcome = some false ∧ config.threshold ≤ streak (outcomes (events ++ [e]))) ∧
      CountInv config (events ++ [e]) g' := by
  obtain ⟨⟨hClosed, hServed⟩, hConfig, hFailures⟩ := hInv
  have hOutcomes := outcomes_concat events e
  cases did_of_step hStep with
  | called hNew hAllow =>
    obtain ⟨-, rfl⟩ := Prod.mk.inj (hAllow.symm.trans (allow_of_closed hClosed))
    refine .inr ⟨nofun, ⟨hClosed, hServed⟩, hConfig, ?_⟩
    rw [hOutcomes]
    simpa [Event.outcome] using hFailures
  | skipped hNew hAllow =>
    -- a closed breaker skips nobody
    obtain ⟨hFalse, -⟩ := Prod.mk.inj (hAllow.symm.trans (allow_of_closed hClosed))
    cases hFalse
  | hungUp =>
    refine .inr ⟨nofun, ⟨hClosed, hServed⟩, hConfig, ?_⟩
    rw [hOutcomes]
    simpa [Event.outcome] using hFailures
  | @answered id d now f hFlight =>
    -- a decision is a success, which ends the streak
    have hReset := success_of_closed hClosed
    refine .inr ⟨nofun, ⟨?_, ?_⟩, ?_, ?_⟩
    · show g.breaker.success.state = .closed
      rw [hReset]
      exact hClosed
    · refine List.forall_mem_cons.mpr ⟨fun _ => ?_, hServed⟩
      exact degraded_answer rl f.tenant d
    · show g.breaker.success.config = config
      rw [hReset]
      exact hConfig
    · show g.breaker.success.failures = _
      rw [hReset, hOutcomes]
      exact (streak_concat _ true).symm
  | @failed id err now f effects hFlight hDegraded =>
    -- the limiter itself never fails, so the client has hung up
    have hGone : f.connected = false := hAnswers id err now f rfl hFlight
    have hStreak : streak (outcomes (events ++ [Event.complete id (.error err) now])) =
        g.breaker.failures + 1 := by
      rw [hOutcomes, hFailures]
      exact streak_concat _ false
    -- the counter is the streak: below the threshold it counts on, at the threshold it trips
    obtain ⟨hBelow, hCount⟩ | ⟨hReached, hTrip⟩ := failure_of_closed now hClosed
    · refine .inr ⟨fun h => ?_, ⟨?_, ?_⟩, ?_, ?_⟩
      · have hLong := h.2
        rw [hStreak, ← hConfig] at hLong
        omega
      · show (g.breaker.failure now).state = .closed
        rw [hCount]
        exact hClosed
      · refine List.forall_mem_cons.mpr ⟨fun hThere => ?_, hServed⟩
        exact absurd (hGone.symm.trans hThere) nofun
      · show (g.breaker.failure now).config = config
        rw [hCount]
        exact hConfig
      · show (g.breaker.failure now).failures = _
        rw [hCount, hStreak]
    · refine .inl ⟨rfl, by rw [hStreak, ← hConfig]; exact hReached, ?_⟩
      show (g.breaker.failure now).state = .open
      rw [hTrip]

/--
**Disconnects.** A limiter that answers every call whose client is still
connected: the breaker stays closed, and no request whose client is connected
is given the degraded treatment, at every step of the run, exactly when no
`threshold` limiter calls in a row end in an error.
-/
theorem undisturbed_iff {rl : RateLimit} {config : Config} {clock : ℤ} {events : List Event}
    {g : Gateway} (hRun : run (Gateway.step rl) (Gateway.start config clock) events = some g)
    (hAnswers : EveryStep (Gateway.step rl) Answers (Gateway.start config clock) events) :
    EveryStep (Gateway.step rl) (fun _ _ g' => Undisturbed g') (Gateway.start config clock)
      events ↔ ¬ List.replicate config.threshold false <:+: outcomes events := by
  have hBoth : (EveryStep (Gateway.step rl) (fun _ _ g' => Undisturbed g')
      (Gateway.start config clock) events ↔ ¬ Overrun config events) ∧
        (¬ Overrun config events → CountInv config events g) := by
    refine run_invariant (P := fun events g => (EveryStep (Gateway.step rl)
      (fun _ _ g' => Undisturbed g') (Gateway.start config clock) events ↔
        ¬ Overrun config events) ∧ (¬ Overrun config events → CountInv config events g))
      ?_ ?_ hRun hAnswers
    · have hNone : ¬ Overrun config [] := by
        have hThreshold := config.threshold_pos
        simp only [Overrun, outcomes, List.filterMap_nil, List.infix_nil, List.replicate_eq_nil_iff]
        omega
      exact ⟨iff_of_true trivial hNone, fun _ => ⟨⟨rfl, nofun⟩, rfl, rfl⟩⟩
    · intro events g e g' hSoFar hInv hStep hHere
      obtain ⟨hIff, hCount⟩ := hInv
      have hLast : (∀ m m', run (Gateway.step rl) (Gateway.start config clock) events = some m →
          Gateway.step rl m e = some m' → Undisturbed m') ↔ Undisturbed g' := by
        constructor
        · exact fun h => h g g' hSoFar hStep
        · intro h m m' hm hm'
          obtain rfl : g = m := Option.some.inj (hSoFar.symm.trans hm)
          obtain rfl : g' = m' := Option.some.inj (hStep.symm.trans hm')
          exact h
      rw [everyStep_concat, hLast, hIff, overrun_concat, not_or]
      -- once overrun, always overrun
      by_cases hOver : Overrun config events
      · exact ⟨iff_of_false (fun h => h.1 hOver) (fun h => h.1 hOver),
          fun h => absurd hOver h.1⟩
      · rcases countInv_step (hCount hOver) hStep hHere with ⟨hEnds, hLong, hOpen⟩ | ⟨hShort, hNext⟩
        · -- this failure completes the run: the breaker opens
          refine ⟨iff_of_false (fun h => ?_) (fun h => h.2 ⟨hEnds, hLong⟩),
            fun h => absurd ⟨hEnds, hLong⟩ h.2⟩
          exact absurd (hOpen.symm.trans h.2.closed) nofun
        · exact ⟨iff_of_true ⟨hOver, hNext.undisturbed⟩ ⟨hOver, hShort⟩, fun _ => hNext⟩
  exact hBoth.1

/-- One client hangs up, one does not: with a threshold of two the breaker
does not open. -/
theorem undisturbed_iff_demo :
    EveryStep (Gateway.step ⟨.tokenBucket, true⟩) (fun _ _ g' => Undisturbed g')
        (Gateway.start (Config.of 2 5 []) 0)
        [.begin 1 ⟨"acme", ⟨"free", 10, 1000, 0⟩⟩ true 0, .disconnect 1,
         .complete 1 (.error .contextDone) 1] ↔
      ¬ List.replicate 2 false <:+: outcomes
        [.begin 1 ⟨"acme", ⟨"free", 10, 1000, 0⟩⟩ true 0, .disconnect 1,
         .complete 1 (.error .contextDone) 1] := by
  obtain ⟨g, hRun⟩ : ∃ g, run (Gateway.step ⟨.tokenBucket, true⟩)
      (Gateway.start (Config.of 2 5 []) 0)
        [.begin 1 ⟨"acme", ⟨"free", 10, 1000, 0⟩⟩ true 0, .disconnect 1,
         .complete 1 (.error .contextDone) 1] = some g := ⟨_, rfl⟩
  refine undisturbed_iff hRun ?_
  clear hRun g
  intro g hg
  cases hg
  refine ⟨answers_begin, ?_⟩
  intro g hg
  cases hg
  refine ⟨answers_disconnect, ?_⟩
  intro g hg
  refine ⟨?_, trivial⟩
  -- the only failure is the one of the client that hung up
  intro id err now f hEvent hFlight
  cases hEvent
  exact (congrArg Flight.connected (Option.some.inj hFlight)).symm

/-- A threshold of one, and one client that hangs up: the breaker opens, and
the next request, whose client is there, is not checked. -/
theorem disconnect_opens_breaker :
    EveryStep (Gateway.step ⟨.tokenBucket, true⟩) Answers (Gateway.start (Config.of 1 5 []) 0)
      [.begin 1 ⟨"acme", ⟨"free", 10, 1000, 0⟩⟩ true 0, .disconnect 1,
       .complete 1 (.error .contextDone) 1,
       .begin 2 ⟨"acme", ⟨"free", 10, 1000, 0⟩⟩ true 2] ∧
    ¬ EveryStep (Gateway.step ⟨.tokenBucket, true⟩) (fun _ _ g' => Undisturbed g')
      (Gateway.start (Config.of 1 5 []) 0)
      [.begin 1 ⟨"acme", ⟨"free", 10, 1000, 0⟩⟩ true 0, .disconnect 1,
       .complete 1 (.error .contextDone) 1,
       .begin 2 ⟨"acme", ⟨"free", 10, 1000, 0⟩⟩ true 2] := by
  constructor
  · intro g hg
    cases hg
    refine ⟨answers_begin, ?_⟩
    intro g hg
    cases hg
    refine ⟨answers_disconnect, ?_⟩
    intro g hg
    refine ⟨?_, ?_⟩
    · intro id err now f hEvent hFlight
      cases hEvent
      exact (congrArg Flight.connected (Option.some.inj hFlight)).symm
    · cases hg
      intro g hg
      exact ⟨answers_begin, trivial⟩
  · -- after the third event the breaker is open
    intro hAll
    obtain ⟨-, hAll⟩ := hAll _ rfl
    obtain ⟨-, hAll⟩ := hAll _ rfl
    obtain ⟨hClosed, -⟩ := hAll _ rfl
    exact absurd hClosed.closed (by decide)

end RatelimitGateway.Middleware
