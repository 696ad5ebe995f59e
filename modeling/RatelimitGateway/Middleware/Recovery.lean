import RatelimitGateway.Middleware.Load
import RatelimitGateway.Middleware.Refinement

/-!
# Back to normal

The limiter has failed, the breaker has opened, and now the limiter answers
again. From then on the breaker only moves towards closed (`progress`): nothing
opens it again, so its cooldown runs from the last trip of the outage. The first
request after the cooldown is the probe that ends the outage, and until it has
been answered others are turned back only while its episode has no slot left.

* `recovers` — what each request meets on the way, and when the way is over.
-/

namespace RatelimitGateway.Middleware

open Limiter Transitions

/-- Every limiter call that completes here returns a decision. -/
def Healthy (_ : Gateway) (e : Event) (_ : Gateway) : Prop :=
  ∀ id err now, e ≠ .complete id (.error err) now

/-- How far the breaker is from open. -/
def progress (g : Gateway) : ℕ :=
  match g.breaker.state with
  | .open => 0
  | .halfOpen => 1
  | .closed => 2

/-- Every slot that is taken is a probe's: calls are in flight, and a history of the
breaker under its contract that ends with this breaker and these calls has so many probes
of the present episode among those that are still to report. -/
def ProbesInFlight (config : Breaker.Config) (clock : ℤ) (g : Gateway) : Prop :=
  g.flights ≠ [] ∧ ∃ y, Reachable Breaker.System.step (Breaker.System.start config clock) y ∧
    SameCalls g y ∧ y.probing.length = g.breaker.probes

/-- A request that begins here is answered without a limiter call only before
the breaker is due, or while no slot is left and the probes are in flight. -/
def TurnedBack (config : Breaker.Config) (clock due : ℤ) (g : Gateway) (e : Event)
    (g' : Gateway) : Prop :=
  ∀ id t connected now, e = .begin id t connected now → g'.calls = g.calls →
    (g.breaker.state = .open ∧ now < due) ∨
      (g.breaker.state = .halfOpen ∧ g.breaker.probes = g.breaker.config.maxProbes ∧
        ProbesInFlight config clock g)

/-- What a step does while the limiter answers. -/
structure Mends (config : Breaker.Config) (clock due : ℤ) (g : Gateway) (e : Event)
    (g' : Gateway) : Prop where
  onward : progress g ≤ progress g'
  back   : TurnedBack config clock due g e g'
  probes : ∀ id t connected now, e = .begin id t connected now → due ≤ now → 1 ≤ progress g'
  heals  : ∀ id d now, e = .complete id (.ok d) now → 1 ≤ progress g → progress g' = 2

/-- A request that begins here has its limiter call made. -/
def GetsThrough (g : Gateway) (e : Event) (g' : Gateway) : Prop :=
  ∀ id t connected now, e = .begin id t connected now → g'.calls = g.calls + 1

section Steps

variable {rl : RateLimit} {config : Breaker.Config} {clock due : ℤ} {g g' : Gateway} {e : Event}

theorem progress_closed : progress g = 2 ↔ g.breaker.state = .closed := by
  unfold progress
  split <;> simp [*]

/-- What holds while the limiter answers. -/
structure MendingInv (rl : RateLimit) (config : Breaker.Config) (clock due : ℤ) (g : Gateway) :
    Prop where
  reached : Reachable (Gateway.step rl) (Gateway.start config clock) g
  breaker : BreakerInv config g
  opened  : g.breaker.state = .open → g.breaker.openedAt + config.cooldown = due

/-- The contract of the breaker counts its probes. -/
theorem MendingInv.inFlight (hInv : MendingInv rl config clock due g)
    (hHalf : g.breaker.state = .halfOpen) : ProbesInFlight config clock g := by
  obtain ⟨events, hRun⟩ := hInv.reached
  obtain ⟨y, hContract, hSame⟩ := keeps_contract hRun
  obtain ⟨-, -, hCount⟩ := (Breaker.slotInv_run hContract).taken (hSame.breaker ▸ hHalf)
  exact ⟨inFlight_of_halfOpen hRun hHalf, y, ⟨_, hContract⟩, hSame, hSame.breaker ▸ hCount⟩

/-- The breaker is reached, and its cooldown runs from the last trip, also after one more
step. -/
theorem mendingInv_step (hInv : MendingInv rl config clock due g) (hStep : g.step rl e = some g')
    (hHealthy : Healthy g e g') : MendingInv rl config clock due g' := by
  obtain ⟨⟨events, hRun⟩, hBreaker, hOpened⟩ := hInv
  refine ⟨⟨events ++ [e], run_concat_eq_some.mpr ⟨g, hRun, hStep⟩⟩,
    breakerInv_step hBreaker hStep, fun hOpen => ?_⟩
  cases did_of_step hStep with
  | called hNew hAllow =>
    obtain ⟨hState, -, rfl⟩ | ⟨-, -, hNever, -⟩ | ⟨-, -, -, rfl⟩ | ⟨hState, -, -, rfl⟩ |
      ⟨-, -, hNever, -⟩ := Breaker.allow_cases hAllow
    · exact hOpened hOpen
    · cases hNever
    · cases hOpen
    · -- a probe does not move the breaker to open
      exact absurd (hState.symm.trans hOpen) nofun
    · cases hNever
  | skipped hNew hAllow =>
    obtain ⟨-, hNever, -⟩ | ⟨-, -, -, rfl⟩ | ⟨-, -, hNever, -⟩ | ⟨-, -, hNever, -⟩ |
      ⟨-, -, -, rfl⟩ := Breaker.allow_cases hAllow
    · cases hNever
    · exact hOpened hOpen
    · cases hNever
    · cases hNever
    · exact hOpened hOpen
  | hungUp => exact hOpened hOpen
  | answered =>
    -- a success closes the breaker or leaves it as it was
    obtain ⟨hState, hNext⟩ | ⟨-, hNext⟩ | ⟨-, hNext⟩ :=
      Breaker.success_cases (rfl : g.breaker.success = _)
    · rw [hNext] at hOpen
      exact absurd (hState.symm.trans hOpen) nofun
    · rw [hNext] at hOpen ⊢
      exact hOpened hOpen
    · rw [hNext] at hOpen
      cases hOpen
  | failed => exact absurd rfl (hHealthy _ _ _)

/-- A request asks the breaker. -/
theorem mends_begin (hInv : MendingInv rl config clock due g) {id : ℕ} {t : Tenant}
    {connected : Bool} {now : ℤ} (hStep : g.step rl (.begin id t connected now) = some g') :
    Mends config clock due g (.begin id t connected now) g' := by
  have hConfig := hInv.breaker.config
  cases did_of_step hStep with
  | called hNew hAllow =>
    obtain ⟨hState, -, rfl⟩ | ⟨-, -, hNever, -⟩ | ⟨hState, -, -, rfl⟩ | ⟨hState, -, -, rfl⟩ |
      ⟨-, -, hNever, -⟩ := Breaker.allow_cases hAllow
    · refine ⟨le_rfl, fun _ _ _ _ _ hSame => by simp at hSame, ?_, nofun⟩
      rintro _ _ _ _ - -
      simp [progress, hState]
    · cases hNever
    · -- the cooldown is over: open becomes half-open, which is nearer to closed
      refine ⟨by simp [progress, hState], fun _ _ _ _ _ hSame => by simp at hSame, ?_, nofun⟩
      rintro _ _ _ _ - -
      simp [progress]
    · refine ⟨le_rfl, fun _ _ _ _ _ hSame => by simp at hSame, ?_, nofun⟩
      rintro _ _ _ _ - -
      simp [progress, hState]
    · cases hNever
  | skipped hNew hAllow =>
    obtain ⟨-, hNever, -⟩ | ⟨hState, hEarly, -, rfl⟩ | ⟨-, -, hNever, -⟩ | ⟨-, -, hNever, -⟩ |
      ⟨hState, hFull, -, rfl⟩ := Breaker.allow_cases hAllow
    · cases hNever
    · -- still within the cooldown of the last trip
      rw [hConfig, hInv.opened hState] at hEarly
      refine ⟨le_rfl, fun _ _ _ _ hBegin _ => ?_, fun _ _ _ _ hBegin hDue => ?_, nofun⟩
      · cases hBegin
        exact .inl ⟨hState, hEarly⟩
      · cases hBegin
        exact absurd hEarly (not_lt.mpr hDue)
    · cases hNever
    · cases hNever
    · -- every slot of the episode is taken
      refine ⟨le_rfl, fun _ _ _ _ _ _ => .inr ⟨hState, ?_, hInv.inFlight hState⟩, ?_, nofun⟩
      · exact le_antisymm (hInv.breaker.sound.probes hState) hFull
      · rintro _ _ _ _ - -
        simp [progress, hState]

/-- Every step mends. -/
theorem mends_step (hInv : MendingInv rl config clock due g) (hStep : g.step rl e = some g')
    (hHealthy : Healthy g e g') : Mends config clock due g e g' := by
  cases e with
  | begin id t connected now => exact mends_begin hInv hStep
  | disconnect id =>
    cases did_of_step hStep with
    | hungUp => exact ⟨le_rfl, nofun, nofun, nofun⟩
  | complete id result now =>
    cases did_of_step hStep with
    | answered =>
      refine ⟨?_, nofun, nofun, fun _ _ _ _ hHalf => ?_⟩
      · -- a success only ever moves the breaker on
        obtain ⟨hState, hNext⟩ | ⟨hState, hNext⟩ | ⟨hState, hNext⟩ :=
          Breaker.success_cases (rfl : g.breaker.success = _) <;>
          simp [progress, hState, hNext]
      · -- and from half-open to closed
        obtain ⟨hState, hNext⟩ | ⟨hState, hNext⟩ | ⟨hState, hNext⟩ :=
          Breaker.success_cases (rfl : g.breaker.success = _)
        · simp [progress, hState, hNext]
        · simp [progress, hState] at hHalf
        · simp [progress, hNext]
    | failed => exact absurd rfl (hHealthy _ _ _)

/-- A run goes onward too. -/
theorem mendingInv_run (hInv : MendingInv rl config clock due g) {events : List Event}
    (hRun : run (Gateway.step rl) g events = some g')
    (hHealthy : EveryStep (Gateway.step rl) Healthy g events) :
    MendingInv rl config clock due g' ∧ progress g ≤ progress g' :=
  run_invariant (P := fun _ g' => MendingInv rl config clock due g' ∧ progress g ≤ progress g')
    ⟨hInv, le_rfl⟩ (fun _ _ _ _ _ ⟨hHere, hOnward⟩ hStep hHealthy =>
      ⟨mendingInv_step hHere hStep hHealthy,
        hOnward.trans (mends_step hHere hStep hHealthy).onward⟩) hRun hHealthy

/-- Closed, the breaker lets every request through. -/
theorem getsThrough_of_closed (hClosed : g.breaker.state = .closed)
    (hStep : g.step rl e = some g') : GetsThrough g e g' := by
  rintro id t connected now rfl
  cases did_of_step hStep with
  | called => rfl
  | skipped hNew hAllow =>
    rw [Breaker.allow_of_closed hClosed] at hAllow
    cases hAllow

/-- Once closed, the breaker stays so. -/
theorem getsThrough_run (hInv : MendingInv rl config clock due g)
    (hClosed : g.breaker.state = .closed) {events : List Event}
    (hHealthy : EveryStep (Gateway.step rl) Healthy g events) :
    EveryStep (Gateway.step rl) GetsThrough g events := by
  refine everyStep_of_invariant
    (I := fun g => MendingInv rl config clock due g ∧ g.breaker.state = .closed)
    (fun s e s' hHere hStep hHealthy => ?_) ⟨hInv, hClosed⟩ hHealthy
  have hNext := (mends_step hHere.1 hStep hHealthy).onward
  rw [progress_closed.mpr hHere.2] at hNext
  have hMost : progress s' ≤ 2 := by
    unfold progress
    split <;> decide
  exact ⟨⟨mendingInv_step hHere.1 hStep hHealthy, progress_closed.mp (by omega)⟩,
    getsThrough_of_closed hHere.2 hStep⟩

end Steps

/--
**Back to normal.** From any reachable state, in every run in which each limiter
call that completes returns a decision. The breaker never moves away from closed,
and a request is answered without a limiter call only before the cooldown since
the last trip is over, or while its half-open episode has no slot left and the
probes that took them are in flight (`Mends`). Once a request has begun after the
cooldown and then any limiter call has completed, the breaker is closed, and every
request that begins has its limiter call made.
-/
theorem recovers {rl : RateLimit} {config : Breaker.Config} {clock : ℤ} {g₀ : Gateway}
    (hReach : Reachable (Gateway.step rl) (Gateway.start config clock) g₀) {events : List Event}
    (hHealthy : EveryStep (Gateway.step rl) Healthy g₀ events) :
    let due := g₀.breaker.openedAt + config.cooldown
    EveryStep (Gateway.step rl) (Mends config clock due) g₀ events ∧
      ∀ pre id t connected now mid id' d now' post g,
        events = pre ++ .begin id t connected now :: (mid ++ .complete id' (.ok d) now' :: post) →
        due ≤ now →
        run (Gateway.step rl) g₀
          (pre ++ .begin id t connected now :: (mid ++ [.complete id' (.ok d) now'])) = some g →
        g.breaker.state = .closed ∧ EveryStep (Gateway.step rl) GetsThrough g post := by
  intro due
  have hInv : MendingInv rl config clock due g₀ :=
    ⟨hReach, reachable_invariant ⟨rfl, Breaker.sound_init config⟩
      (fun _ _ _ => breakerInv_step) hReach, fun _ => rfl⟩
  refine ⟨everyStep_of_invariant (fun _ _ _ hHere hStep hWell =>
    ⟨mendingInv_step hHere hStep hWell, mends_step hHere hStep hWell⟩) hInv hHealthy, ?_⟩
  rintro pre id t connected now mid id' d now' post g rfl hDue hRun
  -- the four parts of the run up to the call that completes
  rw [run_append] at hRun
  obtain ⟨g₁, hPre, hRun⟩ := Option.bind_eq_some_iff.mp hRun
  obtain ⟨g₂, hBegin, hRun⟩ := run_cons_eq_some.mp hRun
  obtain ⟨g₃, hMid, hComplete⟩ := run_concat_eq_some.mp hRun
  obtain ⟨hWell, hWell₁⟩ := everyStep_append.mp hHealthy
  obtain ⟨hWellBegin, hWell₂⟩ := hWell₁ g₁ hPre g₂ hBegin
  obtain ⟨hWellMid, hWell₃⟩ := everyStep_append.mp hWell₂
  obtain ⟨hWellComplete, hWellPost⟩ := hWell₃ g₃ hMid g hComplete
  have hInv₁ := (mendingInv_run hInv hPre hWell).1
  have hInv₂ := mendingInv_step hInv₁ hBegin hWellBegin
  -- after the request that begins when it is due the breaker is not open
  have hProbing := (mends_step hInv₁ hBegin hWellBegin).probes _ _ _ _ rfl hDue
  obtain ⟨hInv₃, hOnward⟩ := mendingInv_run hInv₂ hMid hWellMid
  -- and then the first decision closes it
  have hHealed := (mends_step hInv₃ hComplete hWellComplete).heals _ _ _ rfl
    (hProbing.trans hOnward)
  have hClosed := progress_closed.mp hHealed
  exact ⟨hClosed,
    getsThrough_run (mendingInv_step hInv₃ hComplete hWellComplete) hClosed hWellPost⟩

/-- One failure opens this breaker for five. Call 1 is still out when call 2 trips it;
request 3, at 6, is the probe, request 4 is turned back, and the answer to call 1
ends the outage for request 5. -/
theorem recovers_demo :
    let acme : Tenant := ⟨"acme", ⟨"free", 10, 1000, 0⟩⟩
    let rl : RateLimit := ⟨.tokenBucket, true⟩
    let outage : List Event :=
      [.begin 1 acme true 0, .begin 2 acme true 0, .complete 2 (.error .contextDone) 1]
    ∃ g₀ g, run (Gateway.step rl) (Gateway.start (Breaker.Config.of 1 5 []) 0) outage = some g₀ ∧
      run (Gateway.step rl) g₀ [.begin 3 acme true 6, .begin 4 acme true 7,
        .complete 1 (.ok ⟨true, 10, 9, 0, 100⟩) 8] = some g ∧
      g.breaker.state = .closed ∧
      EveryStep (Gateway.step rl) GetsThrough g [.begin 5 acme true 8] := by
  intro acme rl outage
  obtain ⟨g₀, hOutage, g, hRun, hOpened⟩ : ∃ g₀,
      run (Gateway.step rl) (Gateway.start (Breaker.Config.of 1 5 []) 0) outage = some g₀ ∧
      ∃ g, run (Gateway.step rl) g₀ [.begin 3 acme true 6, .begin 4 acme true 7,
        .complete 1 (.ok ⟨true, 10, 9, 0, 100⟩) 8] = some g ∧ g₀.breaker.openedAt = 1 :=
    ⟨_, rfl, _, rfl, rfl⟩
  refine ⟨g₀, g, hOutage, hRun, ?_⟩
  refine (@recovers rl (Breaker.Config.of 1 5 []) 0 g₀ ⟨outage, hOutage⟩
    [.begin 3 acme true 6, .begin 4 acme true 7, .complete 1 (.ok ⟨true, 10, 9, 0, 100⟩) 8,
      .begin 5 acme true 8] ?_).2 [] 3 acme true 6 [.begin 4 acme true 7] 1
    ⟨true, 10, 9, 0, 100⟩ 8 [.begin 5 acme true 8] g rfl ?_ hRun
  · -- no call fails
    intro _ _
    exact ⟨nofun, fun _ _ => ⟨nofun, fun _ _ => ⟨nofun, fun _ _ => ⟨nofun, trivial⟩⟩⟩⟩
  · rw [hOpened]
    decide

end RatelimitGateway.Middleware
