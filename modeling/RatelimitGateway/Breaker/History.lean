import Mathlib.Data.List.DropRight
import RatelimitGateway.Breaker.Definitions
import RatelimitGateway.Lib.Machine

/-!
# The breaker against its history

`Allow`, `Success` and `Failure` called in any order by anyone, without the
contract. What can be seen of each call is kept in a history, and the counter
of the breaker is a count over that history: the failures it was told of while
closed, since it was last told of a success or last became closed.

* `trips_on_sustained_failure` — when the breaker opens, and how long it stays
  open.
-/

namespace RatelimitGateway.Breaker

/-- The methods that change the breaker. -/
inductive Method where
  | allow
  | success
  | failure
  deriving DecidableEq, Repr

/-- A call of a method, at a reading of the clock. -/
structure Use where
  method : Method
  now : ℤ
  deriving DecidableEq, Repr

/-- What can be seen of a call: the state before and after it, and what `Allow`
returned. -/
structure Seen where
  before : State
  returned : Bool
  after : State
  deriving DecidableEq, Repr

abbrev Record := Use × Seen

def use (b : Breaker) (u : Use) : Seen × Breaker :=
  match u.method with
  | .allow => (⟨b.state, (b.allow u.now).1, (b.allow u.now).2.state⟩, (b.allow u.now).2)
  | .success => (⟨b.state, false, b.success.state⟩, b.success)
  | .failure => (⟨b.state, false, (b.failure u.now).state⟩, b.failure u.now)

/-- Every call on a new breaker. -/
def history (config : Config) (uses : List Use) : List Record :=
  Machine.trace use (init config) uses

/-- The breaker that those calls leave. -/
def after (config : Config) (uses : List Use) : Breaker :=
  Machine.final use (init config) uses

-- ---------------------------------------------------------------------------
-- What the history says
-- ---------------------------------------------------------------------------

/-- A success report, or the moment the breaker became closed. -/
def resets (x : Record) : Bool :=
  x.1.method = .success ∨ (x.2.before ≠ .closed ∧ x.2.after = .closed)

/-- A failure report received while closed. -/
def failsClosed (x : Record) : Bool := x.1.method = .failure ∧ x.2.before = .closed

/-- The failure reports received while closed, since the last success report and
since the breaker last became closed. -/
def streak (h : List Record) : ℕ := (h.rtakeWhile fun x => !resets x).countP failsClosed

/-- The breaker opened. -/
def Trips (x : Record) : Prop := x.2.before ≠ .open ∧ x.2.after = .open

/-- What one more use does to the run of failures. -/
theorem streak_concat (h : List Record) (x : Record) :
    streak (h ++ [x]) = if resets x then 0 else streak h + if failsClosed x then 1 else 0 := by
  unfold streak
  cases hResets : resets x with
  | true => rw [List.rtakeWhile_concat_neg _ _ _ (by simp [hResets])]; rfl
  | false =>
    rw [List.rtakeWhile_concat_pos _ _ _ (by simp [hResets]), List.countP_append,
      List.countP_singleton]
    rfl

-- ---------------------------------------------------------------------------
-- The invariant
-- ---------------------------------------------------------------------------

/-- Every trip is either the last one, and the breaker is still open, or a
cooldown ago. -/
def Cooling (h : List Record) (b : Breaker) : Prop :=
  ∀ x ∈ h, Trips x → (b.state = .open ∧ x.1.now ≤ b.openedAt) ∨
    ∃ y ∈ h, x.1.now + b.config.cooldown ≤ y.1.now

structure HistoryInv (config : Config) (h : List Record) (b : Breaker) : Prop where
  config  : b.config = config
  sound   : Sound b
  streak  : b.state = .closed → b.failures = streak h
  cooling : Cooling h b

/-- A call that leaves the breaker as open as it was. -/
theorem Cooling.kept {h : List Record} {b b' : Breaker} {x : Record} (hCooling : Cooling h b)
    (hConfig : b'.config = b.config)
    (hOpen : b.state = .open → b'.state = .open ∧ b'.openedAt = b.openedAt)
    (hNot : ¬ Trips x) : Cooling (h ++ [x]) b' := by
  intro y hy hTrips
  rcases List.mem_append.mp hy with hOld | hNew
  · rcases hCooling y hOld hTrips with ⟨hState, hSince⟩ | ⟨z, hz, hOver⟩
    · exact .inl ⟨(hOpen hState).1, hSince.trans_eq (hOpen hState).2.symm⟩
    · exact .inr ⟨z, List.mem_append_left _ hz, hConfig ▸ hOver⟩
  · rw [List.mem_singleton.mp hNew] at hTrips
    exact absurd hTrips hNot

/-- A use that leaves the breaker where it was leaves its cooldown too. -/
theorem Cooling.same_state {h : List Record} {b b' : Breaker} {x : Record} (hCooling : Cooling h b)
    (hConfig : b'.config = b.config) (hState : b'.state = b.state)
    (hSince : b'.openedAt = b.openedAt) (hSeen : x.2.after = x.2.before) :
    Cooling (h ++ [x]) b' :=
  hCooling.kept hConfig (fun hOpen => ⟨hState.trans hOpen, hSince⟩)
    fun hTrips => hTrips.1 (hSeen.symm.trans hTrips.2)

/-- A call that opens the breaker. -/
theorem cooling_opened {h : List Record} {b : Breaker} {x : Record}
    (hLate : ∀ y ∈ h, y.1.now ≤ x.1.now) (hOpen : b.state = .open) (hNow : b.openedAt = x.1.now) :
    Cooling (h ++ [x]) b := by
  intro y hy _
  refine .inl ⟨hOpen, ?_⟩
  rw [hNow]
  rcases List.mem_append.mp hy with hOld | hNew
  · exact hLate y hOld
  · rw [List.mem_singleton.mp hNew]

/-- The call that starts to test recovery: every trip is a cooldown ago. -/
theorem Cooling.entered {h : List Record} {b b' : Breaker} {x : Record} (hCooling : Cooling h b)
    (hConfig : b'.config = b.config) (hCooled : b.openedAt + b.config.cooldown ≤ x.1.now)
    (hNot : ¬ Trips x) : Cooling (h ++ [x]) b' := by
  intro y hy hTrips
  rcases List.mem_append.mp hy with hOld | hNew
  · rw [hConfig]
    rcases hCooling y hOld hTrips with ⟨-, hSince⟩ | ⟨z, hz, hOver⟩
    · exact .inr ⟨x, List.mem_append_right _ (List.mem_singleton_self x), by omega⟩
    · exact .inr ⟨z, List.mem_append_left _ hz, hOver⟩
  · rw [List.mem_singleton.mp hNew] at hTrips
    exact absurd hTrips hNot

/-- `Allow` opens nothing, and closes nothing. -/
theorem historyInv_allow {config : Config} {h : List Record} {b : Breaker} {now : ℤ}
    (hInv : HistoryInv config h b) :
    HistoryInv config (h ++ [(⟨.allow, now⟩, (b.use ⟨.allow, now⟩).1)])
      (b.use ⟨.allow, now⟩).2 := by
  obtain ⟨hConfig, hSound, hStreak, hCooling⟩ := hInv
  show HistoryInv config (h ++ [(⟨.allow, now⟩, ⟨b.state, (b.allow now).1, (b.allow now).2.state⟩)])
    (b.allow now).2
  generalize hAllow : b.allow now = r
  obtain ⟨returned, b'⟩ := r
  -- the counter is looked at only if the breaker was closed before
  have hKeeps : b.state = .closed → b' = b →
      b'.failures = streak (h ++ [(⟨.allow, now⟩, ⟨b.state, returned, b'.state⟩)]) := by
    rintro hClosed rfl
    simp [streak_concat, resets, failsClosed, hClosed, hStreak hClosed]
  refine ⟨(config_of_allow hAllow).trans hConfig, hSound.allow hAllow, fun hClosed => ?_, ?_⟩
  · -- the streak: Allow leaves the counter alone, and only closed stays closed
    obtain ⟨hState, -, hSame⟩ | ⟨hState, -, -, rfl⟩ | ⟨-, -, -, rfl⟩ | ⟨hState, -, -, rfl⟩ |
      ⟨hState, -, -, rfl⟩ := allow_cases hAllow
    · exact hKeeps hState hSame
    · exact absurd (hState.symm.trans hClosed) nofun
    · cases hClosed
    · exact absurd (hState.symm.trans hClosed) nofun
    · exact absurd (hState.symm.trans hClosed) nofun
  · -- the cooldown: only the call that finds it over leaves the open state
    obtain ⟨hState, -, rfl⟩ | ⟨hState, -, -, rfl⟩ | ⟨hState, hCooled, -, rfl⟩ |
      ⟨hState, -, -, rfl⟩ | ⟨hState, -, -, rfl⟩ := allow_cases hAllow
    · exact hCooling.same_state rfl rfl rfl rfl
    · exact hCooling.same_state rfl rfl rfl rfl
    · exact hCooling.entered rfl hCooled nofun
    · exact hCooling.same_state rfl rfl rfl rfl
    · exact hCooling.same_state rfl rfl rfl rfl

/-- `Success` ends the run of failures. -/
theorem historyInv_success {config : Config} {h : List Record} {b : Breaker} {now : ℤ}
    (hInv : HistoryInv config h b) :
    HistoryInv config (h ++ [(⟨.success, now⟩, (b.use ⟨.success, now⟩).1)])
      (b.use ⟨.success, now⟩).2 := by
  obtain ⟨hConfig, hSound, hStreak, hCooling⟩ := hInv
  show HistoryInv config (h ++ [(⟨.success, now⟩, ⟨b.state, false, b.success.state⟩)]) b.success
  generalize hSuccess : b.success = b'
  have hReport : b.report true now = b' := hSuccess
  -- a success ends the streak in every state
  have hNone : streak (h ++ [(⟨.success, now⟩, ⟨b.state, false, b'.state⟩)]) = 0 := by
    simp [streak_concat, resets]
  refine ⟨(config_of_report hReport).trans hConfig, hSound.report hReport, ?_, ?_⟩
  · rw [hNone]
    obtain ⟨-, rfl⟩ | ⟨hState, rfl⟩ | ⟨-, rfl⟩ := success_cases hSuccess
    · exact fun _ => rfl
    · exact fun hClosed => absurd (hState.symm.trans hClosed) nofun
    · exact fun _ => rfl
  · -- open stays open: a late success is ignored
    obtain ⟨hState, rfl⟩ | ⟨hState, rfl⟩ | ⟨hState, rfl⟩ := success_cases hSuccess
    · exact hCooling.same_state rfl rfl rfl rfl
    · exact hCooling.same_state rfl rfl rfl rfl
    · exact hCooling.kept rfl (fun hOpen => absurd (hState.symm.trans hOpen) nofun) nofun

/-- `Failure` lengthens the run, and trips the breaker when it reaches the threshold. -/
theorem historyInv_failure {config : Config} {h : List Record} {b : Breaker} {now : ℤ}
    (hLate : ∀ x ∈ h, x.1.now ≤ now) (hInv : HistoryInv config h b) :
    HistoryInv config (h ++ [(⟨.failure, now⟩, (b.use ⟨.failure, now⟩).1)])
      (b.use ⟨.failure, now⟩).2 := by
  obtain ⟨hConfig, hSound, hStreak, hCooling⟩ := hInv
  show HistoryInv config (h ++ [(⟨.failure, now⟩, ⟨b.state, false, (b.failure now).state⟩)])
    (b.failure now)
  generalize hFailure : b.failure now = b'
  have hReport : b.report false now = b' := hFailure
  refine ⟨(config_of_report hReport).trans hConfig, hSound.report hReport, ?_, ?_⟩
  · obtain ⟨hState, -, rfl⟩ | ⟨-, -, rfl⟩ | ⟨hState, rfl⟩ | ⟨-, rfl⟩ := failure_cases hFailure
    · -- below the threshold the counter and the streak both grow by one
      intro _
      simp [streak_concat, resets, failsClosed, hState, hStreak hState]
    · nofun
    · exact fun hClosed => absurd (hState.symm.trans hClosed) nofun
    · nofun
  · obtain ⟨hState, -, rfl⟩ | ⟨-, -, rfl⟩ | ⟨hState, rfl⟩ | ⟨-, rfl⟩ := failure_cases hFailure
    · exact hCooling.same_state rfl rfl rfl rfl
    · -- the trip is the newest, so the cooldown runs from it
      exact cooling_opened hLate rfl rfl
    · exact hCooling.same_state rfl rfl rfl rfl
    · exact cooling_opened hLate rfl rfl

/-- Whatever the use. -/
theorem historyInv_step {config : Config} {h : List Record} {b : Breaker} (u : Use)
    (hLate : ∀ x ∈ h, x.1.now ≤ u.now) (hInv : HistoryInv config h b) :
    HistoryInv config (h ++ [(u, (b.use u).1)]) (b.use u).2 := by
  obtain ⟨method, now⟩ := u
  cases method with
  | allow => exact historyInv_allow hInv
  | success => exact historyInv_success hInv
  | failure => exact historyInv_failure hLate hInv

/-- The clock never steps back. -/
def Advancing (uses : List Use) : Prop := uses.Pairwise fun u v => u.now ≤ v.now

theorem historyInv_run (config : Config) {uses : List Use} (hClock : Advancing uses) :
    HistoryInv config (history config uses) (after config uses) := by
  refine Machine.trace_invariant ⟨rfl, sound_init config, fun _ => rfl, fun x hx => ?_⟩
    (fun h b u => historyInv_step u) hClock
  exact absurd hx List.not_mem_nil

/-- A report opens a closed breaker exactly when it is the failure that fills
the count. -/
theorem opens_iff {b : Breaker} (hSound : Sound b) (hClosed : b.state = .closed) (u : Use) :
    (b.use u).2.state = .open ↔ u.method = .failure ∧ b.failures + 1 = b.config.threshold := by
  obtain ⟨method, now⟩ := u
  have hBelow := hSound.failures hClosed
  cases method with
  | allow => simp [use, allow_of_closed hClosed, hClosed]
  | success => simp [use, success_of_closed hClosed, hClosed]
  | failure =>
    obtain ⟨hRoom, hFailure⟩ | ⟨hFull, hFailure⟩ := failure_of_closed now hClosed
    · simp only [use, hFailure, hClosed, reduceCtorEq, true_and, false_iff]
      omega
    · simp only [use, hFailure, true_and, true_iff]
      omega

/-- Nothing is admitted during the cooldown. -/
theorem allow_of_cooling {h : List Record} {b : Breaker} {now : ℤ} (hCooling : Cooling h b)
    (hLate : ∀ x ∈ h, x.1.now ≤ now) {x : Record} (hx : x ∈ h) (hTrips : Trips x)
    (hEarly : now < x.1.now + b.config.cooldown) : (b.allow now).1 = false := by
  rcases hCooling x hx hTrips with ⟨hOpen, hSince⟩ | ⟨y, hy, hOver⟩
  · rw [allow, if_pos ⟨hOpen, by omega⟩]
  · have := hLate y hy
    omega

/--
**When the breaker opens.** After every sequence of `Allow`, `Success` and
`Failure` with a clock that does not step back, from a new breaker: closed, its
counter is the number of failure reports received while closed since the later
of the last success report and the moment it last became closed, and is below
the threshold; closed, the next call opens it if and only if it is a failure
report that makes this number the threshold; and after a trip at `s` no `Allow`
before `s + cooldown` returns true.
-/
theorem trips_on_sustained_failure (config : Config) (uses : List Use)
    (hClock : Advancing uses) :
    let h := history config uses
    let b := after config uses
    (b.state = .closed → b.failures = streak h ∧ b.failures < config.threshold) ∧
    (b.state = .closed → ∀ u, (b.use u).2.state = .open ↔
      u.method = .failure ∧ streak h + 1 = config.threshold) ∧
    ∀ now, Advancing (uses ++ [⟨.allow, now⟩]) → ∀ x ∈ h, Trips x →
      now < x.1.now + config.cooldown → (b.allow now).1 = false := by
  intro h b
  obtain ⟨hConfig, hSound, hStreak, hCooling⟩ := historyInv_run config hClock
  refine ⟨fun hClosed => ⟨hStreak hClosed, ?_⟩, fun hClosed u => ?_,
    fun now hNow x hx hTrips hEarly => ?_⟩
  · rw [← hConfig]
    exact hSound.failures hClosed
  · rw [opens_iff hSound hClosed, hStreak hClosed, hConfig]
  · -- a call before the cooldown is over comes after every trip, so it finds it cooling
    have hLate : ∀ y ∈ h, y.1.now ≤ now := fun y hy =>
      (List.pairwise_append.mp hNow).2.2 y.1 (Machine.fst_mem_of_mem_trace _ _ hy) _
        (List.mem_singleton_self _)
    rw [← hConfig] at hEarly
    exact allow_of_cooling hCooling hLate hx hTrips hEarly

/-- Two failures open this breaker, unless a success comes between them, and it
stays open for five. -/
theorem trips_on_sustained_failure_demo :
    (after (Config.of 2 5 []) [⟨.failure, 0⟩, ⟨.success, 1⟩, ⟨.failure, 2⟩]).failures = 1 ∧
    ((after (Config.of 2 5 []) [⟨.failure, 0⟩, ⟨.success, 1⟩, ⟨.failure, 2⟩]).use
      ⟨.failure, 3⟩).2.state = .open ∧
    ((after (Config.of 2 5 []) [⟨.failure, 0⟩, ⟨.failure, 3⟩]).allow 7).1 = false := by
  obtain ⟨hCount, hOpens, -⟩ := trips_on_sustained_failure (Config.of 2 5 [])
    [⟨.failure, 0⟩, ⟨.success, 1⟩, ⟨.failure, 2⟩] (by simp [Advancing])
  obtain ⟨-, -, hCooldown⟩ := trips_on_sustained_failure (Config.of 2 5 [])
    [⟨.failure, 0⟩, ⟨.failure, 3⟩] (by simp [Advancing])
  exact ⟨(hCount rfl).1, (hOpens rfl _).mpr ⟨rfl, rfl⟩, hCooldown 7 (by simp [Advancing])
    (⟨.failure, 3⟩, ⟨.closed, false, .open⟩) (by decide) ⟨nofun, rfl⟩ (by decide)⟩

end RatelimitGateway.Breaker
