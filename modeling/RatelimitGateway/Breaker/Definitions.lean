import Mathlib.Data.Int.Order.Basic
import Mathlib.Data.List.Induction
import Mathlib.Order.Nat
import Mathlib.Tactic.Common

/-!
# The circuit breaker

Translated from `internal/breaker`. Every method runs under the breaker's
mutex, so it is one atomic function of the breaker; the reading of its clock
is an argument of the methods that read it. Times and durations are in
nanoseconds.

`threshold`, `cooldown` and `maxProbes` are set once, by `New`, which clamps
them: `Config` carries what the clamps establish.
-/

namespace RatelimitGateway

namespace Breaker

/-- `State` is the breaker's position in its lifecycle. -/
inductive State where
  | closed
  | open
  | halfOpen
  deriving DecidableEq, Repr

def State.name : State → String
  | .closed => "closed"
  | .open => "open"
  | .halfOpen => "half_open"

/-- What `New` fixes for the lifetime of a breaker. -/
structure Config where
  threshold : ℕ
  cooldown : ℤ
  maxProbes : ℕ
  threshold_pos : 1 ≤ threshold
  maxProbes_pos : 1 ≤ maxProbes
  deriving DecidableEq, Repr

/-- `New`'s clamp of the threshold. -/
def clampThreshold (threshold : ℤ) : ℕ := if threshold < 1 then 1 else threshold.toNat

/-- `WithMaxProbes`: numbers that are not positive are ignored. -/
def withMaxProbes (n : ℤ) (maxProbes : ℕ) : ℕ := if 0 < n then n.toNat else maxProbes

theorem clampThreshold_pos (threshold : ℤ) : 1 ≤ clampThreshold threshold := by
  unfold clampThreshold
  split <;> omega

theorem withMaxProbes_pos (n : ℤ) {maxProbes : ℕ} (h : 1 ≤ maxProbes) :
    1 ≤ withMaxProbes n maxProbes := by
  unfold withMaxProbes
  split <;> omega

/-- The options of `New`, applied in order to the default of one probe. -/
def applyOptions (opts : List ℤ) : ℕ := opts.foldl (fun maxProbes n => withMaxProbes n maxProbes) 1

/-- Whatever the options, at least one probe is let through. -/
theorem applyOptions_pos (opts : List ℤ) : 1 ≤ applyOptions opts := by
  unfold applyOptions
  induction opts using List.reverseRecOn with
  | nil => exact Nat.le_refl 1
  | append_singleton opts n ih =>
    rw [List.foldl_append]
    exact withMaxProbes_pos n ih

def Config.of (threshold cooldown : ℤ) (opts : List ℤ) : Config where
  threshold := clampThreshold threshold
  cooldown := cooldown
  maxProbes := applyOptions opts
  threshold_pos := clampThreshold_pos threshold
  maxProbes_pos := applyOptions_pos opts

end Breaker

/-- `Breaker` is a three-state circuit breaker. -/
structure Breaker where
  config : Breaker.Config
  state : Breaker.State
  failures : ℕ
  probes : ℕ
  openedAt : ℤ
  deriving DecidableEq, Repr

namespace Breaker

/-- The breaker that `New` returns. -/
def init (config : Config) : Breaker where
  config := config
  state := .closed
  failures := 0
  probes := 0
  openedAt := 0

/-- `New`; the list holds the arguments of its `WithMaxProbes` options. -/
def new (threshold cooldown : ℤ) (opts : List ℤ) : Breaker :=
  init (Config.of threshold cooldown opts)

/-- `Allow` reports whether a call may be attempted. -/
def allow (now : ℤ) (b : Breaker) : Bool × Breaker :=
  if b.state = .open ∧ now - b.openedAt < b.config.cooldown then (false, b)
  else
    -- Cooldown elapsed: start testing recovery.
    let b := if b.state = .open then { b with state := .halfOpen, probes := 0 } else b
    if b.state = .halfOpen then
      if b.config.maxProbes ≤ b.probes then (false, b)
      else (true, { b with probes := b.probes + 1 })
    else (true, b)

/-- `trip` moves the breaker to open. -/
def trip (now : ℤ) (b : Breaker) : Breaker :=
  { b with state := .open, openedAt := now, probes := 0 }

/-- `Success` records a successful call. -/
def success (b : Breaker) : Breaker :=
  match b.state with
  | .halfOpen => { b with state := .closed, failures := 0, probes := 0 }
  | .closed => { b with failures := 0 }
  | .open => b

/-- `Failure` records a failed call. -/
def failure (now : ℤ) (b : Breaker) : Breaker :=
  match b.state with
  | .halfOpen => b.trip now
  | .closed =>
    let b := { b with failures := b.failures + 1 }
    if b.config.threshold ≤ b.failures then b.trip now else b
  | .open => b

/-- `State` reports the current state, for metrics and health output. -/
def observe (now : ℤ) (b : Breaker) : State :=
  if b.state = .open ∧ b.config.cooldown ≤ now - b.openedAt then .halfOpen else b.state

/-- `Success` or `Failure`, by how the call ended. -/
def report (ok : Bool) (now : ℤ) (b : Breaker) : Breaker :=
  if ok then b.success else b.failure now

-- ---------------------------------------------------------------------------
-- What each method can do
-- ---------------------------------------------------------------------------

section Cases

variable {b b' : Breaker} {now : ℤ}

/-- Everything `Allow` can do. -/
theorem allow_cases {admitted : Bool} (h : b.allow now = (admitted, b')) :
    (b.state = .closed ∧ admitted = true ∧ b' = b) ∨
    (b.state = .open ∧ now < b.openedAt + b.config.cooldown ∧ admitted = false ∧ b' = b) ∨
    (b.state = .open ∧ b.openedAt + b.config.cooldown ≤ now ∧ admitted = true ∧
      b' = { b with state := .halfOpen, probes := 1 }) ∨
    (b.state = .halfOpen ∧ b.probes < b.config.maxProbes ∧ admitted = true ∧
      b' = { b with probes := b.probes + 1 }) ∨
    (b.state = .halfOpen ∧ b.config.maxProbes ≤ b.probes ∧ admitted = false ∧ b' = b) := by
  have hProbes := b.config.maxProbes_pos
  unfold allow at h
  cases hState : b.state with
  | closed =>
    simp only [hState, reduceCtorEq, false_and, if_false, Prod.mk.injEq] at h
    exact .inl ⟨rfl, h.1.symm, h.2.symm⟩
  | «open» =>
    -- Allow falls through to the half-open branch once the cooldown is over
    by_cases hWait : now - b.openedAt < b.config.cooldown
    · simp only [hState, hWait, and_self, if_true, Prod.mk.injEq] at h
      exact .inr (.inl ⟨rfl, by omega, h.1.symm, h.2.symm⟩)
    · simp only [hState, hWait, and_false, if_false, if_true, if_neg (Nat.not_le.mpr hProbes),
        Nat.zero_add, Prod.mk.injEq] at h
      exact .inr (.inr (.inl ⟨rfl, by omega, h.1.symm, h.2.symm⟩))
  | halfOpen =>
    -- a probe slot is free or not
    by_cases hFull : b.config.maxProbes ≤ b.probes
    · simp only [hState, reduceCtorEq, false_and, if_false, if_true, hFull, Prod.mk.injEq] at h
      exact .inr (.inr (.inr (.inr ⟨rfl, hFull, h.1.symm, h.2.symm⟩)))
    · simp only [hState, reduceCtorEq, false_and, if_false, if_true, hFull, Prod.mk.injEq] at h
      exact .inr (.inr (.inr (.inl ⟨rfl, by omega, h.1.symm, h.2.symm⟩)))

/-- A closed breaker admits every call. -/
theorem allow_of_closed (hClosed : b.state = .closed) : b.allow now = (true, b) := by
  simp [allow, hClosed]

/-- Everything `Success` can do. -/
theorem success_cases (h : b.success = b') :
    (b.state = .closed ∧ b' = { b with failures := 0 }) ∨
    (b.state = .open ∧ b' = b) ∨
    (b.state = .halfOpen ∧ b' = { b with state := .closed, failures := 0, probes := 0 }) := by
  unfold success at h
  split at h
  · exact .inr (.inr ⟨‹_›, h.symm⟩)
  · exact .inl ⟨‹_›, h.symm⟩
  · exact .inr (.inl ⟨‹_›, h.symm⟩)

/-- Everything `Failure` can do. -/
theorem failure_cases (h : b.failure now = b') :
    (b.state = .closed ∧ b.failures + 1 < b.config.threshold ∧
      b' = { b with failures := b.failures + 1 }) ∨
    (b.state = .closed ∧ b.config.threshold ≤ b.failures + 1 ∧
      b' = { b with state := .open, failures := b.failures + 1, probes := 0, openedAt := now }) ∨
    (b.state = .open ∧ b' = b) ∨
    (b.state = .halfOpen ∧ b' = { b with state := .open, probes := 0, openedAt := now }) := by
  unfold failure at h
  split at h
  · exact .inr (.inr (.inr ⟨‹_›, h.symm⟩))
  · dsimp only at h
    split at h
    · exact .inr (.inl ⟨‹_›, ‹_›, h.symm⟩)
    · exact .inl ⟨‹_›, by omega, h.symm⟩
  · exact .inr (.inr (.inl ⟨‹_›, h.symm⟩))

theorem success_of_closed (hClosed : b.state = .closed) : b.success = { b with failures := 0 } := by
  simp [success, hClosed]

/-- A failure of a closed breaker counts, or trips it. -/
theorem failure_of_closed (now : ℤ) (hClosed : b.state = .closed) :
    (b.failures + 1 < b.config.threshold ∧
      b.failure now = { b with failures := b.failures + 1 }) ∨
    (b.config.threshold ≤ b.failures + 1 ∧ b.failure now =
      { b with state := .open, failures := b.failures + 1, probes := 0, openedAt := now }) := by
  obtain ⟨-, hBelow, hCount⟩ | ⟨-, hReached, hTrip⟩ | ⟨hOpen, -⟩ | ⟨hHalf, -⟩ :=
    failure_cases (rfl : b.failure now = b.failure now)
  · exact .inl ⟨hBelow, hCount⟩
  · exact .inr ⟨hReached, hTrip⟩
  · exact absurd (hClosed.symm.trans hOpen) nofun
  · exact absurd (hClosed.symm.trans hHalf) nofun

theorem config_of_allow {admitted : Bool} (h : b.allow now = (admitted, b')) :
    b'.config = b.config := by
  obtain ⟨-, -, rfl⟩ | ⟨-, -, -, rfl⟩ | ⟨-, -, -, rfl⟩ | ⟨-, -, -, rfl⟩ | ⟨-, -, -, rfl⟩ :=
    allow_cases h <;> rfl

theorem config_of_report {ok : Bool} (h : b.report ok now = b') : b'.config = b.config := by
  cases ok with
  | true => obtain ⟨-, rfl⟩ | ⟨-, rfl⟩ | ⟨-, rfl⟩ := success_cases h <;> rfl
  | false =>
    obtain ⟨-, -, rfl⟩ | ⟨-, -, rfl⟩ | ⟨-, rfl⟩ | ⟨-, rfl⟩ := failure_cases h <;> rfl

/-- What every breaker satisfies from `New` on. -/
structure Sound (b : Breaker) : Prop where
  failures : b.state = .closed → b.failures < b.config.threshold
  probes   : b.state = .halfOpen → b.probes ≤ b.config.maxProbes

theorem sound_init (config : Config) : Sound (init config) where
  failures := fun _ => config.threshold_pos
  probes := nofun

/-- `Allow` keeps the breaker sound. -/
theorem Sound.allow (hSound : Sound b) {admitted : Bool} (h : b.allow now = (admitted, b')) :
    Sound b' := by
  obtain ⟨-, -, rfl⟩ | ⟨-, -, -, rfl⟩ | ⟨-, -, -, rfl⟩ | ⟨hHalf, hRoom, -, rfl⟩ |
    ⟨-, -, -, rfl⟩ := allow_cases h
  · exact hSound
  · exact hSound
  · exact ⟨nofun, fun _ => b.config.maxProbes_pos⟩
  · exact ⟨fun hClosed => absurd (hHalf.symm.trans hClosed) nofun, fun _ => hRoom⟩
  · exact hSound

/-- So does a report. -/
theorem Sound.report (hSound : Sound b) {ok : Bool} (h : b.report ok now = b') : Sound b' := by
  cases ok with
  | true =>
    obtain ⟨hClosed, rfl⟩ | ⟨-, rfl⟩ | ⟨-, rfl⟩ := success_cases h
    · exact ⟨fun _ => b.config.threshold_pos, hSound.probes⟩
    · exact hSound
    · exact ⟨fun _ => b.config.threshold_pos, nofun⟩
  | false =>
    obtain ⟨hClosed, hBelow, rfl⟩ | ⟨-, -, rfl⟩ | ⟨-, rfl⟩ | ⟨-, rfl⟩ := failure_cases h
    · exact ⟨fun _ => hBelow, hSound.probes⟩
    · exact ⟨nofun, nofun⟩
    · exact hSound
    · exact ⟨nofun, nofun⟩

end Cases

end Breaker

end RatelimitGateway
