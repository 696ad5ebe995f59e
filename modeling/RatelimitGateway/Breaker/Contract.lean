import RatelimitGateway.Breaker.Definitions
import RatelimitGateway.Lib.Transitions

/-!
# The breaker under its contract

"Every Allow that returns true must be followed by exactly one Success or
Failure." `System` is a breaker together with the calls it has admitted and
that have not reported yet. Any number of calls may be outstanding, they
report in any order and as late as they like; `step` refuses an event only
when the call is not there to report, or is still there to be admitted again.

The breaker itself does not know whose report it gets. What it admitted, and
when, is recorded beside it: `trips` counts how often it has opened,
`episodes` how often it has become half-open.

* `Did`                   — everything a step can do, one case each;
* `probes_decide_iff`     — only probes decide a half-open episode exactly
  when no call from before the last trip reports during it;
* `prompt_never_late`     — calls that report within the cooldown never do.
-/

namespace RatelimitGateway.Breaker

open Transitions

/-- A call the breaker has admitted. -/
structure Admission where
  id : ℕ
  admittedAt : ℤ
  /-- How often the breaker had opened by then. -/
  trips : ℕ
  /-- The half-open episode that the call is a probe of. -/
  probeOf : Option ℕ
  deriving DecidableEq, Repr

structure System where
  breaker : Breaker
  outstanding : List Admission
  trips : ℕ
  episodes : ℕ
  /-- The clock reading of the last event. -/
  clock : ℤ
  deriving DecidableEq, Repr

inductive Event where
  | allow (id : ℕ) (now : ℤ)
  | report (id : ℕ) (ok : Bool) (now : ℤ)
  deriving DecidableEq, Repr

def Event.now : Event → ℤ
  | .allow _ now => now
  | .report _ _ now => now

namespace System

def start (config : Config) (clock : ℤ) : System where
  breaker := Breaker.init config
  outstanding := []
  trips := 0
  episodes := 0
  clock := clock

/-- The outstanding call of that identity. -/
def call (s : System) (id : ℕ) : Option Admission :=
  s.outstanding.find? fun a => a.id == id

/-- The outstanding calls once that one has reported. -/
def without (s : System) (id : ℕ) : List Admission :=
  s.outstanding.eraseP fun a => a.id == id

def step (s : System) : Event → Option System
  | .allow id now =>
    if s.call id = none then
      let (admitted, b) := s.breaker.allow now
      let episodes := if s.breaker.state = .open ∧ b.state = .halfOpen then s.episodes + 1
        else s.episodes
      let probeOf := if b.state = .halfOpen then some episodes else none
      some { s with
        breaker := b
        outstanding := if admitted then ⟨id, now, s.trips, probeOf⟩ :: s.outstanding
          else s.outstanding
        episodes := episodes
        clock := now }
    else none
  | .report id ok now =>
    match s.call id with
    | none => none
    | some _ =>
      let b := s.breaker.report ok now
      some { s with
        breaker := b
        outstanding := s.without id
        trips := if s.breaker.state ≠ .open ∧ b.state = .open then s.trips + 1 else s.trips
        clock := now }

end System

-- ---------------------------------------------------------------------------
-- What a step can do
-- ---------------------------------------------------------------------------

/-- Everything a step can do. -/
inductive Did (s : System) : Event → System → Prop
  | refused {id now} (hState : s.breaker.state ≠ .closed) :
      Did s (.allow id now) { s with clock := now }
  | admitted {id now} (hState : s.breaker.state = .closed) :
      Did s (.allow id now) { s with
        outstanding := ⟨id, now, s.trips, none⟩ :: s.outstanding, clock := now }
  | entered {id now} (hState : s.breaker.state = .open)
      (hCooled : s.breaker.openedAt + s.breaker.config.cooldown ≤ now) :
      Did s (.allow id now) { s with
        breaker := { s.breaker with state := .halfOpen, probes := 1 }
        outstanding := ⟨id, now, s.trips, some (s.episodes + 1)⟩ :: s.outstanding
        episodes := s.episodes + 1, clock := now }
  | probed {id now} (hState : s.breaker.state = .halfOpen)
      (hRoom : s.breaker.probes < s.breaker.config.maxProbes) :
      Did s (.allow id now) { s with
        breaker := { s.breaker with probes := s.breaker.probes + 1 }
        outstanding := ⟨id, now, s.trips, some s.episodes⟩ :: s.outstanding, clock := now }
  | reset {id now a} (hCall : s.call id = some a) (hState : s.breaker.state = .closed) :
      Did s (.report id true now) { s with
        breaker := { s.breaker with failures := 0 }
        outstanding := s.without id, clock := now }
  | recovered {id now a} (hCall : s.call id = some a) (hState : s.breaker.state = .halfOpen) :
      Did s (.report id true now) { s with
        breaker := { s.breaker with state := .closed, failures := 0, probes := 0 }
        outstanding := s.without id, clock := now }
  | counted {id now a} (hCall : s.call id = some a) (hState : s.breaker.state = .closed)
      (hBelow : s.breaker.failures + 1 < s.breaker.config.threshold) :
      Did s (.report id false now) { s with
        breaker := { s.breaker with failures := s.breaker.failures + 1 }
        outstanding := s.without id, clock := now }
  | tripped {id now a} (hCall : s.call id = some a) (hState : s.breaker.state = .closed)
      (hReached : s.breaker.config.threshold ≤ s.breaker.failures + 1) :
      Did s (.report id false now) { s with
        breaker := { s.breaker with
          state := .open, failures := s.breaker.failures + 1, probes := 0, openedAt := now }
        outstanding := s.without id, trips := s.trips + 1, clock := now }
  | reopened {id now a} (hCall : s.call id = some a) (hState : s.breaker.state = .halfOpen) :
      Did s (.report id false now) { s with
        breaker := { s.breaker with state := .open, probes := 0, openedAt := now }
        outstanding := s.without id, trips := s.trips + 1, clock := now }
  | ignored {id ok now a} (hCall : s.call id = some a) (hState : s.breaker.state = .open) :
      Did s (.report id ok now) { s with outstanding := s.without id, clock := now }

/-- A step does one of these. -/
theorem did_of_step {s s' : System} {e : Event} (h : s.step e = some s') : Did s e s' := by
  cases e with
  | allow id now =>
    rw [System.step] at h
    split at h
    · -- a new call asks: one case for each branch of Allow
      generalize hAllow : s.breaker.allow now = r at h
      obtain ⟨admitted, b⟩ := r
      obtain ⟨hState, rfl, rfl⟩ | ⟨hState, -, rfl, rfl⟩ | ⟨hState, hCooled, rfl, rfl⟩ |
        ⟨hState, hRoom, rfl, rfl⟩ | ⟨hState, -, rfl, rfl⟩ := allow_cases hAllow
      · simp only [hState, reduceCtorEq, false_and, if_false, if_true, Option.some.injEq] at h
        exact h ▸ .admitted hState
      · simp only [hState, reduceCtorEq, and_false, if_false, Option.some.injEq] at h
        exact h ▸ .refused (by simp [hState])
      · simp only [hState, and_self, if_true, Option.some.injEq] at h
        exact h ▸ .entered hState hCooled
      · simp only [hState, reduceCtorEq, false_and, if_false, if_true, Option.some.injEq] at h
        have hDid : Did s (.allow id now) _ := .probed hState hRoom
        simp only [hState] at hDid
        exact h ▸ hDid
      · simp only [hState, reduceCtorEq, false_and, if_false, Option.some.injEq] at h
        exact h ▸ .refused (by simp [hState])
    · cases h
  | report id ok now =>
    rw [System.step] at h
    cases hCall : s.call id with
    -- only an outstanding call reports, once
    | none => simp [hCall] at h
    | some a =>
      simp only [hCall, Option.some.injEq] at h
      generalize hReport : s.breaker.report ok now = b at h
      cases ok with
      | true =>
        obtain ⟨hState, rfl⟩ | ⟨hState, rfl⟩ | ⟨hState, rfl⟩ := success_cases hReport
        · -- closed: the count starts over
          simp only [hState, reduceCtorEq, and_false, if_false] at h
          have hDid : Did s (.report id true now) _ := .reset hCall hState
          simp only [hState] at hDid
          exact h ▸ hDid
        · simp only [hState, ne_eq, not_true_eq_false, false_and, if_false] at h
          exact h ▸ .ignored hCall hState
        · simp only [reduceCtorEq, and_false, if_false] at h
          exact h ▸ .recovered hCall hState
      | false =>
        obtain ⟨hState, hBelow, rfl⟩ | ⟨hState, hReached, rfl⟩ | ⟨hState, rfl⟩ | ⟨hState, rfl⟩ :=
          failure_cases hReport
        · simp only [hState, reduceCtorEq, and_false, if_false] at h
          have hDid : Did s (.report id false now) _ := .counted hCall hState hBelow
          simp only [hState] at hDid
          exact h ▸ hDid
        · -- closed, and the threshold is reached
          simp only [hState, ne_eq, reduceCtorEq, not_false_eq_true, and_self, if_true] at h
          exact h ▸ .tripped hCall hState hReached
        · simp only [hState, ne_eq, not_true_eq_false, false_and, if_false] at h
          exact h ▸ .ignored hCall hState
        · -- half-open: one failure opens it again
          simp only [hState, ne_eq, reduceCtorEq, not_false_eq_true, and_self, if_true] at h
          exact h ▸ .reopened hCall hState

/-- A call that is not outstanding may be tried. -/
theorem step_allow {s : System} {id : ℕ} (hNew : s.call id = none) {now : ℤ} {admitted : Bool}
    {b : Breaker} (hAllow : s.breaker.allow now = (admitted, b)) :
    ∃ s', s.step (.allow id now) = some s' ∧ s'.breaker = b ∧
      s'.outstanding.map Admission.id = if admitted then
        id :: s.outstanding.map Admission.id else s.outstanding.map Admission.id := by
  simp only [System.step, hNew, if_true, hAllow]
  refine ⟨_, rfl, rfl, ?_⟩
  cases admitted <;> rfl

/-- A call that is outstanding may report. -/
theorem step_report {s : System} {id : ℕ} {a : Admission} (hCall : s.call id = some a)
    (ok : Bool) (now : ℤ) :
    ∃ s', s.step (.report id ok now) = some s' ∧ s'.breaker = s.breaker.report ok now ∧
      s'.outstanding = s.without id := by
  rw [System.step, hCall]
  exact ⟨_, rfl, rfl, rfl⟩

-- ---------------------------------------------------------------------------
-- Who decides a half-open episode
-- ---------------------------------------------------------------------------

/-- If the step starts half-open: only the report of a probe of the current
episode ends the episode, and the report of any other call leaves the breaker
as it is. -/
def ProbesDecide (s : System) (e : Event) (s' : System) : Prop :=
  s.breaker.state = .halfOpen →
    (s'.breaker.state ≠ .halfOpen → ∃ id ok now a, e = .report id ok now ∧
      s.call id = some a ∧ a.probeOf = some s.episodes) ∧
    ∀ id ok now a, e = .report id ok now → s.call id = some a →
      a.probeOf ≠ some s.episodes → s'.breaker = s.breaker

/-- If the step is a report that arrives half-open: the call was admitted
after the breaker last opened. -/
def NoneLate (s : System) (e : Event) (_ : System) : Prop :=
  ∀ id ok now a, e = .report id ok now → s.call id = some a →
    s.breaker.state = .halfOpen → a.trips = s.trips

/-- What the records say about the outstanding calls. -/
structure RecordInv (s : System) : Prop where
  trips    : ∀ a ∈ s.outstanding, a.trips ≤ s.trips
  probeOf  : ∀ a ∈ s.outstanding, ∀ k, a.probeOf = some k → k ≤ s.episodes
  waiting  : s.breaker.state = .open → ∀ a ∈ s.outstanding, a.trips < s.trips
  current  : s.breaker.state = .halfOpen → ∀ a ∈ s.outstanding,
    (a.trips = s.trips ↔ a.probeOf = some s.episodes)

theorem recordInv_start (config : Config) (clock : ℤ) : RecordInv (System.start config clock) where
  trips := by simp [System.start]
  probeOf := by simp [System.start]
  waiting := by simp [System.start]
  current := by simp [System.start]

theorem call_mem {s : System} {id : ℕ} {a : Admission} (h : s.call id = some a) :
    a ∈ s.outstanding :=
  List.mem_of_find?_eq_some h

/-- A call that reports without moving the breaker to another state only leaves. -/
theorem RecordInv.of_left {s s' : System} (hInv : RecordInv s)
    (hLeft : ∀ a ∈ s'.outstanding, a ∈ s.outstanding) (hTrips : s'.trips = s.trips)
    (hEpisodes : s'.episodes = s.episodes) (hState : s'.breaker.state = s.breaker.state) :
    RecordInv s' where
  trips a ha := hTrips ▸ hInv.trips a (hLeft a ha)
  probeOf a ha := hEpisodes ▸ hInv.probeOf a (hLeft a ha)
  waiting hOpen a ha := hTrips ▸ hInv.waiting (hState.symm.trans hOpen) a (hLeft a ha)
  current hHalf a ha := by
    rw [hTrips, hEpisodes]
    exact hInv.current (hState.symm.trans hHalf) a (hLeft a ha)

/-- A call whose report opens the breaker leaves, and the others wait. -/
theorem RecordInv.of_opened {s s' : System} (hInv : RecordInv s)
    (hLeft : ∀ a ∈ s'.outstanding, a ∈ s.outstanding) (hTrips : s'.trips = s.trips + 1)
    (hEpisodes : s'.episodes = s.episodes) (hState : s'.breaker.state = .open) :
    RecordInv s' where
  trips a ha := hTrips ▸ Nat.le_succ_of_le (hInv.trips a (hLeft a ha))
  probeOf a ha := hEpisodes ▸ hInv.probeOf a (hLeft a ha)
  waiting _ a ha := hTrips ▸ Nat.lt_succ_of_le (hInv.trips a (hLeft a ha))
  current hHalf := absurd (hState.symm.trans hHalf) nofun

/-- Every step keeps the records in order. -/
theorem recordInv_step {s s' : System} {e : Event} (hInv : RecordInv s)
    (hStep : s.step e = some s') : RecordInv s' := by
  have hLeft : ∀ {a : Admission} {id : ℕ}, a ∈ s.without id → a ∈ s.outstanding :=
    List.mem_of_mem_eraseP
  cases did_of_step hStep with
  | refused => exact ⟨hInv.trips, hInv.probeOf, hInv.waiting, hInv.current⟩
  | admitted hState =>
    -- closed after as before, so nothing is asked of the other states
    refine ⟨List.forall_mem_cons.mpr ⟨le_rfl, hInv.trips⟩,
      List.forall_mem_cons.mpr ⟨nofun, hInv.probeOf⟩, fun hOpen => ?_, fun hHalf => ?_⟩
    · exact absurd (hState.symm.trans hOpen) nofun
    · exact absurd (hState.symm.trans hHalf) nofun
  | entered hState hCooled =>
    refine ⟨List.forall_mem_cons.mpr ⟨le_rfl, hInv.trips⟩, List.forall_mem_cons.mpr ⟨?_, ?_⟩,
      nofun, fun _ => List.forall_mem_cons.mpr ⟨iff_of_true rfl rfl, ?_⟩⟩
    · exact fun k hk => (Option.some.inj hk).ge
    · exact fun a ha k hk => Nat.le_succ_of_le (hInv.probeOf a ha k hk)
    · -- a call from before the trip is no probe of the new episode
      intro a ha
      refine iff_of_false (hInv.waiting hState a ha).ne fun hk => ?_
      exact absurd (hInv.probeOf a ha _ hk) (Nat.not_succ_le_self _)
  | probed hState hRoom =>
    refine ⟨List.forall_mem_cons.mpr ⟨le_rfl, hInv.trips⟩,
      List.forall_mem_cons.mpr ⟨?_, hInv.probeOf⟩, fun hOpen => ?_,
      fun _ => List.forall_mem_cons.mpr ⟨iff_of_true rfl rfl, hInv.current hState⟩⟩
    · exact fun k hk => (Option.some.inj hk).ge
    · exact absurd (hState.symm.trans hOpen) nofun
  | reset => exact hInv.of_left (fun _ => hLeft) rfl rfl rfl
  | recovered =>
    -- closed now: what waits and what is current no longer matters
    exact ⟨fun a ha => hInv.trips a (hLeft ha), fun a ha => hInv.probeOf a (hLeft ha), nofun, nofun⟩
  | counted => exact hInv.of_left (fun _ => hLeft) rfl rfl rfl
  | tripped => exact hInv.of_opened (fun _ => hLeft) rfl rfl rfl
  | reopened => exact hInv.of_opened (fun _ => hLeft) rfl rfl rfl
  | ignored => exact hInv.of_left (fun _ => hLeft) rfl rfl rfl

/-- Every report that arrives half-open ends the episode. -/
theorem report_ends_episode {s s' : System} {id : ℕ} {ok : Bool} {now : ℤ}
    (hStep : s.step (.report id ok now) = some s') (hState : s.breaker.state = .halfOpen) :
    s'.breaker.state ≠ .halfOpen := by
  cases did_of_step hStep with
  | reset _ hClosed => simp [hState] at hClosed
  | recovered => simp
  | counted _ hClosed _ => simp [hState] at hClosed
  | tripped _ hClosed _ => simp [hState] at hClosed
  | reopened => simp
  | ignored _ hOpen => simp [hState] at hOpen

/-- No admission and no refusal ends an episode. -/
theorem allow_keeps_episode {s s' : System} {id : ℕ} {now : ℤ}
    (hStep : s.step (.allow id now) = some s') (hState : s.breaker.state = .halfOpen) :
    s'.breaker.state = .halfOpen := by
  cases did_of_step hStep with
  | refused => exact hState
  | admitted hClosed => simp [hState] at hClosed
  | entered => rfl
  | probed => exact hState

/--
**Who decides recovery.** In every run under the contract, from a new
breaker: only probes decide a half-open episode, at every step of the run,
exactly when at every step no call that was admitted before the breaker last
opened reports while it is half-open.
-/
theorem probes_decide_iff (config : Config) (clock : ℤ) (events : List Event) :
    EveryStep System.step ProbesDecide (System.start config clock) events ↔
      EveryStep System.step NoneLate (System.start config clock) events := by
  refine everyStep_iff_of_invariant (I := RecordInv) (fun _ _ _ => recordInv_step) ?_
    (recordInv_start config clock)
  intro s e s' hInv hStep
  constructor
  · -- a report ends the episode, so it must have been a probe's
    intro hDecide id ok now a rfl hCall hState
    obtain ⟨hEnds, -⟩ := hDecide hState
    obtain ⟨id', ok', now', a', hEvent, hCall', hProbe⟩ :=
      hEnds (report_ends_episode hStep hState)
    obtain ⟨rfl, -, -⟩ := Event.report.inj hEvent
    obtain rfl : a = a' := Option.some.inj (hCall.symm.trans hCall')
    exact (hInv.current hState a (call_mem hCall)).mpr hProbe
  · -- with no late report, whoever reports half-open is a probe of the episode
    intro hNone hState
    refine ⟨fun hEnded => ?_, fun id ok now a hEvent hCall hOther => ?_⟩
    · cases e with
      -- an admission never ends the episode
      | allow id now => exact absurd (allow_keeps_episode hStep hState) hEnded
      | report id ok now =>
        cases hCall : s.call id with
        | none => simp [System.step, hCall] at hStep
        | some a =>
          have hTrips := hNone id ok now a rfl hCall hState
          exact ⟨id, ok, now, a, rfl, hCall,
            (hInv.current hState a (call_mem hCall)).mp hTrips⟩
    · have hTrips := hNone id ok now a hEvent hCall hState
      exact absurd ((hInv.current hState a (call_mem hCall)).mp hTrips) hOther

/-- One failure opens this breaker. Call 1 is still out when call 2 trips it;
the success of call 1 then closes it while the probe, call 3, is out. -/
theorem late_success_closes :
    ¬ EveryStep System.step ProbesDecide (System.start (Config.of 1 5 []) 0)
      [.allow 1 0, .allow 2 0, .report 2 false 1, .allow 3 6, .report 1 true 7] := by
  intro hAll
  obtain ⟨-, hAll⟩ := hAll _ rfl
  obtain ⟨-, hAll⟩ := hAll _ rfl
  obtain ⟨-, hAll⟩ := hAll _ rfl
  obtain ⟨-, hAll⟩ := hAll _ rfl
  obtain ⟨hDecide, -⟩ := hAll _ rfl
  have hSame := (hDecide rfl).2 1 true 7 _ rfl rfl (by decide)
  exact absurd (congrArg Breaker.state hSame) (by decide)

-- ---------------------------------------------------------------------------
-- Calls that report in time
-- ---------------------------------------------------------------------------

/-- The clock does not step back, and a call reports less than a cooldown
after it was admitted. -/
def Prompt (s : System) (e : Event) (_ : System) : Prop :=
  s.clock ≤ e.now ∧ ∀ id ok now a, e = .report id ok now → s.call id = some a →
    now < a.admittedAt + s.breaker.config.cooldown

/-- Where the outstanding calls stand against the clock. -/
structure PromptInv (s : System) : Prop where
  admitted : ∀ a ∈ s.outstanding, a.admittedAt ≤ s.clock
  waiting  : s.breaker.state = .open → ∀ a ∈ s.outstanding, a.admittedAt ≤ s.breaker.openedAt
  late     : s.breaker.state = .halfOpen → ∀ a ∈ s.outstanding,
    a.trips = s.trips ∨ a.admittedAt + s.breaker.config.cooldown ≤ s.clock

/-- A step after which fewer calls are outstanding, with the breaker as it was. -/
theorem PromptInv.of_left {s s' : System} (hInv : PromptInv s) (hClock : s.clock ≤ s'.clock)
    (hLeft : ∀ a ∈ s'.outstanding, a ∈ s.outstanding) (hTrips : s'.trips = s.trips)
    (hState : s'.breaker.state = s.breaker.state)
    (hOpened : s'.breaker.openedAt = s.breaker.openedAt)
    (hConfig : s'.breaker.config = s.breaker.config) : PromptInv s' where
  admitted a ha := (hInv.admitted a (hLeft a ha)).trans hClock
  waiting hOpen a ha := hOpened ▸ hInv.waiting (hState.symm.trans hOpen) a (hLeft a ha)
  late hHalf a ha := by
    rw [hTrips, hConfig]
    exact (hInv.late (hState.symm.trans hHalf) a (hLeft a ha)).imp_right fun h => h.trans hClock

/-- What is outstanding stands so against the clock while calls report within the
cooldown. -/
theorem promptInv_step {s s' : System} {e : Event} (hInv : PromptInv s)
    (hStep : s.step e = some s') (hPrompt : Prompt s e s') : PromptInv s' := by
  obtain ⟨hClock, -⟩ := hPrompt
  have hLeft : ∀ {a : Admission} {id : ℕ}, a ∈ s.without id → a ∈ s.outstanding :=
    List.mem_of_mem_eraseP
  have hAdmitted' : ∀ a ∈ s.outstanding, a.admittedAt ≤ e.now :=
    fun a ha => (hInv.admitted a ha).trans hClock
  have hLate' : s.breaker.state = .halfOpen → ∀ a ∈ s.outstanding,
      a.trips = s.trips ∨ a.admittedAt + s.breaker.config.cooldown ≤ e.now :=
    fun hHalf a ha => (hInv.late hHalf a ha).imp_right fun h => h.trans hClock
  cases did_of_step hStep with
  | refused => exact ⟨hAdmitted', hInv.waiting, hLate'⟩
  | admitted hState =>
    refine ⟨List.forall_mem_cons.mpr ⟨le_rfl, hAdmitted'⟩, fun hOpen => ?_, fun hHalf => ?_⟩
    · exact absurd (hState.symm.trans hOpen) nofun
    · exact absurd (hState.symm.trans hHalf) nofun
  | entered hState hCooled =>
    refine ⟨List.forall_mem_cons.mpr ⟨le_rfl, hAdmitted'⟩, nofun,
      fun _ => List.forall_mem_cons.mpr ⟨.inl rfl, fun a ha => .inr ?_⟩⟩
    -- the calls from before the trip are a cooldown old by now
    have hBefore := hInv.waiting hState a ha
    show a.admittedAt + s.breaker.config.cooldown ≤ _
    exact (Int.add_le_add_right hBefore _).trans hCooled
  | probed hState hRoom =>
    -- the new call belongs to the episode; the others were late enough before
    refine ⟨List.forall_mem_cons.mpr ⟨le_rfl, hAdmitted'⟩, fun hOpen => ?_,
      fun _ => List.forall_mem_cons.mpr ⟨.inl rfl, hLate' hState⟩⟩
    exact absurd (hState.symm.trans hOpen) nofun
  | reset => exact hInv.of_left hClock (fun _ => hLeft) rfl rfl rfl rfl
  | recovered => exact ⟨fun a ha => hAdmitted' a (hLeft ha), nofun, nofun⟩
  | counted => exact hInv.of_left hClock (fun _ => hLeft) rfl rfl rfl rfl
  | tripped =>
    -- open from now on, and every call left was admitted before now
    exact ⟨fun a ha => hAdmitted' a (hLeft ha), fun _ a ha => hAdmitted' a (hLeft ha), nofun⟩
  | reopened =>
    exact ⟨fun a ha => hAdmitted' a (hLeft ha), fun _ a ha => hAdmitted' a (hLeft ha), nofun⟩
  | ignored => exact hInv.of_left hClock (fun _ => hLeft) rfl rfl rfl rfl

/-- **Prompt calls are never late.** With a clock that does not step back, a
call that reports less than a cooldown after its admission does not report in
a half-open episode that is not its own. -/
theorem prompt_never_late {config : Config} {clock : ℤ} {events : List Event}
    (hPrompt : EveryStep System.step Prompt (System.start config clock) events) :
    EveryStep System.step NoneLate (System.start config clock) events := by
  have hInit : PromptInv (System.start config clock) :=
    ⟨by simp [System.start], by simp [System.start], by simp [System.start]⟩
  refine everyStep_of_invariant (I := PromptInv) ?_ hInit hPrompt
  intro s e s' hInv hStep hHere
  refine ⟨promptInv_step hInv hStep hHere, ?_⟩
  rintro id ok now a rfl hCall hState
  obtain ⟨hClock, hInTime⟩ := hHere
  rcases hInv.late hState a (call_mem hCall) with hCurrent | hOld
  · exact hCurrent
  · have hDue := hInTime id ok now a rfl hCall
    exact absurd (hOld.trans hClock) (not_le.mpr hDue)

end RatelimitGateway.Breaker
