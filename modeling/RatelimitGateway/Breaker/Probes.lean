import RatelimitGateway.Breaker.Contract

/-!
# The slots of a half-open episode

A probe takes a slot and never gives it back, and the breaker refuses every
call once the slots are taken. It does not stay that way: any report that
arrives half-open ends the episode, so that as long as it lasts none of its
probes has reported, and there is a slot taken for each of them.

* `never_wedged` — half-open, somebody is still to report; and with nobody to
  report, the breaker admits again as soon as the cooldown is over.
-/

namespace RatelimitGateway.Breaker

open Transitions

/-- The outstanding probes of the current episode. -/
def System.probing (s : System) : List Admission :=
  s.outstanding.filter fun a => a.probeOf = some s.episodes

/-- The times at which the breaker opened during a run. -/
def tripTimes (s : System) (events : List Event) : List ℤ :=
  collect System.step
    (fun s e s' => if s.breaker.state ≠ .open ∧ s'.breaker.state = .open then [e.now] else [])
    s events

/-- The slots that are taken, and since when the breaker is open. -/
structure SlotInv (config : Config) (trips : List ℤ) (s : System) : Prop where
  records : RecordInv s
  config  : s.breaker.config = config
  taken   : s.breaker.state = .halfOpen → 1 ≤ s.breaker.probes ∧
    s.breaker.probes ≤ s.breaker.config.maxProbes ∧ s.probing.length = s.breaker.probes
  opened  : s.breaker.state = .open → trips.getLast? = some s.breaker.openedAt

/-- The first probe of an episode is the only one. -/
theorem probing_entered {s : System} (hRecords : RecordInv s) :
    (s.outstanding.filter fun a => a.probeOf = some (s.episodes + 1)) = [] := by
  refine List.filter_eq_nil_iff.mpr fun a ha => ?_
  rw [decide_eq_true_eq]
  exact fun hProbe => absurd (hRecords.probeOf a ha _ hProbe) (Nat.not_succ_le_self _)

/-- Every step keeps the slots counted: a probe takes one, and a report ends the episode.
-/
theorem slotInv_step {config : Config} {trips : List ℤ} {s s' : System} {e : Event}
    (hInv : SlotInv config trips s) (hStep : s.step e = some s') :
    SlotInv config (trips ++
      if s.breaker.state ≠ .open ∧ s'.breaker.state = .open then [e.now] else []) s' := by
  obtain ⟨hRecords, hConfig, hTaken, hOpened⟩ := hInv
  have hRecords' := recordInv_step hRecords hStep
  cases did_of_step hStep with
  | refused =>
    -- a refusal changes nothing, so it is no trip
    rw [if_neg fun h => h.1 h.2, List.append_nil]
    exact ⟨hRecords', hConfig, hTaken, hOpened⟩
  | admitted hState =>
    rw [if_neg fun h => h.1 h.2, List.append_nil]
    exact ⟨hRecords', hConfig, fun hHalf => absurd (hState.symm.trans hHalf) nofun, hOpened⟩
  | @entered id now hState =>
    refine ⟨hRecords', hConfig, fun _ => ⟨le_rfl, s.breaker.config.maxProbes_pos, ?_⟩, nofun⟩
    -- the call that entered is the only one of its episode
    show (List.filter _ (_ :: s.outstanding)).length = 1
    rw [List.filter_cons_of_pos (by simp), probing_entered hRecords]
    rfl
  | probed hState hRoom =>
    obtain ⟨-, -, hCount⟩ := hTaken hState
    refine ⟨hRecords', hConfig, fun _ => ⟨Nat.succ_pos _, hRoom, ?_⟩,
      fun hOpen => absurd (hState.symm.trans hOpen) nofun⟩
    show (List.filter _ (_ :: s.outstanding)).length = s.breaker.probes + 1
    -- one more slot taken, and one more call of the episode
    rw [List.filter_cons_of_pos (by simp), List.length_cons]
    exact congrArg Nat.succ hCount
  | reset _ hState =>
    exact ⟨hRecords', hConfig, fun hHalf => absurd (hState.symm.trans hHalf) nofun,
      fun hOpen => absurd (hState.symm.trans hOpen) nofun⟩
  | recovered => exact ⟨hRecords', hConfig, nofun, nofun⟩
  | counted _ hState =>
    exact ⟨hRecords', hConfig, fun hHalf => absurd (hState.symm.trans hHalf) nofun,
      fun hOpen => absurd (hState.symm.trans hOpen) nofun⟩
  | tripped _ hState =>
    -- the trip just made is the last one
    rw [if_pos ⟨by simp [hState], rfl⟩]
    exact ⟨hRecords', hConfig, nofun, fun _ => List.getLast?_concat⟩
  | reopened _ hState =>
    rw [if_pos ⟨by simp [hState], rfl⟩]
    exact ⟨hRecords', hConfig, nofun, fun _ => List.getLast?_concat⟩
  | ignored _ hState =>
    rw [if_neg fun h => h.1 hState, List.append_nil]
    exact ⟨hRecords', hConfig, fun hHalf => absurd (hState.symm.trans hHalf) nofun, hOpened⟩

/-- The slots that are taken are counted along every run. -/
theorem slotInv_run {config : Config} {clock : ℤ} {events : List Event} {s : System}
    (hRun : run System.step (System.start config clock) events = some s) :
    SlotInv config (tripTimes (System.start config clock) events) s := by
  refine run_invariant (C := fun _ _ _ => True)
    (P := fun es s => SlotInv config (tripTimes (System.start config clock) es) s)
    ⟨recordInv_start config clock, rfl, nofun, nofun⟩ ?_ hRun everyStep_true
  intro es m e s' hBefore hInv hStep _
  rw [tripTimes, collect_concat hBefore hStep]
  exact slotInv_step hInv hStep

/--
**The breaker never wedges.** In every state that a run under the contract
reaches: half-open, between one and `maxProbes` slots are taken, as many as
probes of the current episode are still to report; and when no call is to
report, the breaker is closed or open, and `Allow` returns true from the moment
on at which the cooldown since the last trip has passed.
-/
theorem never_wedged {config : Config} {clock : ℤ} {events : List Event} {s : System}
    (hRun : run System.step (System.start config clock) events = some s) :
    (s.breaker.state = .halfOpen →
      1 ≤ s.breaker.probes ∧ s.breaker.probes ≤ config.maxProbes ∧
        s.probing.length = s.breaker.probes) ∧
    (s.outstanding = [] →
      (s.breaker.state = .closed ∨ s.breaker.state = .open) ∧
      ∀ now, (∀ t ∈ (tripTimes (System.start config clock) events).getLast?,
        t + config.cooldown ≤ now) → (s.breaker.allow now).1 = true) := by
  obtain ⟨-, hConfig, hTaken, hOpened⟩ := slotInv_run hRun
  refine ⟨fun hHalf => hConfig ▸ hTaken hHalf, fun hNobody => ?_⟩
  cases hState : s.breaker.state with
  | closed => exact ⟨.inl rfl, fun now _ => by rw [allow_of_closed hState]⟩
  | halfOpen =>
    -- half-open means a probe is out, against nobody being out
    obtain ⟨hSome, -, hCount⟩ := hTaken hState
    rw [System.probing, hNobody] at hCount
    exact absurd (hCount ▸ hSome) (by simp)
  | «open» =>
    refine ⟨.inr rfl, fun now hCooled => ?_⟩
    -- open: the cooldown runs from the last trip, which is over
    have hOver := hCooled _ (hOpened hState)
    obtain ⟨hOther, -⟩ | ⟨-, hEarly, -⟩ | ⟨-, -, hAdmitted, -⟩ | ⟨hOther, -⟩ | ⟨hOther, -⟩ :=
      allow_cases (rfl : s.breaker.allow now = (_, _))
    · exact absurd (hState.symm.trans hOther) nofun
    · rw [hConfig] at hEarly
      omega
    · exact hAdmitted
    · exact absurd (hState.symm.trans hOther) nofun
    · exact absurd (hState.symm.trans hOther) nofun

/-- One failure opens this breaker for five. Call 2 is the probe; once it has
failed, at 8, nobody is left to report, and the call at 13 is admitted. -/
theorem never_wedged_demo :
    let events : List Event := [.allow 1 0, .report 1 false 1, .allow 2 6]
    let later : List Event := events ++ [.report 2 false 8]
    (∃ s, run System.step (System.start (Config.of 1 5 []) 0) events = some s ∧
      s.probing.length = s.breaker.probes) ∧
    ∃ s, run System.step (System.start (Config.of 1 5 []) 0) later = some s ∧
      (s.breaker.allow 13).1 = true := by
  intro events later
  have hProbing : run System.step (System.start (Config.of 1 5 []) 0) events = some _ := rfl
  have hNobody : run System.step (System.start (Config.of 1 5 []) 0) later = some _ := rfl
  exact ⟨⟨_, hProbing, ((never_wedged hProbing).1 rfl).2.2⟩,
    _, hNobody, ((never_wedged hNobody).2 rfl).2 13 (by decide)⟩

end RatelimitGateway.Breaker
