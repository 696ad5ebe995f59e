import RatelimitGateway.Lib.Snapshot
import RatelimitGateway.Middleware.Requests

/-!
# The breaker gauges

`recordBreakerState` reads the state of the breaker once, under its lock, and
then sets three gauges outside it. `Requests` has all of that happen in one
step. Here each Set is a step of its own: between any two of them other
requests read and set, and the breaker changes.

The gauges are to name one state whenever no request is inside. They do if the
Sets that are still to come do not depend on which of two states was read
(`Unanimous`), and otherwise the order of those Sets can leave none of the gauges
at 1, or two of them.

* `gauges_name_one_state_iff` — when exactly the gauges name one state.
-/

namespace RatelimitGateway.Middleware

open Limiter Transitions Snapshot

/-- The gauges, in the order in which `recordBreakerState` sets them. -/
def breakerGauges : Layout Breaker.State Breaker.State String ℤ where
  slots := [.closed, .open, .halfOpen]
  cell := Breaker.State.name
  entry current s := if s = current then 1 else 0
  slots_nodup := by decide
  cell_injective s s' h := by
    cases s <;> cases s' <;> first | rfl | exact absurd h (by decide)

/-- What a request that has read that state sets. -/
def setsOf (current : Breaker.State) : List Effect :=
  breakerGauges.slots.map fun s =>
    .setBreakerState (breakerGauges.cell s) (breakerGauges.entry current s)

theorem recordBreakerState_eq (now : ℤ) (b : Breaker) :
    recordBreakerState now b = setsOf (b.observe now) := rfl

theorem mem_breakerGauges (s : Breaker.State) : s ∈ breakerGauges.slots := by
  cases s <;> decide

/-- The values that the gauges have, and the requests that have read a state
for them. -/
abbrev Gauges := Board breakerGauges ℕ

/-- A replica and the gauges that it exports. -/
structure Exporter where
  server : Server
  gauges : Gauges

/-- A request that calls `recordBreakerState` reads the state at the moment at
which it publishes; the Sets follow. -/
inductive Tick where
  | moment (e : Moment)
  | set (id : ℕ)

/-- What a replica without gauges sees of it. -/
def Tick.seen : Tick → Option Moment
  | .moment e => some e
  | .set _ => none

namespace Exporter

def start (config : Breaker.Config) : Exporter where
  server := Server.start config
  gauges := .empty

/-- Is it the move of a request that is inside `recordBreakerState`? -/
def inside (x : Exporter) : Moment → Bool
  | .arrive _ _ => false
  | .move id _ => x.gauges.busy id

/-- The gauges after a moment: it sets none of them, but a request may have
read the state. -/
def read (x : Exporter) : Moment → Gauges
  | .move id (.publish now) => x.gauges.take id (x.server.breaker.observe now)
  | _ => x.gauges

def step (rl : RateLimit) (x : Exporter) : Tick → Option Exporter
  | .moment e =>
    if x.inside e then none else (x.server.step rl e).map fun s => ⟨s, x.read e⟩
  | .set id => (x.gauges.write id).map fun g => ⟨x.server, g⟩

/-- Exactly one of the three gauges is 1, and the other two are 0. -/
def NamesOneState (x : Exporter) : Prop :=
  ∃ s : Breaker.State, ∀ s' : Breaker.State,
    x.gauges.cells s'.name = some (if s' = s then 1 else 0)

end Exporter

/-- When a request reads the state, every other request that is still inside
has read the same state, or has set the gauges of both states already. -/
def Unanimous (x : Exporter) (e : Tick) (_ : Exporter) : Prop :=
  ∀ id now, e = .moment (.move id (.publish now)) →
    ∀ id' w, x.gauges.writers id' = some w →
      w.value = x.server.breaker.observe now ∨
        w.value ∉ w.rest ∧ x.server.breaker.observe now ∉ w.rest

-- ---------------------------------------------------------------------------
-- What a step can do
-- ---------------------------------------------------------------------------

section Steps

variable {rl : RateLimit} {x x' : Exporter} {e : Tick}

/-- A request reads the state, something else happens to the replica, or a
gauge is set. -/
theorem Exporter.step_cases (h : x.step rl e = some x') :
    (∃ id now, e = .moment (.move id (.publish now)) ∧
      x.server.step rl (.move id (.publish now)) = some x'.server ∧
      x'.gauges = x.gauges.take id (x.server.breaker.observe now)) ∨
    (∃ m, e = .moment m ∧ (∀ id now, m ≠ .move id (.publish now)) ∧
      x.server.step rl m = some x'.server ∧ x'.gauges = x.gauges) ∨
    ∃ id, e = .set id ∧ x'.server = x.server ∧ x.gauges.write id = some x'.gauges := by
  cases e with
  | moment m =>
    rw [Exporter.step] at h
    split at h
    · cases h
    · obtain ⟨s, hServer, rfl⟩ := Option.map_eq_some_iff.mp h
      -- a read of the breaker takes the three values; the other moments leave the board alone
      cases m with
      | arrive id t => exact .inr (.inl ⟨_, rfl, by simp, hServer, rfl⟩)
      | move id m =>
        cases m with
        | publish now => exact .inl ⟨id, now, rfl, hServer, rfl⟩
        | _ => exact .inr (.inl ⟨_, rfl, by simp, hServer, rfl⟩)
  | set id =>
    obtain ⟨g, hWrite, rfl⟩ := Option.map_eq_some_iff.mp h
    exact .inr (.inr ⟨id, rfl, rfl, hWrite⟩)

/-- A run of Sets alone. -/
theorem Exporter.run_sets {ids : List ℕ} :
    run (Exporter.step rl) x (ids.map .set) = some x' ↔
      x'.server = x.server ∧ run Board.write x.gauges ids = some x'.gauges := by
  induction ids generalizing x with
  | nil =>
    obtain ⟨s, g⟩ := x
    obtain ⟨s', g'⟩ := x'
    simp [run, eq_comm]
  | cons id ids ih =>
    rw [List.map_cons, run_cons_eq_some, run_cons_eq_some]
    constructor
    · rintro ⟨m, hStep, hRest⟩
      obtain ⟨g, hWrite, rfl⟩ := Option.map_eq_some_iff.mp hStep
      obtain ⟨hServer, hRun⟩ := ih.mp hRest
      exact ⟨hServer, g, hWrite, hRun⟩
    · rintro ⟨hServer, g, hWrite, hRun⟩
      exact ⟨⟨x.server, g⟩, Option.map_eq_some_iff.mpr ⟨g, hWrite, rfl⟩, ih.mpr ⟨hServer, hRun⟩⟩

/-- Without its gauges, a run of an exporter is a run of the replica. -/
theorem Exporter.server_of_run {config : Breaker.Config} {events : List Tick}
    (hRun : run (Exporter.step rl) (Exporter.start config) events = some x) :
    run (Server.step rl) (Server.start config) (events.filterMap Tick.seen) = some x.server := by
  -- a write to a gauge is nothing to the server
  have hSilent : ∀ (x : Exporter) (s : Server) (e : Tick) (x' : Exporter), x.server = s →
      x.step rl e = some x' → e.seen = none → x'.server = s := by
    rintro x s e x' rfl hStep hSeen
    obtain ⟨id, now, rfl, -, -⟩ | ⟨m, rfl, -, -, -⟩ | ⟨id, rfl, hSame, -⟩ :=
      Exporter.step_cases hStep
    · cases hSeen
    · cases hSeen
    · exact hSame
  have hVisible : ∀ (x : Exporter) (s : Server) (e : Tick) (x' : Exporter) (m : Moment),
      x.server = s → x.step rl e = some x' → e.seen = some m →
      ∃ s', s.step rl m = some s' ∧ x'.server = s' := by
    rintro x s e x' m rfl hStep hSeen
    obtain ⟨id, now, rfl, hServer, -⟩ | ⟨m', rfl, -, hServer, -⟩ | ⟨id, rfl, -, -⟩ :=
      Exporter.step_cases hStep
    · exact ⟨_, Option.some.inj hSeen ▸ hServer, rfl⟩
    · exact ⟨_, Option.some.inj hSeen ▸ hServer, rfl⟩
    · cases hSeen
  obtain ⟨s, hServer, rfl⟩ := run_simulation hSilent hVisible rfl hRun
  exact hServer

end Steps

-- ---------------------------------------------------------------------------
-- Who sets what
-- ---------------------------------------------------------------------------

/-- A request of that identity has been sent, and this is what it publishes. -/
def Server.Publishes (s : Server) (id : ℕ) (gauges : List Effect) : Prop :=
  (∃ r ∈ s.requests, r.id = id) ∧ ∀ r ∈ s.requests, r.id = id → .publish gauges ∈ r.story

section Stories

variable {rl : RateLimit} {s s' : Server} {id : ℕ} {gauges : List Effect}

/-- A request that reads the breaker publishes what it has read. -/
theorem publishes_of_publish {now : ℤ} (hStep : s.step rl (.move id (.publish now)) = some s') :
    s'.Publishes id (recordBreakerState now s.breaker) := by
  obtain ⟨_, _, hEvent, -⟩ | ⟨m, r, b, p, a, hEvent, hr, -, hDoes, rfl⟩ := step_cases hStep
  · cases hEvent
  · obtain ⟨rfl, rfl⟩ := Moment.move.inj hEvent
    refine ⟨⟨_, List.mem_map.mpr ⟨r, hr, if_pos rfl⟩, rfl⟩, fun r' hr' hId => ?_⟩
    obtain ⟨r₁, -, rfl⟩ := List.mem_map.mp hr'
    split
    · generalize r.point = point at hDoes
      cases hDoes with
      | published => exact List.mem_append_right _ (List.mem_singleton_self _)
    · rename_i hOther
      rw [if_neg hOther] at hId
      exact absurd hId hOther

/-- Its gauges stay what they are. -/
theorem Server.Publishes.step {e : Moment} (hPublishes : s.Publishes id gauges)
    (hStep : s.step rl e = some s') : s'.Publishes id gauges := by
  obtain ⟨⟨r₀, hr₀, rfl⟩, hStories⟩ := hPublishes
  obtain ⟨id, t, -, hNew, rfl⟩ | ⟨m, r, b, p, a, -, hr, -, -, rfl⟩ := step_cases hStep
  · refine ⟨⟨r₀, List.mem_cons_of_mem _ hr₀, rfl⟩,
      List.forall_mem_cons.mpr ⟨fun hId => ?_, hStories⟩⟩
    -- the ids are taken, so the new request has another one
    have hOld := List.find?_eq_none.mp hNew r₀ hr₀
    exact absurd hId.symm (by simpa using hOld)
  · constructor
    · have hMem := List.mem_map_of_mem (f := Request.id) hr₀
      rw [← map_id_moved s { r with point := p, story := r.story ++ [a] }] at hMem
      exact List.mem_map.mp hMem
    · intro r' hr' hId
      obtain ⟨r₁, hr₁, rfl⟩ := List.mem_map.mp hr'
      split at hId
      · rw [if_pos ‹_›]
        exact List.mem_append_left _ (hStories r hr hId)
      · rw [if_neg ‹_›]
        exact hStories r₁ hr₁ hId

/-- A request publishes once, and before anything else. -/
theorem not_publishes_of_publish (hStories : StoriesOk rl s) {now : ℤ}
    (hStep : s.step rl (.move id (.publish now)) = some s') : ¬ s.Publishes id gauges := by
  obtain ⟨_, _, hEvent, -⟩ | ⟨m, r, b, p, a, hEvent, hr, -, hDoes, -⟩ := step_cases hStep
  · cases hEvent
  · obtain ⟨rfl, rfl⟩ := Moment.move.inj hEvent
    intro hPublishes
    have hStory := hStories r hr
    have hMem := hPublishes.2 r hr rfl
    generalize r.point = point at hDoes hStory
    cases hDoes with
    | published =>
      rw [show r.story = [] from hStory] at hMem
      exact absurd hMem List.not_mem_nil

end Stories

/-- Every writer is a request of the replica, and sets what its story says. -/
def Exporter.Known (x : Exporter) : Prop :=
  ∀ id w, x.gauges.writers id = some w → x.server.Publishes id (setsOf w.value)

section Readers

variable {rl : RateLimit} {x x' : Exporter} {e : Tick}

/-- Whoever writes the gauges is a request of the server. -/
theorem Exporter.Known.step (hKnown : x.Known) (hStep : x.step rl e = some x') : x'.Known := by
  intro id w hWriter
  obtain ⟨id', now, rfl, hServer, hTake⟩ | ⟨m, rfl, -, hServer, hSame⟩ |
    ⟨id', rfl, hSame, hWrite⟩ := Exporter.step_cases hStep
  · -- the writer that has just read writes what the breaker said
    by_cases hSelf : id = id'
    · rw [hTake, hSelf, Board.take_self] at hWriter
      have hPublishes := publishes_of_publish hServer
      rw [recordBreakerState_eq] at hPublishes
      rw [hSelf, ← Option.some.inj hWriter]
      exact hPublishes
    · rw [hTake, Board.take_of_ne hSelf] at hWriter
      exact (hKnown id w hWriter).step hServer
  · rw [hSame] at hWriter
    exact (hKnown id w hWriter).step hServer
  · rw [hSame]
    -- a write leaves the value of its writer as it was
    obtain ⟨v, i, rest, hWriter', -, hNext⟩ := Board.write_eq_some.mp hWrite
    by_cases hSelf : id = id'
    · rw [hNext, hSelf, Board.wrote_self] at hWriter
      rw [hSelf, ← Option.some.inj hWriter]
      exact hKnown id' v hWriter'
    · rw [hNext, Board.wrote_of_ne hSelf] at hWriter
      exact hKnown id w hWriter

theorem Exporter.known_of_run {config : Breaker.Config} {events : List Tick}
    (hRun : run (Exporter.step rl) (Exporter.start config) events = some x) : x.Known :=
  reachable_invariant (I := Exporter.Known) (fun _ _ hWriter => by cases hWriter)
    (fun _ _ _ hKnown hStep => hKnown.step hStep) ⟨events, hRun⟩

/-- Only requests of the replica can be inside. -/
theorem Exporter.Known.mem_of_busy (hKnown : x.Known) {id : ℕ} (hBusy : x.gauges.busy id = true) :
    id ∈ x.server.requests.map Request.id := by
  obtain ⟨w, hWriter, -⟩ := (Option.any_eq_true _ _).mp hBusy
  obtain ⟨⟨r, hr, hId⟩, -⟩ := hKnown id w hWriter
  exact List.mem_map.mpr ⟨r, hr, hId⟩

end Readers

-- ---------------------------------------------------------------------------
-- Which state the gauges name
-- ---------------------------------------------------------------------------

/-- What is still to be set depends on the state that was read only where the
gauges of two different states are concerned. -/
theorem agrees_iff {g : Gauges} {s : Breaker.State} :
    g.Agrees s ↔ ∀ id w, g.writers id = some w → w.value = s ∨ w.value ∉ w.rest ∧ s ∉ w.rest := by
  refine forall_congr' fun id => forall_congr' fun w => forall_congr' fun _ => ?_
  constructor
  · intro hAgrees
    by_cases hSame : w.value = s
    · exact .inl hSame
    · refine .inr ⟨fun hLeft => ?_, fun hLeft => ?_⟩
      · have hEntry := hAgrees w.value hLeft
        simp [breakerGauges, hSame] at hEntry
      · have hEntry := hAgrees s hLeft
        simp [breakerGauges, Ne.symm hSame] at hEntry
  · rintro (hSame | ⟨hValue, hState⟩) i hLeft
    · rw [hSame]
    · have hNotValue : i ≠ w.value := fun h => hValue (h ▸ hLeft)
      have hNotState : i ≠ s := fun h => hState (h ▸ hLeft)
      simp [breakerGauges, hNotValue, hNotState]

section Naming

variable {rl : RateLimit} {config : Breaker.Config} {x x' : Exporter} {e : Tick}

/-- The gauges name the state that was read last, as soon as nobody is inside,
or no state was read yet. -/
def Exporter.Upholds (x : Exporter) : Prop :=
  (∀ id, x.gauges.writers id = none) ∨ ∃ s, x.gauges.Upholds s

/-- The gauges uphold what the last readers have agreed on. -/
theorem Exporter.Upholds.step (hUpholds : x.Upholds) (hStep : x.step rl e = some x')
    (hUnanimous : Unanimous x e x') : x'.Upholds := by
  obtain ⟨id, now, rfl, -, hTake⟩ | ⟨m, rfl, -, -, hSame⟩ | ⟨id, rfl, -, hWrite⟩ :=
    Exporter.step_cases hStep
  · right
    rw [hTake]
    exact ⟨_, .take (agrees_iff.mpr (hUnanimous id now rfl)) id⟩
  · unfold Exporter.Upholds
    rwa [hSame]
  · obtain hNone | ⟨s, hBoard⟩ := hUpholds
    · obtain ⟨w, -, -, hWriter, -⟩ := Board.write_eq_some.mp hWrite
      exact absurd ((hNone id).symm.trans hWriter) nofun
    · exact .inr ⟨s, hBoard.write hWrite⟩

theorem Exporter.Upholds.run {events : List Tick} (hUpholds : x.Upholds)
    (hRun : Transitions.run (Exporter.step rl) x events = some x')
    (hUnanimous : EveryStep (Exporter.step rl) Unanimous x events) : x'.Upholds :=
  run_invariant (P := fun _ x => x.Upholds) hUpholds
    (fun _ _ _ _ _ hUpholds hStep hHere => hUpholds.step hStep hHere) hRun hUnanimous

/-- A Set asks nobody. -/
theorem unanimous_sets {sets : List ℕ} :
    EveryStep (Exporter.step rl) Unanimous x (sets.map .set) := by
  induction sets generalizing x with
  | nil => exact trivial
  | cons id sets ih => exact fun x' _ => ⟨fun _ _ hEvent => (by cases hEvent), ih⟩

/-- Once nobody is writing, they name one state. -/
theorem Exporter.Upholds.namesOneState (hUpholds : x.Upholds) (hQuiet : x.gauges.Quiet)
    (hDone : x.gauges.Done) : x.NamesOneState := by
  obtain hNone | ⟨s, hBoard⟩ := hUpholds
  · obtain ⟨id, w, hWriter, -⟩ := hDone
    exact absurd ((hNone id).symm.trans hWriter) nofun
  · exact ⟨s, fun s' => hBoard.shows hQuiet s' (mem_breakerGauges s')⟩

/-- A mix of two different states that names neither. -/
theorem not_namesOneState {s s' : Breaker.State} (hDiffer : s' ≠ s) {rest : List Breaker.State}
    (hLeft : s' ∈ rest ∨ s ∈ rest)
    (hCells : ∀ i, x.gauges.cells i.name = some (breakerGauges.entry
      (if i ∈ rest ∧ decide (s ∈ rest → i = s) then s' else s) i)) : ¬ x.NamesOneState := by
  rintro ⟨named, hNamed⟩
  by_cases hIn : s ∈ rest
  · -- the gauge of `s` is set by the one that read `s'`: none of them is 1
    have hOne := (hNamed named).symm.trans (hCells named)
    by_cases hSelf : named = s
    · simp [breakerGauges, hSelf, hIn, hDiffer.symm] at hOne
    · simp [breakerGauges, hSelf, hIn] at hOne
  · -- the gauge of `s` is set for good, and that of `s'` by the one that read it
    have hValue : s' = named := by
      have hGauge := (hNamed s').symm.trans (hCells s')
      simpa [breakerGauges, hLeft.resolve_right hIn, hIn] using hGauge
    have hState : s = named := by
      have hGauge := (hNamed s).symm.trans (hCells s)
      simpa [breakerGauges, hIn] using hGauge
    exact hDiffer (hValue.trans hState.symm)

/-- A request that reads the state while another one is not done with a
different one: some order of the Sets that are under way misnames it. -/
theorem exists_misnamed (hKnown : x.Known) (hStories : StoriesOk rl x.server)
    (hStep : x.step rl e = some x') (hNot : ¬ Unanimous x e x') :
    ∃ (sets : List ℕ) (y : Exporter), run (Exporter.step rl) x' (sets.map .set) = some y ∧
      y.gauges.Quiet ∧ y.gauges.Done ∧ ¬ y.NamesOneState := by
  have hKnown' := hKnown.step hStep
  simp only [Unanimous, not_forall, not_or, not_and_or, not_not] at hNot
  obtain ⟨id, now, rfl, id', w, hWriter, hDiffer, hLeft⟩ := hNot
  obtain ⟨_, _, hEvent, hServer, hTake⟩ | ⟨m, hEvent, hOther, -⟩ | ⟨_, hEvent, -, -⟩ :=
    Exporter.step_cases hStep
  · obtain ⟨rfl, hNow⟩ := Moment.move.inj (Tick.moment.inj hEvent)
    obtain rfl := Move.publish.inj hNow
    -- the other request has read before, and this one has not
    have hIds : id' ≠ id := by
      rintro rfl
      exact not_publishes_of_publish hStories hServer (hKnown id' w hWriter)
    have hWriter' : x'.gauges.writers id' = some w := by
      rw [hTake, Board.take_of_ne hIds, hWriter]
    have hReader : x'.gauges.writers id = some (.start _ (x.server.breaker.observe now)) := by
      rw [hTake, Board.take_self]
    -- the two writers take turns, and nobody else writes
    obtain ⟨sets, g, hSets, hQuiet, hCells⟩ := Board.exists_overlap hIds hWriter' hReader rfl
      (fun _ => hKnown'.mem_of_busy)
      fun i => decide (x.server.breaker.observe now ∈ w.rest → i = x.server.breaker.observe now)
    refine ⟨sets, ⟨x'.server, g⟩, Exporter.run_sets.mpr ⟨rfl, hSets⟩, hQuiet,
      hQuiet.done (Board.isSome_of_run hSets (by rw [hReader]; rfl)), ?_⟩
    exact not_namesOneState hDiffer hLeft fun i => hCells i (mem_breakerGauges i)
  · exact absurd (Tick.moment.inj hEvent).symm (hOther id now)
  · cases hEvent

end Naming

/--
**The breaker gauges.** For every run of any number of requests, interleaved in
any way: every request that reads the state of the breaker finds those that are
inside `recordBreakerState` unanimous with it (`Unanimous`), if and only if, at
every moment of the run and in whatever order the Sets under way are then
carried out, exactly one of the three gauges is 1 and the other two are 0
whenever a request has completed `recordBreakerState` and none is inside.
-/
theorem gauges_name_one_state_iff (rl : RateLimit) (config : Breaker.Config)
    (events : List Tick) :
    EveryStep (Exporter.step rl) Unanimous (Exporter.start config) events ↔
      ∀ (before : List Tick) (sets : List ℕ) (x : Exporter), before <+: events →
        run (Exporter.step rl) (Exporter.start config) (before ++ sets.map .set) = some x →
        x.gauges.Quiet → x.gauges.Done → x.NamesOneState := by
  rw [everyStep_iff_prefixes]
  constructor
  · -- unanimous so far: all the writers left hold the value of the last read
    intro hUnanimous before sets x hBefore hRun hQuiet hDone
    rw [run_append, Option.bind_eq_some_iff] at hRun
    obtain ⟨m, hRun, hSets⟩ := hRun
    have hSteps : EveryStep (Exporter.step rl) Unanimous (Exporter.start config) before :=
      everyStep_iff_prefixes.mpr fun pre e m s' hPrefix =>
        hUnanimous pre e m s' (hPrefix.trans hBefore)
    have hStart : (Exporter.start config).Upholds := .inl fun _ => rfl
    exact ((hStart.run hRun hSteps).run hSets unanimous_sets).namesOneState hQuiet hDone
  · -- at the first read that is not unanimous the writers can be lined up to misname
    intro hNames pre e m x hPrefix hRun hStep
    by_contra hNot
    obtain ⟨sets, y, hSets, hQuiet, hDone, hMisnamed⟩ :=
      exists_misnamed (Exporter.known_of_run hRun)
        (storiesOk_run (Exporter.server_of_run hRun)) hStep hNot
    have hAll := run_trans (run_concat_eq_some.mpr ⟨m, hRun, hStep⟩) hSets
    exact hMisnamed (hNames _ sets y hPrefix hAll hQuiet hDone)

/-- Three values that name one state. -/
theorem values_of_namesOneState {x : Exporter} (h : x.NamesOneState) :
    ["closed", "open", "half_open"].map x.gauges.cells ∈
      [[some 1, some 0, some 0], [some 0, some 1, some 0], [some 0, some 0, some 1]] := by
  obtain ⟨s, hNamed⟩ := h
  have hClosed : x.gauges.cells "closed" = _ := hNamed .closed
  have hOpen : x.gauges.cells "open" = _ := hNamed .open
  have hHalf : x.gauges.cells "half_open" = _ := hNamed .halfOpen
  rw [List.map_cons, List.map_cons, List.map_cons, List.map_nil, hClosed, hOpen, hHalf]
  cases s <;> decide

/-- A run that ends with nobody inside and the gauges misnamed, evaluated. -/
theorem exists_values {rl : RateLimit} {config : Breaker.Config} {events : List Tick}
    {values : List (Option ℤ)}
    (hCheck : ((run (Exporter.step rl) (Exporter.start config) events).any fun x =>
      (x.gauges.writers 0).isSome && (x.server.requests.all fun r => !x.gauges.busy r.id) &&
        ["closed", "open", "half_open"].map x.gauges.cells == values) = true)
    (hMisnamed : values ∉
      [[some 1, some 0, some 0], [some 0, some 1, some 0], [some 0, some 0, some 1]]) :
    ∃ x, run (Exporter.step rl) (Exporter.start config) events = some x ∧ x.gauges.Quiet ∧
      x.gauges.Done ∧ ["closed", "open", "half_open"].map x.gauges.cells = values ∧
      ¬ x.NamesOneState := by
  obtain ⟨x, hRun, hx⟩ := (Option.any_eq_true _ _).mp hCheck
  simp only [Bool.and_eq_true, List.all_eq_true, Bool.not_eq_true', beq_iff_eq] at hx
  obtain ⟨⟨hWriter, hIdle⟩, rfl⟩ := hx
  -- every writer is a request, and each request has written
  have hQuiet : x.gauges.Quiet := Board.quiet_iff_busy.mpr fun id => by
    refine Bool.eq_false_iff.mpr fun hBusy => ?_
    obtain ⟨r, hr, rfl⟩ :=
      List.mem_map.mp ((Exporter.known_of_run hRun).mem_of_busy hBusy)
    exact absurd ((hIdle r hr).symm.trans hBusy) nofun
  exact ⟨x, hRun, hQuiet, hQuiet.done hWriter, rfl, mt values_of_namesOneState hMisnamed⟩

/-- The breaker trips between the readings of two requests, and their Sets
interleave: in one order no gauge is 1 in the end, in another two are. -/
theorem gauges_misname :
    let rl : RateLimit := ⟨.tokenBucket, true⟩
    let acme : Tenant := ⟨"acme", ⟨"free", 10, 1000000000, 0⟩⟩
    let start := Exporter.start (Breaker.Config.of 1 1000 [])
    let race : List Tick :=
      [.moment (.arrive 0 acme), .moment (.move 0 (.publish 0)), .set 0, .set 0, .set 0,
       .moment (.move 0 (.consult 0)), .moment (.move 0 .call),
       .moment (.move 0 (.reply (.error .contextDone))),
       .moment (.arrive 1 acme), .moment (.move 1 (.publish 1)),
       .moment (.move 0 (.report 2)),
       .moment (.arrive 2 acme), .moment (.move 2 (.publish 3))]
    (∃ x, run (Exporter.step rl) start (race ++ [1, 2, 2, 2, 1, 1].map .set) = some x ∧
      x.gauges.Quiet ∧ x.gauges.Done ∧
      ["closed", "open", "half_open"].map x.gauges.cells = [some 0, some 0, some 0] ∧
      ¬ x.NamesOneState) ∧
    ∃ x, run (Exporter.step rl) start (race ++ [2, 1, 1, 2, 2, 1].map .set) = some x ∧
      x.gauges.Quiet ∧ x.gauges.Done ∧
      ["closed", "open", "half_open"].map x.gauges.cells = [some 1, some 1, some 0] ∧
      ¬ x.NamesOneState := by
  intro rl acme start race
  exact ⟨exists_values (by decide +kernel) (by decide),
    exists_values (by decide +kernel) (by decide)⟩

end RatelimitGateway.Middleware
