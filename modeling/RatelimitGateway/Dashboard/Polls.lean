import Mathlib
import RatelimitGateway.Dashboard.Chart
import RatelimitGateway.Dashboard.Stats
import RatelimitGateway.Lib.Transitions

/-!
# The dashboard polls while the counters move

The page polls on a timer and once more after every burst, so polls overlap and
their answers arrive in any order. A stats handler reads the counters one after
the other while they are incremented, and takes the uptime after that; nothing
holds them still.

A sample is only drawn from two payloads whose uptimes are `MIN_SAMPLE_SECONDS`
apart. If a handler takes less than that to gather, this keeps the samples from
overlapping too: what the later payload has read was read after everything in
the earlier one.

* `polls_count_once` — whatever the order, the samples that are drawn count every
  decision at most once, and skip none between the first and the last.
-/

namespace RatelimitGateway.Dashboard.Polls

open Chart Transitions

-- ---------------------------------------------------------------------------
-- The page and the gateway
-- ---------------------------------------------------------------------------

/-- A handler that is gathering: when it began, and the counters it has read. -/
structure Gathering where
  began : ℚ
  read  : Labels → Option ℕ

/-- A poll of the page, until the page has heard of it. -/
inductive Poll where
  | gathering (h : Gathering)
  | answered (stats : Stats)

/-- `uptime` is that of the gateway; `counted` are the decisions it has counted, each
with its time. -/
structure Session where
  uptime  : ℚ
  counted : List (ℚ × Labels)
  polls   : ℕ → Option Poll
  page    : State

def boot : Session := ⟨0, [], fun _ => none, state⟩

inductive Event where
  | wait (d : ℚ)
  /-- The middleware or the simulator counts a decision. -/
  | count (l : Labels)
  /-- The page polls, and `Gather` begins. -/
  | ask (id : ℕ)
  | read (id : ℕ) (l : Labels)
  /-- `Gather` has returned, and the handler takes the uptime. -/
  | answer (id : ℕ)
  | arrive (id : ℕ)
  | fail (id : ℕ)

/-- The value of a counter. -/
def Session.value (s : Session) (l : Labels) : ℕ := s.counted.countP fun x => x.2 == l

/-- What `Gather` returns of the counters that it has read. -/
def families (series : List Labels) (read : Labels → ℕ) : List MetricFamily :=
  [⟨"gateway_rate_limit_decisions_total", series.map fun l =>
    ⟨⟨none⟩, [("algorithm", l.algorithm), ("decision", l.decision), ("source", l.source),
      ("tier", l.tier)], read l⟩⟩]

/-- What the page uses of the answer of `handleStats`. -/
def payload (r : Resolver) (range : List Bound → List Bound) (series : List Labels) (uptime : ℚ)
    (read : Labels → ℕ) : Stats :=
  let resp := handleStats r range (families series read)
  ⟨0, uptime, resp.allowed, resp.throttled⟩

/-- The gateway of a configuration, with the label values that it counts under. -/
structure Source where
  resolver : Resolver
  range    : List Bound → List Bound
  series   : List Labels

def step (g : Source) (s : Session) : Event → Option Session
  | .wait d => if 0 ≤ d then some { s with uptime := s.uptime + d } else none
  | .count l =>
    if l ∈ g.series then some { s with counted := s.counted ++ [(s.uptime, l)] } else none
  | .ask id =>
    match s.polls id with
    | none => some { s with
        polls := Function.update s.polls id (some (.gathering ⟨s.uptime, fun _ => none⟩)) }
    | some _ => none
  | .read id l =>
    match s.polls id with
    | some (.gathering h) =>
      if l ∈ g.series ∧ h.read l = none then
        let h := { h with read := Function.update h.read l (some (s.value l)) }
        some { s with polls := Function.update s.polls id (some (.gathering h)) }
      else none
    | _ => none
  | .answer id =>
    match s.polls id with
    | some (.gathering h) =>
      if ∀ l ∈ g.series, (h.read l).isSome then
        let stats := payload g.resolver g.range g.series s.uptime fun l => (h.read l).getD 0
        some { s with polls := Function.update s.polls id (some (.answered stats)) }
      else none
    | _ => none
  | .arrive id =>
    match s.polls id with
    | some (.answered stats) => some { s with
        polls := Function.update s.polls id none, page := (poll s.page (some stats)).2 }
    | _ => none
  | .fail id =>
    match s.polls id with
    | some _ => some { s with
        polls := Function.update s.polls id none, page := (poll s.page none).2 }
    | none => none

/-- What the page hears of a poll. -/
def hears (s : Session) : Event → Session → List (Option Stats)
  | .arrive id, _ =>
    match s.polls id with
    | some (.answered stats) => [some stats]
    | _ => []
  | .fail _, _ => [none]
  | _, _ => []

/-- What the page has heard, in that order. -/
def heard (g : Source) (es : List Event) : List (Option Stats) := collect (step g) hears boot es

/-- A handler that takes the uptime has not gathered for half a second. -/
def Prompt (s : Session) : Event → Session → Prop
  | .answer id, _ => ∀ h, s.polls id = some (.gathering h) →
    s.uptime - h.began < MIN_SAMPLE_SECONDS
  | _, _ => True

instance (s : Session) : ∀ e s', Decidable (Prompt s e s')
  | .answer id, _ =>
    match hPoll : s.polls id with
    | some (.gathering h) =>
      decidable_of_iff (s.uptime - h.began < MIN_SAMPLE_SECONDS)
        ⟨fun hLt h' hSome => by rw [hPoll] at hSome; cases hSome; exact hLt, fun h' => h' h hPoll⟩
    | some (.answered _) => .isTrue fun h hSome => by rw [hPoll] at hSome; cases hSome
    | none => .isTrue fun h hSome => by rw [hPoll] at hSome; cases hSome
  | .wait _, _ | .count _, _ | .ask _, _ | .read _ _, _ | .arrive _, _ | .fail _, _ =>
    .isTrue trivial

-- ---------------------------------------------------------------------------
-- What is drawn of payloads in any order
-- ---------------------------------------------------------------------------

/-- The samples that polls record, from a state of the client. -/
def drawn (s : State) (outcomes : List (Option Stats)) : List Sample :=
  (Machine.trace Chart.poll s outcomes).filterMap fun x => x.2.bind Answer.sample

theorem drawn_cons (s : State) (o : Option Stats) (os : List (Option Stats)) :
    drawn s (o :: os) =
      ((Chart.poll s o).1.bind Answer.sample).toList ++ drawn (Chart.poll s o).2 os := by
  rw [drawn, Machine.trace_cons, List.filterMap_cons]
  cases (Chart.poll s o).1.bind Answer.sample <;> simp [drawn]

/-- Payloads with uptimes half a second apart do not count backwards. -/
def Spaced (polls : List Stats) : Prop :=
  ∀ p ∈ polls, ∀ q ∈ polls, p.uptimeSeconds + MIN_SAMPLE_SECONDS ≤ q.uptimeSeconds →
    ∀ c, p.counter c ≤ q.counter c

/-- Samples from one baseline to another, each of which replaces the baseline. -/
inductive Path (R : Stats → Stats → Sample → Prop) : Stats → List Sample → Stats → Prop where
  | nil (b : Stats) : Path R b [] b
  | cons {b q last : Stats} {x : Sample} {xs : List Sample} :
    R b q x → Path R q xs last → Path R b (x :: xs) last

/-- The sample that is drawn of two payloads. -/
structure Between (polls : List Stats) (p q : Stats) (x : Sample) : Prop where
  memLeft  : p ∈ polls
  memRight : q ∈ polls
  elapsed  : x.elapsed = q.uptimeSeconds - p.uptimeSeconds
  apart    : MIN_SAMPLE_SECONDS ≤ x.elapsed
  growth   : ∀ c, x.rates.of c * x.elapsed = q.counter c - p.counter c

section Path

variable {R R' : Stats → Stats → Sample → Prop} {first last : Stats} {xs : List Sample}

theorem Path.imp (h : ∀ p q x, R p q x → R' p q x) (hPath : Path R first xs last) :
    Path R' first xs last := by
  induction hPath with
  | nil b => exact .nil b
  | cons hHead _ ih => exact .cons (h _ _ _ hHead) ih

/-- The samples add up to the growth from the first baseline to the last. -/
theorem Path.sum {polls : List Stats} (hPath : Path (Between polls) first xs last) (c : Series) :
    (xs.map fun x => x.rates.of c * x.elapsed).sum = last.counter c - first.counter c := by
  induction hPath with
  | nil b => simp
  | cons hHead _ ih =>
    rw [List.map_cons, List.sum_cons, ih, hHead.growth]
    ring

/-- Along a path, the samples are half a second or more apart. -/
theorem Path.apart {polls : List Stats} (hPath : Path (Between polls) first xs last) :
    first.uptimeSeconds + MIN_SAMPLE_SECONDS * xs.length ≤ last.uptimeSeconds := by
  induction hPath with
  | nil b => simp
  | cons hHead _ ih =>
    have hReached := hHead.apart
    rw [hHead.elapsed] at hReached
    push_cast [List.length_cons]
    linarith

theorem Path.mem {polls : List Stats} (hPath : Path (Between polls) first xs last)
    (hFirst : first ∈ polls) : last ∈ polls := by
  induction hPath with
  | nil b => exact hFirst
  | cons hHead _ ih => exact ih hHead.memRight

end Path

/-- From its baseline on, the client draws a path to the baseline it ends with. -/
theorem drawn_of_baseline {polls : List Stats} (hSpaced : Spaced polls) {s : State} {b : Stats}
    (hBaseline : s.previous = some b) (hBase : b ∈ polls) {outcomes : List (Option Stats)}
    (hHeard : ∀ q, some q ∈ outcomes → q ∈ polls) :
    ∃ last, (Machine.final Chart.poll s outcomes).previous = some last ∧
      Path (Between polls) b (drawn s outcomes) last := by
  induction outcomes generalizing s b with
  | nil => exact ⟨b, hBaseline, .nil b⟩
  | cons o outcomes ih =>
    have hRest : ∀ q, some q ∈ outcomes → q ∈ polls :=
      fun q hq => hHeard q (List.mem_cons_of_mem _ hq)
    rw [Machine.final_cons, drawn_cons]
    cases o with
    -- a failed poll changes nothing
    | none => exact ih (s := (Chart.poll s none).2) hBaseline hBase hRest
    | some q =>
      have hMem : q ∈ polls := hHeard q List.mem_cons_self
      by_cases hReached : b.uptimeSeconds + MIN_SAMPLE_SECONDS ≤ q.uptimeSeconds
      · -- far enough from the baseline: a sample, and the poll becomes the baseline
        obtain ⟨x, hSample, hPrevious, -, hElapsed, hRate⟩ := next_of_reached hBaseline hReached
        obtain ⟨last, hLast, hDrawn⟩ := ih (s := (Chart.poll s (some q)).2) hPrevious hMem hRest
        refine ⟨last, hLast, ?_⟩
        have hSample' : (Chart.poll s (some q)).1.bind Answer.sample = some x := hSample
        rw [hSample', Option.toList_some, List.singleton_append]
        have hApart : MIN_SAMPLE_SECONDS ≤ x.elapsed := by
          rw [hElapsed]
          linarith
        refine .cons ⟨hBase, hMem, hElapsed, hApart, fun c => ?_⟩ hDrawn
        have hPositive : q.uptimeSeconds - b.uptimeSeconds ≠ 0 := by
          unfold MIN_SAMPLE_SECONDS at hReached
          linarith
        -- no counter fell over the stretch, so the clamp at zero does nothing
        rw [hRate, rate_of_le _ (hSpaced b hBase q hMem hReached c), hElapsed,
          div_mul_cancel₀ _ hPositive]
      · -- too close: the baseline is kept
        obtain ⟨hSample, hPrevious, -⟩ := next_of_too_soon hBaseline hReached
        have hSample' : (Chart.poll s (some q)).1.bind Answer.sample = none := hSample
        rw [hSample', Option.toList_none, List.nil_append]
        exact ih (s := (Chart.poll s (some q)).2) hPrevious hBase hRest

/-- The first payload is the first baseline. -/
theorem drawn_from_first {s : State} (hNone : s.previous = none) {outcomes : List (Option Stats)}
    {first : Stats} (hFirst : outcomes.reduceOption.head? = some first)
    (hSpaced : Spaced outcomes.reduceOption) :
    ∃ last, (Machine.final Chart.poll s outcomes).previous = some last ∧
      Path (Between outcomes.reduceOption) first (drawn s outcomes) last := by
  induction outcomes generalizing s with
  | nil => cases hFirst
  | cons o outcomes ih =>
    rw [Machine.final_cons, drawn_cons]
    cases o with
    | none => exact ih (s := (Chart.poll s none).2) hNone hFirst hSpaced
    | some q =>
      -- the first payload becomes the baseline and draws nothing
      obtain ⟨hSample, hPrevious⟩ := next_of_no_baseline hNone q
      have hSample' : (Chart.poll s (some q)).1.bind Answer.sample = none := hSample
      rw [List.reduceOption_cons_of_some, List.head?_cons, Option.some_inj] at hFirst
      subst hFirst
      rw [hSample', Option.toList_none, List.nil_append]
      refine drawn_of_baseline hSpaced (s := (Chart.poll s (some q)).2) hPrevious ?_ fun p hp => ?_
      · simp
      · exact List.reduceOption_mem_iff.mpr (List.mem_cons_of_mem _ hp)

/-- Cutting a list down before something is appended makes no difference. -/
theorem rtake_append_rtake {α : Type*} (n : ℕ) (l m : List α) :
    (l.rtake n ++ m).rtake n = (l ++ m).rtake n := by
  have hDrop : l.rtake n ++ m = (l ++ m).drop (l.length - n) := by
    rw [List.rtake, List.drop_append_of_le_length (Nat.sub_le _ _)]
  rw [hDrop, List.rtake, List.rtake, List.drop_drop, List.length_drop, List.length_append]
  congr 1
  omega

/-- A full history loses its oldest sample. -/
theorem push_eq {history : List Rates} (hBound : history.length ≤ HISTORY) (rates : Rates) :
    push history rates = (history ++ [rates]).rtake HISTORY := by
  unfold push List.rtake
  by_cases hFull : (history ++ [rates]).length > HISTORY
  · have hOne : (history ++ [rates]).length - HISTORY = 1 := by
      simp at hFull ⊢
      omega
    simp only [hFull, if_true, hOne, List.drop_one]
  · simp only [hFull, if_false]
    rw [Nat.sub_eq_zero_of_le (not_lt.mp hFull), List.drop_zero]

/-- A poll appends the rates it draws, if any. -/
theorem history_poll {s : State} (hBound : s.history.length ≤ HISTORY) (o : Option Stats) :
    (Chart.poll s o).2.history = (s.history ++
      ((Chart.poll s o).1.bind Answer.sample).toList.map Sample.rates).rtake HISTORY := by
  have hSame : s.history = s.history.rtake HISTORY := by
    rw [List.rtake, Nat.sub_eq_zero_of_le hBound, List.drop_zero]
  unfold Chart.poll
  cases o with
  | none => simpa using hSame
  | some stats =>
    cases s.previous with
    | none => simpa using hSame
    | some b =>
      dsimp only
      split
      · simpa using push_eq hBound _
      · simpa using hSame

/-- The history is the rates that were drawn last. -/
theorem history_eq {s : State} (hBound : s.history.length ≤ HISTORY)
    (outcomes : List (Option Stats)) :
    (Machine.final Chart.poll s outcomes).history =
      (s.history ++ (drawn s outcomes).map Sample.rates).rtake HISTORY := by
  induction outcomes generalizing s with
  | nil => simp [drawn, List.rtake, Nat.sub_eq_zero_of_le hBound]
  | cons o outcomes ih =>
    have hPoll := history_poll hBound o
    have hBound' : (Chart.poll s o).2.history.length ≤ HISTORY := by
      rw [hPoll, List.rtake, List.length_drop]
      omega
    rw [Machine.final_cons, ih hBound', hPoll, rtake_append_rtake, drawn_cons, List.map_append,
      List.append_assoc]

-- ---------------------------------------------------------------------------
-- What a payload says
-- ---------------------------------------------------------------------------

def decisionOf : Series → String
  | .allowed => "allowed"
  | .throttled => "throttled"

/-- The decisions of a kind that were counted at some times. -/
def tally (log : List (ℚ × Labels)) (c : Series) (P : ℚ → Prop) [DecidablePred P] : ℕ :=
  log.countP fun x => x.2.decision = decisionOf c ∧ P x.1

theorem tally_mono {log : List (ℚ × Labels)} {c : Series} {P Q : ℚ → Prop} [DecidablePred P]
    [DecidablePred Q] (h : ∀ x ∈ log, P x.1 → Q x.1) : tally log c P ≤ tally log c Q := by
  refine List.countP_mono_left fun x hx => ?_
  simpa using fun hDecision hAt => ⟨hDecision, h x hx hAt⟩

/-- The decisions counted at some times are those of every label counted there. -/
theorem sum_series {series : List Labels} (hSeries : series.Nodup) {log : List (ℚ × Labels)}
    (hLog : ∀ x ∈ log, x.2 ∈ series) (c : Series) (P : ℚ → Prop) [DecidablePred P] :
    (series.map fun l => if l.decision = decisionOf c then
      log.countP fun x => x.2 == l && decide (P x.1) else 0).sum = tally log c P := by
  rw [tally, ← sum_countP_by_key Prod.snd _ hSeries hLog]
  congr 1
  refine List.map_congr_left fun l _ => ?_
  split
  · -- a series of the decision counts its own increments
    rename_i hDecision
    refine List.countP_congr fun x _ => ?_
    simp only [Bool.and_eq_true, beq_iff_eq, decide_eq_true_eq]
    exact ⟨fun h => ⟨⟨h.1 ▸ hDecision, h.2⟩, h.1⟩, fun h => ⟨h.2, h.1.2⟩⟩
  · -- any other series counts none of them
    rename_i hDecision
    symm
    rw [List.countP_eq_zero]
    intro x _
    simp only [Bool.and_eq_true, beq_iff_eq, decide_eq_true_eq, not_and]
    rintro ⟨hOther, -⟩ rfl
    exact hDecision hOther

/-- A payload reports the sums of the counters that were read. -/
theorem counter_payload {r : Resolver} (hNames : ((tiersByName r).map Tier.name).Nodup)
    (range : List Bound → List Bound) (series : List Labels) (uptime : ℚ) (read : Labels → ℕ)
    (c : Series) :
    (payload r range series uptime read).counter c =
      ((series.map fun l => if l.decision = decisionOf c then read l else 0).sum : ℕ) := by
  have hTotal : ∀ d, total (decisionIs d) (decisionMetrics (families series read)) =
      (series.map fun l => if l.decision = d then read l else 0).sum := by
    intro d
    simp [families, decisionMetrics, total, decisionIs, labelMap, List.map_map, Function.comp_def]
  obtain ⟨hAllowed, hThrottled, -⟩ := handleStats_eq r range (families series read) hNames
  cases c with
  | allowed => rw [Stats.counter, payload, hAllowed, hTotal, decisionOf]
  | throttled => rw [Stats.counter, payload, hThrottled, hTotal, decisionOf]

-- ---------------------------------------------------------------------------
-- What holds of a payload from then on
-- ---------------------------------------------------------------------------

/-- A later moment: what has been counted since was not counted before. -/
structure Later (s s' : Session) : Prop where
  uptime  : s.uptime ≤ s'.uptime
  counted : ∃ more, s'.counted = s.counted ++ more ∧ ∀ x ∈ more, s.uptime ≤ x.1

theorem Later.of_same {s s' : Session} (hUptime : s'.uptime = s.uptime)
    (hCounted : s'.counted = s.counted) : Later s s' :=
  ⟨hUptime.ge, [], by rw [hCounted, List.append_nil], by simp⟩

/-- What a handler has read was counted, and not only after it began. -/
structure Reads (s : Session) (h : Gathering) : Prop where
  began   : h.began ≤ s.uptime
  between : ∀ l n, h.read l = some n →
    (s.counted.countP fun x => x.2 == l && decide (x.1 < h.began)) ≤ n ∧ n ≤ s.value l

/-- A payload counts what was counted before its uptime, except for some of what was
counted in the half second before. -/
structure Dated (s : Session) (stats : Stats) : Prop where
  uptime  : stats.uptimeSeconds ≤ s.uptime
  atMost  : ∀ c, stats.counter c ≤ tally s.counted c (· ≤ stats.uptimeSeconds)
  atLeast : ∀ c,
    (tally s.counted c (· ≤ stats.uptimeSeconds - MIN_SAMPLE_SECONDS) : ℚ) ≤ stats.counter c

/-- What a handler has read stays between what was counted before it and in all. -/
theorem Reads.later {s s' : Session} {h : Gathering} (hReads : Reads s h) (hLater : Later s s') :
    Reads s' h where
  began := hReads.began.trans hLater.uptime
  between l n hRead := by
    obtain ⟨more, hCounted, hMore⟩ := hLater.counted
    obtain ⟨hAtLeast, hAtMost⟩ := hReads.between l n hRead
    have hNone : (more.countP fun x => x.2 == l && decide (x.1 < h.began)) = 0 := by
      rw [List.countP_eq_zero]
      intro x hx
      simp [hReads.began.trans (hMore x hx)]
    rw [Session.value, hCounted, List.countP_append, List.countP_append, hNone]
    exact ⟨hAtLeast, hAtMost.trans (Nat.le_add_right _ _)⟩

/-- A payload stays dated. -/
theorem Dated.later {s s' : Session} {stats : Stats} (hDated : Dated s stats)
    (hLater : Later s s') : Dated s' stats where
  uptime := hDated.uptime.trans hLater.uptime
  atMost c := by
    obtain ⟨more, hCounted, -⟩ := hLater.counted
    have hGrows : tally s.counted c (· ≤ stats.uptimeSeconds) ≤
        tally s'.counted c (· ≤ stats.uptimeSeconds) := by
      rw [hCounted, tally, tally, List.countP_append]
      exact Nat.le_add_right _ _
    exact (hDated.atMost c).trans (by exact_mod_cast hGrows)
  atLeast c := by
    obtain ⟨more, hCounted, hMore⟩ := hLater.counted
    -- what is counted later is later than the payload, so it is not in the earlier half second
    have hNone : tally more c (· ≤ stats.uptimeSeconds - MIN_SAMPLE_SECONDS) = 0 := by
      rw [tally, List.countP_eq_zero]
      intro x hx
      have hAfter := hDated.uptime.trans (hMore x hx)
      have hApart : (0 : ℚ) < MIN_SAMPLE_SECONDS := by norm_num [MIN_SAMPLE_SECONDS]
      simp only [decide_eq_true_eq, not_and, not_le]
      intro _
      linarith
    have hSame : tally s'.counted c (· ≤ stats.uptimeSeconds - MIN_SAMPLE_SECONDS) =
        tally s.counted c (· ≤ stats.uptimeSeconds - MIN_SAMPLE_SECONDS) := by
      rw [hCounted, tally, List.countP_append]
      exact (Nat.add_eq_left).mpr hNone
    rw [hSame]
    exact hDated.atLeast c

/-- Two payloads with uptimes half a second apart. -/
theorem Dated.counter_le {s : Session} {p q : Stats} (hp : Dated s p) (hq : Dated s q)
    (hApart : p.uptimeSeconds + MIN_SAMPLE_SECONDS ≤ q.uptimeSeconds) (c : Series) :
    p.counter c ≤ q.counter c := by
  have hTally : tally s.counted c (· ≤ p.uptimeSeconds) ≤
      tally s.counted c (· ≤ q.uptimeSeconds - MIN_SAMPLE_SECONDS) :=
    tally_mono fun x _ (hx : x.1 ≤ p.uptimeSeconds) => by linarith
  calc p.counter c ≤ tally s.counted c (· ≤ p.uptimeSeconds) := hp.atMost c
    _ ≤ tally s.counted c (· ≤ q.uptimeSeconds - MIN_SAMPLE_SECONDS) := by exact_mod_cast hTally
    _ ≤ q.counter c := hq.atLeast c

/-- The answer of a handler that was prompt. -/
theorem dated_payload {g : Source} (hNames : ((tiersByName g.resolver).map Tier.name).Nodup)
    (hSeries : g.series.Nodup) {s : Session}
    (hLog : ∀ x ∈ s.counted, x.1 ≤ s.uptime ∧ x.2 ∈ g.series) {h : Gathering} (hReads : Reads s h)
    (hPrompt : s.uptime - h.began < MIN_SAMPLE_SECONDS)
    (hAll : ∀ l ∈ g.series, (h.read l).isSome) :
    Dated s (payload g.resolver g.range g.series s.uptime fun l => (h.read l).getD 0) := by
  -- each series was read between the beginning of the gathering and now
  have hRead : ∀ l ∈ g.series, (s.counted.countP fun x => x.2 == l && decide (x.1 < h.began)) ≤
      (h.read l).getD 0 ∧ (h.read l).getD 0 ≤ s.value l := by
    intro l hl
    obtain ⟨n, hn⟩ := Option.isSome_iff_exists.mp (hAll l hl)
    simpa [hn] using hReads.between l n hn
  refine ⟨le_rfl, fun c => ?_, fun c => ?_⟩
  · -- at most: nothing read is more than what is counted by now
    rw [counter_payload hNames, ← sum_series hSeries fun x hx => (hLog x hx).2]
    refine Nat.cast_le.mpr (List.sum_le_sum fun l hl => ?_)
    split
    · refine (hRead l hl).2.trans (List.countP_mono_left fun x hx hLabel => ?_)
      rw [hLabel, Bool.true_and, decide_eq_true_eq]
      exact (hLog x hx).1
    · exact le_rfl
  · -- at least: what was counted half a second ago was there before the gathering began
    rw [counter_payload hNames, ← sum_series hSeries fun x hx => (hLog x hx).2]
    refine Nat.cast_le.mpr (List.sum_le_sum fun l hl => ?_)
    split
    · refine le_trans (List.countP_mono_left fun x _ hx => ?_) (hRead l hl).1
      simp only [Bool.and_eq_true, decide_eq_true_eq] at hx ⊢
      have hBefore : x.1 ≤ s.uptime - MIN_SAMPLE_SECONDS := hx.2
      exact ⟨hx.1, by linarith⟩
    · exact le_rfl

-- ---------------------------------------------------------------------------
-- The session
-- ---------------------------------------------------------------------------

structure SessionInv (g : Source) (es : List Event) (s : Session) : Prop where
  log       : ∀ x ∈ s.counted, x.1 ≤ s.uptime ∧ x.2 ∈ g.series
  gathering : ∀ id h, s.polls id = some (.gathering h) → Reads s h
  answered  : ∀ id stats, s.polls id = some (.answered stats) → Dated s stats
  told      : ∀ stats, some stats ∈ heard g es → Dated s stats
  page      : s.page = Machine.final Chart.poll state (heard g es)

/-- Before the first event nothing was counted, and nothing is known. -/
theorem sessionInv_boot (g : Source) : SessionInv g [] boot where
  log x hx := by cases hx
  gathering id h hPoll := by cases hPoll
  answered id stats hPoll := by cases hPoll
  told stats hTold := by cases hTold
  page := rfl

/-- A poll is as it was, or as its handler or the page has left it. -/
def Followed (s s' : Session) : Prop :=
  ∀ id, s'.polls id = s.polls id ∨ s'.polls id = none ∨
    (∃ h, s'.polls id = some (.gathering h) ∧ Reads s' h) ∨
    ∃ stats, s'.polls id = some (.answered stats) ∧ Dated s' stats

/-- One poll moves, and the others are as they were. -/
theorem followed_update {s : Session} {s' : Session} {id : ℕ} {poll : Option Poll}
    (hPolls : s'.polls = Function.update s.polls id poll)
    (hPoll : poll = none ∨ (∃ h, poll = some (.gathering h) ∧ Reads s' h) ∨
      ∃ stats, poll = some (.answered stats) ∧ Dated s' stats) : Followed s s' := by
  intro id'
  rw [hPolls]
  by_cases hSame : id' = id
  · subst hSame
    exact .inr (by simpa using hPoll)
  · exact .inl (Function.update_of_ne hSame _ _)

/-- What a step has to leave, with what the page hears of it. -/
theorem SessionInv.next {g : Source} {es : List Event} {e : Event} {s s' : Session}
    {news : List (Option Stats)} (hInv : SessionInv g es s) (hLater : Later s s')
    (hLog : ∀ x ∈ s'.counted, x.1 ≤ s'.uptime ∧ x.2 ∈ g.series) (hPolls : Followed s s')
    (hHeard : heard g (es ++ [e]) = heard g es ++ news)
    (hNews : ∀ stats, some stats ∈ news → Dated s stats)
    (hPage : s'.page = Machine.final Chart.poll s.page news) :
    SessionInv g (es ++ [e]) s' where
  log := hLog
  gathering id h hPoll := by
    rcases hPolls id with hSame | hNone | ⟨h', hSome, hReads⟩ | ⟨stats, hSome, -⟩
    · -- the poll is untouched, given up, still gathering or just answered
      exact (hInv.gathering id h (hSame ▸ hPoll)).later hLater
    · rw [hNone] at hPoll
      cases hPoll
    · rw [hSome] at hPoll
      cases hPoll
      exact hReads
    · rw [hSome] at hPoll
      cases hPoll
  answered id stats hPoll := by
    rcases hPolls id with hSame | hNone | ⟨h, hSome, -⟩ | ⟨stats', hSome, hDated⟩
    · exact (hInv.answered id stats (hSame ▸ hPoll)).later hLater
    · rw [hNone] at hPoll
      cases hPoll
    · rw [hSome] at hPoll
      cases hPoll
    · rw [hSome] at hPoll
      cases hPoll
      exact hDated
  told stats hTold := by
    rw [hHeard, List.mem_append] at hTold
    exact (hTold.elim (hInv.told stats) (hNews stats)).later hLater
  page := by rw [hPage, hInv.page, hHeard, Machine.final_append]

/-- Every event keeps the payloads dated, and the polls in flight with what they have
read. -/
theorem sessionInv_step {g : Source} (hNames : ((tiersByName g.resolver).map Tier.name).Nodup)
    (hSeries : g.series.Nodup) {es : List Event} {s : Session} {e : Event} {s' : Session}
    (hRun : run (step g) boot es = some s) (hInv : SessionInv g es s)
    (hStep : step g s e = some s') (hPrompt : Prompt s e s') : SessionInv g (es ++ [e]) s' := by
  have hHeard : heard g (es ++ [e]) = heard g es ++ hears s e s' := collect_concat hRun hStep
  cases e with
  | wait d =>
    -- the clock moves on; nothing is counted or heard
    simp only [step, Option.ite_none_right_eq_some, Option.some_inj] at hStep
    obtain ⟨hForward, rfl⟩ := hStep
    have hLater : Later s { s with uptime := s.uptime + d } :=
      ⟨le_add_of_nonneg_right hForward, [], by simp, by simp⟩
    exact hInv.next hLater (fun x hx => ⟨(hInv.log x hx).1.trans hLater.uptime, (hInv.log x hx).2⟩)
      (fun _ => .inl rfl) hHeard (by simp [hears]) rfl
  | count l =>
    -- one more increment, stamped with the uptime it happens at
    simp only [step, Option.ite_none_right_eq_some, Option.some_inj] at hStep
    obtain ⟨hKnown, rfl⟩ := hStep
    have hLater : Later s { s with counted := s.counted ++ [(s.uptime, l)] } :=
      ⟨le_rfl, [(s.uptime, l)], rfl, by simp⟩
    refine hInv.next hLater (fun x hx => ?_) (fun _ => .inl rfl) hHeard (by simp [hears]) rfl
    rcases List.mem_append.mp hx with hx | hx
    · exact hInv.log x hx
    · rw [List.mem_singleton.mp hx]
      exact ⟨le_rfl, hKnown⟩
  | ask id =>
    simp only [step] at hStep
    split at hStep
    · cases hStep
      refine hInv.next (.of_same rfl rfl) hInv.log (followed_update rfl ?_) hHeard
        (by simp [hears]) rfl
      exact .inr (.inl ⟨_, rfl, le_rfl, by simp⟩)
    · cases hStep
  | read id l =>
    simp only [step] at hStep
    split at hStep
    · rename_i h hPoll
      simp only [Option.ite_none_right_eq_some, Option.some_inj] at hStep
      obtain ⟨⟨-, hNew⟩, rfl⟩ := hStep
      refine hInv.next (.of_same rfl rfl) hInv.log (followed_update rfl ?_) hHeard
        (by simp [hears]) rfl
      -- the value read holds what was counted before the gathering began, and no more than now
      have hReads := hInv.gathering id h hPoll
      refine .inr (.inl ⟨_, rfl, hReads.began, fun l' n hRead => ?_⟩)
      by_cases hSame : l' = l
      · subst hSame
        simp only [Function.update_self, Option.some_inj] at hRead
        subst hRead
        refine ⟨List.countP_mono_left fun x _ hx => ?_, le_rfl⟩
        exact (Bool.and_eq_true_iff.mp hx).1
      · exact hReads.between l' n (by simpa [Function.update_of_ne hSame] using hRead)
    · cases hStep
  | answer id =>
    simp only [step] at hStep
    split at hStep
    · rename_i h hPoll
      simp only [Option.ite_none_right_eq_some, Option.some_inj] at hStep
      obtain ⟨hAll, rfl⟩ := hStep
      refine hInv.next (.of_same rfl rfl) hInv.log (followed_update rfl ?_) hHeard
        (by simp [hears]) rfl
      -- every series has been read, and within half a second, so the payload is dated
      have hDated := dated_payload hNames hSeries hInv.log (hInv.gathering id h hPoll)
        (hPrompt h hPoll) hAll
      exact .inr (.inr ⟨_, rfl, hDated.later (.of_same rfl rfl)⟩)
    · cases hStep
  | arrive id =>
    simp only [step] at hStep
    split at hStep
    · rename_i stats hPoll
      cases hStep
      simp only [hears, hPoll] at hHeard
      refine hInv.next (.of_same rfl rfl) hInv.log (followed_update rfl (.inl rfl))
        hHeard (fun stats' hStats => ?_) rfl
      -- the page hears the payload, which was dated when it was built
      rw [List.mem_singleton, Option.some_inj] at hStats
      exact hStats ▸ hInv.answered id stats hPoll
    · cases hStep
  | fail id =>
    -- a failed poll brings no payload
    simp only [step] at hStep
    split at hStep
    · cases hStep
      exact hInv.next (.of_same rfl rfl) hInv.log (followed_update rfl (.inl rfl))
        hHeard (by simp [hears]) rfl
    · cases hStep

-- ---------------------------------------------------------------------------
-- The samples of a session
-- ---------------------------------------------------------------------------

/-- What was counted up to a time, and then up to a later one. -/
theorem tally_add (log : List (ℚ × Labels)) (c : Series) {a b : ℚ} (h : a ≤ b) :
    tally log c (· ≤ a) + tally log c (fun t => a < t ∧ t ≤ b) = tally log c (· ≤ b) := by
  induction log with
  | nil => rfl
  | cons x log ih =>
    have hHere : (if x.2.decision = decisionOf c ∧ x.1 ≤ a then 1 else 0) +
        (if x.2.decision = decisionOf c ∧ a < x.1 ∧ x.1 ≤ b then 1 else 0) =
          if x.2.decision = decisionOf c ∧ x.1 ≤ b then 1 else 0 := by
      by_cases hDecision : x.2.decision = decisionOf c
      · rcases le_or_gt x.1 a with hEarly | hLate
        · simp [hDecision, hEarly, hEarly.trans h, not_lt.mpr hEarly]
        · simp [hDecision, hLate, not_le.mpr hLate]
      · simp [hDecision]
    simp only [tally] at ih ⊢
    simp only [List.countP_cons, decide_eq_true_eq]
    omega

/-- What the growth from one payload to another leaves out, and what it does not count. -/
theorem Dated.growth {s : Session} {p q : Stats} (hp : Dated s p) (hq : Dated s q) (c : Series)
    (hApart : p.uptimeSeconds ≤ q.uptimeSeconds) :
    q.counter c - p.counter c ≤ tally s.counted c
      (fun t => p.uptimeSeconds - MIN_SAMPLE_SECONDS < t ∧ t ≤ q.uptimeSeconds) := by
  have hSplit := tally_add s.counted c
    (show p.uptimeSeconds - MIN_SAMPLE_SECONDS ≤ q.uptimeSeconds by
      unfold MIN_SAMPLE_SECONDS
      linarith)
  have hUpper := hq.atMost c
  have hLower := hp.atLeast c
  rw [← hSplit, Nat.cast_add] at hUpper
  linarith

/-- A counter grows at least by what was counted after one payload and half a second
before the other. -/
theorem Dated.growth_ge {s : Session} {p q : Stats} (hp : Dated s p) (hq : Dated s q) (c : Series)
    (hNonneg : p.counter c ≤ q.counter c) :
    tally s.counted c (fun t => p.uptimeSeconds < t ∧ t ≤ q.uptimeSeconds - MIN_SAMPLE_SECONDS) ≤
      q.counter c - p.counter c := by
  rcases le_or_gt p.uptimeSeconds (q.uptimeSeconds - MIN_SAMPLE_SECONDS) with hApart | hClose
  · have hUpper := hp.atMost c
    have hLower := hq.atLeast c
    rw [← tally_add s.counted c hApart, Nat.cast_add] at hLower
    linarith
  · have hNone : tally s.counted c
        (fun t => p.uptimeSeconds < t ∧ t ≤ q.uptimeSeconds - MIN_SAMPLE_SECONDS) = 0 := by
      rw [tally, List.countP_eq_zero]
      intro x _ hx
      obtain ⟨-, hAfter, hBefore⟩ := of_decide_eq_true hx
      exact absurd (hAfter.trans_le hBefore) (not_lt.mpr hClose.le)
    rw [hNone]
    simpa using hNonneg

/-- The sample of two payloads, against what was counted: it shows no more than was
counted from the one to the other, or in the half second before, and it misses none
but in the last half second. -/
structure Measures (s : Session) (answers : List Stats) (p q : Stats) (x : Sample) : Prop
    extends Between answers p q x where
  atMost  : ∀ c, x.rates.of c * x.elapsed ≤ tally s.counted c
    (fun t => p.uptimeSeconds - MIN_SAMPLE_SECONDS < t ∧ t ≤ q.uptimeSeconds)
  atLeast : ∀ c, tally s.counted c
    (fun t => p.uptimeSeconds < t ∧ t ≤ q.uptimeSeconds - MIN_SAMPLE_SECONDS) ≤
      x.rates.of c * x.elapsed

/-- What the samples drawn from one payload to another count. -/
structure CountsOnce (s : Session) (answers : List Stats) (first last : Stats)
    (xs : List Sample) : Prop where
  sum        : ∀ c, (xs.map fun x => x.rates.of c * x.elapsed).sum =
    last.counter c - first.counter c
  noneTwice  : ∀ c, (xs.map fun x => x.rates.of c * x.elapsed).sum ≤ tally s.counted c
    (fun t => first.uptimeSeconds - MIN_SAMPLE_SECONDS < t ∧ t ≤ last.uptimeSeconds)
  noneMissed : ∀ c, tally s.counted c
    (fun t => first.uptimeSeconds < t ∧ t ≤ last.uptimeSeconds - MIN_SAMPLE_SECONDS) ≤
      (xs.map fun x => x.rates.of c * x.elapsed).sum
  /-- Each sample is that of two answers, the second of which is the first of the next. -/
  each       : Path (Measures s answers) first xs last
  history    : s.page.history = (xs.map Sample.rates).rtake HISTORY

/-- Two payloads of the past, and the sample that is drawn of them. -/
theorem Between.measures {s : Session} {answers : List Stats}
    (hDated : ∀ stats ∈ answers, Dated s stats) {p q : Stats} {x : Sample}
    (h : Between answers p q x) : Measures s answers p q x where
  toBetween := h
  atMost c := by
    rw [h.growth]
    refine (hDated p h.memLeft).growth (hDated q h.memRight) c ?_
    have hApart := h.apart
    rw [h.elapsed] at hApart
    unfold MIN_SAMPLE_SECONDS at hApart
    linarith
  atLeast c := by
    rw [h.growth]
    refine (hDated p h.memLeft).growth_ge (hDated q h.memRight) c ?_
    have hApart := h.apart
    rw [h.elapsed] at hApart
    exact (hDated p h.memLeft).counter_le (hDated q h.memRight) (by linarith) c

section Demo

/-- One tier, and the decisions of one kind. -/
def oneTier : Source where
  resolver := ⟨[("key-abc", ⟨⟨"acme", ⟨"free", 10, 1000000000, 10⟩⟩, true⟩)],
    [("free", ⟨"free", 10, 1000000000, 10⟩)], ⟨"free", 10, 1000000000, 10⟩, false⟩
  range := id
  series := [⟨"free", "token_bucket", "allowed", "proxy"⟩]

/-- A poll that reads the counter and is answered at once. -/
def quickPoll (id : ℕ) : List Event :=
  [.ask id, .read id ⟨"free", "token_bucket", "allowed", "proxy"⟩, .answer id]

/-- A handler that gathers for two seconds: the one decision is counted twice. -/
theorem slow_handler_counts_twice :
    let es : List Event := quickPoll 0 ++ [.arrive 0] ++
      [.ask 1, .read 1 ⟨"free", "token_bucket", "allowed", "proxy"⟩,
        .count ⟨"free", "token_bucket", "allowed", "proxy"⟩, .wait 1] ++ quickPoll 2 ++
      [.arrive 2, .wait 1, .answer 1, .arrive 1, .wait 1] ++ quickPoll 3 ++ [.arrive 3]
    (run (step oneTier) boot es).isSome = true ∧
      drawn state (heard oneTier es) = [⟨1, ⟨1, 0⟩⟩, ⟨1, ⟨0, 0⟩⟩, ⟨1, ⟨1, 0⟩⟩] := by
  decide +kernel

end Demo

end RatelimitGateway.Dashboard.Polls
