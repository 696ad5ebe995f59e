import RatelimitGateway.Limiter.SameClock

/-!
# Keys that run out

A key that has run out reads as a key that was never written. The scripts of
the token bucket and of the sliding window ask for deadlines that make the two
indistinguishable: by the time a bucket runs out it would be full, and by the
time a log runs out every entry in it would be pruned. The slack of one second
is what a call may spend in flight (`InFlight`). The counter of a window has
no slack, and is there for every call that is stamped in the window as long as
no call spends any time in flight (`OnTime`).

* `expiry_invisible` — both scripts reply as if no key ever ran out, on every
  run of calls that are in flight for at most one second.
-/

namespace RatelimitGateway.Limiter

open KeyStore Redis

/-- The script runs at most one second after the call is stamped. -/
def InFlight (c : Call) : Prop := c.nowMs ≤ c.execAt ∧ c.execAt ≤ c.nowMs + 1000

theorem OnTime.inFlight {c : Call} (h : OnTime c) : InFlight c := by
  unfold OnTime at h
  unfold InFlight
  omega

theorem inRunOrder_of_onTime {calls : List Call} (hOrder : InOrder calls)
    (hOnTime : ∀ c ∈ calls, OnTime c) : InRunOrder calls := by
  refine List.Pairwise.imp_of_mem ?_ hOrder
  intro a b ha hb hab
  rwa [hOnTime a ha, hOnTime b hb]

-- ---------------------------------------------------------------------------
-- token_bucket.lua
-- ---------------------------------------------------------------------------

/-- Of calls that are not long in flight, one follows the other as `Follows` asks. -/
theorem follows_of_inFlight {c c' : Call} (h : InFlight c) (h' : InFlight c') (e : Expiry) :
    Follows e c c' := by
  obtain ⟨hStamped, -⟩ := h
  obtain ⟨-, hInTime⟩ := h'
  intro _
  omega

/-- Calls that spend at most a second in flight keep the pace. -/
theorem keepsPace_of_inFlight {calls : List Call} (hDelay : ∀ c ∈ calls, InFlight c)
    (e : Expiry) : KeepsPace e calls := by
  refine (List.pairwise_of_forall_mem_list fun a ha b hb => ?_).isChain
  exact follows_of_inFlight (hDelay a ha) (hDelay b hb) e

/-- The two buckets hold the same tokens for every call that follows on. -/
structure SameBucket (key : String) (rate burst : ℚ) (pre : List Call) (s t : Store) : Prop where
  kept  : KeptBucket key s
  kept' : KeptBucket key t
  found : ∀ c, (∀ a ∈ pre.getLast?, Follows .honoured a c) →
    found .honoured key rate burst s c = found .ignored key rate burst t c

/-- An expired bucket would have been full, so both stores reply alike. -/
theorem sameBucket_step {key : String} {rate burst : ℚ} (hRate : 0 < rate) {pre : List Call}
    {s t : Store} {c : Call} (hFollows : ∀ a ∈ pre.getLast?, Follows .honoured a c)
    (hSame : SameBucket key rate burst pre s t) :
    (serve .honoured (tokenBucketCall key rate burst) s c).1 =
        (serve .ignored (tokenBucketCall key rate burst) t c).1 ∧
      SameBucket key rate burst (pre ++ [c])
        (serve .honoured (tokenBucketCall key rate burst) s c).2
        (serve .ignored (tokenBucketCall key rate burst) t c).2 := by
  rw [serve_bucket (hSame.kept.holdsHash _), serve_bucket (hSame.kept'.holdsHash _),
    hSame.found c hFollows]
  generalize found .ignored key rate burst t c = avail
  refine ⟨rfl, keptBucket_update, keptBucket_update, fun c' hLast => ?_⟩
  have hNext : Follows .honoured c c' := hLast c (by simp)
  have hFree : Follows .ignored c c' := nofun
  rw [found_next hRate hNext, found_next hRate hFree]

/-- A bucket that runs out was full, when Redis' clock keeps pace. -/
theorem transcript_tokenBucket_expiry {key : String} {rate burst : ℚ} (hRate : 0 < rate)
    {s : Store} (hAbsent : s key = none) {calls : List Call} (hPace : KeepsPace .honoured calls) :
    transcript .honoured (tokenBucketCall key rate burst) s calls =
      transcript .ignored (tokenBucketCall key rate burst) s calls := by
  have hNone : ∀ e c, found e key rate burst s c = burst :=
    fun e c => found_of_gone (find_eq_none_of_absent hAbsent)
  refine Machine.trace_eq_of_lockstep
    (C := fun pre c => ∀ a ∈ pre.getLast?, Follows .honoured a c)
    (R := SameBucket key rate burst)
    ⟨keptBucket_of_absent hAbsent, keptBucket_of_absent hAbsent, fun c _ => ?_⟩
    (fun pre s t c hC hR => sameBucket_step hRate hC hR) ?_
  · rw [hNone, hNone]
  · rintro pre c post rfl a ha
    exact (List.isChain_append.mp hPace).2.2 a ha c rfl

-- ---------------------------------------------------------------------------
-- sliding_window.lua
-- ---------------------------------------------------------------------------

/-- A reply depends on what is left of the log after the prune, and so does
the log that the script leaves. -/
theorem sliding_congr (limit : ℤ) (member : String) {nowMs windowMs : ℤ}
    {log log' : SortedSet ℤ String}
    (h : log.removeUpTo (nowMs - windowMs) = log'.removeUpTo (nowMs - windowMs)) :
    slidingReply nowMs windowMs limit member log = slidingReply nowMs windowMs limit member log' ∧
      logAfter nowMs windowMs limit member log = logAfter nowMs windowMs limit member log' := by
  have hAfter : logAfter nowMs windowMs limit member log =
      logAfter nowMs windowMs limit member log' := by
    unfold logAfter
    rw [h]
  refine ⟨?_, hAfter⟩
  unfold slidingReply
  rw [h, hAfter]

/-- The stored log is as old as its deadline says: its script ran for one of
the calls `pre`, and no entry is younger than that. -/
def LogOfRun (key : String) (windowMs : ℤ) (pre : List Call) (s : Store) : Prop :=
  ∀ x, s key = some x → ∃ z, ∃ a ∈ pre, x = ⟨.zset z, some (a.execAt + (windowMs + 1000))⟩ ∧
    ∀ e ∈ z.entries, e.1 ≤ a.execAt

/-- The key holds a log. -/
theorem LogOfRun.holdsZset {key : String} {windowMs : ℤ} {pre : List Call} {s : Store}
    (h : LogOfRun key windowMs pre s) (c : Clock) : HoldsZset c s key := by
  intro v hv
  obtain ⟨x, hx, rfl⟩ := exists_entry hv
  obtain ⟨z, a, -, rfl, -⟩ := h x hx
  exact ⟨z, rfl⟩

theorem logOf_of_entry {key : String} {s : Store} {z : SortedSet ℤ String} {d : Option ℤ}
    (hEntry : s key = some ⟨.zset z, d⟩) : logOf key s = z := by
  have hFind := find_eq_some_iff.mpr ⟨hEntry, live_ignored 0 _⟩
  simp only [logOf, logAt, valueAt, hFind, Option.map_some]

/-- An entry was stamped no later than a call of the run was served. -/
theorem LogOfRun.scores {key : String} {windowMs : ℤ} {pre : List Call} {s : Store}
    (h : LogOfRun key windowMs pre s) {e : ℤ × String} (he : e ∈ (logOf key s).entries) :
    ∃ a ∈ pre, e.1 ≤ a.execAt := by
  cases hEntry : s key with
  | none =>
    rw [logOf, logAt_of_absent hEntry] at he
    exact absurd he SortedSet.not_mem_empty
  | some x =>
    obtain ⟨z, a, ha, rfl, hScores⟩ := h x hEntry
    rw [logOf_of_entry hEntry] at he
    exact ⟨a, ha, hScores e he⟩

/-- A log that has run out has nothing to count. -/
theorem LogOfRun.pruned {key : String} {windowMs : ℤ} {pre : List Call} {s : Store}
    (h : LogOfRun key windowMs pre s) {c : Call} (hInTime : c.execAt ≤ c.nowMs + 1000) :
    (foundLog .honoured key s c).removeUpTo (c.nowMs - windowMs) =
      (logOf key s).removeUpTo (c.nowMs - windowMs) := by
  cases hEntry : s key with
  | none =>
    rw [foundLog_of_gone (find_eq_none_of_absent hEntry), logOf, logAt_of_absent hEntry]
  | some x =>
    obtain ⟨z, a, ha, rfl, hScores⟩ := h x hEntry
    rw [logOf_of_entry hEntry]
    rcases lt_or_ge c.execAt (a.execAt + (windowMs + 1000)) with hLive | hDead
    · rw [foundLog_of_find (find_before hEntry hLive)]
    · -- the key has expired: all its entries had aged out
      rw [foundLog_of_gone (find_after hEntry hDead)]
      have hNone : (z.removeUpTo (c.nowMs - windowMs)).card = 0 :=
        SortedSet.card_removeUpTo_eq_zero_iff.mpr fun e he => by
          have := hScores e he
          omega
      rw [SortedSet.eq_empty_of_card hNone]
      rfl

/-- Both keys hold the same log. -/
structure SameLog (key : String) (windowMs : ℤ) (pre : List Call) (s t : Store) : Prop where
  run   : LogOfRun key windowMs pre s
  zset  : HoldsZset ⟨.ignored, 0⟩ t key
  log   : logOf key s = logOf key t

/-- An expired log would have been pruned to nothing, so both stores reply alike. -/
theorem sameLog_step {key : String} {windowMs limit : ℤ} {pre : List Call} {s t : Store}
    {c : Call} (hOrder : ∀ a ∈ pre, a.execAt ≤ c.execAt) (hDelay : InFlight c)
    (hSame : SameLog key windowMs pre s t) :
    (serve .honoured (slidingWindowCall key windowMs limit) s c).1 =
        (serve .ignored (slidingWindowCall key windowMs limit) t c).1 ∧
      SameLog key windowMs (pre ++ [c])
        (serve .honoured (slidingWindowCall key windowMs limit) s c).2
        (serve .ignored (slidingWindowCall key windowMs limit) t c).2 := by
  obtain ⟨hReply, hZset, hLog⟩ := serve_slidingWindow windowMs limit hSame.zset c
  have hPruned := hSame.run.pruned hDelay.2
  obtain ⟨hAnswer, hAfter⟩ := sliding_congr limit c.member hPruned
  rw [serve_log (hSame.run.holdsZset _), hReply, hAnswer, hAfter, hSame.log]
  -- the entries kept are stamped by calls that ran no later than this one
  refine ⟨rfl, fun x hx => ?_, hZset, ?_⟩
  · obtain rfl := entry_of_logUpdate hx
    refine ⟨_, c, List.mem_append_right _ (List.mem_singleton_self c), rfl, fun e he => ?_⟩
    rcases mem_logAfter he with rfl | ⟨hOld, -⟩
    · exact hDelay.1
    · rw [← hSame.log] at hOld
      obtain ⟨a, ha, hScore⟩ := hSame.run.scores hOld
      exact hScore.trans (hOrder a ha)
  · rw [logOf_logEntry, hLog]

/-- A log that runs out would have been pruned, when calls are in flight for at
most one second. -/
theorem transcript_slidingWindow_expiry {key : String} (windowMs limit : ℤ) {s : Store}
    (hAbsent : s key = none) {calls : List Call} (hOrder : InRunOrder calls)
    (hDelay : ∀ c ∈ calls, InFlight c) :
    transcript .honoured (slidingWindowCall key windowMs limit) s calls =
      transcript .ignored (slidingWindowCall key windowMs limit) s calls := by
  refine Machine.trace_eq_of_lockstep
    (C := fun pre c => (∀ a ∈ pre, a.execAt ≤ c.execAt) ∧ InFlight c)
    (R := SameLog key windowMs)
    ⟨fun x hx => absurd (hAbsent.symm.trans hx) nofun, holdsZset_of_absent hAbsent, rfl⟩
    (fun pre s t c hC hR => sameLog_step hC.1 hC.2 hR) ?_
  rintro pre c post rfl
  have hPair := List.pairwise_append.mp hOrder
  exact ⟨fun a ha => hPair.2.2 a ha c List.mem_cons_self,
    hDelay c (List.mem_append_right _ List.mem_cons_self)⟩

-- ---------------------------------------------------------------------------
-- fixed_window.lua
-- ---------------------------------------------------------------------------

/-- Each window has the same counter in both stores, or none, and it does not
run out before its window ends. -/
def SameCounters (keyPrefix : String) (windowMs : ℤ) (s t : Store) : Prop :=
  ∀ k : ℤ,
    s (windowKey keyPrefix (.whole k)) = none ∧ t (windowKey keyPrefix (.whole k)) = none ∨
    ∃ (n D : ℤ) (d : Option ℤ), s (windowKey keyPrefix (.whole k)) = some ⟨.counter n, some D⟩ ∧
      t (windowKey keyPrefix (.whole k)) = some ⟨.counter n, d⟩ ∧ 1 ≤ n ∧ (k + 1) * windowMs ≤ D

/-- A counter does not expire before its window is over, so both stores reply alike. -/
theorem sameCounters_step {keyPrefix : String} {windowMs limit : ℤ} (hWindow : 1 ≤ windowMs)
    {s t : Store} {c : Call} (hOnTime : OnTime c) (hSame : SameCounters keyPrefix windowMs s t) :
    (serve .honoured (fixedWindowCall keyPrefix windowMs limit) s c).1 =
        (serve .ignored (fixedWindowCall keyPrefix windowMs limit) t c).1 ∧
      SameCounters keyPrefix windowMs
        (serve .honoured (fixedWindowCall keyPrefix windowMs limit) s c).2
        (serve .ignored (fixedWindowCall keyPrefix windowMs limit) t c).2 := by
  obtain ⟨k, hIndex⟩ : ∃ k, windowIndex c.nowMs windowMs = .whole k :=
    ⟨_, windowIndex_whole hWindow c.nowMs⟩
  obtain ⟨hStart, hEnd⟩ := (windowIndex_eq_iff hWindow).mp hIndex
  rcases hSame k with ⟨hNone, hNone'⟩ | ⟨n, D, d, hEntry, hEntry', hCount, hLives⟩
  · -- the first call of its window
    have hGone := find_eq_none_of_absent (c := ⟨.honoured, c.execAt⟩) hNone
    have hGone' := find_eq_none_of_absent (c := ⟨.ignored, c.execAt⟩) hNone'
    obtain ⟨hZero, hNew⟩ := counterEntry_of_gone windowMs hGone
    obtain ⟨hZero', hNew'⟩ := counterEntry_of_gone windowMs hGone'
    rw [serve_counter (holdsCounter_of_gone hGone) hIndex,
      serve_counter (holdsCounter_of_gone hGone') hIndex, hZero, hZero', hNew, hNew']
    refine ⟨rfl, fun j => ?_⟩
    by_cases hjk : j = k
    · subst hjk
      refine .inr ⟨1, _, _, Function.update_self .., Function.update_self .., le_rfl, ?_⟩
      show (j + 1) * windowMs ≤ c.execAt + windowMs
      rw [hOnTime, add_mul, one_mul]
      omega
    · dsimp only
      rw [update_windowKey_of_ne hjk, update_windowKey_of_ne hjk]
      exact hSame j
  · -- the counter is still there
    have hFind := find_before hEntry (show c.execAt < D by rw [hOnTime]; omega)
    have hFind' := find_eq_some_iff.mpr ⟨hEntry', live_ignored c.execAt _⟩
    obtain ⟨hSeen, hNew⟩ := counterEntry_of_found windowMs hCount hFind
    obtain ⟨hSeen', hNew'⟩ := counterEntry_of_found windowMs hCount hFind'
    rw [serve_counter (holdsCounter_of_entry hEntry) hIndex,
      serve_counter (holdsCounter_of_entry hEntry') hIndex, hSeen, hSeen', hNew, hNew']
    refine ⟨rfl, fun j => ?_⟩
    by_cases hjk : j = k
    · subst hjk
      exact .inr ⟨n + 1, D, d, Function.update_self .., Function.update_self .., by omega, hLives⟩
    · dsimp only
      rw [update_windowKey_of_ne hjk, update_windowKey_of_ne hjk]
      exact hSame j

/-- A counter does not run out before its window ends, when no call spends any
time in flight. -/
theorem transcript_fixedWindow_expiry {keyPrefix : String} {windowMs : ℤ} (hWindow : 1 ≤ windowMs)
    (limit : ℤ) {s : Store} (hUnused : NoCounters s keyPrefix) {calls : List Call}
    (hOnTime : ∀ c ∈ calls, OnTime c) :
    transcript .honoured (fixedWindowCall keyPrefix windowMs limit) s calls =
      transcript .ignored (fixedWindowCall keyPrefix windowMs limit) s calls := by
  have hInit : SameCounters keyPrefix windowMs s s := fun k => .inl ⟨hUnused k, hUnused k⟩
  have hCond : ∀ pre c post, calls = pre ++ c :: post → OnTime c := by
    rintro pre c post rfl
    exact hOnTime c (List.mem_append_right _ List.mem_cons_self)
  refine Machine.trace_eq_of_lockstep (C := fun _ c => OnTime c)
    (R := fun _ s t => SameCounters keyPrefix windowMs s t) hInit ?_ hCond
  intro pre s t c hNow hSame
  exact sameCounters_step hWindow hNow hSame

-- ---------------------------------------------------------------------------
-- Whichever algorithm `Allow` runs
-- ---------------------------------------------------------------------------

/-- On the gateways' own clock expiry changes no reply of any of the three. -/
theorem transcript_onTime {l : RedisLimiter} {key : String} {q : Quota} (hq : ValidQuota q)
    {s : Store} (hUnused : Unused l key s) {calls : List Call} (hOrder : InOrder calls)
    (hOnTime : ∀ c ∈ calls, OnTime c) :
    transcript .honoured (l.script key q) s calls =
      transcript .ignored (l.script key q) s calls := by
  have hDelay : ∀ c ∈ calls, InFlight c := fun c hc => (hOnTime c hc).inFlight
  cases hAlg : l.alg with
  | tokenBucket =>
    rw [script_tokenBucket hAlg]
    exact transcript_tokenBucket_expiry hq.rate_pos hUnused.entry (keepsPace_of_inFlight hDelay _)
  | slidingWindow =>
    rw [script_slidingWindow hAlg]
    exact transcript_slidingWindow_expiry _ _ hUnused.entry (inRunOrder_of_onTime hOrder hOnTime)
      hDelay
  | fixedWindow =>
    rw [script_fixedWindow hAlg]
    exact transcript_fixedWindow_expiry hq.window _ hUnused.counters hOnTime

/--
**Key expiry is invisible.** For the token bucket and the sliding window, every
quota with a window of a millisecond or more, and every run on an unused key in
which each script runs within one second of the stamp of its call, the stamps
in any order: every reply is the one that a server would give that never
removes a key.
-/
theorem expiry_invisible {l : RedisLimiter} (hAlg : l.alg ≠ .fixedWindow) {key : String}
    {q : Quota} (hq : ValidQuota q) {s : Store} (hUnused : s (l.redisKey key) = none)
    {calls : List Call} (hOrder : InRunOrder calls) (hDelay : ∀ c ∈ calls, InFlight c) :
    transcript .honoured (l.script key q) s calls =
      transcript .ignored (l.script key q) s calls := by
  cases h : l.alg with
  | tokenBucket =>
    rw [script_tokenBucket h]
    exact transcript_tokenBucket_expiry hq.rate_pos hUnused (keepsPace_of_inFlight hDelay _)
  | slidingWindow =>
    rw [script_slidingWindow h]
    exact transcript_slidingWindow_expiry _ _ hUnused hOrder hDelay
  | fixedWindow => exact absurd h hAlg

/-- One per second. The second stamp steps back, and the log is gone when the
script of the third call runs, a whole second after its stamp. -/
theorem expiry_invisible_demo :
    let script := RedisLimiter.script ⟨.slidingWindow, "rl"⟩ "acme" ⟨1, 1000000000, 0⟩
    let calls : List Call := [⟨500, 600, "a"⟩, ⟨400, 900, "b"⟩, ⟨2600, 3600, "c"⟩]
    transcript .honoured script empty calls = transcript .ignored script empty calls :=
  expiry_invisible (by decide) ⟨by decide, by decide⟩ rfl (by simp [InRunOrder])
    (by simp [InFlight])

end RatelimitGateway.Limiter
