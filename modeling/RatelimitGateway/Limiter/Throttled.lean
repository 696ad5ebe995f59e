import RatelimitGateway.Limiter.Expiry

/-!
# What a refused call leaves behind

A refused call rewrites its key: the bucket is stored anew under the stamp of
the call, the log is pruned and given a new deadline, the counter goes up. So a
run and the same run without some of its refused calls end in different stores,
but in stores that decide alike for every later call:

* `SameTokens`   — the buckets refill to the same number of tokens;
* `SamePruned`   — the logs are the same once they are pruned;
* `SameSide`     — the counters are equal, or both have reached the limit.

* `throttled_calls_free` — taking refused calls out of a run changes the
  verdict of no other call.
-/

namespace RatelimitGateway.Limiter

open KeyStore Redis

/-- Admitted (1) or refused (0). -/
def verdict (answer : Except RedisError Reply) : Except RedisError ℤ := answer.map Reply.allowed

-- ---------------------------------------------------------------------------
-- token_bucket.lua
-- ---------------------------------------------------------------------------

/-- The bucket was left by one of the calls `pre`, if there is one. -/
def BucketOfRun (key : String) (pre : List Call) (s : Store) : Prop :=
  ∀ x, s key = some x → ∃ (tokens : ℚ) (d : Option ℤ), ∃ a ∈ pre,
    x = ⟨.hash ⟨some tokens, some (a.nowMs : ℚ)⟩, d⟩

section Bucket

variable {key : String} {rate burst : ℚ} {pre : List Call} {s t : Store} {c : Call}

theorem BucketOfRun.holdsHash (h : BucketOfRun key pre s) (k : Clock) : HoldsHash k s key := by
  intro v hv
  obtain ⟨x, hx, rfl⟩ := exists_entry hv
  obtain ⟨tokens, d, a, -, rfl⟩ := h x hx
  exact ⟨_, rfl⟩

theorem BucketOfRun.concat (h : BucketOfRun key pre s) : BucketOfRun key (pre ++ [c]) s := by
  intro x hx
  obtain ⟨tokens, d, a, ha, hEntry⟩ := h x hx
  exact ⟨tokens, d, a, List.mem_append_left _ ha, hEntry⟩

/-- A call leaves the bucket of its run. -/
theorem bucketOfRun_update {k : Clock} {avail : ℚ} : BucketOfRun key (pre ++ [c])
    (Function.update s key (some (bucketEntry k rate burst c.nowMs 1 avail))) := by
  intro x hx
  rw [Function.update_self, Option.some.injEq] at hx
  subst hx
  exact ⟨_, _, c, List.mem_append_right _ (List.mem_singleton_self c), rfl⟩

/-- What a later call finds is what an earlier one would have found, refilled
in between. -/
theorem BucketOfRun.found_later (h : BucketOfRun key pre s) (hRate : 0 < rate)
    (hOrder : ∀ a ∈ pre, a.nowMs ≤ c.nowMs) {c' : Call} (hLate : c.nowMs ≤ c'.nowMs) :
    found .ignored key rate burst s c' = min burst
      (found .ignored key rate burst s c + ((c'.nowMs - c.nowMs : ℤ) : ℚ) / 1000 * rate) := by
  have hRefill : (0 : ℚ) ≤ ((c'.nowMs - c.nowMs : ℤ) : ℚ) / 1000 * rate := by
    have : (0 : ℚ) ≤ ((c'.nowMs - c.nowMs : ℤ) : ℚ) := by exact_mod_cast sub_nonneg.mpr hLate
    positivity
  cases hEntry : s key with
  | none =>
    have hGone : ∀ c : Call, found .ignored key rate burst s c = burst :=
      fun c => found_of_gone (find_eq_none_of_absent hEntry)
    rw [hGone, hGone, min_eq_left (by linarith)]
  | some x =>
    obtain ⟨tokens, d, a, ha, rfl⟩ := h x hEntry
    have hBefore := hOrder a ha
    have hFind : ∀ t, find ⟨.ignored, t⟩ s key =
        some ⟨.hash ⟨some tokens, some (a.nowMs : ℚ)⟩, d⟩ :=
      fun t => find_eq_some_iff.mpr ⟨hEntry, live_ignored t _⟩
    rw [found_of_live (hFind _), found_of_live (hFind _), max_eq_right (by omega),
      max_eq_right (by omega)]
    -- the refill since the last write is the refill up to `c` and the refill after it
    have hWhole : ((c'.nowMs - a.nowMs : ℤ) : ℚ) / 1000 * rate =
        ((c.nowMs - a.nowMs : ℤ) : ℚ) / 1000 * rate +
          ((c'.nowMs - c.nowMs : ℤ) : ℚ) / 1000 * rate := by
      push_cast
      ring
    rw [hWhole, ← add_assoc, min_add, ← min_assoc, min_eq_left (le_add_of_nonneg_right hRefill)]

/-- For every call that is not stamped before `pre` the two buckets hold the
same tokens. -/
structure SameTokens (key : String) (rate burst : ℚ) (pre : List Call) (s t : Store) : Prop where
  run   : BucketOfRun key pre s
  run'  : BucketOfRun key pre t
  found : ∀ c, (∀ a ∈ pre, a.nowMs ≤ c.nowMs) →
    found .ignored key rate burst s c = found .ignored key rate burst t c

/-- A call that is made in both runs finds the same tokens in both. -/
theorem sameTokens_both (hRate : 0 < rate) (hOrder : ∀ a ∈ pre, a.nowMs ≤ c.nowMs)
    (hSame : SameTokens key rate burst pre s t) :
    (serve .ignored (tokenBucketCall key rate burst) s c).1 =
        (serve .ignored (tokenBucketCall key rate burst) t c).1 ∧
      SameTokens key rate burst (pre ++ [c])
        (serve .ignored (tokenBucketCall key rate burst) s c).2
        (serve .ignored (tokenBucketCall key rate burst) t c).2 := by
  rw [serve_bucket (hSame.run.holdsHash _), serve_bucket (hSame.run'.holdsHash _),
    hSame.found c hOrder]
  refine ⟨rfl, bucketOfRun_update, bucketOfRun_update, fun c' _ => ?_⟩
  rw [found_next hRate (follows_ignored c c'), found_next hRate (follows_ignored c c')]

/-- One that is refused in the longer run changes none of them. -/
theorem sameTokens_refused (hRate : 0 < rate) (hOrder : ∀ a ∈ pre, a.nowMs ≤ c.nowMs)
    (hSame : SameTokens key rate burst pre s t)
    (hRefused : verdict (serve .ignored (tokenBucketCall key rate burst) s c).1 = .ok 0) :
    SameTokens key rate burst (pre ++ [c])
      (serve .ignored (tokenBucketCall key rate burst) s c).2 t := by
  rw [serve_bucket (hSame.run.holdsHash _)] at hRefused ⊢
  have hEmpty : ¬ 1 ≤ found .ignored key rate burst s c := by
    intro hFull
    simp [verdict, Except.map, bucketReply, hFull] at hRefused
  refine ⟨bucketOfRun_update, hSame.run'.concat, fun c' hLater => ?_⟩
  have hLate : c.nowMs ≤ c'.nowMs := hLater c (by simp)
  have hLeft : tokensLeft 1 (found .ignored key rate burst s c) =
      found .ignored key rate burst s c := if_neg hEmpty
  rw [found_next hRate (follows_ignored c c'), hLeft, max_eq_right (sub_nonneg.mpr hLate),
    hSame.found c hOrder, hSame.run'.found_later hRate hOrder hLate]

end Bucket

-- ---------------------------------------------------------------------------
-- sliding_window.lua
-- ---------------------------------------------------------------------------

section Log

variable {key : String} {windowMs : ℤ} {pre : List Call} {s t : Store} {c : Call}

/-- For every call that is not stamped before `pre` the two logs are the same
once they are pruned. -/
structure SamePruned (key : String) (windowMs : ℤ) (pre : List Call) (s t : Store) : Prop where
  zset   : HoldsZset ⟨.ignored, 0⟩ s key
  zset'  : HoldsZset ⟨.ignored, 0⟩ t key
  pruned : ∀ c : Call, (∀ a ∈ pre, a.nowMs ≤ c.nowMs) →
    (logOf key s).removeUpTo (c.nowMs - windowMs) = (logOf key t).removeUpTo (c.nowMs - windowMs)

/-- A call that is made in both runs finds the same young entries in both. -/
theorem samePruned_both (limit : ℤ) (hOrder : ∀ a ∈ pre, a.nowMs ≤ c.nowMs)
    (hSame : SamePruned key windowMs pre s t) :
    (serve .ignored (slidingWindowCall key windowMs limit) s c).1 =
        (serve .ignored (slidingWindowCall key windowMs limit) t c).1 ∧
      SamePruned key windowMs (pre ++ [c])
        (serve .ignored (slidingWindowCall key windowMs limit) s c).2
        (serve .ignored (slidingWindowCall key windowMs limit) t c).2 := by
  obtain ⟨hReply, hZset, hLog⟩ := serve_slidingWindow windowMs limit hSame.zset c
  obtain ⟨hReply', hZset', hLog'⟩ := serve_slidingWindow windowMs limit hSame.zset' c
  obtain ⟨hAnswer, hAfter⟩ := sliding_congr limit c.member (hSame.pruned c hOrder)
  refine ⟨by rw [hReply, hReply', hAnswer], hZset, hZset', fun c' _ => ?_⟩
  rw [hLog, hLog', hAfter]

/-- One that is refused adds none. -/
theorem samePruned_refused (limit : ℤ) (hSame : SamePruned key windowMs pre s t)
    (hRefused : verdict (serve .ignored (slidingWindowCall key windowMs limit) s c).1 = .ok 0) :
    SamePruned key windowMs (pre ++ [c])
      (serve .ignored (slidingWindowCall key windowMs limit) s c).2 t := by
  obtain ⟨hReply, hZset, hLog⟩ := serve_slidingWindow windowMs limit hSame.zset c
  have hFull : ¬ (((logOf key s).removeUpTo (c.nowMs - windowMs)).card : ℤ) < limit := by
    intro hRoom
    simp [hReply, verdict, Except.map, slidingReply, hRoom] at hRefused
  have hAfter : logAfter c.nowMs windowMs limit c.member (logOf key s) =
      (logOf key s).removeUpTo (c.nowMs - windowMs) := if_neg hFull
  refine ⟨hZset, hSame.zset', fun c' hLater => ?_⟩
  have hLate : c.nowMs ≤ c'.nowMs := hLater c (by simp)
  rw [hLog, hAfter, SortedSet.removeUpTo_removeUpTo (by omega)]
  exact hSame.pruned c' fun a ha => hLater a (List.mem_append_left _ ha)

end Log

-- ---------------------------------------------------------------------------
-- fixed_window.lua
-- ---------------------------------------------------------------------------

section Counter

variable {keyPrefix : String} {windowMs limit : ℤ} {s t : Store} {c : Call}

/-- Every window has the same counter in both stores, or has reached the limit
in both. -/
structure SameSide (keyPrefix : String) (limit : ℤ) (s t : Store) : Prop where
  counters  : HoldsCounters keyPrefix s
  counters' : HoldsCounters keyPrefix t
  side      : ∀ k, countOf keyPrefix s k = countOf keyPrefix t k ∨
    limit ≤ countOf keyPrefix s k ∧ limit ≤ countOf keyPrefix t k

theorem verdict_fixedReply (nowMs windowMs limit count : ℤ) :
    verdict (.ok (fixedReply nowMs windowMs limit count)) = .ok (if limit < count then 0 else 1) :=
  rfl

/-- A call that is made in both runs is on the same side of the limit in both. -/
theorem sameSide_both (hWindow : 1 ≤ windowMs) (hSame : SameSide keyPrefix limit s t) :
    verdict (serve .ignored (fixedWindowCall keyPrefix windowMs limit) s c).1 =
        verdict (serve .ignored (fixedWindowCall keyPrefix windowMs limit) t c).1 ∧
      SameSide keyPrefix limit
        (serve .ignored (fixedWindowCall keyPrefix windowMs limit) s c).2
        (serve .ignored (fixedWindowCall keyPrefix windowMs limit) t c).2 := by
  have hIndex := windowIndex_whole hWindow c.nowMs
  generalize ⌊(c.nowMs : ℚ) / windowMs⌋ = k at hIndex
  obtain ⟨hReply, hType, hCount⟩ := serve_fixedWindow limit hSame.counters hIndex
  obtain ⟨hReply', hType', hCount'⟩ := serve_fixedWindow limit hSame.counters' hIndex
  have hSide := hSame.side k
  refine ⟨?_, hType, hType', fun j => ?_⟩
  · -- the counters agree, or are both beyond the limit: the answer is the same
    rw [hReply, hReply', verdict_fixedReply, verdict_fixedReply]
    split <;> split <;> first | rfl | omega
  · rw [hCount, hCount']
    by_cases hjk : j = k
    · subst hjk
      rw [Function.update_self, Function.update_self]
      omega
    · rw [Function.update_of_ne hjk, Function.update_of_ne hjk]
      exact hSame.side j

/-- One that is refused in the longer run moves no counter to the other side. -/
theorem sameSide_refused (hWindow : 1 ≤ windowMs) (hSame : SameSide keyPrefix limit s t)
    (hRefused : verdict (serve .ignored (fixedWindowCall keyPrefix windowMs limit) s c).1 = .ok 0) :
    SameSide keyPrefix limit
      (serve .ignored (fixedWindowCall keyPrefix windowMs limit) s c).2 t := by
  have hIndex := windowIndex_whole hWindow c.nowMs
  generalize ⌊(c.nowMs : ℚ) / windowMs⌋ = k at hIndex
  obtain ⟨hReply, hType, hCount⟩ := serve_fixedWindow limit hSame.counters hIndex
  -- a refusal means that the counter is beyond the limit already
  have hOver : limit < countOf keyPrefix s k + 1 := by
    by_contra hRoom
    rw [hReply, verdict_fixedReply, if_neg hRoom] at hRefused
    exact absurd hRefused (by decide)
  refine ⟨hType, hSame.counters', fun j => ?_⟩
  rw [hCount]
  by_cases hjk : j = k
  · subst hjk
    have hSide := hSame.side j
    rw [Function.update_self]
    omega
  · rw [Function.update_of_ne hjk]
    exact hSame.side j

end Counter

-- ---------------------------------------------------------------------------
-- Whichever algorithm `Allow` runs
-- ---------------------------------------------------------------------------

/-- The two stores decide alike for every call that is not stamped before
`pre`. -/
def Alike (l : RedisLimiter) (key : String) (q : Quota) (pre : List Call) (s t : Store) : Prop :=
  match l.alg with
  | .tokenBucket => SameTokens (l.redisKey key) q.ratePerSecond q.burstCapacity pre s t
  | .slidingWindow => SamePruned (l.redisKey key) q.windowMs pre s t
  | .fixedWindow => SameSide (l.redisKey key) q.limit s t

section ByAlgorithm

variable {l : RedisLimiter} {key : String} {q : Quota} {pre : List Call} {s t : Store} {c : Call}

/-- Both runs start alike. -/
theorem alike_of_unused (hUnused : Unused l key s) : Alike l key q [] s s := by
  unfold Alike
  split
  · have hNone : BucketOfRun (l.redisKey key) [] s :=
      fun x hx => absurd (hUnused.entry.symm.trans hx) nofun
    exact ⟨hNone, hNone, fun _ _ => rfl⟩
  · have hNone := holdsZset_of_absent (c := ⟨.ignored, 0⟩) hUnused.entry
    exact ⟨hNone, hNone, fun _ _ => rfl⟩
  · have hNone := holdsCounters_of_unused hUnused.counters
    exact ⟨hNone, hNone, fun _ => .inl rfl⟩

/-- A call of both runs gets one verdict, and leaves the stores alike. -/
theorem alike_both (hq : ValidQuota q) (hOrder : ∀ a ∈ pre, a.nowMs ≤ c.nowMs)
    (hAlike : Alike l key q pre s t) :
    verdict (serve .ignored (l.script key q) s c).1 =
        verdict (serve .ignored (l.script key q) t c).1 ∧
      Alike l key q (pre ++ [c]) (serve .ignored (l.script key q) s c).2
        (serve .ignored (l.script key q) t c).2 := by
  unfold Alike at hAlike ⊢
  cases hAlg : l.alg with
  | tokenBucket =>
    simp only [hAlg] at hAlike ⊢
    rw [script_tokenBucket hAlg]
    obtain ⟨hAnswer, hNext⟩ := sameTokens_both hq.rate_pos hOrder hAlike
    exact ⟨congrArg verdict hAnswer, hNext⟩
  | slidingWindow =>
    simp only [hAlg] at hAlike ⊢
    rw [script_slidingWindow hAlg]
    obtain ⟨hAnswer, hNext⟩ := samePruned_both q.limit hOrder hAlike
    exact ⟨congrArg verdict hAnswer, hNext⟩
  | fixedWindow =>
    simp only [hAlg] at hAlike ⊢
    rw [script_fixedWindow hAlg]
    exact sameSide_both hq.window hAlike

/-- A refused call of one of the runs leaves the stores alike. -/
theorem alike_refused (hq : ValidQuota q) (hOrder : ∀ a ∈ pre, a.nowMs ≤ c.nowMs)
    (hAlike : Alike l key q pre s t)
    (hRefused : verdict (serve .ignored (l.script key q) s c).1 = .ok 0) :
    Alike l key q (pre ++ [c]) (serve .ignored (l.script key q) s c).2 t := by
  unfold Alike at hAlike ⊢
  cases hAlg : l.alg with
  | tokenBucket =>
    simp only [hAlg] at hAlike ⊢
    rw [script_tokenBucket hAlg] at hRefused ⊢
    exact sameTokens_refused hq.rate_pos hOrder hAlike hRefused
  | slidingWindow =>
    simp only [hAlg] at hAlike ⊢
    rw [script_slidingWindow hAlg] at hRefused ⊢
    exact samePruned_refused q.limit hAlike hRefused
  | fixedWindow =>
    simp only [hAlg] at hAlike ⊢
    rw [script_fixedWindow hAlg] at hRefused ⊢
    exact sameSide_refused hq.window hAlike hRefused

end ByAlgorithm

-- ---------------------------------------------------------------------------
-- Runs with calls taken out
-- ---------------------------------------------------------------------------

/-- All calls of a run whose calls are marked: `true` for those that stay. -/
def whole (run : List (Call × Bool)) : List Call := run.map Prod.fst

/-- The calls that stay. -/
def thinned (run : List (Call × Bool)) : List Call := (run.filter Prod.snd).map Prod.fst

/-- The calls of a transcript of the whole run with their marks. -/
def marked (run : List (Call × Bool)) (tr : List Served) : List (Served × Bool) :=
  tr.zip (run.map Prod.snd)

/-- The marks carried along through the run. -/
theorem marked_transcript (e : Expiry) (script : Call → Script Reply) (s : Store)
    (run : List (Call × Bool)) :
    marked run (transcript e script s (whole run)) =
      (Machine.trace (fun s x => serve e script s x.1) s run).map
        fun x => ((x.1.1, x.2), x.1.2) := by
  have hMarks : run.map Prod.snd =
      (Machine.trace (fun s x => serve e script s x.1) s run).map fun x => x.1.2 := by
    conv_lhs => rw [← Machine.map_fst_trace (fun s x => serve e script s x.1) s run]
    exact List.map_map
  rw [marked, hMarks, transcript, whole, ← Machine.map_trace (serve e script) s Prod.fst run,
    List.zip_map']

/-- The replies of the thinned run. -/
theorem thinned_transcript (e : Expiry) (script : Call → Script Reply) (s : Store)
    (run : List (Call × Bool)) :
    transcript e script s (thinned run) =
      (Machine.trace (fun s x => serve e script s x.1) s (run.filter Prod.snd)).map
        fun x => (x.1.1, x.2) :=
  (Machine.map_trace (serve e script) s Prod.fst _).symm

/--
**Throttled calls are free.** For each of the three algorithms, on the
gateways' clock, with stamps that never step back: take any of the refused
calls out of a run, and every other call gets the verdict that it got.
-/
theorem throttled_calls_free {l : RedisLimiter} {key : String} {q : Quota} (hq : ValidQuota q)
    {s : Store} (hUnused : Unused l key s) {run : List (Call × Bool)}
    (hOrder : InOrder (whole run)) (hOnTime : ∀ c ∈ whole run, OnTime c) :
    let before := marked run (transcript .honoured (l.script key q) s (whole run))
    let after := transcript .honoured (l.script key q) s (thinned run)
    (∀ x ∈ before, x.2 = false → verdict x.1.2 = .ok 0) →
      (before.filter Prod.snd).map (fun x => (x.1.1, verdict x.1.2)) =
        after.map fun x => (x.1, verdict x.2) := by
  intro before after hRefused
  have hThinned : (thinned run).Sublist (whole run) := List.filter_sublist.map _
  -- on this clock no key runs out, in either run
  have hBefore : before = marked run (transcript .ignored (l.script key q) s (whole run)) :=
    congrArg (marked run) (transcript_onTime hq hUnused hOrder hOnTime)
  have hAfter : after = transcript .ignored (l.script key q) s (thinned run) :=
    transcript_onTime hq hUnused (hOrder.sublist hThinned) fun c hc =>
      hOnTime c (hThinned.subset hc)
  rw [marked_transcript] at hBefore
  rw [thinned_transcript] at hAfter
  rw [hBefore] at hRefused
  -- the stamps of the whole run are in order, kept or not
  have hCond : ∀ pre x post, run = pre ++ x :: post →
      ∀ a ∈ pre.map Prod.fst, a.nowMs ≤ x.1.nowMs := by
    rintro pre x post rfl a ha
    rw [whole, List.map_append, List.map_cons] at hOrder
    exact (List.pairwise_append.mp hOrder).2.2 a ha x.1 List.mem_cons_self
  let step := fun s (x : Call × Bool) => serve .ignored (l.script key q) s x.1
  have hVerdicts : ((Machine.trace step s run).filter fun x => x.1.2).map
        (fun x => (x.1, verdict x.2)) =
      (Machine.trace step s (run.filter Prod.snd)).map fun x => (x.1, verdict x.2) := by
    refine Machine.trace_filter_of_simulation (p := Prod.snd) (f := verdict)
      (C := fun pre x => ∀ a ∈ pre.map Prod.fst, a.nowMs ≤ x.1.nowMs)
      (D := fun _ answer => verdict answer = .ok 0)
      (R := fun pre s t => Alike l key q (pre.map Prod.fst) s t)
      (alike_of_unused hUnused) ?_ ?_ hCond ?_
    · -- a call of both runs, then one of the first run only
      intro pre s t x hEarlier hAlike _
      rw [List.map_append]
      exact alike_both hq hEarlier hAlike
    · intro pre s t x hEarlier hAlike _ hAnswer
      rw [List.map_append]
      exact alike_refused hq hEarlier hAlike hAnswer
    · intro x hx hGone
      exact hRefused ((x.1.1, x.2), x.1.2) (List.mem_map_of_mem hx) hGone
  have hCalls := congrArg (List.map fun x : (Call × Bool) × Except RedisError ℤ => (x.1.1, x.2))
    hVerdicts
  rw [List.map_map, List.map_map] at hCalls
  rw [hBefore, hAfter, List.filter_map, List.map_map, List.map_map]
  exact hCalls

/-- One per second: the run without its second call, which was refused. -/
theorem throttled_calls_free_demo :
    let script := RedisLimiter.script ⟨.slidingWindow, "rl"⟩ "acme" ⟨1, 1000000000, 0⟩
    let run : List (Call × Bool) :=
      [(⟨0, 0, "a"⟩, true), (⟨500, 500, "b"⟩, false), (⟨1000, 1000, "c"⟩, true)]
    ((marked run (transcript .honoured script empty (whole run))).filter Prod.snd).map
        (fun x => (x.1.1, verdict x.1.2)) =
      (transcript .honoured script empty (thinned run)).map fun x => (x.1, verdict x.2) :=
  throttled_calls_free ⟨by decide, by decide⟩ ⟨rfl, fun _ => rfl⟩ (by simp [InOrder, whole])
    (by simp [OnTime, whole]) (by decide +kernel)

end RatelimitGateway.Limiter
