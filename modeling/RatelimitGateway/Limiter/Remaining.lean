import RatelimitGateway.Limiter.Expiry

/-!
# What `remaining` promises

`room` is how many more calls with one stamp a key would admit: the whole
tokens in the bucket, the free places in the log, what is left of the counter.
A call reports the room that it leaves, and takes one place of it if there is
one (`room_step`), whichever of the callers' scripts runs first.

* `remaining_exact` — `remaining` is exact, after every decision and on an
  unused key.
-/

namespace RatelimitGateway.Limiter

open KeyStore Redis

/-- The first `m` calls of a transcript are admitted and the others refused,
and each reports how many are still to be admitted. -/
def CountsDown (m : ℤ) (tr : List Served) : Prop :=
  ∀ i (hi : i < tr.length), ∃ r, tr[i].2 = .ok r ∧
    r.allowed = (if (i : ℤ) < m then 1 else 0) ∧ r.remaining = max 0 (m - (i + 1))

/-- One call, and what the others count down from there. -/
theorem countsDown_cons {m : ℤ} {c : Call} {r : Reply} {tr : List Served}
    (hAllowed : r.allowed = if 0 < m then 1 else 0) (hRemaining : r.remaining = max 0 (m - 1))
    (hRest : CountsDown (max 0 (m - 1)) tr) : CountsDown m ((c, .ok r) :: tr) := by
  intro i hi
  cases i with
  | zero => exact ⟨r, rfl, hAllowed, by simpa using hRemaining⟩
  | succ i =>
    obtain ⟨r', hReply, hAllowed', hRemaining'⟩ := hRest i (by simpa using hi)
    refine ⟨r', hReply, ?_, ?_⟩
    · rw [hAllowed']
      push_cast
      split <;> split <;> first | rfl | omega
    · rw [hRemaining']
      push_cast
      omega

/-- Of `n` calls it admits the smaller of `n` and `m`. -/
theorem admittedCount_of_countsDown {m : ℤ} (hm : 0 ≤ m) {tr : List Served}
    (h : CountsDown m tr) : (admittedCount tr : ℤ) = min (tr.length : ℤ) m := by
  induction tr using List.reverseRecOn with
  | nil => simp [admittedCount, hm]
  | append_singleton tr x ih =>
    have hTr : CountsDown m tr := fun i hi => by
      obtain ⟨r, hReply, hRest⟩ := h i (by simp; omega)
      rw [List.getElem_append_left hi] at hReply
      exact ⟨r, hReply, hRest⟩
    obtain ⟨r, hReply, hAllowed, -⟩ := h tr.length (by simp)
    rw [List.getElem_concat_length rfl] at hReply
    have hAdm : admitted x = decide ((tr.length : ℤ) < m) := by
      simp only [admitted, hReply, hAllowed]
      split <;> simp_all
    rw [admittedCount_concat, hAdm, List.length_append, List.length_singleton]
    push_cast
    rw [ih hTr]
    -- the call is one of the first `m` or not
    by_cases hIn : (tr.length : ℤ) < m
    · simp only [hIn, decide_true, if_true]
      omega
    · simp only [hIn, decide_false, Bool.false_eq_true, if_false]
      omega

-- ---------------------------------------------------------------------------
-- token_bucket.lua
-- ---------------------------------------------------------------------------

section Bucket

variable {key : String} {rate burst : ℚ} {s : Store} {c : Call} {t : ℤ}

/-- The whole tokens of a bucket at `t`. -/
def bucketRoom (key : String) (rate burst : ℚ) (t : ℤ) (s : Store) : ℤ :=
  ⌊found .ignored key rate burst s ⟨t, 0, ""⟩⌋

theorem found_stamp (hNow : c.nowMs = t) :
    found .ignored key rate burst s c = found .ignored key rate burst s ⟨t, 0, ""⟩ := by
  rw [← hNow]
  rfl

/-- No call finds more than a full bucket. -/
theorem found_le_burst {e : Expiry} (s : Store) (c : Call) :
    found e key rate burst s c ≤ burst := by
  unfold found available
  split
  · exact min_le_left _ _
  · exact le_rfl

/-- A call at `t` takes one of the tokens, and says how many are left. -/
theorem bucketRoom_step (hRate : 0 < rate) (hKept : KeptBucket key s)
    (hNonneg : ∀ c, 0 ≤ found .ignored key rate burst s c) (hNow : c.nowMs = t) :
    ∃ r, (serve .ignored (tokenBucketCall key rate burst) s c).1 = .ok r ∧
      r.allowed = (if 0 < bucketRoom key rate burst t s then 1 else 0) ∧
      r.remaining = max 0 (bucketRoom key rate burst t s - 1) ∧
      bucketRoom key rate burst t (serve .ignored (tokenBucketCall key rate burst) s c).2 =
        max 0 (bucketRoom key rate burst t s - 1) := by
  have hFull : found .ignored key rate burst s c ≤ burst := found_le_burst s c
  have hSome := hNonneg c
  have hFollows : Follows .ignored c ⟨t, 0, ""⟩ := nofun
  rw [serve_bucket (hKept.holdsHash _), bucketRoom, bucketRoom, found_next hRate hFollows,
    ← found_stamp hNow]
  generalize found .ignored key rate burst s c = avail at hFull hSome ⊢
  -- the stamp is the same, so nothing is refilled in between
  have hSame : max 0 (t - c.nowMs) = 0 := by omega
  have hLeft : ⌊tokensLeft 1 avail⌋ = max 0 (⌊avail⌋ - 1) ∧ tokensLeft 1 avail ≤ burst := by
    unfold tokensLeft
    split
    · -- taking a whole token lowers the floor by one
      rename_i hTake
      have hOne : 1 ≤ ⌊avail⌋ := Int.le_floor.mpr (by exact_mod_cast hTake)
      rw [Int.floor_sub_one]
      exact ⟨by omega, by linarith⟩
    · -- less than a token: the room is 0 and stays 0
      rename_i hNone
      have hZero : ⌊avail⌋ = 0 := Int.floor_eq_zero_iff.mpr ⟨hSome, not_le.mp hNone⟩
      rw [hZero]
      exact ⟨rfl, hFull⟩
  have hTaken : (0 < ⌊avail⌋) = (1 ≤ avail) := by
    rw [Int.floor_pos]
  refine ⟨_, rfl, ?_, hLeft.1, ?_⟩
  · simp only [bucketReply, hTaken]
  · rw [hSame, Int.cast_zero, zero_div, zero_mul, add_zero, min_eq_right hLeft.2]
    exact hLeft.1

end Bucket

-- ---------------------------------------------------------------------------
-- sliding_window.lua
-- ---------------------------------------------------------------------------

section Log

variable {key : String} {windowMs limit : ℤ} {pre : List Call} {s : Store} {c : Call} {t : ℤ}

/-- The free places in a log at `t`. -/
def logRoom (key : String) (windowMs limit t : ℤ) (s : Store) : ℤ :=
  max 0 (limit - ((logOf key s).removeUpTo (t - windowMs)).card)

/-- Every member in the log is one of `pre`. -/
def MembersOf (key : String) (pre : List Call) (s : Store) : Prop :=
  ∀ e ∈ (logOf key s).entries, ∃ a ∈ pre, a.member = e.2

/-- The log holds members of calls only. -/
theorem membersOf_step (hZset : HoldsZset ⟨.ignored, 0⟩ s key) (hMembers : MembersOf key pre s) :
    MembersOf key (pre ++ [c]) (serve .ignored (slidingWindowCall key windowMs limit) s c).2 := by
  obtain ⟨-, -, hLog⟩ := serve_slidingWindow windowMs limit hZset c
  intro e he
  rw [hLog] at he
  rcases mem_logAfter he with rfl | ⟨hOld, -⟩
  · exact ⟨c, List.mem_append_right _ (List.mem_singleton_self c), rfl⟩
  · obtain ⟨a, ha, hEq⟩ := hMembers e hOld
    exact ⟨a, List.mem_append_left _ ha, hEq⟩

/-- A call at `t` takes one of the slots of the log, and says how many are left. -/
theorem logRoom_step (hWindow : 1 ≤ windowMs) (hZset : HoldsZset ⟨.ignored, 0⟩ s key)
    (hMembers : MembersOf key pre s) (hNew : ∀ a ∈ pre, a.member ≠ c.member) (hNow : c.nowMs = t) :
    ∃ r, (serve .ignored (slidingWindowCall key windowMs limit) s c).1 = .ok r ∧
      r.allowed = (if 0 < logRoom key windowMs limit t s then 1 else 0) ∧
      r.remaining = max 0 (logRoom key windowMs limit t s - 1) ∧
      logRoom key windowMs limit t (serve .ignored (slidingWindowCall key windowMs limit) s c).2 =
        max 0 (logRoom key windowMs limit t s - 1) := by
  obtain ⟨hReply, -, hLog⟩ := serve_slidingWindow windowMs limit hZset c
  unfold logRoom
  rw [hReply, hLog, ← hNow]
  unfold slidingReply logAfter
  -- pruning once more at the same time changes nothing
  have hAgain := SortedSet.removeUpTo_removeUpTo (le_refl (c.nowMs - windowMs)) (logOf key s)
  have hFresh : ∀ e ∈ ((logOf key s).removeUpTo (c.nowMs - windowMs)).entries,
      e.2 ≠ c.member := by
    intro e he
    obtain ⟨a, ha, hEq⟩ := hMembers e (SortedSet.mem_removeUpTo.mp he).1
    exact hEq ▸ hNew a ha
  have hYoung : ∀ e ∈ ((logOf key s).removeUpTo (c.nowMs - windowMs)).entries,
      c.nowMs - windowMs < e.1 := fun e he => (SortedSet.mem_removeUpTo.mp he).2
  generalize (logOf key s).removeUpTo (c.nowMs - windowMs) = pruned at hAgain hFresh hYoung ⊢
  dsimp only
  by_cases hRoom : (pruned.card : ℤ) < limit
  · -- there is room: the new entry is neither pruned nor in the log already
    have hAdded : (pruned.add c.nowMs c.member).removeUpTo (c.nowMs - windowMs) =
        pruned.add c.nowMs c.member := by
      refine SortedSet.removeUpTo_eq_self fun e he => ?_
      rcases SortedSet.mem_add.mp he with rfl | ⟨hOld, -⟩
      · show c.nowMs - windowMs < c.nowMs
        omega
      · exact hYoung e hOld
    have hCard : (pruned.add c.nowMs c.member).card = pruned.card + 1 :=
      (SortedSet.perm_add_of_fresh hFresh).length_eq
    simp only [hRoom, if_true, hAdded, hCard]
    refine ⟨_, rfl, ?_, ?_, ?_⟩
    · show (1 : ℤ) = _
      rw [if_pos (by omega)]
    · show max 0 (limit - ((pruned.card : ℤ) + 1)) = _
      omega
    · push_cast
      omega
  · -- the log is full: the room is 0 and stays 0
    simp only [hRoom, if_false, hAgain]
    refine ⟨_, rfl, ?_, ?_, by omega⟩
    · show (0 : ℤ) = _
      rw [if_neg (by omega)]
    · show max 0 (limit - (pruned.card : ℤ)) = _
      omega

end Log

-- ---------------------------------------------------------------------------
-- fixed_window.lua
-- ---------------------------------------------------------------------------

section Counter

variable {keyPrefix : String} {windowMs limit : ℤ} {s : Store} {c : Call} {t : ℤ}

/-- What is left of the counter of the window of `t`. -/
def counterRoom (keyPrefix : String) (windowMs limit t : ℤ) (s : Store) : ℤ :=
  max 0 (limit - countOf keyPrefix s ⌊(t : ℚ) / windowMs⌋)

/-- A call at `t` takes one of what its window has left, and says so. -/
theorem counterRoom_step (hWindow : 1 ≤ windowMs) (hType : HoldsCounters keyPrefix s)
    (hNow : c.nowMs = t) :
    ∃ r, (serve .ignored (fixedWindowCall keyPrefix windowMs limit) s c).1 = .ok r ∧
      r.allowed = (if 0 < counterRoom keyPrefix windowMs limit t s then 1 else 0) ∧
      r.remaining = max 0 (counterRoom keyPrefix windowMs limit t s - 1) ∧
      counterRoom keyPrefix windowMs limit t
          (serve .ignored (fixedWindowCall keyPrefix windowMs limit) s c).2 =
        max 0 (counterRoom keyPrefix windowMs limit t s - 1) := by
  have hIndex := windowIndex_whole hWindow c.nowMs
  obtain ⟨hReply, -, hCount⟩ := serve_fixedWindow limit hType hIndex
  unfold counterRoom
  rw [hReply, hCount, ← hNow, Function.update_self]
  generalize countOf keyPrefix s ⌊(c.nowMs : ℚ) / windowMs⌋ = n
  refine ⟨_, rfl, ?_, ?_, by omega⟩
  · -- the script refuses above the limit, which is where the room ends
    show (if n + 1 > limit then (0 : ℤ) else 1) = _
    split <;> split <;> first | rfl | omega
  · show max 0 (limit - (n + 1)) = _
    omega

end Counter

-- ---------------------------------------------------------------------------
-- Whichever algorithm `Allow` runs
-- ---------------------------------------------------------------------------

/-- How many more calls stamped `t` the key would admit. -/
def room (l : RedisLimiter) (key : String) (q : Quota) (t : ℤ) (s : Store) : ℤ :=
  match l.alg with
  | .tokenBucket => bucketRoom (l.redisKey key) q.ratePerSecond q.burstCapacity t s
  | .slidingWindow => logRoom (l.redisKey key) q.windowMs q.limit t s
  | .fixedWindow => counterRoom (l.redisKey key) q.windowMs q.limit t s

/-- What the calls `pre` leave under the key of a store without expiry. -/
def LeftBy (l : RedisLimiter) (key : String) (q : Quota) (pre : List Call) (s : Store) : Prop :=
  match l.alg with
  | .tokenBucket => KeptBucket (l.redisKey key) s ∧
      ∀ c, 0 ≤ found .ignored (l.redisKey key) q.ratePerSecond q.burstCapacity s c
  | .slidingWindow => HoldsZset ⟨.ignored, 0⟩ s (l.redisKey key) ∧ MembersOf (l.redisKey key) pre s
  | .fixedWindow => HoldsCounters (l.redisKey key) s

section ByAlgorithm

variable {l : RedisLimiter} {key : String} {q : Quota} {pre : List Call} {s : Store} {c : Call}
  {t : ℤ}

/-- No calls leave an unused key. -/
theorem leftBy_of_unused (hq : ValidQuota q) (hUnused : Unused l key s) : LeftBy l key q [] s := by
  unfold LeftBy
  split
  · refine ⟨keptBucket_of_absent hUnused.entry, fun c => ?_⟩
    have hBurst := hq.burst_pos
    rw [found_of_gone (find_eq_none_of_absent hUnused.entry)]
    exact_mod_cast zero_le_one.trans hBurst
  · refine ⟨holdsZset_of_absent hUnused.entry, fun e he => ?_⟩
    rw [logOf, logAt_of_absent hUnused.entry] at he
    exact absurd he SortedSet.not_mem_empty
  · exact holdsCounters_of_unused hUnused.counters

/-- One more call leaves its part. -/
theorem leftBy_step (hq : ValidQuota q) (hLeft : LeftBy l key q pre s) :
    LeftBy l key q (pre ++ [c]) (serve .ignored (l.script key q) s c).2 := by
  unfold LeftBy at hLeft ⊢
  cases hAlg : l.alg with
  | tokenBucket =>
    simp only [hAlg] at hLeft ⊢
    obtain ⟨hKept, hNonneg⟩ := hLeft
    have hSome := hNonneg c
    rw [script_tokenBucket hAlg, serve_bucket (hKept.holdsHash _)]
    refine ⟨keptBucket_update, fun c' => ?_⟩
    rw [found_next hq.rate_pos (follows_ignored c c')]
    -- a token is taken only if there is one
    have hTokens : 0 ≤ tokensLeft 1
        (found .ignored (l.redisKey key) q.ratePerSecond q.burstCapacity s c) := by
      unfold tokensLeft
      split <;> linarith
    have hBurst : (0 : ℚ) ≤ q.burstCapacity := by exact_mod_cast zero_le_one.trans hq.burst_pos
    have hRate := hq.rate_pos
    exact le_min hBurst (by positivity)
  | slidingWindow =>
    simp only [hAlg] at hLeft ⊢
    rw [script_slidingWindow hAlg]
    exact ⟨(serve_slidingWindow q.windowMs q.limit hLeft.1 c).2.1,
      membersOf_step hLeft.1 hLeft.2⟩
  | fixedWindow =>
    simp only [hAlg] at hLeft ⊢
    rw [script_fixedWindow hAlg]
    exact (serve_fixedWindow q.limit hLeft (windowIndex_whole hq.window c.nowMs)).2.1

/-- So do the calls of a run. -/
theorem leftBy_run (hq : ValidQuota q) (hUnused : Unused l key s) (calls : List Call) :
    LeftBy l key q calls (keyspace .ignored (l.script key q) s calls) := by
  have hRun : LeftBy l key q ((transcript .ignored (l.script key q) s calls).map Prod.fst)
      (keyspace .ignored (l.script key q) s calls) := by
    refine Machine.trace_invariant' (P := fun tr s => LeftBy l key q (tr.map Prod.fst) s)
      (leftBy_of_unused hq hUnused) ?_ calls
    intro tr s c hLeft
    rw [List.map_append]
    exact leftBy_step hq hLeft
  rwa [transcript, Machine.map_fst_trace] at hRun

/-- A call takes one place, if there is one, and reports what is left. -/
theorem room_step (hq : ValidQuota q) (hLeft : LeftBy l key q pre s)
    (hNew : l.alg = .slidingWindow → ∀ a ∈ pre, a.member ≠ c.member) (hNow : c.nowMs = t) :
    ∃ r, (serve .ignored (l.script key q) s c).1 = .ok r ∧
      r.allowed = (if 0 < room l key q t s then 1 else 0) ∧
      r.remaining = max 0 (room l key q t s - 1) ∧
      room l key q t (serve .ignored (l.script key q) s c).2 = max 0 (room l key q t s - 1) := by
  unfold LeftBy at hLeft
  unfold room
  cases hAlg : l.alg with
  | tokenBucket =>
    simp only [hAlg] at hLeft ⊢
    rw [script_tokenBucket hAlg]
    exact bucketRoom_step hq.rate_pos hLeft.1 hLeft.2 hNow
  | slidingWindow =>
    simp only [hAlg] at hLeft ⊢
    rw [script_slidingWindow hAlg]
    exact logRoom_step hq.window hLeft.1 hLeft.2 (hNew hAlg) hNow
  | fixedWindow =>
    simp only [hAlg] at hLeft ⊢
    rw [script_fixedWindow hAlg]
    exact counterRoom_step hq.window hLeft hNow

/-- Calls with one stamp take the room one by one. -/
theorem room_countsDown (hq : ValidQuota q) (hLeft : LeftBy l key q pre s) {more : List Call}
    (hNew : l.alg = .slidingWindow → DistinctMembers (pre ++ more))
    (hSame : ∀ c ∈ more, c.nowMs = t) :
    CountsDown (room l key q t s) (transcript .ignored (l.script key q) s more) := by
  induction more generalizing pre s with
  | nil => exact fun i hi => absurd hi (Nat.not_lt_zero i)
  | cons c more ih =>
    have hFresh : l.alg = .slidingWindow → ∀ a ∈ pre, a.member ≠ c.member :=
      fun hAlg a ha => (List.pairwise_append.mp (hNew hAlg)).2.2 a ha c List.mem_cons_self
    obtain ⟨r, hReply, hAllowed, hRemaining, hRoom⟩ :=
      room_step hq hLeft hFresh (hSame c List.mem_cons_self)
    have hRest := ih (leftBy_step (c := c) hq hLeft) (by simpa using hNew)
      fun a ha => hSame a (List.mem_cons_of_mem c ha)
    rw [hRoom] at hRest
    show CountsDown _ ((c, (serve .ignored (l.script key q) s c).1) :: _)
    rw [hReply]
    exact countsDown_cons hAllowed hRemaining hRest

/-- An unused key has room for the whole capacity. -/
theorem room_of_unused (hUnused : Unused l key s) (hCapacity : 0 ≤ l.appliedLimit q) (t : ℤ) :
    room l key q t s = l.appliedLimit q := by
  unfold room
  cases hAlg : l.alg with
  | tokenBucket =>
    simp only [RedisLimiter.appliedLimit, hAlg, bucketRoom]
    rw [found_of_gone (find_eq_none_of_absent hUnused.entry), Int.floor_intCast]
  | slidingWindow =>
    simp only [RedisLimiter.appliedLimit, hAlg] at hCapacity ⊢
    rw [logRoom, logOf, logAt_of_absent hUnused.entry]
    show max 0 (q.limit - ((0 : ℕ) : ℤ)) = q.limit
    omega
  | fixedWindow =>
    simp only [RedisLimiter.appliedLimit, hAlg] at hCapacity ⊢
    rw [counterRoom, countOf_of_unused hUnused.counters]
    omega

end ByAlgorithm

/-! ## Runs -/

theorem inOrder_of_same {t : ℤ} {calls : List Call} (hSame : ∀ a ∈ calls, a.nowMs = t) :
    InOrder calls :=
  List.pairwise_of_forall_mem_list fun a ha b hb => by rw [hSame a ha, hSame b hb]

/-- Calls with one stamp can be appended. -/
theorem inOrder_append_same {calls more : List Call} {c : Call} (hOrder : InOrder (calls ++ [c]))
    (hSame : ∀ a ∈ more, a.nowMs = c.nowMs) : InOrder (calls ++ c :: more) := by
  obtain ⟨hCalls, -, hBefore⟩ := List.pairwise_append.mp hOrder
  have hNow : ∀ a ∈ c :: more, a.nowMs = c.nowMs := List.forall_mem_cons.mpr ⟨rfl, hSame⟩
  refine List.pairwise_append.mpr ⟨hCalls, inOrder_of_same hNow, fun a ha b hb => ?_⟩
  rw [hNow b hb]
  exact hBefore a ha c (List.mem_singleton_self c)

/-- Redis keeps its keys, or removes them on the clock that the gateways
read. -/
def OnClock (e : Expiry) (calls : List Call) : Prop := e = .honoured → ∀ c ∈ calls, OnTime c

/-- On the gateways' clock nothing is lost that a reply depends on. -/
theorem transcript_onClock {e : Expiry} {l : RedisLimiter} {key : String} {q : Quota}
    (hq : ValidQuota q) {s : Store} (hUnused : Unused l key s) {calls : List Call}
    (hOrder : InOrder calls) (hClock : OnClock e calls) :
    transcript e (l.script key q) s calls = transcript .ignored (l.script key q) s calls := by
  cases e with
  | ignored => rfl
  | honoured => exact transcript_onTime hq hUnused hOrder (hClock rfl)

end RatelimitGateway.Limiter
