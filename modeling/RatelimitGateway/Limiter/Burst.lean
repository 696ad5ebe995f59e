import RatelimitGateway.Limiter.Justified
import RatelimitGateway.Limiter.Remaining

/-!
# A burst on a full key

Calls that carry one stamp take the room of a key one by one. A burst takes a
little time, in which a bucket refills and a log is pruned, and a caller can still
read the capacity off it:

* `burst_countsDown` — a burst that is over before the key gets anything back
  counts down from the capacity, as one stamp does;
* `burst_first`      — however long it takes, the first calls are admitted, as
  many as the capacity.
-/

namespace RatelimitGateway.Limiter

open KeyStore Redis

/-- Nothing that was taken after `t` is back at `u`: no whole token, no place in
the log, and no new window. -/
def NothingBack (alg : Algorithm) (q : Quota) (t u : ℤ) : Prop :=
  match alg with
  | .tokenBucket => q.ratePerSecond * ((u - t : ℤ) : ℚ) / 1000 < 1
  | .slidingWindow => u - t < q.windowMs
  | .fixedWindow => windowIndex t q.windowMs = windowIndex u q.windowMs

instance (alg : Algorithm) (q : Quota) (t u : ℤ) : Decidable (NothingBack alg q t u) :=
  match alg with
  | .tokenBucket => Rat.instDecidableLt _ _
  | .slidingWindow => Int.decLt _ _
  | .fixedWindow => instDecidableEqWindowIndex _ _

-- ---------------------------------------------------------------------------
-- token_bucket.lua
-- ---------------------------------------------------------------------------

section Bucket

variable {key : String} {rate burst : ℚ} {t m : ℤ} {pre : List Call} {s : Store} {c : Call}

/-- The bucket holds `m` tokens, and what it was refilled with since `t`. -/
def BucketSteady (key : String) (rate burst : ℚ) (t : ℤ) (pre : List Call) (m : ℤ) (s : Store) :
    Prop :=
  ∀ c : Call, t ≤ c.nowMs → (∀ a ∈ pre, a.nowMs ≤ c.nowMs) →
    (m : ℚ) ≤ found .ignored key rate burst s c ∧
      found .ignored key rate burst s c ≤ m + rate * ((c.nowMs - t : ℤ) : ℚ) / 1000

/-- What the script leaves when less than a token has come back. -/
theorem tokensLeft_between {avail δ : ℚ} (hm : 0 ≤ m) (hLow : (m : ℚ) ≤ avail)
    (hHigh : avail ≤ m + δ) (hShort : δ < 1) :
    ((max 0 (m - 1) : ℤ) : ℚ) ≤ tokensLeft 1 avail ∧
      tokensLeft 1 avail ≤ (max 0 (m - 1) : ℤ) + δ := by
  unfold tokensLeft
  rcases hm.eq_or_lt with rfl | hPos
  · rw [Int.cast_zero, zero_add] at hHigh
    rw [if_neg (by linarith), max_eq_left (by omega), Int.cast_zero, zero_add]
    exact ⟨by exact_mod_cast hLow, hHigh⟩
  · have hOne : (1 : ℚ) ≤ m := by exact_mod_cast hPos
    rw [if_pos (hOne.trans hLow), max_eq_right (by omega)]
    push_cast
    constructor <;> linarith

/-- A call takes one token, if one is left, and nothing of weight has flowed back. -/
theorem bucketSteady_step (hRate : 0 < rate) (hKept : KeptBucket key s)
    (hm : 0 ≤ m) (hSteady : BucketSteady key rate burst t pre m s) (hLate : t ≤ c.nowMs)
    (hOrder : ∀ a ∈ pre, a.nowMs ≤ c.nowMs)
    (hShort : rate * ((c.nowMs - t : ℤ) : ℚ) / 1000 < 1) :
    BucketSteady key rate burst t (pre ++ [c]) (max 0 (m - 1))
      (serve .ignored (tokenBucketCall key rate burst) s c).2 := by
  intro c' _ hAfter
  have hNow : c.nowMs ≤ c'.nowMs := hAfter c (List.mem_append_right _ (List.mem_singleton_self c))
  obtain ⟨hLow, hHigh⟩ := hSteady c hLate hOrder
  have hFull : found .ignored key rate burst s c ≤ burst := found_le_burst s c
  -- the stamps are in order, so the script clamps nothing
  have hForward : max 0 (c'.nowMs - c.nowMs) = c'.nowMs - c.nowMs := by omega
  rw [serve_bucket (hKept.holdsHash _), found_next hRate (follows_ignored c c'), hForward]
  generalize found .ignored key rate burst s c = avail at hLow hHigh hFull ⊢
  obtain ⟨hLeftLow, hLeftHigh⟩ := tokensLeft_between hm hLow hHigh hShort
  have hRefill : 0 ≤ ((c'.nowMs - c.nowMs : ℤ) : ℚ) / 1000 * rate := by
    have hTime : (0 : ℚ) ≤ ((c'.nowMs - c.nowMs : ℤ) : ℚ) := by exact_mod_cast sub_nonneg.mpr hNow
    positivity
  have hTaken : ((max 0 (m - 1) : ℤ) : ℚ) ≤ burst := by
    have hBelow : ((max 0 (m - 1) : ℤ) : ℚ) ≤ m := by exact_mod_cast (by omega)
    exact hBelow.trans (hLow.trans hFull)
  refine ⟨le_min hTaken (by linarith), (min_le_right _ _).trans ?_⟩
  push_cast at hLeftHigh ⊢
  linarith

end Bucket

-- ---------------------------------------------------------------------------
-- sliding_window.lua
-- ---------------------------------------------------------------------------

/-- Every entry of the log is from `t` or later. -/
def LogSteady (key : String) (t : ℤ) (s : Store) : Prop := ∀ e ∈ (logOf key s).entries, t ≤ e.1

/-- Such a log is not pruned as long as the window has not passed. -/
theorem logRoom_of_steady {key : String} {windowMs limit t u : ℤ} {s : Store}
    (hSteady : LogSteady key t s) (hShort : u - t < windowMs) :
    logRoom key windowMs limit u s = max 0 (limit - (logOf key s).card) := by
  rw [logRoom, SortedSet.removeUpTo_eq_self fun e he => ?_]
  have hScore := hSteady e he
  omega

/-- A call leaves no older entry behind than it found. -/
theorem logSteady_step {key : String} {windowMs limit t : ℤ} {s : Store} {c : Call}
    (hZset : HoldsZset ⟨.ignored, 0⟩ s key) (hSteady : LogSteady key t s) (hLate : t ≤ c.nowMs) :
    LogSteady key t (serve .ignored (slidingWindowCall key windowMs limit) s c).2 := by
  intro e he
  rw [(serve_slidingWindow windowMs limit hZset c).2.2] at he
  rcases mem_logAfter he with rfl | ⟨hOld, -⟩
  · exact hLate
  · exact hSteady e hOld

-- ---------------------------------------------------------------------------
-- Whichever algorithm `Allow` runs
-- ---------------------------------------------------------------------------

/-- The key has had room for `m` more calls since `t`, after the calls `pre`. -/
def Steady (l : RedisLimiter) (key : String) (q : Quota) (t : ℤ) (pre : List Call) (m : ℤ)
    (s : Store) : Prop :=
  match l.alg with
  | .tokenBucket => BucketSteady (l.redisKey key) q.ratePerSecond q.burstCapacity t pre m s
  | .slidingWindow =>
    LogSteady (l.redisKey key) t s ∧ max 0 (q.limit - (logOf (l.redisKey key) s).card) = m
  | .fixedWindow => counterRoom (l.redisKey key) q.windowMs q.limit t s = m

section ByAlgorithm

variable {l : RedisLimiter} {key : String} {q : Quota} {t u m : ℤ} {pre : List Call} {s : Store}
  {c : Call}

/-- The room that a call would find is what the burst has left. -/
theorem room_of_steady (hq : ValidQuota q) (hSteady : Steady l key q t pre m s) (hLate : t ≤ u)
    (hOrder : ∀ a ∈ pre, a.nowMs ≤ u) (hShort : NothingBack l.alg q t u) :
    room l key q u s = m := by
  unfold Steady NothingBack at *
  unfold room
  cases hAlg : l.alg with
  | tokenBucket =>
    simp only [hAlg] at hSteady hShort ⊢
    -- less than one token came back since the start, so the floor is the count
    obtain ⟨hLow, hHigh⟩ := hSteady ⟨u, 0, ""⟩ hLate hOrder
    exact Int.floor_eq_iff.mpr ⟨hLow, by dsimp only at hHigh; linarith⟩
  | slidingWindow =>
    simp only [hAlg] at hSteady hShort ⊢
    rw [logRoom_of_steady hSteady.1 hShort, hSteady.2]
  | fixedWindow =>
    simp only [hAlg] at hSteady hShort ⊢
    rw [windowIndex_whole hq.window, windowIndex_whole hq.window, WindowIndex.whole.injEq] at hShort
    rw [counterRoom, ← hShort]
    exact hSteady

/-- An unused key starts with the whole limit. -/
theorem steady_of_unused (hq : ValidQuota q) (hUnused : Unused l key s) :
    Steady l key q t [] (l.appliedLimit q) s := by
  have hRoom := room_of_unused hUnused (zero_le_one.trans (hq.appliedLimit_pos l)) t
  have hRate := hq.rate_pos
  unfold Steady
  unfold room at hRoom
  cases hAlg : l.alg with
  | tokenBucket =>
    simp only [RedisLimiter.appliedLimit, hAlg]
    intro c hLate _
    -- a key without an entry starts with a full bucket
    rw [found_of_gone (find_eq_none_of_absent hUnused.entry)]
    have hTime : (0 : ℚ) ≤ ((c.nowMs - t : ℤ) : ℚ) := by exact_mod_cast sub_nonneg.mpr hLate
    exact ⟨le_rfl, le_add_of_nonneg_right (by positivity)⟩
  | slidingWindow =>
    simp only [hAlg] at hRoom ⊢
    -- no entry means an empty log, in which nothing can age out
    have hEmpty : LogSteady (l.redisKey key) t s := by
      intro e he
      rw [logOf, logAt_of_absent hUnused.entry] at he
      exact absurd he SortedSet.not_mem_empty
    refine ⟨hEmpty, ?_⟩
    rw [← hRoom, logRoom_of_steady hEmpty (by have := hq.window; omega)]
  | fixedWindow =>
    simp only [hAlg] at hRoom ⊢
    exact hRoom

/-- A call of the burst takes one, whichever the algorithm. -/
theorem steady_step (hq : ValidQuota q) (hLeft : LeftBy l key q pre s) (hm : 0 ≤ m)
    (hSteady : Steady l key q t pre m s) (hLate : t ≤ c.nowMs)
    (hOrder : ∀ a ∈ pre, a.nowMs ≤ c.nowMs) (hShort : NothingBack l.alg q t c.nowMs)
    (hNew : l.alg = .slidingWindow → ∀ a ∈ pre, a.member ≠ c.member) :
    Steady l key q t (pre ++ [c]) (max 0 (m - 1)) (serve .ignored (l.script key q) s c).2 := by
  -- the call takes one of the places there are, whichever the algorithm
  obtain ⟨-, -, -, -, hRoom⟩ := room_step hq hLeft hNew rfl
  rw [room_of_steady hq hSteady hLate hOrder hShort] at hRoom
  unfold Steady NothingBack LeftBy at *
  unfold room at hRoom
  cases hAlg : l.alg with
  | tokenBucket =>
    simp only [hAlg] at hSteady hShort hLeft ⊢
    rw [script_tokenBucket hAlg]
    exact bucketSteady_step hq.rate_pos hLeft.1 hm hSteady hLate hOrder hShort
  | slidingWindow =>
    simp only [hAlg] at hSteady hShort hLeft hRoom ⊢
    -- no entry ages out of the window, so the log keeps all it had
    have hKept : LogSteady (l.redisKey key) t (serve .ignored (l.script key q) s c).2 := by
      rw [script_slidingWindow hAlg]
      exact logSteady_step hLeft.1 hSteady.1 hLate
    refine ⟨hKept, ?_⟩
    rw [← hRoom, logRoom_of_steady hKept hShort]
  | fixedWindow =>
    simp only [hAlg] at hSteady hShort hRoom ⊢
    -- both calls fall into one aligned window, so they read one counter
    rw [windowIndex_whole hq.window, windowIndex_whole hq.window, WindowIndex.whole.injEq] at hShort
    rw [← hRoom, counterRoom, counterRoom, hShort]

/-- Calls that come before anything is back take the room one by one. -/
theorem steady_countsDown (hq : ValidQuota q) {more : List Call}
    (hLeft : LeftBy l key q pre s) (hm : 0 ≤ m) (hSteady : Steady l key q t pre m s)
    (hOrder : InOrder (pre ++ more)) (hLate : ∀ c ∈ more, t ≤ c.nowMs)
    (hShort : ∀ c ∈ more, NothingBack l.alg q t c.nowMs)
    (hNew : l.alg = .slidingWindow → DistinctMembers (pre ++ more)) :
    CountsDown m (transcript .ignored (l.script key q) s more) := by
  induction more generalizing pre s m with
  | nil => exact fun i hi => absurd hi (Nat.not_lt_zero i)
  | cons c more ih =>
    have hBefore : ∀ a ∈ pre, a.nowMs ≤ c.nowMs := fun a ha =>
      (List.pairwise_append.mp hOrder).2.2 a ha c List.mem_cons_self
    have hFresh : l.alg = .slidingWindow → ∀ a ∈ pre, a.member ≠ c.member :=
      fun hAlg a ha => (List.pairwise_append.mp (hNew hAlg)).2.2 a ha c List.mem_cons_self
    have hStart := hLate c List.mem_cons_self
    have hEnd := hShort c List.mem_cons_self
    obtain ⟨r, hReply, hAllowed, hRemaining, -⟩ := room_step hq hLeft hFresh rfl
    rw [room_of_steady hq hSteady hStart hBefore hEnd] at hAllowed hRemaining
    -- the rest counts down from one place less
    have hRest := ih (leftBy_step (c := c) hq hLeft) (le_max_left _ _)
      (steady_step hq hLeft hm hSteady hStart hBefore hEnd hFresh)
      (by rwa [List.append_assoc]) (fun a ha => hLate a (List.mem_cons_of_mem c ha))
      (fun a ha => hShort a (List.mem_cons_of_mem c ha)) (by simpa using hNew)
    show CountsDown _ ((c, (serve .ignored (l.script key q) s c).1) :: _)
    rw [hReply]
    exact countsDown_cons hAllowed hRemaining hRest

/-- **A burst counts down from the capacity**, if nothing is back before it is
over. -/
theorem burst_countsDown (hq : ValidQuota q) (hUnused : Unused l key s) {e : Expiry}
    {calls : List Call} (hOrder : InOrder calls) (hClock : OnClock e calls)
    (hLate : ∀ c ∈ calls, t ≤ c.nowMs) (hShort : ∀ c ∈ calls, NothingBack l.alg q t c.nowMs)
    (hNew : l.alg = .slidingWindow → DistinctMembers calls) :
    CountsDown (l.appliedLimit q) (transcript e (l.script key q) s calls) := by
  rw [transcript_onClock hq hUnused hOrder hClock]
  exact steady_countsDown hq (leftBy_of_unused hq hUnused)
    (zero_le_one.trans (hq.appliedLimit_pos l)) (steady_of_unused hq hUnused) hOrder hLate hShort
    hNew

/-- There is room for a call while fewer have been admitted than the capacity. -/
theorem room_of_few (hq : ValidQuota q) (hOrder : ∀ a ∈ pre, a.nowMs ≤ c.nowMs)
    (hFew : (pre.length : ℤ) < l.appliedLimit q) : Room l.alg q pre c := by
  unfold Room
  unfold RedisLimiter.appliedLimit at hFew
  cases hAlg : l.alg with
  | tokenBucket =>
    simp only [hAlg] at hFew ⊢
    -- fewer calls than the capacity: no stretch has emptied the bucket
    intro i hi
    have hCapacity : (pre.length : ℚ) + 1 ≤ q.burstCapacity := by exact_mod_cast hFew
    have hStretch : ((pre.length - i : ℕ) : ℚ) ≤ pre.length := by exact_mod_cast Nat.sub_le _ _
    have hTime : (0 : ℚ) ≤ (c.nowMs : ℚ) - pre[i].nowMs :=
      sub_nonneg.mpr (by exact_mod_cast hOrder _ (List.getElem_mem hi))
    have hRate := hq.rate_pos
    have hRefill : 0 ≤ q.ratePerSecond * ((c.nowMs : ℚ) - pre[i].nowMs) / 1000 := by positivity
    linarith
  | slidingWindow =>
    simp only [hAlg] at hFew ⊢
    have hCount : pre.countP (fun a => decide (c.nowMs - q.windowMs < a.nowMs)) ≤ pre.length :=
      List.countP_le_length
    omega
  | fixedWindow =>
    simp only [hAlg] at hFew ⊢
    have hCount : pre.countP (fun a =>
        decide (windowIndex a.nowMs q.windowMs = windowIndex c.nowMs q.windowMs)) ≤ pre.length :=
      List.countP_le_length
    omega

/-- **The first calls of a burst are admitted**, as many as the capacity. -/
theorem burst_first (hq : ValidQuota q) (hUnused : Unused l key s) (e : Expiry)
    {calls : List Call} (hOrder : InOrder calls) {i : ℕ}
    (hi : i < (transcript e (l.script key q) s calls).length)
    (hFirst : (i : ℤ) < l.appliedLimit q) :
    admitted (transcript e (l.script key q) s calls)[i] = true := by
  have hInv := justifiedInv_run (e := e) hq hUnused calls
  have hCalls : (transcript e (l.script key q) s calls).map Prod.fst = calls :=
    Machine.map_fst_trace ..
  generalize transcript e (l.script key q) s calls = tr at *
  have hSplit : tr = tr.take i ++ tr[i] :: tr.drop (i + 1) := by
    rw [← List.drop_eq_getElem_cons hi, List.take_append_drop]
  -- the calls before it are fewer than the limit, so there is room
  refine hInv.admitted _ _ _ hSplit (room_of_few hq (fun a ha => ?_) ?_)
  · rw [← hCalls, hSplit, List.map_append] at hOrder
    have hBefore := (admittedCalls_sublist (tr.take i)).subset ha
    exact (List.pairwise_append.mp hOrder).2.2 a hBefore _ List.mem_cons_self
  · have hLength := (admittedCalls_sublist (tr.take i)).length_le
    rw [List.length_map, List.length_take] at hLength
    omega

end ByAlgorithm

end RatelimitGateway.Limiter
