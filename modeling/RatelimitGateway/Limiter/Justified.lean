import RatelimitGateway.Limiter.Coherent

/-!
# No refusal without a cause

The caps say that a limiter does not admit too much. A caller wants to hear the
converse: that a refusal was called for. It always is, by the calls that were
admitted before it, whatever order the stamps arrive in and whatever Redis
expires: clocks that disagree can make a limiter admit more, and never less.

What a key holds was spent on calls that were admitted (`Spent`): a bucket
misses no more tokens than they took, a log lists no others, and a counter is
past the limit only when `limit` of them are in its window.

* `refusals_justified` — a call is refused only when the calls admitted before
  it leave no room for it (`Room`), so that a caller who never asks for more
  than its allowance (`Within`) is never refused.
-/

namespace RatelimitGateway.Limiter

open KeyStore Redis ArrivalCurve

/-- Would the quota have room for `c` if the calls `pre` had been admitted before
it, and no others? -/
def Room (alg : Algorithm) (q : Quota) (pre : List Call) (c : Call) : Prop :=
  match alg with
  | .tokenBucket => ∀ i (hi : i < pre.length), ((pre.length - i : ℕ) : ℚ) + 1 ≤
      q.burstCapacity + q.ratePerSecond * ((c.nowMs : ℚ) - pre[i].nowMs) / 1000
  | .slidingWindow => (pre.countP fun a => decide (c.nowMs - q.windowMs < a.nowMs) : ℤ) < q.limit
  | .fixedWindow =>
    (pre.countP fun a => decide (windowIndex a.nowMs q.windowMs = windowIndex c.nowMs q.windowMs)
      : ℤ) < q.limit

/-- The calls ask for no more than the quota grants: each finds room beside all
the calls before it. -/
def Within (alg : Algorithm) (q : Quota) (calls : List Call) : Prop :=
  ∀ j (hj : j < calls.length), Room alg q (calls.take j) calls[j]

instance (alg : Algorithm) (q : Quota) (pre : List Call) (c : Call) :
    Decidable (Room alg q pre c) :=
  match alg with
  | .tokenBucket => Nat.decidableBallLT _ _
  | .slidingWindow => Int.decLt _ _
  | .fixedWindow => Int.decLt _ _

instance (alg : Algorithm) (q : Quota) (calls : List Call) : Decidable (Within alg q calls) :=
  Nat.decidableBallLT _ _

-- ---------------------------------------------------------------------------
-- token_bucket.lua
-- ---------------------------------------------------------------------------

/-- What admitted calls take: a token each. -/
def taken (calls : List Call) : List (ℚ × ℚ) := calls.map fun c => ((c.nowMs : ℚ), 1)

/-- A call that was admitted took one. -/
theorem consumed_taken (calls : List Call) : consumed (taken calls) = calls.length := by
  induction calls with
  | nil => rfl
  | cons c calls ih =>
    rw [taken, List.map_cons, consumed_cons, ← taken, ih, List.length_cons]
    push_cast
    ring

theorem drop_taken (calls : List Call) (i : ℕ) : (taken calls).drop i = taken (calls.drop i) :=
  List.map_drop.symm

/-- A token fits under the allowance exactly when the bucket has room for the call. -/
theorem one_le_headroom_iff {q : Quota} (hq : ValidQuota q) (pre : List Call) (c : Call) :
    1 ≤ headroom (q.burstCapacity : ℚ) (q.ratePerSecond / 1000) c.nowMs (taken pre) ↔
      Room .tokenBucket q pre c := by
  have hOne : (1 : ℚ) ≤ q.burstCapacity := mod_cast hq.burst_pos
  -- the same inequality, in rates per millisecond and per second
  have hStretch : ∀ i (hi : i < pre.length) (hi' : i < (taken pre).length),
      consumed ((taken pre).drop i) + 1 ≤
          q.burstCapacity + q.ratePerSecond / 1000 * ((c.nowMs : ℚ) - (taken pre)[i].1) ↔
        ((pre.length - i : ℕ) : ℚ) + 1 ≤
          q.burstCapacity + q.ratePerSecond * ((c.nowMs : ℚ) - pre[i].nowMs) / 1000 := by
    intro i hi hi'
    rw [drop_taken, consumed_taken, List.length_drop, mul_div_right_comm]
    simp only [taken, List.getElem_map]
  have hLength : (taken pre).length = pre.length := List.length_map _
  rw [le_headroom_iff]
  constructor
  · rintro ⟨-, hAll⟩ i hi
    exact (hStretch i hi (hLength ▸ hi)).mp (hAll i (hLength ▸ hi))
  · intro hAll
    exact ⟨hOne, fun i hi => (hStretch i (hLength ▸ hi) hi).mpr (hAll i (hLength ▸ hi))⟩

/-- The bucket misses no more than the calls `pre` took. -/
structure SpentBucket (e : Expiry) (key : String) (rate burst : ℚ) (pre : List Call) (s : Store) :
    Prop where
  kept  : KeptBucket key s
  level : ∀ c, headroom burst (rate / 1000) c.nowMs (taken pre) ≤ found e key rate burst s c

/-- A bucket that has run out counts as full. -/
theorem le_found_next {e : Expiry} {key : String} {rate burst avail : ℚ} {s : Store} {c : Call}
    (c' : Call) :
    min burst (tokensLeft 1 avail + rate / 1000 * max 0 ((c'.nowMs : ℚ) - c.nowMs)) ≤
      found e key rate burst (Function.update s key
        (some (bucketEntry ⟨e, c.execAt⟩ rate burst c.nowMs 1 avail))) c' := by
  cases hFind : find ⟨e, c'.execAt⟩ (Function.update s key
      (some (bucketEntry ⟨e, c.execAt⟩ rate burst c.nowMs 1 avail))) key with
  | none =>
    -- the entry is gone, so the bucket is full, which is more
    rw [found_of_gone hFind]
    exact min_le_left _ _
  | some x =>
    obtain ⟨hx, -⟩ := find_eq_some_iff.mp hFind
    rw [Function.update_self] at hx
    obtain rfl := Option.some.inj hx
    rw [found_of_live hFind]
    refine le_of_eq ?_
    push_cast
    ring_nf

/-- A bucket that holds what is unspent admits whoever has room, and goes on so. -/
theorem spentBucket_step {e : Expiry} {key : String} {rate burst : ℚ} (hRate : 0 < rate)
    {pre : List Call} {s : Store} (hSpent : SpentBucket e key rate burst pre s) (c : Call) :
    ∃ r, (serve e (tokenBucketCall key rate burst) s c).1 = .ok r ∧
      (1 ≤ headroom burst (rate / 1000) c.nowMs (taken pre) → admitted (c, .ok r) = true) ∧
      SpentBucket e key rate burst (if admitted (c, .ok r) then pre ++ [c] else pre)
        (serve e (tokenBucketCall key rate burst) s c).2 := by
  have hLevel := hSpent.level c
  rw [serve_bucket (hSpent.kept.holdsHash _)]
  set avail := found e key rate burst s c with hAvail
  refine ⟨_, rfl, fun hRoom => ?_, keptBucket_update, fun c' => ?_⟩
  · rw [admitted_bucketReply]
    exact decide_eq_true (hRoom.trans hLevel)
  · refine le_trans ?_ (le_found_next c')
    have hRate' : 0 ≤ rate / 1000 := by positivity
    rw [tokensLeft_one rate burst c avail]
    cases hAdmit : admitted (c, .ok (bucketReply rate burst 1 avail)) with
    | true =>
      -- admitted: one token less at this stamp, and the refill runs on from it
      simp only [if_true, taken, List.map_append, List.map_cons, List.map_nil]
      rw [headroom_concat, ← taken]
      refine min_le_min_left _ ?_
      have hForward : rate / 1000 * ((c'.nowMs : ℚ) - c.nowMs) ≤
          rate / 1000 * max 0 ((c'.nowMs : ℚ) - c.nowMs) :=
        mul_le_mul_of_nonneg_left (le_max_right _ _) hRate'
      linarith
    | false =>
      -- refused: nothing is spent, and there is only more room later
      simp only [Bool.false_eq_true, if_false]
      have hLater := headroom_le_later (B := burst) (t := (c'.nowMs : ℚ)) hRate' c.nowMs (taken pre)
      refine le_min (le_headroom_iff.mp le_rfl).1 ?_
      linarith

-- ---------------------------------------------------------------------------
-- sliding_window.lua
-- ---------------------------------------------------------------------------

/-- The log lists calls of `pre`. -/
def SpentLog (key : String) (pre : List Call) (s : Store) : Prop :=
  ∀ x, s key = some x → ∃ z, x.value = .zset z ∧ z.entries ⊆ pre.map logged

theorem SpentLog.holdsLog {key : String} {pre : List Call} {s : Store}
    (h : SpentLog key pre s) : HoldsLog key s := by
  intro x hx
  obtain ⟨z, hz, -⟩ := h x hx
  exact ⟨z, hz⟩

/-- A call finds no entries but those of admitted calls. -/
theorem SpentLog.found {key : String} {pre : List Call} {s : Store} (h : SpentLog key pre s)
    (e : Expiry) (c : Call) : (foundLog e key s c).entries ⊆ pre.map logged := by
  unfold foundLog logAt
  split
  · rename_i z hRead
    obtain ⟨x, hx, hValue⟩ := exists_entry hRead
    obtain ⟨z', hz', hSub⟩ := h x hx
    rw [hValue] at hz'
    exact Value.zset.inj hz' ▸ hSub
  · exact List.nil_subset _

/-- A log of some of the calls holds no more entries after a cutoff than there are
calls stamped after it. -/
theorem card_removeUpTo_le_countP {z : SortedSet ℤ String} {pre : List Call}
    (hSub : z.entries ⊆ pre.map logged) (cut : ℤ) :
    (z.removeUpTo cut).card ≤ pre.countP fun a => decide (cut < a.nowMs) := by
  have hSubperm : z.entries.Subperm (pre.map logged) :=
    List.subperm_of_subset (List.Nodup.of_map _ z.nodup) hSub
  calc (z.removeUpTo cut).card
      = z.entries.countP (fun x => decide (cut < x.1)) := by
        rw [SortedSet.card, SortedSet.entries_removeUpTo, List.countP_eq_length_filter]
        refine congrArg List.length (List.filter_congr fun x _ => ?_)
        rw [← decide_not]
        exact decide_eq_decide.mpr not_le
    _ ≤ (pre.map logged).countP (fun x => decide (cut < x.1)) := hSubperm.countP_le _
    _ = pre.countP fun a => decide (cut < a.nowMs) := by
        rw [List.countP_map]
        rfl

/-- A log of admitted calls admits whoever has room, and goes on so. -/
theorem spentLog_step {e : Expiry} {key : String} {q : Quota} {pre : List Call} {s : Store}
    (hSpent : SpentLog key pre s) (c : Call) :
    ∃ r, (serve e (slidingWindowCall key q.windowMs q.limit) s c).1 = .ok r ∧
      (Room .slidingWindow q pre c → admitted (c, .ok r) = true) ∧
      SpentLog key (if admitted (c, .ok r) then pre ++ [c] else pre)
        (serve e (slidingWindowCall key q.windowMs q.limit) s c).2 := by
  have hSub := hSpent.found e c
  rw [serve_log (hSpent.holdsLog.holdsZset _)]
  set log := foundLog e key s c with hLog
  refine ⟨_, rfl, fun hRoom => ?_, ?_⟩
  · -- the log holds admitted calls only, so with room it is not full
    have hCard := card_removeUpTo_le_countP hSub (c.nowMs - q.windowMs)
    rw [Room] at hRoom
    rw [admitted_slidingReply]
    exact decide_eq_true (by omega)
  · intro x hx
    obtain rfl := entry_of_logUpdate hx
    refine ⟨_, rfl, fun y hy => ?_⟩
    rw [admitted_slidingReply]
    -- an admitted call enters both the log and the list; a refused one neither
    by_cases hFits : ((log.removeUpTo (c.nowMs - q.windowMs)).card : ℤ) < q.limit
    · rw [decide_eq_true hFits, if_pos rfl, List.map_append]
      rcases mem_logAfter hy with rfl | ⟨hOld, -⟩
      · exact List.mem_append_right _ (List.mem_singleton_self _)
      · exact List.mem_append_left _ (hSub hOld)
    · rw [decide_eq_false hFits]
      simp only [logAfter, if_neg hFits] at hy
      exact hSub (SortedSet.mem_removeUpTo.mp hy).1

-- ---------------------------------------------------------------------------
-- fixed_window.lua
-- ---------------------------------------------------------------------------

/-- As far as the limit goes, the counter of a window counts calls of `pre`. -/
def SpentCounters (keyPrefix : String) (windowMs limit : ℤ) (pre : List Call) (s : Store) : Prop :=
  ∀ (k : ℤ) (x : Entry Value), s (windowKey keyPrefix (.whole k)) = some x →
    ∃ n : ℤ, x.value = .counter n ∧ 1 ≤ n ∧ min n limit ≤ pre.countP (stampedIn windowMs k)

theorem SpentCounters.holdsCounts {keyPrefix : String} {windowMs limit : ℤ} {pre : List Call}
    {s : Store} (h : SpentCounters keyPrefix windowMs limit pre s) : HoldsCounts keyPrefix s := by
  intro k x hx
  obtain ⟨n, hn, hPos, -⟩ := h k x hx
  exact ⟨n, hn, hPos⟩

/-- Also when the counter has run out. -/
theorem SpentCounters.found {keyPrefix : String} {windowMs limit : ℤ} {pre : List Call} {s : Store}
    (h : SpentCounters keyPrefix windowMs limit pre s) (clock : Clock) (k : ℤ) :
    min (counterAt clock s (windowKey keyPrefix (.whole k))) limit ≤
      pre.countP (stampedIn windowMs k) := by
  unfold counterAt
  split
  · rename_i n hRead
    obtain ⟨x, hx, hValue⟩ := exists_entry hRead
    obtain ⟨n', hn', -, hMin⟩ := h k x hx
    rw [hValue] at hn'
    exact Value.counter.inj hn' ▸ hMin
  · exact (min_le_left _ _).trans (Int.natCast_nonneg _)

/-- Counters of admitted calls admit whoever has room, and go on so. -/
theorem spentCounters_step {e : Expiry} {keyPrefix : String} {q : Quota} (hq : ValidQuota q)
    {pre : List Call} {s : Store} (hSpent : SpentCounters keyPrefix q.windowMs q.limit pre s)
    (c : Call) :
    ∃ r, (serve e (fixedWindowCall keyPrefix q.windowMs q.limit) s c).1 = .ok r ∧
      (Room .fixedWindow q pre c → admitted (c, .ok r) = true) ∧
      SpentCounters keyPrefix q.windowMs q.limit
        (if admitted (c, .ok r) then pre ++ [c] else pre)
        (serve e (fixedWindowCall keyPrefix q.windowMs q.limit) s c).2 := by
  have hIndex := windowIndex_whole hq.window c.nowMs
  generalize ⌊(c.nowMs : ℚ) / q.windowMs⌋ = k at hIndex
  have hFound := hSpent.found ⟨e, c.execAt⟩ k
  have hNonneg := hSpent.holdsCounts.counterAt_nonneg ⟨e, c.execAt⟩ k
  rw [serve_counter (hSpent.holdsCounts.holdsCounter _ k) hIndex]
  set n := counterAt ⟨e, c.execAt⟩ s (windowKey keyPrefix (.whole k)) with hn
  refine ⟨_, rfl, fun hRoom => ?_, fun j x hx => ?_⟩
  · -- the counter is at most the calls admitted in the window, or beyond the limit
    rw [Room, hIndex] at hRoom
    rw [admitted_fixedReply]
    refine decide_eq_true ?_
    have hSame : pre.countP (stampedIn q.windowMs k) =
        pre.countP fun a => decide (windowIndex a.nowMs q.windowMs = .whole k) := rfl
    omega
  · dsimp only at hx
    rw [admitted_fixedReply]
    by_cases hjk : j = k
    · -- the counter of the call's own window has moved on
      subst hjk
      rw [Function.update_self] at hx
      obtain rfl := Option.some.inj hx
      refine ⟨n + 1, rfl, by omega, ?_⟩
      by_cases hFits : n + 1 ≤ q.limit
      · rw [decide_eq_true hFits, if_pos rfl, List.countP_append, List.countP_singleton,
          stampedIn, hIndex, decide_eq_true rfl, if_pos rfl]
        push_cast
        omega
      · rw [decide_eq_false hFits]
        simp only [Bool.false_eq_true, if_false]
        omega
    · rw [update_windowKey_of_ne hjk] at hx
      obtain ⟨m, hm, hPos, hMin⟩ := hSpent j x hx
      refine ⟨m, hm, hPos, hMin.trans ?_⟩
      split
      · rw [List.countP_append]
        push_cast
        omega
      · exact le_rfl

-- ---------------------------------------------------------------------------
-- Whichever algorithm `Allow` runs
-- ---------------------------------------------------------------------------

/-- What the key holds was spent on the calls `pre`. -/
def Spent (l : RedisLimiter) (e : Expiry) (key : String) (q : Quota) (pre : List Call)
    (s : Store) : Prop :=
  match l.alg with
  | .tokenBucket => SpentBucket e (l.redisKey key) q.ratePerSecond q.burstCapacity pre s
  | .slidingWindow => SpentLog (l.redisKey key) pre s
  | .fixedWindow => SpentCounters (l.redisKey key) q.windowMs q.limit pre s

section ByAlgorithm

variable {l : RedisLimiter} {e : Expiry} {key : String} {q : Quota} {s : Store}

/-- On an unused key nothing is spent. -/
theorem spent_of_unused (hUnused : Unused l key s) : Spent l e key q [] s := by
  unfold Spent
  split
  · refine ⟨keptBucket_of_absent hUnused.entry, fun c => ?_⟩
    rw [found_of_gone (find_eq_none_of_absent hUnused.entry)]
    exact le_rfl
  · intro x hx
    exact absurd (hUnused.entry.symm.trans hx) nofun
  · intro k x hx
    exact absurd ((hUnused.counters k).symm.trans hx) nofun

/-- One call: it is admitted if there is room, and it spends what it was given. -/
theorem spent_step (hq : ValidQuota q) {pre : List Call} (hSpent : Spent l e key q pre s)
    (c : Call) :
    ∃ r, (serve e (l.script key q) s c).1 = .ok r ∧
      (Room l.alg q pre c → admitted (c, .ok r) = true) ∧
      Spent l e key q (if admitted (c, .ok r) then pre ++ [c] else pre)
        (serve e (l.script key q) s c).2 := by
  unfold Spent at hSpent ⊢
  split at hSpent <;> rename_i hAlg <;> rw [hAlg]
  · rw [script_tokenBucket hAlg]
    obtain ⟨r, hr, hAdmit, hNext⟩ := spentBucket_step hq.rate_pos hSpent c
    exact ⟨r, hr, fun hRoom => hAdmit ((one_le_headroom_iff hq pre c).mpr hRoom), hNext⟩
  · rw [script_slidingWindow hAlg]
    exact spentLog_step hSpent c
  · rw [script_fixedWindow hAlg]
    exact spentCounters_step hq hSpent c

/-- What holds after every call of a run. -/
structure JustifiedInv (l : RedisLimiter) (e : Expiry) (key : String) (q : Quota)
    (tr : List Served) (s : Store) : Prop where
  answered : Answered tr
  admitted : ∀ pre x post, tr = pre ++ x :: post → Room l.alg q (admittedCalls pre) x.1 →
    admitted x = true
  spent    : Spent l e key q (admittedCalls tr) s

/-- Along every run, every refusal is for want of room. -/
theorem justifiedInv_run (hq : ValidQuota q) (hUnused : Unused l key s) (calls : List Call) :
    JustifiedInv l e key q (transcript e (l.script key q) s calls)
      (keyspace e (l.script key q) s calls) := by
  have hInit : JustifiedInv l e key q [] s :=
    ⟨by simp [Answered], fun pre x post h => by simp at h, spent_of_unused hUnused⟩
  refine Machine.trace_invariant' hInit (fun tr s c hInv => ?_) calls
  obtain ⟨r, hr, hAdmit, hNext⟩ := spent_step hq hInv.spent c
  refine ⟨answered_concat hInv.answered hr, fun pre x post h hRoom => ?_, ?_⟩
  · rcases List.eq_nil_or_concat' post with rfl | ⟨post, y, rfl⟩
    · -- the new call
      obtain ⟨rfl, hx⟩ := List.append_inj' h rfl
      obtain rfl := List.singleton_inj.mp hx
      rw [hr]
      exact hAdmit hRoom
    · rw [← List.cons_append, ← List.append_assoc] at h
      exact hInv.admitted pre x post (List.append_inj' h rfl).1 hRoom
  · rw [admittedCalls_concat, hr]
    exact hNext

/-- A caller that stays within its allowance is admitted every time. -/
theorem JustifiedInv.all_admitted {tr : List Served} (hInv : JustifiedInv l e key q tr s)
    (hWithin : Within l.alg q (tr.map Prod.fst)) (n : ℕ) :
    ∀ x ∈ tr.take n, Limiter.admitted x = true := by
  induction n with
  | zero => simp
  | succ n ih =>
    -- within the allowance, so each call finds room for itself
    by_cases hn : n < tr.length
    · intro x hx
      rw [List.take_succ_eq_append_getElem hn, List.mem_append, List.mem_singleton] at hx
      rcases hx with hEarlier | rfl
      · exact ih x hEarlier
      · -- all the calls before it were admitted
        have hSplit : tr = tr.take n ++ tr[n] :: tr.drop (n + 1) := by
          rw [← List.drop_eq_getElem_cons hn, List.take_append_drop]
        have hRoom := hWithin n (by rwa [List.length_map])
        rw [List.getElem_map, ← List.map_take] at hRoom
        refine hInv.admitted _ _ _ hSplit ?_
        rwa [admittedCalls, List.filter_eq_self.mpr ih]
    · rw [List.take_of_length_le (by omega)]
      rwa [List.take_of_length_le (by omega)] at ih

end ByAlgorithm

/--
**No refusal without a cause.** On an unused key, for calls whose stamps reach
Redis in any order, and whether or not Redis removes keys that have run out, and
whenever it does: every call is answered, and a call for which the calls
admitted before it leave room is admitted. So a caller whose calls stay within
the allowance is never refused.
-/
theorem refusals_justified {l : RedisLimiter} {e : Expiry} {key : String} {q : Quota}
    (hq : ValidQuota q) {s : Store} (hUnused : Unused l key s) (calls : List Call) :
    let run := transcript e (l.script key q) s calls
    Answered run ∧
      (∀ pre x post, run = pre ++ x :: post → Room l.alg q (admittedCalls pre) x.1 →
        admitted x = true) ∧
      (Within l.alg q calls → ∀ x ∈ run, admitted x = true) := by
  intro run
  have hInv : JustifiedInv l e key q run _ := justifiedInv_run hq hUnused calls
  refine ⟨hInv.answered, hInv.admitted, fun hWithin x hx => ?_⟩
  refine hInv.all_admitted ?_ run.length x (by rwa [List.take_length])
  rwa [show run.map Prod.fst = calls from Machine.map_fst_trace _ _ _]

/-- Two per second. The second call is stamped a second before the other two. -/
theorem refusals_justified_demo :
    let calls : List Call := [⟨1000, 1000, "a"⟩, ⟨0, 1001, "b"⟩, ⟨1000, 1002, "c"⟩]
    let run := transcript .honoured (RedisLimiter.script ⟨.slidingWindow, "rl"⟩ "acme"
      ⟨2, 1000000000, 0⟩) empty calls
    Answered run ∧
      (∀ pre x post, run = pre ++ x :: post →
        Room .slidingWindow ⟨2, 1000000000, 0⟩ (admittedCalls pre) x.1 → admitted x = true) ∧
      (Within .slidingWindow ⟨2, 1000000000, 0⟩ calls → ∀ x ∈ run, admitted x = true) :=
  refusals_justified ⟨by decide, by decide⟩ ⟨rfl, fun _ => rfl⟩ _

example : Within .slidingWindow ⟨2, 1000000000, 0⟩
    [⟨1000, 1000, "a"⟩, ⟨0, 1001, "b"⟩, ⟨1000, 1002, "c"⟩] := by decide

-- Three tokens are asked for at once, and the bucket has two.
example : ¬Within .tokenBucket ⟨2, 1000000000, 0⟩ [⟨0, 0, ""⟩, ⟨0, 0, ""⟩, ⟨0, 0, ""⟩] := by
  decide +kernel

end RatelimitGateway.Limiter
