import RatelimitGateway.Lib.CatchUp
import RatelimitGateway.Limiter.Expiry
import RatelimitGateway.Limiter.WorstCase

/-!
# Which limiter admits more

Three algorithms can serve one quota, and an operator can raise a quota. Call
by call neither choice is monotone: a caller who got more through earlier may
be refused where a stricter limiter would have let the call pass. Over every
prefix of a run it is.

* `sliding_window_strictest`  — under one quota the sliding window never
  admits more calls than either of the others;
* `upgrade_never_costs`       — a quota that permits more (`AtLeast`) never
  admits fewer calls.

Both are read off the admission laws of the three scripts, each brought into
one form: whether a call is admitted depends on what certain stretches of the
run that end in it have admitted.
-/

namespace RatelimitGateway.Limiter

open KeyStore Redis CatchUp

/-- How many of the first `n` calls of a run are admitted. -/
def admittedBy (l : RedisLimiter) (key : String) (q : Quota) (s : Store) (calls : List Call)
    (n : ℕ) : ℕ :=
  admittedCount ((transcript .honoured (l.script key q) s calls).take n)

-- ---------------------------------------------------------------------------
-- Stretches of a transcript
-- ---------------------------------------------------------------------------

section Stretches

variable {e : Expiry} {script : Call → Script Reply} {s : Store} {calls : List Call}

theorem length_transcript : (transcript e script s calls).length = calls.length :=
  Machine.length_trace _ _ _

theorem map_fst_transcript (e : Expiry) (script : Call → Script Reply) (s : Store)
    (calls : List Call) : (transcript e script s calls).map Prod.fst = calls :=
  Machine.map_fst_trace _ _ _

theorem transcript_call {j : ℕ} (hj : j < (transcript e script s calls).length)
    (hj' : j < calls.length) : (transcript e script s calls)[j].1 = calls[j] := by
  have hAt := List.getElem_of_eq (map_fst_transcript e script s calls) (by rwa [List.length_map])
  rwa [List.getElem_map] at hAt

/-- The calls of an in-order run that are stamped after `cut` are a suffix of it. -/
theorem exists_suffix_after (hOrder : InOrder calls) (cut : ℤ) :
    ∃ i, ∀ k (hk : k < calls.length), cut < calls[k].nowMs ↔ i ≤ k := by
  obtain ⟨i, hi⟩ := exists_suffix_of_monotone (p := fun c : Call => decide (cut < c.nowMs))
    (hOrder.imp fun hab => by simpa using fun hCut => lt_of_lt_of_le hCut hab)
  exact ⟨i, fun k hk => by simpa using hi k hk⟩

/-- The calls of a prefix that are stamped after `cut`. -/
theorem take_filter_after {cut : ℤ} {i : ℕ}
    (hSuffix : ∀ k (hk : k < calls.length), cut < calls[k].nowMs ↔ i ≤ k) (j : ℕ) :
    ((transcript e script s calls).take j).filter (fun x => decide (cut < x.1.nowMs)) =
      ((transcript e script s calls).take j).drop i := by
  refine filter_eq_drop fun k hk => ?_
  have hk' : k < (transcript e script s calls).length := by
    rw [List.length_take] at hk
    omega
  rw [List.getElem_take, decide_eq_true_eq, transcript_call hk' (length_transcript ▸ hk')]
  exact hSuffix k _

theorem stamp_le (hOrder : InOrder calls) {i j : ℕ} (hij : i ≤ j) (hj : j < calls.length) :
    calls[i].nowMs ≤ calls[j].nowMs := by
  rcases hij.lt_or_eq with hlt | rfl
  · exact List.pairwise_iff_getElem.mp hOrder i j (by omega) hj hlt
  · rfl

theorem stamp_le_of_mem_take (hOrder : InOrder calls) {j : ℕ} (hj : j < calls.length) :
    ∀ a ∈ calls.take j, a.nowMs ≤ calls[j].nowMs := by
  intro a ha
  obtain ⟨k, hk, rfl⟩ := List.mem_take_iff_getElem.mp ha
  exact stamp_le hOrder (by omega) hj

end Stretches

-- ---------------------------------------------------------------------------
-- The laws, on stretches
-- ---------------------------------------------------------------------------

/-- A window that ends with the last stamp holds every call after its cutoff. -/
theorem windowCount_of_past {tr : List Served} {windowMs t : ℤ}
    (hPast : ∀ x ∈ tr, x.1.nowMs ≤ t) :
    windowCount windowMs t (admittedCalls tr) =
      admittedCount (tr.filter fun x => decide (t - windowMs < x.1.nowMs)) := by
  rw [windowCount, admittedCalls, List.countP_map, List.countP_filter, admittedCount,
    List.countP_filter]
  refine List.countP_congr fun x hx => ?_
  simp [inWindow, hPast x hx, and_comm]

section Laws

variable {s : Store} {calls : List Call}

/-- `token_bucket.lua` admits a call when every stretch that ends in it leaves room
for one more. -/
theorem bucket_admits_iff {key : String} {rate burst : ℚ} (hBurst : 1 ≤ burst) (hRate : 0 < rate)
    (hAbsent : s key = none) (hOrder : InOrder calls) {j : ℕ} (hj : j < calls.length)
    (hj' : j < (transcript .ignored (tokenBucketCall key rate burst) s calls).length) :
    admitted (transcript .ignored (tokenBucketCall key rate burst) s calls)[j] = true ↔
      ∀ i (hi : i ≤ j), (admittedCount (((transcript .ignored (tokenBucketCall key rate burst) s
          calls).take j).drop i) : ℚ) + 1 ≤
        burst + rate * ((calls[j].nowMs : ℚ) - calls[i].nowMs) / 1000 := by
  have hInv := admissionInv_run (zero_le_one.trans hBurst) hRate hAbsent hOrder
  rw [hInv.law j hj', le_headroom_flow hj']
  constructor
  · rintro ⟨-, hAll⟩ i hi
    -- a stretch with earlier calls, or the call alone
    rcases hi.lt_or_eq with hlt | rfl
    · have hHere := hAll i hlt
      rwa [transcript_call hj' hj, transcript_call (by omega) (by omega)] at hHere
    · -- the stretch that consists of the call alone
      simpa [admittedCount] using hBurst
  · intro hAll
    refine ⟨hBurst, fun i hi => ?_⟩
    rw [transcript_call hj' hj, transcript_call (by omega) (by omega)]
    exact hAll i hi.le

/-- `sliding_window.lua` admits a call when the stretch since its cutoff has
admitted fewer than `limit`. -/
theorem sliding_admits_iff {key : String} {windowMs limit : ℤ} (hLimit : 1 ≤ limit)
    (hWindow : 1 ≤ windowMs) (hAbsent : s key = none) (hOrder : InOrder calls)
    (hDistinct : DistinctMembers calls) {j : ℕ} (hj : j < calls.length) {i : ℕ}
    (hSuffix : ∀ k (hk : k < calls.length), calls[j].nowMs - windowMs < calls[k].nowMs ↔ i ≤ k)
    (hj' : j < (transcript .ignored (slidingWindowCall key windowMs limit) s calls).length) :
    admitted (transcript .ignored (slidingWindowCall key windowMs limit) s calls)[j] = true ↔
      (admittedCount (((transcript .ignored (slidingWindowCall key windowMs limit) s
        calls).take j).drop i) : ℤ) < limit := by
  have hInv := windowInv_run hLimit hWindow hAbsent hOrder hDistinct
  rw [hInv.law j hj', transcript_call hj' hj, windowCount_of_past, take_filter_after hSuffix]
  intro x hx
  refine stamp_le_of_mem_take hOrder hj x.1 ?_
  rw [← map_fst_transcript .ignored (slidingWindowCall key windowMs limit) s calls,
    ← List.map_take]
  exact List.mem_map_of_mem hx

/-- `fixed_window.lua` admits a call when fewer than `limit` calls precede it in
its aligned window, admitted or not. -/
theorem fixed_admits_iff {keyPrefix : String} {windowMs : ℤ} (limit : ℤ) (hWindow : 1 ≤ windowMs)
    (hUnused : NoCounters s keyPrefix) {j : ℕ} (hj : j < calls.length)
    (hj' : j < (transcript .ignored (fixedWindowCall keyPrefix windowMs limit) s calls).length) :
    admitted (transcript .ignored (fixedWindowCall keyPrefix windowMs limit) s calls)[j] = true ↔
      ((calls.take j).countP (fun a => sameWindow windowMs a calls[j]) : ℤ) < limit := by
  have hRun := (List.take_append_drop j
    (transcript .ignored (fixedWindowCall keyPrefix windowMs limit) s calls)).symm
  rw [List.drop_eq_getElem_cons hj'] at hRun
  have hReply := reply_of_earlier limit hWindow hUnused hRun
  rw [List.map_take, map_fst_transcript, transcript_call hj' hj] at hReply
  rw [show (transcript .ignored (fixedWindowCall keyPrefix windowMs limit) s calls)[j] =
    (calls[j], _) from Prod.ext (transcript_call hj' hj) hReply, admitted_fixedReply,
    decide_eq_true_eq]
  omega

/-- The windows that end at `t`, one window length apart, reach back as far as
needed. -/
theorem exists_window_before {windowMs : ℤ} (hWindow : 1 ≤ windowMs) {start t : ℤ} {a : Call}
    (hFrom : start ≤ a.nowMs) (hTo : a.nowMs ≤ t) :
    ∃ m < ((t - start) / windowMs).toNat + 1, inWindow windowMs (t - m * windowMs) a = true := by
  have hAge := Int.ediv_nonneg (show 0 ≤ t - a.nowMs by omega) (show 0 ≤ windowMs by omega)
  have hOldest := Int.ediv_le_ediv (by omega : 0 < windowMs)
    (show t - a.nowMs ≤ t - start by omega)
  have hBelow := Int.ediv_mul_le (t - a.nowMs) (show windowMs ≠ 0 by omega)
  have hAbove := Int.lt_ediv_add_one_mul_self (t - a.nowMs) (show 0 < windowMs by omega)
  rw [add_mul] at hAbove
  refine ⟨((t - a.nowMs) / windowMs).toNat, by omega, ?_⟩
  simp only [inWindow, decide_eq_true_eq, Int.toNat_of_nonneg hAge]
  omega

/-- The calls of a stretch are stamped between its first and its last. -/
theorem stamps_of_stretch {script : Call → Script Reply} {e : Expiry} (hOrder : InOrder calls)
    {i j : ℕ} (hj : j < calls.length) (hi : i < calls.length) {x : Served}
    (hx : x ∈ ((transcript e script s calls).take (j + 1)).drop i) :
    calls[i].nowMs ≤ x.1.nowMs ∧ x.1.nowMs ≤ calls[j].nowMs := by
  have hMem := List.mem_map_of_mem (f := Prod.fst) hx
  rw [List.map_drop, List.map_take, map_fst_transcript] at hMem
  obtain ⟨k, hk, hxk⟩ := List.mem_drop_iff_getElem.mp hMem
  rw [List.length_take] at hk
  rw [List.getElem_take] at hxk
  rw [← hxk]
  exact ⟨stamp_le hOrder (by omega) (by omega), stamp_le hOrder (by omega) hj⟩

/-- What `sliding_window.lua` admits in any stretch of a run. -/
theorem sliding_stretch_le {key : String} {windowMs limit : ℤ} (hLimit : 1 ≤ limit)
    (hWindow : 1 ≤ windowMs) (hAbsent : s key = none) (hOrder : InOrder calls)
    (hDistinct : DistinctMembers calls) {i j : ℕ} (hj : j < calls.length) (hi : i < calls.length)
    (hElapsed : calls[i].nowMs ≤ calls[j].nowMs) :
    (admittedCount (((transcript .ignored (slidingWindowCall key windowMs limit) s
        calls).take (j + 1)).drop i) : ℤ) * windowMs ≤
      limit * (windowMs + (calls[j].nowMs - calls[i].nowMs)) := by
  have hCap := (windowInv_run hLimit hWindow hAbsent hOrder hDistinct).cap
  set run := transcript .ignored (slidingWindowCall key windowMs limit) s calls with hRun
  set n := ((calls[j].nowMs - calls[i].nowMs) / windowMs).toNat + 1 with hn
  have hLength : ((admittedCalls ((run.take (j + 1)).drop i)).length : ℤ) ≤ n * limit := by
    refine @length_le_of_classes _ n limit
      (fun m => inWindow windowMs (calls[j].nowMs - m * windowMs)) _ (fun a ha => ?_) fun m _ => ?_
    · -- the stretch is covered by `n` windows, each of which admits at most the limit
      obtain ⟨x, hx, rfl⟩ := mem_of_mem_admittedCalls ha
      obtain ⟨hFrom, hTo⟩ := stamps_of_stretch hOrder hj hi hx
      exact exists_window_before hWindow hFrom hTo
    · have hSub : (admittedCalls ((run.take (j + 1)).drop i)).Sublist (admittedCalls run) :=
        (((List.drop_sublist _ _).trans (List.take_sublist _ _)).filter _).map _
      exact le_trans (mod_cast hSub.countP_le) (hCap _)
  have hCount : admittedCount ((run.take (j + 1)).drop i) =
      (admittedCalls ((run.take (j + 1)).drop i)).length := by
    rw [admittedCalls, List.length_map, admittedCount, List.countP_eq_length_filter]
  have hDiv := Int.ediv_mul_le (calls[j].nowMs - calls[i].nowMs) (show windowMs ≠ 0 by omega)
  -- the last of the `n` windows reaches back at most to the first call
  have hWindows : (n : ℤ) * windowMs ≤ windowMs + (calls[j].nowMs - calls[i].nowMs) := by
    rw [hn, Nat.cast_add, Int.toNat_of_nonneg (Int.ediv_nonneg (by omega) (by omega))]
    push_cast
    linarith
  rw [hCount]
  calc ((admittedCalls ((run.take (j + 1)).drop i)).length : ℤ) * windowMs
      ≤ n * limit * windowMs := by gcongr
    _ = limit * (n * windowMs) := by ring
    _ ≤ limit * (windowMs + (calls[j].nowMs - calls[i].nowMs)) := by gcongr

end Laws

/-- A window's worth of refill is the limit. -/
theorem WholeQuota.refill {q : Quota} (hq : WholeQuota q) :
    q.ratePerSecond * q.windowMs = 1000 * q.limit := by
  have hWindow : (q.windowMs : ℚ) ≠ 0 := by
    have := hq.window
    exact_mod_cast (by omega : q.windowMs ≠ 0)
  rw [Quota.ratePerSecond, if_neg (by have := hq.valid.window_pos; omega), hq.whole]
  push_cast
  field_simp
  ring

/-- What fits into windows fits into the bucket. -/
theorem WholeQuota.le_refill {q : Quota} (hq : WholeQuota q) (hBurst : q.limit ≤ q.burstCapacity)
    {n : ℕ} {elapsed : ℤ} (hFits : (n : ℤ) * q.windowMs ≤ q.limit * (q.windowMs + elapsed)) :
    (n : ℚ) ≤ q.burstCapacity + q.ratePerSecond * elapsed / 1000 := by
  have hWindow : (0 : ℚ) < q.windowMs := by exact_mod_cast hq.window
  have hFits' : (n : ℚ) * q.windowMs ≤ q.limit * (q.windowMs + elapsed) := by exact_mod_cast hFits
  have hBurst' : (q.limit : ℚ) ≤ q.burstCapacity := by exact_mod_cast hBurst
  refine le_of_mul_le_mul_right ?_ hWindow
  calc (n : ℚ) * q.windowMs ≤ q.limit * (q.windowMs + elapsed) := hFits'
    _ = q.limit * q.windowMs + q.ratePerSecond * q.windowMs * elapsed / 1000 := by
        rw [hq.refill]
        ring
    _ ≤ q.burstCapacity * q.windowMs + q.ratePerSecond * q.windowMs * elapsed / 1000 := by gcongr
    _ = (q.burstCapacity + q.ratePerSecond * elapsed / 1000) * q.windowMs := by ring

-- ---------------------------------------------------------------------------
-- Three algorithms under one quota
-- ---------------------------------------------------------------------------

section Strictest

variable {q : Quota} {key key' : String} {s : Store} {calls : List Call}

/-- Where no stretch of the bucket's run has more admitted than the log's, the
bucket has a token for what the log has room for. -/
theorem sliding_le_tokenBucket (hq : WholeQuota q) (hBurst : q.limit ≤ q.burstCapacity)
    (hAbsent : s key = none) (hAbsent' : s key' = none) (hOrder : InOrder calls)
    (hDistinct : DistinctMembers calls) (n : ℕ) :
    admittedCount
        ((transcript .ignored (slidingWindowCall key q.windowMs q.limit) s calls).take n) ≤
      admittedCount ((transcript .ignored
        (tokenBucketCall key' q.ratePerSecond q.burstCapacity) s calls).take n) := by
  have hOne : (1 : ℚ) ≤ q.burstCapacity := mod_cast hq.valid.burst_pos
  refine countP_take_le_of_catch_up (by simp only [length_transcript])
    (fun j hj hj' hLess hAdmit => ?_) n
  rw [length_transcript] at hj
  rw [bucket_admits_iff hOne hq.valid.rate_pos hAbsent' hOrder hj hj']
  intro i hi
  have hCount := hLess i hi
  -- the stretch of the log's run that ends with call `j`
  have hHere := countP_stretch admitted (transcript .ignored
    (slidingWindowCall key q.windowMs q.limit) s calls) hi
  have hNext := countP_stretch admitted (transcript .ignored
    (slidingWindowCall key q.windowMs q.limit) s calls) (show i ≤ j + 1 by omega)
  rw [countP_take_succ _ _ (by rwa [length_transcript]), if_pos hAdmit] at hNext
  -- the stretch fits into capacity plus refill, since the limit is the rate times the window
  have hFits := hq.le_refill hBurst (sliding_stretch_le hq.limit hq.window hAbsent hOrder hDistinct
    hj (by omega) (stamp_le hOrder hi hj))
  refine le_trans ?_ (le_trans hFits (le_of_eq (by push_cast; ring)))
  exact_mod_cast (show admittedCount _ + 1 ≤ admittedCount _ by
    simp only [admittedCount]
    omega)

/-- The calls before `calls[j]` in its aligned window are the stretch since that
window began. -/
theorem countP_sameWindow {windowMs : ℤ} (hWindow : 1 ≤ windowMs) (hOrder : InOrder calls) {j : ℕ}
    (hj : j < calls.length) {i : ℕ} (hSuffix : ∀ k (hk : k < calls.length),
      calls[j].nowMs / windowMs * windowMs - 1 < calls[k].nowMs ↔ i ≤ k) :
    (calls.take j).countP (fun a => sameWindow windowMs a calls[j]) = j - i := by
  have hDrop : (calls.take j).filter (fun a => sameWindow windowMs a calls[j]) =
      (calls.take j).drop i := by
    refine filter_eq_drop fun k hk => ?_
    rw [List.length_take] at hk
    rw [List.getElem_take, ← hSuffix k (by omega), sameWindow, decide_eq_true_eq]
    have hPast := stamp_le hOrder (show k ≤ j by omega) hj
    -- the suffix begins with the first call of the aligned window
    constructor
    · intro hSame
      have := Int.ediv_mul_le calls[k].nowMs (show windowMs ≠ 0 by omega)
      rw [hSame] at this
      omega
    · intro hAfter
      refine le_antisymm (Int.ediv_le_ediv (by omega) hPast) ?_
      exact (Int.le_ediv_iff_mul_le (by omega)).mpr (by omega)
  rw [List.countP_eq_length_filter, hDrop, List.length_drop, List.length_take]
  omega

/-- A window that refuses has admitted `limit` calls. -/
theorem fixed_full {keyPrefix : String} {windowMs limit : ℤ} (hLimit : 1 ≤ limit)
    (hWindow : 1 ≤ windowMs) (hUnused : NoCounters s keyPrefix) (hOrder : InOrder calls) {j : ℕ}
    (hj : j < calls.length) {i : ℕ} (hSuffix : ∀ k (hk : k < calls.length),
      calls[j].nowMs / windowMs * windowMs - 1 < calls[k].nowMs ↔ i ≤ k)
    (hFull : limit ≤ (j - i : ℕ)) :
    limit ≤ admittedCount (((transcript .ignored (fixedWindowCall keyPrefix windowMs limit) s
      calls).take j).drop i) := by
  set run := transcript .ignored (fixedWindowCall keyPrefix windowMs limit) s calls with hRun
  have hLength : run.length = calls.length := length_transcript
  -- the first calls of an aligned window are admitted, as many as the limit
  have hFirst : ∀ x ∈ ((run.take j).drop i).take limit.toNat, admitted x = true := by
    intro x hx
    obtain ⟨m, hm, rfl⟩ := List.mem_take_iff_getElem.mp hx
    simp only [List.length_drop, List.length_take] at hm
    have hk : i + m < calls.length := by omega
    simp only [List.getElem_drop, List.getElem_take]
    -- call `i + m` is stamped in the window of call `j`
    have hAfter := (hSuffix (i + m) hk).mpr (by omega)
    have hPast := stamp_le hOrder (show i + m ≤ j by omega) hj
    have hSame : calls[i + m].nowMs / windowMs = calls[j].nowMs / windowMs :=
      le_antisymm (Int.ediv_le_ediv (by omega) hPast)
        ((Int.le_ediv_iff_mul_le (by omega)).mpr (by omega))
    rw [fixed_admits_iff limit hWindow hUnused hk (by rwa [length_transcript]),
      countP_sameWindow hWindow hOrder hk (by rwa [hSame])]
    omega
  have hCount := List.countP_eq_length.mpr hFirst
  have hSub := (List.take_sublist limit.toNat ((run.take j).drop i)).countP_le (p := admitted)
  rw [hCount, List.length_take, List.length_drop, List.length_take] at hSub
  rw [admittedCount]
  omega

/-- The sliding window never has admitted more than the fixed window. -/
theorem sliding_le_fixed (hq : ValidQuota q) (hAbsent : s key = none)
    (hUnused : NoCounters s key') (hOrder : InOrder calls) (hDistinct : DistinctMembers calls)
    (n : ℕ) :
    admittedCount
        ((transcript .ignored (slidingWindowCall key q.windowMs q.limit) s calls).take n) ≤
      admittedCount
        ((transcript .ignored (fixedWindowCall key' q.windowMs q.limit) s calls).take n) := by
  refine countP_take_le_of_catch_up (by simp only [length_transcript])
    (fun j hj hj' hLess hAdmit => ?_) n
  have hjc : j < calls.length := by rwa [length_transcript] at hj
  obtain ⟨i, hi⟩ := exists_suffix_after hOrder (calls[j].nowMs / q.windowMs * q.windowMs - 1)
  obtain ⟨w, hw⟩ := exists_suffix_after hOrder (calls[j].nowMs - q.windowMs)
  rw [sliding_admits_iff hq.limit hq.window hAbsent hOrder hDistinct hjc hw hj] at hAdmit
  rw [fixed_admits_iff q.limit hq.window hUnused hjc hj',
    countP_sameWindow hq.window hOrder hjc hi]
  by_contra hRefused
  -- refused by the counter: the aligned window is full already
  have hFull := fixed_full hq.limit hq.window hUnused hOrder hjc hi (not_lt.mp hRefused)
  -- the window that ends with call `j` reaches back to before its aligned window
  have hWindow := hq.window
  have hLimit := hq.limit
  have hReach : w ≤ i := by
    have hij : i < calls.length := by omega
    have hFrom := (hi i hij).mpr le_rfl
    have hMod := Int.lt_ediv_add_one_mul_self calls[j].nowMs (show 0 < q.windowMs by omega)
    rw [add_mul] at hMod
    exact (hw i hij).mp (by omega)
  have hLess' := hLess i (by omega)
  have hMore := (List.drop_sublist_drop_left ((transcript .ignored
    (slidingWindowCall key q.windowMs q.limit) s calls).take j) hReach).countP_le (p := admitted)
  simp only [admittedCount] at hFull hAdmit
  omega

end Strictest

/-- Does `q'` permit at least what `q` permits? For the fixed window the new
windows have to divide the old ones. -/
def AtLeast (alg : Algorithm) (q q' : Quota) : Prop :=
  match alg with
  | .tokenBucket => q.ratePerSecond ≤ q'.ratePerSecond ∧ q.burstCapacity ≤ q'.burstCapacity
  | .slidingWindow => q.limit ≤ q'.limit ∧ q'.windowMs ≤ q.windowMs
  | .fixedWindow => q.limit ≤ q'.limit ∧ q'.windowMs ∣ q.windowMs

section Upgrade

variable {q q' : Quota} {key : String} {s : Store} {calls : List Call}

/-- A bucket with more never has admitted less. -/
theorem tokenBucket_upgrade (hq : ValidQuota q) (hq' : ValidQuota q')
    (hMore : AtLeast .tokenBucket q q') (hAbsent : s key = none) (hOrder : InOrder calls) (n : ℕ) :
    admittedCount ((transcript .ignored
        (tokenBucketCall key q.ratePerSecond q.burstCapacity) s calls).take n) ≤
      admittedCount ((transcript .ignored
        (tokenBucketCall key q'.ratePerSecond q'.burstCapacity) s calls).take n) := by
  obtain ⟨hRate, hBurst⟩ := hMore
  have hBurst' : (q.burstCapacity : ℚ) ≤ q'.burstCapacity := by exact_mod_cast hBurst
  have hOne : (1 : ℚ) ≤ q.burstCapacity := mod_cast hq.burst_pos
  refine countP_take_le_of_catch_up (by simp only [length_transcript])
    (fun j hj hj' hLess hAdmit => ?_) n
  have hjc : j < calls.length := by rwa [length_transcript] at hj
  rw [bucket_admits_iff hOne hq.rate_pos hAbsent hOrder hjc hj] at hAdmit
  rw [bucket_admits_iff (hOne.trans hBurst') hq'.rate_pos hAbsent hOrder hjc hj']
  intro i hi
  have hOld := hAdmit i hi
  -- on each stretch the larger quota has admitted no more up to here
  have hCount : (admittedCount (((transcript .ignored
        (tokenBucketCall key q'.ratePerSecond q'.burstCapacity) s calls).take j).drop i) : ℚ) ≤
      admittedCount (((transcript .ignored
        (tokenBucketCall key q.ratePerSecond q.burstCapacity) s calls).take j).drop i) := by
    exact_mod_cast hLess i hi
  have hElapsed := stamp_le hOrder hi hjc
  have hElapsed' : (0 : ℚ) ≤ (calls[j].nowMs : ℚ) - calls[i].nowMs :=
    sub_nonneg.mpr (mod_cast hElapsed)
  have hRefill : q.ratePerSecond * ((calls[j].nowMs : ℚ) - calls[i].nowMs) / 1000 ≤
      q'.ratePerSecond * ((calls[j].nowMs : ℚ) - calls[i].nowMs) / 1000 := by gcongr
  linarith

/-- A log of a quota with more never has admitted less. -/
theorem slidingWindow_upgrade (hq : ValidQuota q) (hq' : ValidQuota q')
    (hMore : AtLeast .slidingWindow q q') (hAbsent : s key = none) (hOrder : InOrder calls)
    (hDistinct : DistinctMembers calls) (n : ℕ) :
    admittedCount
        ((transcript .ignored (slidingWindowCall key q.windowMs q.limit) s calls).take n) ≤
      admittedCount
        ((transcript .ignored (slidingWindowCall key q'.windowMs q'.limit) s calls).take n) := by
  obtain ⟨hLimit, hWindow⟩ := hMore
  refine countP_take_le_of_catch_up (by simp only [length_transcript])
    (fun j hj hj' hLess hAdmit => ?_) n
  have hjc : j < calls.length := by rwa [length_transcript] at hj
  obtain ⟨i, hi⟩ := exists_suffix_after hOrder (calls[j].nowMs - q.windowMs)
  obtain ⟨i', hi'⟩ := exists_suffix_after hOrder (calls[j].nowMs - q'.windowMs)
  rw [sliding_admits_iff hq.limit hq.window hAbsent hOrder hDistinct hjc hi hj] at hAdmit
  rw [sliding_admits_iff hq'.limit hq'.window hAbsent hOrder hDistinct hjc hi' hj']
  have hInside : i' ≤ j := (hi' j hjc).mp (by have := hq'.window; omega)
  -- the shorter window begins later
  have hReach : i ≤ i' := (hi i' (by omega)).mp (by
    have := (hi' i' (by omega)).mpr le_rfl
    omega)
  have hLess' := hLess i' hInside
  have hFewer := (List.drop_sublist_drop_left ((transcript .ignored
    (slidingWindowCall key q.windowMs q.limit) s calls).take j) hReach).countP_le (p := admitted)
  simp only [admittedCount] at hAdmit ⊢
  omega

/-- Calls that share a window share every window that it is a part of. -/
theorem sameWindow_of_dvd {windowMs windowMs' : ℤ} (hWindow' : 1 ≤ windowMs')
    (hDvd : windowMs' ∣ windowMs) {a b : Call} (hSame : sameWindow windowMs' a b = true) :
    sameWindow windowMs a b = true := by
  obtain ⟨m, rfl⟩ := hDvd
  simp only [sameWindow, decide_eq_true_eq] at hSame ⊢
  rw [← Int.ediv_ediv_of_nonneg (by omega), ← Int.ediv_ediv_of_nonneg (by omega), hSame]

/-- Nor has a counter. -/
theorem fixedWindow_upgrade (hq : ValidQuota q) (hq' : ValidQuota q')
    (hMore : AtLeast .fixedWindow q q') (hUnused : NoCounters s key) (n : ℕ) :
    admittedCount
        ((transcript .ignored (fixedWindowCall key q.windowMs q.limit) s calls).take n) ≤
      admittedCount
        ((transcript .ignored (fixedWindowCall key q'.windowMs q'.limit) s calls).take n) := by
  obtain ⟨hLimit, hDvd⟩ := hMore
  refine countP_take_le_of_catch_up (by simp only [length_transcript])
    (fun j hj hj' _ hAdmit => ?_) n
  have hjc : j < calls.length := by rwa [length_transcript] at hj
  rw [fixed_admits_iff q.limit hq.window hUnused hjc hj] at hAdmit
  rw [fixed_admits_iff q'.limit hq'.window hUnused hjc hj']
  have hFewer := List.countP_mono_left (l := calls.take j)
    (p := fun a => sameWindow q'.windowMs a calls[j])
    (q := fun a => sameWindow q.windowMs a calls[j])
    fun a _ hSame => sameWindow_of_dvd hq'.window hDvd hSame
  omega

end Upgrade

/--
**An upgrade never costs.** A quota that permits at least as much, for the
algorithm that enforces it. On unused keys, when the scripts run at the stamps
of their calls and the stamps never step back: after every call of the run,
the caller has been admitted at least as often as under the old quota.
-/
theorem upgrade_never_costs {l : RedisLimiter} {key : String} {q q' : Quota} (hq : ValidQuota q)
    (hq' : ValidQuota q') (hMore : AtLeast l.alg q q') {s : Store} (hUnused : Unused l key s)
    {calls : List Call} (hOrder : InOrder calls) (hOnTime : ∀ c ∈ calls, OnTime c)
    (hDistinct : DistinctMembers calls) (n : ℕ) :
    admittedBy l key q s calls n ≤ admittedBy l key q' s calls n := by
  simp only [admittedBy]
  rw [transcript_onTime hq hUnused hOrder hOnTime, transcript_onTime hq' hUnused hOrder hOnTime]
  cases hAlg : l.alg with
  | tokenBucket =>
    rw [hAlg] at hMore
    rw [script_tokenBucket hAlg, script_tokenBucket hAlg]
    exact tokenBucket_upgrade hq hq' hMore hUnused.entry hOrder n
  | slidingWindow =>
    rw [hAlg] at hMore
    rw [script_slidingWindow hAlg, script_slidingWindow hAlg]
    exact slidingWindow_upgrade hq hq' hMore hUnused.entry hOrder hDistinct n
  | fixedWindow =>
    rw [hAlg] at hMore
    rw [script_fixedWindow hAlg, script_fixedWindow hAlg]
    exact fixedWindow_upgrade hq hq' hMore hUnused.counters n

/-- From one call per two seconds to one per second. The larger bucket has
spent its token on the second call when the third one comes. -/
theorem upgrade_never_costs_demo :
    let calls : List Call := [⟨0, 0, "a"⟩, ⟨1500, 1500, "b"⟩, ⟨2000, 2000, "c"⟩]
    admittedBy ⟨.tokenBucket, "rl"⟩ "acme" ⟨1, 2000000000, 0⟩ empty calls 3 ≤
      admittedBy ⟨.tokenBucket, "rl"⟩ "acme" ⟨1, 1000000000, 0⟩ empty calls 3 :=
  upgrade_never_costs (by constructor <;> decide) (by constructor <;> decide)
    (by exact ⟨by decide +kernel, by decide⟩) ⟨rfl, fun _ => rfl⟩ (by simp [InOrder])
    (by simp [OnTime]) (by simp [DistinctMembers]) 3

end RatelimitGateway.Limiter
