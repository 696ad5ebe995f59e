import RatelimitGateway.Limiter.Doubles

/-!
# When the allowance is restored

`reset_after_ms` is the time to a full bucket under the token bucket and the time to
the end of the window under the fixed window; after it, a call should find the key as
good as unused. Under the sliding window it is the time until the oldest entry ages
out, and younger entries stay: the allowance is restored by then only when all that
counts carries one stamp.

The numbers are doubles here, and this matters twice. What flows into a bucket in the
time that is left can be rounded to a little less than what is missing. And a limit
beyond 2^53 need not have a double, nor the limit less one.

* `resetAfter_restores_iff` — for which decisions `reset_after_ms` means that the
  allowance is fully restored;
* `restoresAll_iff`         — what that is for limits up to 2^53.
-/

namespace RatelimitGateway.Limiter.Doubles

open KeyStore Redis

/-- A reply as on a key that was never used. -/
def Fresh (applied : ℤ) (x : Except RedisError Reply) : Prop :=
  ∃ r, x = .ok r ∧ r.allowed = 1 ∧ r.remaining = applied - 1

/-- A call that finds so much leaves one less than the applied limit. -/
def LeavesOneLess (applied : ℤ) (found : ℚ) : Prop := ⌊float64 (found - 1)⌋ = applied - 1

instance (applied : ℤ) (found : ℚ) : Decidable (LeavesOneLess applied found) :=
  inferInstanceAs (Decidable (_ = _))

/-- The stamps of the calls that count against this one, with its own if it is
admitted. -/
def countedStamps (windowMs limit : ℤ) (log : SortedSet ℤ String) (c : Call) : List ℤ :=
  let young := (log.removeUpTo (c.nowMs - windowMs)).entries
  if (young.length : ℤ) < limit then
    c.nowMs :: (young.filter fun e => !decide (e.2 = c.member)).map Prod.fst
  else young.map Prod.fst

/-- How many stamps are later than the first. -/
def laterStamps (stamps : List ℤ) : ℕ := stamps.countP fun t => stamps.any fun u => u < t

/-- What has become of some tokens by the time at which they are said to fill the
bucket. -/
def bucketAtReset (rate burst : ℚ) (nowMs : ℤ) (left : ℚ) : ℚ :=
  refilled rate burst left
    (elapsed (float64 nowMs) (float64 (nowMs + bucketReset rate burst left : ℤ)))

/-- What a call finds at the time at which the allowance should be restored: the tokens
that have flowed in by then, or the room that the entries with later stamps leave. -/
def foundAtReset (l : RedisLimiter) (key : String) (q : Quota) (s : Store) (c : Call) : ℚ :=
  match l.alg with
  | .tokenBucket =>
    let rate := ratePerSecond q
    let burst := float64 q.burstCapacity
    bucketAtReset rate burst c.nowMs
      (tokensLeft 1 (found .honoured (l.redisKey key) rate burst s c))
  | .slidingWindow =>
    float64 q.limit - laterStamps (countedStamps q.windowMs (float64Int q.limit)
      (foundLog .honoured (l.redisKey key) s c) c)
  | .fixedWindow => float64 q.limit

/-- Taking one from the full allowance, and from what is there at the reset time, leaves
one less than the limit. -/
structure RestoresAll (maxTtl : ℤ) (l : RedisLimiter) (key : String) (q : Quota) (s : Store)
    (c : Call) : Prop where
  counts : LeavesOneLess (l.appliedLimit q) (float64 (l.appliedLimit q))
  full   : LeavesOneLess (l.appliedLimit q) (foundAtReset l key q s c)
  /-- Redis takes the time to live of that call. -/
  fits   : l.alg = .tokenBucket → bucketTtl (ratePerSecond q) (float64 q.burstCapacity) 1
    (foundAtReset l key q s c) ≤ maxTtl

section LeavesOneLess

variable {applied : ℤ} {x low high : ℚ}

/-- There must be one to take. -/
theorem LeavesOneLess.one_le (h : LeavesOneLess applied x) (hApplied : 1 ≤ applied) : 1 ≤ x := by
  by_contra hShort
  have hNeg := float64_neg_of_neg (sub_neg.mpr (not_le.mp hShort))
  have hFloor : ⌊float64 (x - 1)⌋ < 0 := Int.floor_lt.mpr (by exact_mod_cast hNeg)
  unfold LeavesOneLess at h
  omega

/-- What leaves one less at both ends of a range does in between. -/
theorem LeavesOneLess.between (hLow : LeavesOneLess applied low)
    (hHigh : LeavesOneLess applied high) (hAbove : low ≤ x) (hBelow : x ≤ high) :
    LeavesOneLess applied x := by
  refine le_antisymm ?_ ?_
  · rw [← hHigh]
    exact Int.floor_le_floor (float64_mono (sub_le_sub_right hBelow 1))
  · rw [← hLow]
    exact Int.floor_le_floor (float64_mono (sub_le_sub_right hAbove 1))

theorem leavesOneLess_intCast {n : ℤ} :
    LeavesOneLess applied (n : ℚ) ↔ float64Int (n - 1) = applied - 1 := by
  rw [LeavesOneLess, float64Int]
  push_cast
  rfl

/-- Up to 2^53 every double less than the limit leaves less. -/
theorem leavesOneLess_iff (hApplied : 1 ≤ applied) (hSmall : applied ≤ 2 ^ 53)
    (hDouble : 1 ≤ x → float64 x = x) (hMost : x ≤ applied) :
    LeavesOneLess applied x ↔ x = applied := by
  have hTop : (applied : ℚ) ≤ 2 ^ 53 := by exact_mod_cast hSmall
  constructor
  · intro h
    have hOne := h.one_le hApplied
    rw [LeavesOneLess, float64_sub_one (hDouble hOne) hOne (hMost.trans hTop),
      Int.floor_sub_one, sub_left_inj] at h
    exact le_antisymm hMost (h ▸ Int.floor_le x)
  · rintro rfl
    rw [leavesOneLess_intCast, float64Int_of_small (abs_le.mpr ⟨by omega, by omega⟩)]

end LeavesOneLess

-- ---------------------------------------------------------------------------
-- token_bucket.lua
-- ---------------------------------------------------------------------------

section Bucket

variable {maxTtl applied : ℤ} {key : String} {rate burst : ℚ} {s : Store} {c : Call}

/-- A bucket's reply is as on an unused key when it leaves one less. -/
theorem fresh_bucketReply_iff (hApplied : 1 ≤ applied) {avail : ℚ} :
    Fresh applied (.ok (bucketReply rate burst 1 avail)) ↔ LeavesOneLess applied avail := by
  constructor
  · rintro ⟨r, hr, hAllowed, hRemaining⟩
    obtain rfl := Except.ok.inj hr
    have hOne : 1 ≤ avail := by
      by_contra hShort
      simp [bucketReply, hShort] at hAllowed
    have hLeft : ⌊tokensLeft 1 avail⌋ = applied - 1 := hRemaining
    rwa [tokensLeft, if_pos hOne] at hLeft
  · intro h
    have hOne := h.one_le hApplied
    refine ⟨_, rfl, if_pos hOne, ?_⟩
    show ⌊tokensLeft 1 avail⌋ = applied - 1
    rw [tokensLeft, if_pos hOne]
    exact h

/-- A call that finds so many tokens is answered as on an unused key. -/
structure Grants (maxTtl applied : ℤ) (rate burst avail : ℚ) : Prop where
  full : LeavesOneLess applied avail
  fits : bucketTtl rate burst 1 avail ≤ maxTtl

/-- A call is answered so when its bucket can be kept, too. -/
theorem fresh_serve_iff (hApplied : 1 ≤ applied) (hKept : KeptBucket key s) :
    Fresh applied (serve .honoured (tokenBucketCall maxTtl key rate burst) s c).1 ↔
      Grants maxTtl applied rate burst (found .honoured key rate burst s c) := by
  rw [serve_bucket (hKept.holdsHash _)]
  by_cases hFits : bucketTtl rate burst 1 (found .honoured key rate burst s c) ≤ maxTtl
  · rw [if_pos hFits, fresh_bucketReply_iff hApplied]
    exact ⟨fun h => ⟨h, hFits⟩, Grants.full⟩
  · rw [if_neg hFits]
    exact iff_of_false (fun ⟨r, hr, _⟩ => nomatch hr) fun h => hFits h.fits

/-- It is for every number of tokens between two for which it is. -/
theorem Grants.between (hApplied : 1 ≤ applied) (hRate : 0 < rate) {low high x : ℚ}
    (hLow : Grants maxTtl applied rate burst low) (hHigh : LeavesOneLess applied high)
    (hAbove : low ≤ x) (hBelow : x ≤ high) : Grants maxTtl applied rate burst x where
  full := hLow.full.between hHigh hAbove hBelow
  fits := (bucketTtl_anti hRate (hLow.full.one_le hApplied) hAbove).trans hLow.fits

/-- The bucket: what is there at the reset time decides, for the calls after it. -/
theorem tokenBucket_restores_iff (hMax : maxTtl < 2 ^ 63) (hRate : 0 < rate)
    (hDouble : float64 burst = burst) (hApplied : 1 ≤ applied) (hKept : KeptBucket key s)
    (hOnTime : OnTime c) {r : Reply}
    (hReply : (serve .honoured (tokenBucketCall maxTtl key rate burst) s c).1 = .ok r) :
    (∀ c', OnTime c' → c.nowMs + r.resetAfterMs ≤ c'.nowMs →
        Fresh applied (serve .honoured (tokenBucketCall maxTtl key rate burst)
          (serve .honoured (tokenBucketCall maxTtl key rate burst) s c).2 c').1) ↔
      LeavesOneLess applied burst ∧ Grants maxTtl applied rate burst
        (bucketAtReset rate burst c.nowMs (tokensLeft 1 (found .honoured key rate burst s c))) := by
  have hKept' : KeptBucket key
      (serve .honoured (tokenBucketCall maxTtl key rate burst) s c).2 := keptBucket_serve hKept
  simp only [fresh_serve_iff hApplied hKept']
  rw [serve_bucket (hKept.holdsHash _)] at hReply ⊢
  generalize found .honoured key rate burst s c = avail at hReply ⊢
  -- an answered call had its PEXPIRE taken, and then the key outlives the reset time
  by_cases hFits : bucketTtl rate burst 1 avail ≤ maxTtl
  swap
  · rw [if_neg hFits] at hReply
    cases hReply
  rw [if_pos hFits] at hReply ⊢
  obtain rfl := Except.ok.inj hReply
  have hOutlives := bucketReset_lt_ttl (hFits.trans_lt hMax)
  change (∀ c', OnTime c' → c.nowMs + bucketReset rate burst (tokensLeft 1 avail) ≤ c'.nowMs → _)
    ↔ _
  unfold bucketAtReset
  refine (forall_found_iff hRate.le hDouble hOnTime hOutlives fun x low high hLow hHigh =>
    hLow.between hApplied hRate hHigh.full).trans ⟨fun h => ⟨h.1.full, h.2⟩, fun h => ⟨?_, h.2⟩⟩
  exact h.2.between hApplied hRate h.1 (min_le_left _ _) le_rfl

end Bucket

-- ---------------------------------------------------------------------------
-- sliding_window.lua
-- ---------------------------------------------------------------------------

section Log

variable {windowMs limit applied : ℤ} {log : SortedSet ℤ String} {key : String} {s : Store}
  {c : Call}

/-- A log's reply is as on an unused key when the room it leaves does as the limit would.
-/
theorem fresh_slidingReply_iff (hApplied : 1 ≤ applied) :
    Fresh applied (.ok (rounded (slidingReply c.nowMs windowMs limit c.member log))) ↔
      LeavesOneLess applied
        ((limit - (log.removeUpTo (c.nowMs - windowMs)).card : ℤ) : ℚ) := by
  rw [leavesOneLess_intCast]
  -- with no room the call is refused, and nothing below the limit is left either
  by_cases hRoom : ((log.removeUpTo (c.nowMs - windowMs)).card : ℤ) < limit
  · have hLeft : max 0 (limit - ((log.removeUpTo (c.nowMs - windowMs)).card + 1)) =
        limit - (log.removeUpTo (c.nowMs - windowMs)).card - 1 := by omega
    have hReply : rounded (slidingReply c.nowMs windowMs limit c.member log) =
        ⟨1, float64Int (limit - (log.removeUpTo (c.nowMs - windowMs)).card - 1), 0,
          slidingReset c.nowMs windowMs (logAfter c.nowMs windowMs limit c.member log)⟩ := by
      rw [← hLeft]
      simp only [rounded, slidingReply, hRoom, if_true]
    rw [hReply]
    constructor
    · rintro ⟨r, hr, -, hRemaining⟩
      obtain rfl := Except.ok.inj hr
      exact hRemaining
    · exact fun h => ⟨_, rfl, rfl, h⟩
  · refine iff_of_false ?_ fun h => ?_
    · rintro ⟨r, hr, hAllowed, -⟩
      obtain rfl := Except.ok.inj hr
      simp [rounded, slidingReply, hRoom] at hAllowed
    · have hOne := (leavesOneLess_intCast.mpr h).one_le hApplied
      have hSome : 1 ≤ limit - (log.removeUpTo (c.nowMs - windowMs)).card := by
        exact_mod_cast hOne
      omega

/-- The stamps that count are those in the log that the call leaves. -/
theorem perm_countedStamps :
    ((logAfter c.nowMs windowMs limit c.member log).entries.map Prod.fst).Perm
      (countedStamps windowMs limit log c) := by
  unfold countedStamps logAfter
  dsimp only
  by_cases hRoom : ((log.removeUpTo (c.nowMs - windowMs)).card : ℤ) < limit
  · rw [if_pos hRoom, if_pos (by exact hRoom)]
    exact (SortedSet.perm_add _ _ _).map Prod.fst
  · rw [if_neg hRoom, if_neg (by exact hRoom)]

theorem laterStamps_perm {stamps stamps' : List ℤ} (h : stamps.Perm stamps') :
    laterStamps stamps = laterStamps stamps' := by
  have hSame : (fun t => stamps.any fun u => decide (u < t)) =
      fun t => stamps'.any fun u => decide (u < t) := funext fun t => h.any_eq
  rw [laterStamps, hSame, h.countP_eq, laterStamps]

/-- What is left of a log once its oldest entry has aged out. -/
theorem card_removeUpTo_lowest {z : SortedSet ℤ String} {x : ℤ × String}
    (hLowest : z.lowest? = some x) :
    (z.removeUpTo x.1).card = laterStamps (z.entries.map Prod.fst) := by
  rw [SortedSet.card, SortedSet.entries_removeUpTo, ← List.countP_eq_length_filter, laterStamps,
    List.countP_map]
  refine List.countP_congr fun e he => ?_
  have hOldest := SortedSet.lowest?_mem hLowest
  simp only [Bool.not_eq_true', decide_eq_false_iff_not, not_le, Function.comp_apply,
    List.any_eq_true, List.mem_map, decide_eq_true_eq]
  constructor
  · exact fun hLater => ⟨x.1, ⟨x, hOldest, rfl⟩, hLater⟩
  · rintro ⟨u, ⟨e', he', rfl⟩, hLater⟩
    exact (SortedSet.lowest?_le hLowest he').trans_lt hLater

/-- The entries that count against a call from the age-out of the oldest on: those of
later stamps at first, none in the end. -/
theorem forall_room_iff {z : SortedSet ℤ String} {x : ℤ × String}
    (hLowest : z.lowest? = some x) (hScores : ∀ e ∈ z.entries, e.1 ≤ c.nowMs)
    (hOnTime : OnTime c) (hLog : s key = logEntry ⟨.honoured, c.execAt⟩ windowMs z) :
    (∀ c', OnTime c' → x.1 + windowMs ≤ c'.nowMs → LeavesOneLess applied
        ((limit - ((foundLog .honoured key s c').removeUpTo (c'.nowMs - windowMs)).card : ℤ) :
          ℚ)) ↔
      LeavesOneLess applied limit ∧
        LeavesOneLess applied (limit - laterStamps (z.entries.map Prod.fst)) := by
  have hOldest := SortedSet.lowest?_mem hLowest
  have hNow : c.execAt = c.nowMs := hOnTime
  -- the log lives a second longer than its newest entry stays in the window
  have hEntry : s key = some ⟨.zset z, some (c.nowMs + (windowMs + 1000))⟩ := by
    have hSome : z.card ≠ 0 := (List.length_pos_of_mem hOldest).ne'
    rw [hLog, logEntry, if_neg hSome, hNow]
  have hEmpty : ∀ c' : Call, c.nowMs + (windowMs + 1000) ≤ c'.execAt →
      ((foundLog .honoured key s c').removeUpTo (c'.nowMs - windowMs)).card = 0 := by
    intro c' hDead
    rw [foundLog_of_gone (find_after hEntry hDead), SortedSet.card_removeUpTo_eq_zero_iff]
    exact fun e he => absurd he SortedSet.not_mem_empty
  refine forall_later_iff (fun _ => LeavesOneLess.between) (fun c' hOnTime' hLate => ?_) ?_ ?_
  · -- any later call finds no more than the entries after the oldest
    have hCard : ((foundLog .honoured key s c').removeUpTo (c'.nowMs - windowMs)).card ≤
        laterStamps (z.entries.map Prod.fst) := by
      rcases lt_or_ge c'.execAt (c.nowMs + (windowMs + 1000)) with hLive | hDead
      · rw [foundLog_of_find (find_before hEntry hLive), ← card_removeUpTo_lowest hLowest,
          ← SortedSet.removeUpTo_removeUpTo (by omega : x.1 ≤ c'.nowMs - windowMs)]
        exact SortedSet.card_removeUpTo_le _ _
      · exact (hEmpty c' hDead).trans_le (Nat.zero_le _)
    generalize ((foundLog .honoured key s c').removeUpTo (c'.nowMs - windowMs)).card = n at hCard ⊢
    have hCard' : (n : ℚ) ≤ laterStamps (z.entries.map Prod.fst) := by exact_mod_cast hCard
    push_cast
    exact ⟨by linarith, by linarith [Nat.cast_nonneg (α := ℚ) n]⟩
  · -- right at the reset time it finds exactly those
    have := hScores x hOldest
    rw [foundLog_of_find (find_before hEntry (by dsimp only; omega)), add_sub_cancel_right,
      card_removeUpTo_lowest hLowest]
    push_cast
    rfl
  · -- and once the key is gone it finds nothing
    refine ⟨⟨c.nowMs + (windowMs + 1000), c.nowMs + (windowMs + 1000), ""⟩, rfl, ?_, ?_⟩
    · have := hScores x hOldest
      dsimp only
      omega
    · rw [hEmpty _ le_rfl]
      push_cast
      exact sub_zero _

/-- The log: the later stamps that are left at the reset time decide. -/
theorem slidingWindow_restores_iff {t : ℤ} (hWindow : 1 ≤ windowMs) (hLimit : 1 ≤ limit)
    (hApplied : 1 ≤ applied) (hKept : KeptLog key limit t s) (hLate : t ≤ c.nowMs)
    (hOnTime : OnTime c) {r : Reply}
    (hReply : (serve .honoured (slidingWindowCall key windowMs limit) s c).1 = .ok r) :
    (∀ c', OnTime c' → c.nowMs + r.resetAfterMs ≤ c'.nowMs →
        Fresh applied ((serve .honoured (slidingWindowCall key windowMs limit)
          (serve .honoured (slidingWindowCall key windowMs limit) s c).2 c').1.map rounded)) ↔
      LeavesOneLess applied limit ∧ LeavesOneLess applied
        (limit - laterStamps (countedStamps windowMs limit (foundLog .honoured key s c) c)) := by
  rw [serve_log (hKept.holdsZset _)] at hReply ⊢
  obtain rfl := Except.ok.inj hReply
  obtain ⟨hCard, hScores⟩ := hKept.found (by omega) c
  generalize foundLog .honoured key s c = log at hCard hScores ⊢
  have hKept' : KeptLog key limit c.nowMs (Function.update s key
      (logEntry ⟨.honoured, c.execAt⟩ windowMs
        (logAfter c.nowMs windowMs limit c.member log))) :=
    keptLog_update hCard hScores hLate
  -- after the call the log holds stamps of the window that ends with it
  have hScores' : ∀ e ∈ (logAfter c.nowMs windowMs limit c.member log).entries,
      c.nowMs - windowMs < e.1 ∧ e.1 ≤ c.nowMs := by
    intro e he
    rcases mem_logAfter he with rfl | ⟨hMem, hYoung⟩
    · exact ⟨by show c.nowMs - windowMs < c.nowMs; omega, le_rfl⟩
    · exact ⟨hYoung, (hScores e hMem).trans hLate⟩
  have hSome : 0 < (logAfter c.nowMs windowMs limit c.member log).card := logAfter_pos hLimit
  obtain ⟨x, hx⟩ := SortedSet.exists_lowest hSome
  -- the reset time is the age-out of the oldest entry
  have hReset : (slidingReply c.nowMs windowMs limit c.member log).resetAfterMs =
      x.1 + windowMs - c.nowMs := by
    have hYoung := (hScores' x (SortedSet.lowest?_mem hx)).1
    rw [resetAfterMs_slidingReply, slidingReset, hx]
    exact max_eq_right (by omega)
  have hAgeOut : c.nowMs + (x.1 + windowMs - c.nowMs) = x.1 + windowMs := by omega
  rw [← laterStamps_perm perm_countedStamps, hReset, hAgeOut,
    ← forall_room_iff hx (fun e he => (hScores' e he).2) hOnTime (Function.update_self key _ s)]
  refine forall_congr' fun c' => imp_congr_right fun _ => imp_congr_right fun _ => ?_
  rw [serve_log (hKept'.holdsZset _)]
  exact fresh_slidingReply_iff hApplied

end Log

-- ---------------------------------------------------------------------------
-- fixed_window.lua
-- ---------------------------------------------------------------------------

section Counter

variable {keyPrefix : String} {windowMs limit applied t : ℤ} {s : Store} {c : Call}

/-- The first call of a window that no call was stamped in or after. -/
theorem fresh_new_window (hLimit : 1 ≤ limit) (hKept : KeptCounters keyPrefix windowMs t s)
    {k : ℤ} (hIndex : windowIndex c.nowMs windowMs = .whole k) (hNew : t < k * windowMs) :
    Fresh applied ((serve .honoured (fixedWindowCall keyPrefix windowMs limit) s c).1.map
        rounded) ↔
      LeavesOneLess applied limit := by
  -- no call has been stamped in a window that starts later
  have hNone : s (windowKey keyPrefix (.whole k)) = none := by
    cases hEntry : s (windowKey keyPrefix (.whole k)) with
    | none => rfl
    | some x =>
      have := (hKept k x hEntry).1
      omega
  have hLeft : max 0 (limit - 1) = limit - 1 := max_eq_right (by omega)
  rw [serve_counter (hKept.holdsCounter _ k) hIndex,
    (counterEntry_of_gone windowMs (find_eq_none_of_absent hNone)).1, zero_add,
    leavesOneLess_intCast, ← hLeft]
  constructor
  · rintro ⟨r, hr, -, hRemaining⟩
    obtain rfl := Except.ok.inj hr
    exact hRemaining
  · exact fun h => ⟨_, rfl, if_neg (not_lt.mpr hLimit), h⟩

/-- The counter: a window that begins anew has the whole limit. -/
theorem fixedWindow_restores_iff (hWindow : 1 ≤ windowMs) (hLimit : 1 ≤ limit)
    (hKept : KeptCounters keyPrefix windowMs t s) (hLate : t ≤ c.nowMs) (hOnTime : OnTime c)
    {r : Reply}
    (hReply : (serve .honoured (fixedWindowCall keyPrefix windowMs limit) s c).1 = .ok r) :
    (∀ c', OnTime c' → c.nowMs + r.resetAfterMs ≤ c'.nowMs →
        Fresh applied ((serve .honoured (fixedWindowCall keyPrefix windowMs limit)
          (serve .honoured (fixedWindowCall keyPrefix windowMs limit) s c).2 c').1.map
            rounded)) ↔
      LeavesOneLess applied limit := by
  obtain ⟨k, hIndex⟩ : ∃ k, windowIndex c.nowMs windowMs = .whole k :=
    ⟨_, windowIndex_whole hWindow c.nowMs⟩
  have hEnd := ((windowIndex_eq_iff hWindow).mp hIndex).2
  have hKept' := keptCounters_update hWindow hKept hLate hOnTime hIndex
  rw [serve_counter (hKept.holdsCounter _ _) hIndex] at hReply ⊢
  obtain rfl := Except.ok.inj hReply
  dsimp only [fixedReply]
  rw [resetAfterMs_eq hWindow hIndex]
  generalize Function.update s _ _ = s' at hKept' ⊢
  have hFresh : ∀ c' : Call, c.nowMs + ((k + 1) * windowMs - c.nowMs) ≤ c'.nowMs →
      (Fresh applied ((serve .honoured (fixedWindowCall keyPrefix windowMs limit) s' c').1.map
        rounded) ↔ LeavesOneLess applied limit) := by
    intro c' hReset
    obtain ⟨k', hIndex'⟩ : ∃ k', windowIndex c'.nowMs windowMs = .whole k' :=
      ⟨_, windowIndex_whole hWindow c'.nowMs⟩
    -- the later call is in a later window
    have hBelow := ((windowIndex_eq_iff hWindow).mp hIndex').2
    have hWindows : k + 1 < k' + 1 :=
      lt_of_mul_lt_mul_right (by omega : (k + 1) * windowMs < (k' + 1) * windowMs) (by omega)
    have hStart : (k + 1) * windowMs ≤ k' * windowMs :=
      mul_le_mul_of_nonneg_right (by omega) (by omega)
    exact fresh_new_window hLimit hKept' hIndex' (by omega)
  constructor
  · intro hAll
    exact (hFresh ⟨_, _, ""⟩ le_rfl).mp (hAll ⟨_, _, ""⟩ rfl le_rfl)
  · exact fun h c' _ hReset => (hFresh c' hReset).mpr h

end Counter

-- ---------------------------------------------------------------------------
-- Whichever algorithm `Allow` runs
-- ---------------------------------------------------------------------------

section ByAlgorithm

variable {maxTtl : ℤ} {l : RedisLimiter} {key : String} {q : Quota} {s : Store} {c : Call}

/-- A limit that is a double is a limit. -/
theorem wholeLimit_valid (hq : ValidQuota q) : ValidQuota (wholeLimit q) where
  limit := by
    have hOne : float64Int 1 = 1 := float64Int_of_small (by decide)
    rw [← hOne]
    exact float64Int_mono hq.limit
  window := hq.window

theorem appliedLimit_bucket (hAlg : l.alg = .tokenBucket) (q : Quota) :
    l.appliedLimit q = q.burstCapacity := by
  rw [RedisLimiter.appliedLimit, hAlg]

/-- A window applies the limit itself. -/
theorem appliedLimit_window (hAlg : l.alg ≠ .tokenBucket) (q : Quota) :
    l.appliedLimit q = q.limit := by
  unfold RedisLimiter.appliedLimit
  split
  · exact absurd ‹_› hAlg
  · rfl

/-- The condition, for a bucket. -/
theorem bucket_restores_iff (hMax : maxTtl < 2 ^ 63) (hq : ValidQuota q)
    (hAlg : l.alg = .tokenBucket) (hKept : KeptBucket (l.redisKey key) s) (hOnTime : OnTime c)
    {r : Reply} (hReply : (serve .honoured (script maxTtl l key q) s c).1 = .ok r) :
    (∀ c', OnTime c' → c.nowMs + r.resetAfterMs ≤ c'.nowMs →
        Fresh (l.appliedLimit q) (serve .honoured (script maxTtl l key q)
          (serve .honoured (script maxTtl l key q) s c).2 c').1) ↔
      RestoresAll maxTtl l key q s c := by
  have hApplied := appliedLimit_bucket hAlg q
  have hRate := ratePerSecond_pos (by have := hq.limit; omega) hq.window_pos
  rw [script_tokenBucket hAlg] at hReply ⊢
  rw [tokenBucket_restores_iff hMax hRate (float64_float64 _) (hq.appliedLimit_pos l) hKept
    hOnTime hReply, hApplied]
  -- what `foundAtReset` computes is the bucket at the reset time
  have hFound : foundAtReset l key q s c = bucketAtReset (ratePerSecond q)
      (float64 q.burstCapacity) c.nowMs (tokensLeft 1 (found .honoured (l.redisKey key)
        (ratePerSecond q) (float64 q.burstCapacity) s c)) := by
    simp only [foundAtReset, hAlg]
  constructor
  · rintro ⟨hBurst, hFull, hFits⟩
    rw [← hFound] at hFull hFits
    exact ⟨by rwa [hApplied], by rwa [hApplied], fun _ => hFits⟩
  · rintro ⟨hBurst, hFull, hFits⟩
    rw [hApplied] at hBurst hFull
    rw [← hFound]
    exact ⟨hBurst, hFull, hFits hAlg⟩

/-- And for the other two. -/
theorem window_restores_iff (hq : ValidQuota q) (hAlg : l.alg ≠ .tokenBucket)
    (hKept : Kept l key (wholeLimit q) c.nowMs s) (hOnTime : OnTime c)
    {r : Reply} (hReply : (serve .honoured (script maxTtl l key q) s c).1 = .ok r) :
    (∀ c', OnTime c' → c.nowMs + r.resetAfterMs ≤ c'.nowMs →
        Fresh (l.appliedLimit q) (serve .honoured (script maxTtl l key q)
          (serve .honoured (script maxTtl l key q) s c).2 c').1) ↔
      RestoresAll maxTtl l key q s c := by
  have hApplied := appliedLimit_window hAlg q
  have hLimit := (wholeLimit_valid hq).limit
  have hDouble : ((wholeLimit q).limit : ℚ) = float64 q.limit := coe_float64Int q.limit
  -- the exact script gives the reply before its count is rounded
  rw [serve_window hAlg] at hReply
  simp only [serve_window hAlg]
  obtain ⟨r', hExact, rfl⟩ : ∃ r', (serve .honoured (l.script key (wholeLimit q)) s c).1 = .ok r' ∧
      rounded r' = r := by
    cases hServed : (serve .honoured (l.script key (wholeLimit q)) s c).1 with
    | error e =>
      rw [hServed] at hReply
      cases hReply
    | ok r' =>
      rw [hServed] at hReply
      exact ⟨r', rfl, Except.ok.inj hReply⟩
  have hReset : (rounded r').resetAfterMs = r'.resetAfterMs := rfl
  rw [hReset, hApplied]
  -- no time to live is asked about here
  have hRestores : RestoresAll maxTtl l key q s c ↔ LeavesOneLess q.limit (float64 q.limit) ∧
      LeavesOneLess q.limit (foundAtReset l key q s c) := by
    rw [← hApplied]
    exact ⟨fun h => ⟨h.counts, h.full⟩, fun h => ⟨h.1, h.2, fun hAlg' => absurd hAlg' hAlg⟩⟩
  rw [hRestores]
  cases hName : l.alg with
  | tokenBucket => exact absurd hName hAlg
  | slidingWindow =>
    rw [kept_slidingWindow hName] at hKept
    rw [script_slidingWindow hName] at hExact ⊢
    rw [slidingWindow_restores_iff (wholeLimit_valid hq).window hLimit hq.limit hKept le_rfl
      hOnTime hExact, hDouble]
    simp only [foundAtReset, hName]
    rfl
  | fixedWindow =>
    rw [kept_fixedWindow hName] at hKept
    rw [script_fixedWindow hName] at hExact ⊢
    rw [fixedWindow_restores_iff (wholeLimit_valid hq).window hLimit hKept le_rfl hOnTime
      hExact, hDouble]
    simp only [foundAtReset, hName, and_self]

/-- The stamps are all the same if none is later than another. -/
theorem laterStamps_eq_zero_iff {stamps : List ℤ} :
    laterStamps stamps = 0 ↔ ∀ t ∈ stamps, ∀ u ∈ stamps, t ≤ u := by
  simp [laterStamps, List.countP_eq_zero]

/-- What is there at the reset time is a double, and no more than the limit. -/
theorem foundAtReset_small (key : String) (s : Store) (c : Call)
    (hSmall : |l.appliedLimit q| ≤ 2 ^ 53) :
    foundAtReset l key q s c ≤ l.appliedLimit q ∧
      (1 ≤ foundAtReset l key q s c → float64 (foundAtReset l key q s c) =
        foundAtReset l key q s c) := by
  have hWhole := float64_intCast hSmall
  unfold foundAtReset
  by_cases hAlg : l.alg = .tokenBucket
  · -- the bucket: the minimum of two doubles
    rw [appliedLimit_bucket hAlg] at hWhole ⊢
    simp only [hAlg]
    unfold bucketAtReset refilled
    refine ⟨(min_le_left _ _).trans_eq hWhole, fun _ => ?_⟩
    rcases min_choice (float64 q.burstCapacity) (float64 _) with h | h <;>
      rw [h, float64_float64]
  · rw [appliedLimit_window hAlg] at hSmall hWhole ⊢
    cases hName : l.alg with
    | tokenBucket => exact absurd hName hAlg
    | slidingWindow =>
      simp only [hWhole]
      generalize laterStamps _ = n
      -- the log: a whole number of places
      have hLeft : (q.limit : ℚ) - n = (q.limit - n : ℤ) := by push_cast; rfl
      rw [hLeft]
      refine ⟨Int.cast_le.mpr (by omega), fun hOne => float64_intCast ?_⟩
      have hSome : 1 ≤ q.limit - n := by exact_mod_cast hOne
      have := abs_le.mp hSmall
      exact abs_le.mpr ⟨by omega, by omega⟩
    | fixedWindow => exact ⟨hWhole.le, fun _ => float64_float64 _⟩

/-- For limits up to 2^53 the whole limit must be there at the reset time, and Redis must
take the time to live of a call that finds it. -/
theorem restoresAll_iff (hq : ValidQuota q) (hSmall : l.appliedLimit q ≤ 2 ^ 53) :
    RestoresAll maxTtl l key q s c ↔ foundAtReset l key q s c = l.appliedLimit q ∧
      (l.alg = .tokenBucket → bucketTtl (ratePerSecond q) (float64 q.burstCapacity) 1
        (l.appliedLimit q) ≤ maxTtl) := by
  have hApplied : 1 ≤ l.appliedLimit q := hq.appliedLimit_pos l
  have hAbs : |l.appliedLimit q| ≤ 2 ^ 53 := abs_le.mpr ⟨by omega, hSmall⟩
  obtain ⟨hMost, hDouble⟩ := foundAtReset_small key s c hAbs
  have hFull := leavesOneLess_iff hApplied hSmall hDouble hMost
  constructor
  · intro h
    have hFound := hFull.mp h.full
    exact ⟨hFound, fun hAlg => hFound ▸ h.fits hAlg⟩
  · rintro ⟨hFound, hFits⟩
    refine ⟨?_, hFull.mpr hFound, fun hAlg => hFound.symm ▸ hFits hAlg⟩
    rw [float64_intCast hAbs]
    exact (leavesOneLess_iff hApplied hSmall (fun _ => float64_intCast hAbs) le_rfl).mpr rfl

/-- In a log, all that counts must carry one stamp. -/
theorem restoresAll_sliding_iff (hAlg : l.alg = .slidingWindow) (hq : ValidQuota q)
    (hSmall : q.limit ≤ 2 ^ 53) : RestoresAll maxTtl l key q s c ↔
      ∀ t ∈ countedStamps q.windowMs q.limit (foundLog .honoured (l.redisKey key) s c) c,
        ∀ u ∈ countedStamps q.windowMs q.limit (foundLog .honoured (l.redisKey key) s c) c,
          t ≤ u := by
  have hOther : l.alg ≠ .tokenBucket := by
    rw [hAlg]
    nofun
  have hAbs : |q.limit| ≤ 2 ^ 53 := abs_le.mpr ⟨by have := hq.limit; omega, hSmall⟩
  have hApplied := appliedLimit_window hOther q
  rw [restoresAll_iff hq (hApplied.trans_le hSmall), ← laterStamps_eq_zero_iff, hApplied]
  simp only [foundAtReset, hAlg, float64_intCast hAbs, float64Int_of_small hAbs]
  constructor
  · rintro ⟨hNone, -⟩
    exact_mod_cast sub_eq_self.mp hNone
  · exact fun hNone => ⟨by rw [hNone, Nat.cast_zero, sub_zero], nofun⟩

end ByAlgorithm

end RatelimitGateway.Limiter.Doubles
