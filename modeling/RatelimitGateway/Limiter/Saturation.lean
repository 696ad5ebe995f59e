import RatelimitGateway.Limiter.Comparison

/-!
# A saturated token bucket

A load test drives a key faster than its bucket refills, from a full bucket,
and compares what was admitted with the burst plus the refill of the elapsed
time. The two agree to the token, after every call, whatever the spacing of
the calls, as long as no gap lets the bucket run over: no gap refills more
than a token, and the burst holds one token more than a gap refills (`Busy`).

* `tokenBucket_saturated` — what has been admitted after every call.
-/

namespace RatelimitGateway.Limiter

open KeyStore Redis ArrivalCurve CatchUp

/-- The tokens that refill in a number of milliseconds. -/
def refillOf (rate : ℚ) (ms : ℤ) : ℚ := rate * ms / 1000

/-- `c'` comes soon after `c`: at most one token has refilled, and it does not
run over if `c` left room for it. -/
def Busy (rate burst : ℚ) (c c' : Call) : Prop :=
  c.nowMs ≤ c'.nowMs ∧ refillOf rate (c'.nowMs - c.nowMs) ≤ 1 ∧
    refillOf rate (c'.nowMs - c.nowMs) + 1 ≤ burst

theorem refillOf_nonneg {rate : ℚ} {ms : ℤ} (hRate : 0 < rate) (hMs : 0 ≤ ms) :
    0 ≤ refillOf rate ms := by
  have : (0 : ℚ) ≤ ms := by exact_mod_cast hMs
  rw [refillOf]
  positivity

theorem refillOf_sub (rate : ℚ) (t u : ℤ) :
    refillOf rate (t - u) = refillOf rate t - refillOf rate u := by
  simp only [refillOf]
  push_cast
  ring

theorem inOrder_of_busy {rate burst : ℚ} {calls : List Call}
    (hBusy : calls.IsChain (Busy rate burst)) : InOrder calls := by
  have hChain : (calls.map Call.nowMs).IsChain (· ≤ ·) :=
    (List.isChain_map _).mpr (hBusy.imp fun _ _ h => h.1)
  exact List.pairwise_map.mp (List.isChain_iff_pairwise.mp hChain)

/-- The stamp of call `j`. -/
def stampAt (calls : List Call) (j : ℕ) : ℤ := (stamps calls).getD j 0

theorem stampAt_eq {calls : List Call} {j : ℕ} (hj : j < calls.length) :
    stampAt calls j = calls[j].nowMs := by
  simp [stampAt, stamps, hj]

/-- The admitted calls of a stretch. -/
theorem admittedCount_stretch (tr : List Served) {i j : ℕ} (hij : i ≤ j) :
    (admittedCount ((tr.take j).drop i) : ℚ) =
      admittedCount (tr.take j) - admittedCount (tr.take i) := by
  have hSplit := countP_stretch admitted tr hij
  rw [eq_sub_iff_add_eq']
  exact_mod_cast hSplit

/-- One more call, as the arrival curve has it. -/
theorem bucket_takes {key : String} {rate burst : ℚ} (hBurst : 1 ≤ burst) (hRate : 0 < rate)
    {s : Store} (hAbsent : s key = none) {calls : List Call} (hOrder : InOrder calls) {j : ℕ}
    (hj : j < calls.length) :
    let taken := fun j =>
      admittedCount ((transcript .ignored (tokenBucketCall key rate burst) s calls).take j)
    let refill := fun j => refillOf rate (stampAt calls j)
    taken (j + 1) = if ∀ i ≤ j, (taken j : ℚ) - taken i + 1 ≤ burst + (refill j - refill i)
      then taken j + 1 else taken j := by
  intro taken refill
  have hj' : j < (transcript .ignored (tokenBucketCall key rate burst) s calls).length := by
    rwa [length_transcript]
  have hLaw := bucket_admits_iff hBurst hRate hAbsent hOrder hj hj'
  have hNext : taken (j + 1) = taken j + _ := countP_take_succ admitted _ hj'
  -- the law of the bucket, stretch by stretch, in terms of what was taken and refilled
  have hStretches : (∀ i ≤ j, (taken j : ℚ) - taken i + 1 ≤ burst + (refill j - refill i)) ↔
      admitted (transcript .ignored (tokenBucketCall key rate burst) s calls)[j] = true := by
    rw [hLaw]
    refine forall_congr' fun i => forall_congr' fun hi => ?_
    simp only [taken, refill]
    rw [admittedCount_stretch _ hi, ← refillOf_sub, stampAt_eq hj, stampAt_eq (by omega), refillOf]
    push_cast
    rfl
  rw [hNext]
  simp only [hStretches]
  split <;> rfl

/--
**Saturation.** On an unused key, with Redis expiring buckets on a clock that
keeps pace with the stamps, calls come so close together that the bucket never
runs over. After every call, what has been admitted is the burst plus the
refill since the first call, rounded down, or every call if those were fewer.
-/
theorem tokenBucket_saturated {keyPrefix key : String} {q : Quota} (hq : ValidQuota q) {s : Store}
    (hAbsent : s (RedisLimiter.redisKey ⟨.tokenBucket, keyPrefix⟩ key) = none) {calls : List Call}
    (hPace : KeepsPace .honoured calls)
    (hBusy : calls.IsChain (Busy q.ratePerSecond q.burstCapacity)) {n : ℕ}
    (hn : n < calls.length) :
    (admittedBy ⟨.tokenBucket, keyPrefix⟩ key q s calls (n + 1) : ℤ) =
      min ((n : ℤ) + 1)
        ⌊q.burstCapacity + q.ratePerSecond * (calls[n].nowMs - calls[0].nowMs : ℤ) / 1000⌋ := by
  have hOne : (1 : ℚ) ≤ q.burstCapacity := mod_cast hq.burst_pos
  have hOrder := inOrder_of_busy hBusy
  rw [admittedBy, script_tokenBucket rfl, transcript_tokenBucket_expiry hq.rate_pos hAbsent hPace]
  have hTaken := taken_of_saturated
    (A := fun j => admittedCount ((transcript .ignored _ s calls).take j))
    (X := fun j => refillOf q.ratePerSecond (stampAt calls j)) hOne (by simp [admittedCount])
    (fun j hj => bucket_takes hOne hq.rate_pos hAbsent hOrder hj) (fun j hj => ?_) hn
  · rw [← refillOf_sub, stampAt_eq hn, stampAt_eq (by omega)] at hTaken
    exact hTaken
  · -- a busy caller lets less than a token and less than the room come back between calls
    obtain ⟨hForward, hUnit, hRoom⟩ := List.isChain_iff_getElem.mp hBusy j (by omega)
    have hNonneg := refillOf_nonneg hq.rate_pos (sub_nonneg.mpr hForward)
    simp only [stampAt_eq hj, stampAt_eq (show j < calls.length by omega)]
    rw [refillOf_sub] at hNonneg hUnit hRoom
    refine ⟨by linarith, by linarith, by linarith⟩

/-- A load generator: one call every `gapMs` milliseconds. -/
def steady (gapMs : ℤ) (n : ℕ) : List Call :=
  (List.range n).map fun i : ℕ => ⟨gapMs * i, gapMs * i, ""⟩

@[simp] theorem length_steady (gapMs : ℤ) (n : ℕ) : (steady gapMs n).length = n := by
  simp [steady]

theorem getElem_steady {gapMs : ℤ} {n i : ℕ} (hi : i < (steady gapMs n).length) :
    (steady gapMs n)[i] = ⟨gapMs * i, gapMs * i, ""⟩ := by
  simp [steady]

/-- Steady calls follow one another as the first two do. -/
theorem isChain_steady {R : Call → Call → Prop} {gapMs : ℤ}
    (hNext : ∀ t, R ⟨t, t, ""⟩ ⟨t + gapMs, t + gapMs, ""⟩) (n : ℕ) :
    (steady gapMs n).IsChain R := by
  refine List.isChain_iff_getElem.mpr fun i hi => ?_
  rw [getElem_steady, getElem_steady]
  simpa [mul_add] using hNext (gapMs * i)

/-- The accuracy test of the README: a free-tier key, 100 per second and a burst
of 150, driven at 500 per second for ten seconds. -/
theorem tokenBucket_saturated_readme :
    (admittedBy ⟨.tokenBucket, "rl"⟩ "acme" ⟨100, 1000000000, 150⟩ empty (steady 2 5001) 5001 : ℤ) =
      1150 := by
  have hRate : Quota.ratePerSecond ⟨100, 1000000000, 150⟩ = 100 := by decide +kernel
  have hPace : KeepsPace .honoured (steady 2 5001) := isChain_steady (fun t _ => by simp) _
  have hBusy : (steady 2 5001).IsChain
      (Busy (Quota.ratePerSecond ⟨100, 1000000000, 150⟩)
        (Quota.burstCapacity ⟨100, 1000000000, 150⟩)) :=
    isChain_steady (fun t => by rw [hRate]; norm_num [Busy, refillOf, Quota.burstCapacity]) _
  rw [tokenBucket_saturated (n := 5000) (by constructor <;> decide) rfl hPace hBusy
    (by rw [length_steady]; norm_num), hRate, getElem_steady, getElem_steady]
  norm_num [Quota.burstCapacity]

end RatelimitGateway.Limiter
