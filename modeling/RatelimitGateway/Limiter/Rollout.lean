import RatelimitGateway.Limiter.Failover

/-!
# While two configurations are deployed

The configuration is read once, when a gateway starts. While a new one is rolled
out, gateways with the old and the new quota serve the calls of one tenant side by
side, on one key in Redis, and every call acts under the quota of its gateway.

* `rollout_keeps_larger`   — if the quotas differ in their limit alone, the calls are
  admitted within one allowance of the largest, in whatever order the gateways take
  turns;
* `rollout_of_bursts_pays_twice` — if they differ in their burst, they are not: a call
  under the smaller burst lets the bucket expire as soon as it would be full for it.
-/

namespace RatelimitGateway.Limiter

open KeyStore Redis ArrivalCurve

/-- A quota with this window and burst, and with no larger limit. -/
structure Below (q Q : Quota) : Prop where
  valid  : ValidQuota q
  window : q.window = Q.window
  limit  : q.limit ≤ Q.limit
  burst  : q.burstCapacity = Q.burstCapacity

theorem Below.windowMs {q Q : Quota} (h : Below q Q) : q.windowMs = Q.windowMs := by
  rw [Quota.windowMs, h.window, Quota.windowMs]

/-- A quota below another refills no faster. -/
theorem Below.rate {q Q : Quota} (h : Below q Q) : q.ratePerSecond ≤ Q.ratePerSecond := by
  have hWindow := h.valid.window_pos
  have hLimit : (q.limit : ℚ) ≤ Q.limit := by exact_mod_cast h.limit
  rw [Quota.ratePerSecond, if_neg (not_le.mpr hWindow), Quota.ratePerSecond, ← h.window,
    if_neg (not_le.mpr hWindow)]
  gcongr

/-- The replies to calls, each under a quota of its own. -/
def servedUnder (l : RedisLimiter) (key : String) (s : Store) (run : List (Quota × Call)) :
    List Served :=
  (Machine.trace (serveUnder .honoured l key) s run).map fun x => (x.1.2, x.2)

-- ---------------------------------------------------------------------------
-- token_bucket.lua
-- ---------------------------------------------------------------------------

/-- A bucket is not worth more at another rate than at the largest. -/
theorem found_next_le {key : String} {rate rate' top burst avail : ℚ} {s : Store} {c c' : Call}
    (hRate : 0 < rate) (hTop : rate ≤ top) (hRate' : 0 < rate') (hTop' : rate' ≤ top)
    (hBurst : 0 ≤ burst) (hLeft : 0 ≤ tokensLeft 1 avail) (hFollows : Follows .honoured c c') :
    0 ≤ found .honoured key rate' burst (Function.update s key
        (some (bucketEntry ⟨.honoured, c.execAt⟩ rate burst c.nowMs 1 avail))) c' ∧
      found .honoured key rate' burst (Function.update s key
        (some (bucketEntry ⟨.honoured, c.execAt⟩ rate burst c.nowMs 1 avail))) c' ≤
        tokensLeft 1 avail + ((max 0 (c'.nowMs - c.nowMs) : ℤ) : ℚ) / 1000 * top := by
  generalize hStore : Function.update s key
    (some (bucketEntry ⟨.honoured, c.execAt⟩ rate burst c.nowMs 1 avail)) = s'
  have hEntry : s' key = some ⟨.hash ⟨some (tokensLeft 1 avail), some (c.nowMs : ℚ)⟩,
      some (c.execAt + (bucketReset rate burst 1 avail + 1000))⟩ := by
    rw [← hStore, Function.update_self]
    rfl
  have hForward : (0 : ℚ) ≤ ((max 0 (c'.nowMs - c.nowMs) : ℤ) : ℚ) / 1000 := by
    have := le_max_left 0 (c'.nowMs - c.nowMs)
    positivity
  rcases lt_or_ge c'.execAt (c.execAt + (bucketReset rate burst 1 avail + 1000))
    with hLive | hDead
  · -- the entry is alive: the balance, refilled at the new rate
    rw [found_of_live (find_before hEntry hLive)]
    refine ⟨le_min hBurst (by positivity), (min_le_right _ _).trans ?_⟩
    gcongr
  · -- it has run out at the rate it was left with
    have hGain := hFollows rfl
    have hFull : burst ≤
        tokensLeft 1 avail + ((max 0 (c'.nowMs - c.nowMs) : ℤ) : ℚ) / 1000 * rate :=
      full_after_reset hRate (le_max_left _ _) (by omega)
    rw [found_of_gone (find_after hEntry hDead)]
    exact ⟨hBurst, hFull.trans (by gcongr)⟩

/-- Between calls at rates up to `top`: what was paid, and what the next call finds. -/
structure PaidInv (key : String) (top burst : ℚ) (tr : List Served) (s : Store) : Prop where
  kept : KeptBucket key s
  paid : ∀ rate, 0 < rate → rate ≤ top → ∀ c, (∀ x ∈ tr.getLast?, Follows .honoured x.1 c) →
    0 ≤ found .honoured key rate burst s c ∧
      (admittedCount tr : ℚ) + found .honoured key rate burst s c ≤
        burst + top / 1000 * (forwardTravel (stamps (tr.map Prod.fst) ++ [c.nowMs]) : ℤ)

/-- Nothing is paid out yet of a balance that was left behind. -/
theorem paidInv_init {key : String} {top : ℚ} {burst : ℤ} (hBurst : 1 ≤ burst) {s : Store}
    (hBalance : HoldsBalance key s) : PaidInv key top burst [] s where
  kept := hBalance.kept
  paid rate hRate _ c _ := by
    have hFull : found .honoured key rate (burst : ℚ) s c ≤ burst := found_le_burst s c
    exact ⟨hBalance.found_nonneg hRate hBurst .honoured c,
      by simpa [admittedCount, stamps, forwardTravel] using hFull⟩

/-- A call under a smaller quota pays out no more than one under the larger would. -/
theorem paidInv_step {key : String} {rate top burst : ℚ} (hBurst : 0 ≤ burst) (hRate : 0 < rate)
    (hTop : rate ≤ top) {tr : List Served} {s : Store} {c : Call}
    (hFollows : ∀ x ∈ tr.getLast?, Follows .honoured x.1 c) (hInv : PaidInv key top burst tr s) :
    PaidInv key top burst
      (tr ++ [(c, (serve .honoured (tokenBucketCall key rate burst) s c).1)])
      (serve .honoured (tokenBucketCall key rate burst) s c).2 := by
  obtain ⟨hNonneg, hPaid⟩ := hInv.paid rate hRate hTop c hFollows
  rw [serve_bucket (hInv.kept.holdsHash _)]
  generalize found .honoured key rate burst s c = avail at hPaid hNonneg ⊢
  have hLeft : 0 ≤ tokensLeft 1 avail := by
    unfold tokensLeft
    split <;> linarith
  have hTaken := tokensLeft_one rate burst c avail
  refine ⟨keptBucket_update, fun rate' hRate' hTop' c' hLast => ?_⟩
  obtain ⟨hNonneg', hFound⟩ :=
    found_next_le hRate hTop hRate' hTop' hBurst hLeft (follows_last hLast)
  refine ⟨hNonneg', ?_⟩
  generalize found .honoured key rate' burst _ c' = avail' at hFound ⊢
  generalize hx : ((c, .ok (bucketReply rate burst 1 avail)) : Served) = x at hTaken ⊢
  have hTravel : forwardTravel (stamps ((tr ++ [x]).map Prod.fst) ++ [c'.nowMs]) =
      forwardTravel (stamps (tr.map Prod.fst) ++ [c.nowMs]) + max 0 (c'.nowMs - c.nowMs) := by
    rw [← hx, List.map_append, List.map_singleton, stamps_concat, List.append_assoc,
      List.singleton_append, forwardTravel_concat]
  rw [hTravel, cast_admittedCount_concat, Int.cast_add]
  generalize max 0 (c'.nowMs - c.nowMs) = forward at hFound ⊢
  -- what was admitted and what is left are paid by the capacity and the refill so far
  calc (admittedCount tr : ℚ) + (if admitted x then 1 else 0) + avail'
      ≤ admittedCount tr + avail + (forward : ℚ) / 1000 * top := by linarith
    _ ≤ burst + top / 1000 * (forwardTravel (stamps (tr.map Prod.fst) ++ [c.nowMs]) : ℤ) +
          (forward : ℚ) / 1000 * top := by linarith
    _ = burst + top / 1000 * ((forwardTravel (stamps (tr.map Prod.fst) ++ [c.nowMs]) : ℤ) +
          (forward : ℚ)) := by ring

-- ---------------------------------------------------------------------------
-- Whichever algorithm `Allow` runs
-- ---------------------------------------------------------------------------

section Run

variable {l : RedisLimiter} {key : String} {Q : Quota} {t t' : ℤ} {s : Store}
  {run : List (Quota × Call)}

/-- The invariant rule for such runs. -/
theorem servedUnder_invariant {P : List Served → Store → Prop} (hInit : P [] s)
    (hStep : ∀ tr s q c, Below q Q → (∀ x ∈ tr, x.1.nowMs ≤ c.nowMs ∧ x.1.member ≠ c.member ∧
      OnTime x.1) → OnTime c → t ≤ c.nowMs → P tr s →
      P (tr ++ [(c, (serve .honoured (l.script key q) s c).1)])
        (serve .honoured (l.script key q) s c).2)
    (hBelow : ∀ x ∈ run, Below x.1 Q) (hFollow : Follow t (run.map Prod.snd)) :
    P (servedUnder l key s run) (Machine.final (serveUnder .honoured l key) s run) := by
  refine Machine.trace_invariant_of_prefix (P := fun tr s => P (tr.map fun x => (x.1.2, x.2)) s)
    (C := fun pre (x : Quota × Call) => Below x.1 Q ∧ (∀ a ∈ pre, a.2.nowMs ≤ x.2.nowMs ∧
      a.2.member ≠ x.2.member ∧ OnTime a.2) ∧ OnTime x.2 ∧ t ≤ x.2.nowMs) hInit ?_ ?_
  · rintro tr s ⟨q, c⟩ ⟨hq, hBefore, hOnTime, hLate⟩ hInv
    rw [List.map_append]
    refine hStep _ s q c hq (fun x hx => ?_) hOnTime hLate hInv
    obtain ⟨y, hy, rfl⟩ := List.mem_map.mp hx
    exact hBefore y.1 (List.mem_map_of_mem hy)
  · rintro pre x post rfl
    -- the order of the stamps and the member ids, read off the whole run
    obtain ⟨hEarlier, hOnTime, hLate⟩ := hFollow.at
      (show _ = pre.map Prod.snd ++ x.2 :: post.map Prod.snd by simp)
    refine ⟨hBelow x (by simp), fun a ha => ?_, hOnTime, hLate⟩
    obtain ⟨hOrder, hMember⟩ := hEarlier a.2 (List.mem_map_of_mem ha)
    exact ⟨hOrder, hMember, hFollow.onTime _ (List.mem_map_of_mem (List.mem_append_left _ ha))⟩

theorem map_fst_servedUnder : (servedUnder l key s run).map Prod.fst = run.map Prod.snd := by
  conv_rhs => rw [← Machine.map_fst_trace (serveUnder .honoured l key) s run]
  rw [servedUnder, List.map_map, List.map_map]
  rfl

/--
**A rollout grants no more than the larger quota.** Redis expires keys on the gateways'
clock, and scripts run at the stamps of their calls, which never step back. Every
call carries a quota of its own, with the window and the burst of `Q` and at most
its limit. From any keyspace that the limiter may have left for the key before,
the calls are admitted within one allowance of `Q`.
-/
theorem rollout_keeps_larger (hQ : ValidQuota Q) (hLeft : LeftBehind l key Q t s)
    (hBelow : ∀ x ∈ run, Below x.1 Q) (hFollow : Follow t (run.map Prod.snd))
    (hBefore : ∀ x ∈ run, x.2.nowMs ≤ t') (hSpan : t ≤ t') :
    Allowances l.alg Q 1 t t' (admittedCalls (servedUnder l key s run)) := by
  obtain ⟨hSound, hKept⟩ := hLeft
  unfold Sound at hSound
  cases hAlg : l.alg with
  | tokenBucket =>
    rw [hAlg] at hSound
    have hInv : PaidInv (l.redisKey key) Q.ratePerSecond Q.burstCapacity
        (servedUnder l key s run) (Machine.final (serveUnder .honoured l key) s run) := by
      refine servedUnder_invariant (paidInv_init hQ.burst_pos hSound) ?_ hBelow hFollow
      intro tr s q c hq hEarlier hOnTime _ hInv
      rw [script_tokenBucket hAlg, hq.burst]
      refine paidInv_step (by exact_mod_cast zero_le_one.trans hQ.burst_pos) hq.valid.rate_pos
        hq.rate (fun x hx => ?_) hInv
      exact follows_of_onTime (hEarlier x (List.mem_of_getLast? hx)).2.2 hOnTime _
    have hCalls : ∀ c ∈ run.map Prod.snd, c.nowMs ≤ t' := by
      intro c hc
      obtain ⟨x, hx, rfl⟩ := List.mem_map.mp hc
      exact hBefore x hx
    -- one more call at the end of the stretch would find no less than an empty bucket
    obtain ⟨hNonneg, hPaid⟩ := hInv.paid _ hQ.rate_pos le_rfl ⟨t', t', ""⟩ fun x hx => by
      have hMem : x.1 ∈ (servedUnder l key s run).map Prod.fst :=
        List.mem_map_of_mem (List.mem_of_getLast? hx)
      rw [map_fst_servedUnder] at hMem
      exact follows_of_onTime (hFollow.onTime _ hMem) (show OnTime ⟨t', t', ""⟩ from rfl) _
    have hTravel := hFollow.travel_le hCalls hSpan
    rw [map_fst_servedUnder] at hPaid
    have hRate := hQ.rate_pos
    have hRefill : Q.ratePerSecond / 1000 * (forwardTravel (stamps (run.map Prod.snd) ++ [t']) : ℤ)
        ≤ Q.ratePerSecond / 1000 * (t' - t : ℤ) := by gcongr
    rw [Allowances, Nat.cast_one, one_mul, admittedCalls, List.length_map,
      ← List.countP_eq_length_filter]
    show (admittedCount (servedUnder l key s run) : ℚ) ≤ _
    linarith
  | slidingWindow =>
    -- the smaller limits stay within the cap of the larger one
    rw [hAlg] at hSound
    intro u
    rw [Nat.cast_one, one_mul]
    refine (servedUnder_invariant (P := LogCapInv (l.redisKey key) Q.windowMs Q.limit)
      (logCapInv_init hQ.limit hSound) ?_ hBelow hFollow).capped u
    intro tr s q c hq hEarlier hOnTime _ hInv
    rw [script_slidingWindow hAlg, hq.windowMs]
    exact logCapInv_step hq.limit (fun x hx => ⟨(hEarlier x hx).1, (hEarlier x hx).2.1⟩) hOnTime
      hInv
  | fixedWindow =>
    rw [kept_fixedWindow hAlg] at hKept
    intro k
    rw [Nat.cast_one, one_mul]
    refine ((servedUnder_invariant (P := CounterCapInv (l.redisKey key) Q.windowMs Q.limit t)
      (counterCapInv_init hQ.limit hKept) ?_ hBelow hFollow).counted k).trans (min_le_left _ _)
    intro tr s q c hq hEarlier hOnTime hLate hInv
    rw [script_fixedWindow hAlg, hq.windowMs]
    exact counterCapInv_step hq.limit hQ.window (fun x hx => (hEarlier x hx).1) hLate hOnTime hInv

end Run

/-- Two gateways with the old limit of one and the new limit of two per second. -/
theorem rollout_keeps_larger_demo :
    let l : RedisLimiter := ⟨.slidingWindow, "rl"⟩
    let old : Quota := ⟨1, 1000000000, 5⟩
    let new : Quota := ⟨2, 1000000000, 5⟩
    let run := [(old, ⟨0, 0, "a"⟩), (old, ⟨1, 1, "b"⟩), (new, ⟨2, 2, "c"⟩), (new, ⟨3, 3, "d"⟩)]
    Allowances .slidingWindow new 1 0 3 (admittedCalls (servedUnder l "acme" empty run)) ∧
      (admittedCalls (servedUnder l "acme" empty run)).map Call.member = ["a", "c"] := by
  intro l old new run
  have hNew : ValidQuota new := ⟨by decide, by decide⟩
  have hLeft : LeftBehind l "acme" new 0 empty :=
    leftBehind_of_unused ⟨rfl, fun _ => rfl⟩ new 0
  have hBelow : ∀ x ∈ run, Below x.1 new := by
    have hOld : Below old new := ⟨⟨by decide, by decide⟩, rfl, by decide, rfl⟩
    have hSame : Below new new := ⟨hNew, rfl, le_rfl, rfl⟩
    simp [run, hOld, hSame]
  have hFollow : Follow 0 (run.map Prod.snd) :=
    ⟨by simp [run], by simp [run, InOrder], by simp [run, OnTime],
      by simp [run, DistinctMembers]⟩
  exact ⟨rollout_keeps_larger hNew hLeft hBelow hFollow (by simp [run]) (by decide),
    by decide +kernel⟩

/-- One per second, with bursts of three and of one. The call under the smaller burst
leaves a bucket that Redis drops after two seconds, and the larger burst is there
again: six calls are admitted, and not five. -/
theorem rollout_of_bursts_pays_twice :
    let l : RedisLimiter := ⟨.tokenBucket, "rl"⟩
    let small : Quota := ⟨1, 1000000000, 1⟩
    let large : Quota := ⟨1, 1000000000, 3⟩
    let run : List (Quota × Call) := [(large, ⟨0, 0, ""⟩), (large, ⟨0, 0, ""⟩),
      (small, ⟨0, 0, ""⟩), (large, ⟨2000, 2000, ""⟩), (large, ⟨2000, 2000, ""⟩),
      (large, ⟨2000, 2000, ""⟩)]
    ¬ Allowances .tokenBucket large 1 0 2000 (admittedCalls (servedUnder l "acme" empty run)) := by
  intro l small large run
  have hSix : (admittedCalls (servedUnder l "acme" empty run)).length = 6 := by decide +kernel
  rw [Allowances, hSix]
  norm_num [large, Quota.burstCapacity, Quota.ratePerSecond]

end RatelimitGateway.Limiter
