import RatelimitGateway.Limiter.Doubles
import RatelimitGateway.Limiter.Waiting

/-!
# Waiting, in double precision

When a refused client may call again, with the numbers the scripts have. Logs and
counters hold whole numbers, and there the hint is the wait. A bucket is told how long
the missing part of a token takes, and the token that has flowed in by then can be
rounded to a little less than one: whether it is there depends on the time, and is
computed from it (`tokensAfter`).

* `reopens_iff` — which calls after a refusal are admitted;
* `lt_ttl_of_rounded` — a bucket outlives the hint, rounded to seconds.
-/

namespace RatelimitGateway.Limiter.Doubles

open KeyStore Redis

/-- How long a refused call is told to wait, from what it finds. -/
def waitMs (l : RedisLimiter) (key : String) (q : Quota) (s : Store) (c : Call) : ℤ :=
  match l.alg with
  | .tokenBucket =>
    let rate := ratePerSecond q
    msFor rate (1 - found .honoured (l.redisKey key) rate (float64 q.burstCapacity) s c)
  | _ => l.waitMs key q s c

/-- A bucket with a token in it, and with a time to live that Redis takes when a call has
taken the token. -/
structure HasToken (maxTtl : ℤ) (rate burst avail : ℚ) : Prop where
  one  : 1 ≤ avail
  fits : bucketTtl rate burst 1 avail ≤ maxTtl

instance (maxTtl : ℤ) (rate burst avail : ℚ) : Decidable (HasToken maxTtl rate burst avail) :=
  decidable_of_iff (1 ≤ avail ∧ bucketTtl rate burst 1 avail ≤ maxTtl)
    ⟨fun h => ⟨h.1, h.2⟩, fun h => ⟨h.one, h.fits⟩⟩

/-- The tokens in the bucket so long after a call that takes none. -/
def tokensAfter (l : RedisLimiter) (key : String) (q : Quota) (s : Store) (c : Call) (ms : ℤ) :
    ℚ :=
  let rate := ratePerSecond q
  let burst := float64 q.burstCapacity
  refilled rate burst (found .honoured (l.redisKey key) rate burst s c)
    (elapsed (float64 c.nowMs) (float64 (c.nowMs + ms : ℤ)))

/-- A refused key admits calls that come so long after the refusal. -/
def Reopens (maxTtl : ℤ) (l : RedisLimiter) (key : String) (q : Quota) (s : Store) (c : Call)
    (ms : ℤ) : Prop :=
  match l.alg with
  | .tokenBucket =>
    HasToken maxTtl (ratePerSecond q) (float64 q.burstCapacity) (tokensAfter l key q s c ms)
  | _ => l.waitMs key q s c ≤ ms

theorem admitted_rounded (c : Call) (x : Except RedisError Reply) :
    admitted (c, x.map rounded) = admitted (c, x) := by
  cases x <;> rfl

-- ---------------------------------------------------------------------------
-- token_bucket.lua
-- ---------------------------------------------------------------------------

section Bucket

variable {maxTtl : ℤ} {key : String} {rate burst : ℚ} {s : Store} {c : Call}

/-- A call is admitted when it finds a token, and its bucket can be kept. -/
theorem admitted_serve_iff (hKept : KeptBucket key s) :
    admitted (c, (serve .honoured (tokenBucketCall maxTtl key rate burst) s c).1) = true ↔
      HasToken maxTtl rate burst (found .honoured key rate burst s c) := by
  rw [serve_bucket (hKept.holdsHash _)]
  generalize found .honoured key rate burst s c = avail
  by_cases hFits : bucketTtl rate burst 1 avail ≤ maxTtl
  · rw [if_pos hFits]
    by_cases hTake : 1 ≤ avail
    · exact iff_of_true (by simp [admitted, bucketReply, hTake]) ⟨hTake, hFits⟩
    · exact iff_of_false (by simp [admitted, bucketReply, hTake]) fun h => hTake h.one
  · rw [if_neg hFits]
    exact iff_of_false (by simp [admitted]) fun h => hFits h.fits

/-- A fuller bucket admits too. -/
theorem HasToken.mono (hRate : 0 < rate) {avail avail' : ℚ}
    (h : HasToken maxTtl rate burst avail) (hMore : avail ≤ avail') :
    HasToken maxTtl rate burst avail' where
  one  := h.one.trans hMore
  fits := (bucketTtl_anti hRate h.one hMore).trans h.fits

/-- A refusal, and the calls that are admitted after it. -/
theorem bucket_reopens_iff (hRate : 0 < rate) (hDouble : float64 burst = burst)
    (hKept : KeptBucket key s) (hOnTime : OnTime c) {r : Reply}
    (hReply : (serve .honoured (tokenBucketCall maxTtl key rate burst) s c).1 = .ok r)
    (hRefused : r.allowed ≠ 1) :
    found .honoured key rate burst s c < 1 ∧
      bucketTtl rate burst 1 (found .honoured key rate burst s c) ≤ maxTtl ∧
      r.retryAfterMs = msFor rate (1 - found .honoured key rate burst s c) ∧
      ∀ ms < bucketTtl rate burst 1 (found .honoured key rate burst s c),
        ((∀ c', OnTime c' → c.nowMs + ms ≤ c'.nowMs →
            admitted (c', (serve .honoured (tokenBucketCall maxTtl key rate burst)
              (serve .honoured (tokenBucketCall maxTtl key rate burst) s c).2 c').1) = true) ↔
          HasToken maxTtl rate burst (refilled rate burst (found .honoured key rate burst s c)
            (elapsed (float64 c.nowMs) (float64 (c.nowMs + ms : ℤ))))) := by
  have hKept' : KeptBucket key
      (serve .honoured (tokenBucketCall maxTtl key rate burst) s c).2 := keptBucket_serve hKept
  simp only [admitted_serve_iff hKept']
  rw [serve_bucket (hKept.holdsHash _)] at hReply ⊢
  generalize found .honoured key rate burst s c = avail at hReply ⊢
  -- a call whose PEXPIRE Redis refuses is answered with an error, so this one fits
  by_cases hFits : bucketTtl rate burst 1 avail ≤ maxTtl
  swap
  · rw [if_neg hFits] at hReply
    cases hReply
  rw [if_pos hFits] at hReply ⊢
  obtain rfl := Except.ok.inj hReply
  have hShort : avail < 1 := by
    by_contra hTake
    simp [bucketReply, not_lt.mp hTake] at hRefused
  have hLeft : tokensLeft 1 avail = avail := if_neg (not_le.mpr hShort)
  refine ⟨hShort, hFits, if_pos ⟨hShort, hRate⟩, fun ms hLive => ?_⟩
  rw [forall_found_iff hRate.le hDouble hOnTime hLive fun x low high hLow _ hAbove _ =>
    hLow.mono hRate hAbove, hLeft]
  -- a full bucket has at least what the refilled one has
  exact ⟨And.right, fun h => ⟨h.mono hRate (min_le_left _ _), h⟩⟩

/-- A bucket without a token outlives the time the missing part takes, even when that is
rounded to seconds, of which a duration has no more than 9223372036. -/
theorem lt_ttl_of_rounded (hRate : 0 < rate) (hBurst : 1 ≤ burst) {avail : ℚ} (hShort : avail < 1)
    {n : ℤ} (hSeconds : n ≤ 9223372036)
    (hRounded : n = 1 ∨ 1000 * n ≤ msFor rate (1 - avail) + 500) :
    1000 * n < bucketTtl rate burst 1 avail := by
  have hLeft : tokensLeft 1 avail = avail := if_neg (not_le.mpr hShort)
  have hReset : bucketReset rate burst avail = msFor rate (burst - avail) :=
    if_pos ⟨hShort.trans_le hBurst, hRate⟩
  have hLonger := msFor_mono hRate (sub_le_sub_right hBurst avail)
  have hPositive := msFor_pos hRate (sub_pos.mpr hShort)
  rw [bucketTtl, hLeft, hReset]
  generalize msFor rate (burst - avail) = reset at hLonger ⊢
  -- up to 2^53 the sum is exact; above it the time to live is longer than any header
  rcases le_or_gt (reset + 1000) (2 ^ 53) with hSmall | hLarge
  · rw [float64Int_of_small (abs_le.mpr ⟨by omega, hSmall⟩)]
    omega
  · have hTop : float64Int (2 ^ 53) = 2 ^ 53 := float64Int_of_small (by decide)
    have := float64Int_mono hLarge.le
    omega

end Bucket

-- ---------------------------------------------------------------------------
-- Whichever algorithm `Allow` runs
-- ---------------------------------------------------------------------------

section ByAlgorithm

variable {maxTtl : ℤ} {l : RedisLimiter} {key : String} {q : Quota} {s : Store}
  {calls : List Call} {c : Call}

/-- A refusal by a log or a counter: the hint is the wait, whatever became of the limit.
-/
theorem window_reopens_iff (hAlg : l.alg ≠ .tokenBucket) (hLimit : 0 < q.limit)
    (hWindow : 0 < q.window) (hUnused : NeverUsed l key s) (hOrder : InOrder (calls ++ [c]))
    (hOnTime : ∀ a ∈ calls ++ [c], OnTime a) {r : Reply}
    (hReply : (serve .honoured (script maxTtl l key q)
      (keyspace .honoured (script maxTtl l key q) s calls) c).1 = .ok r)
    (hRefused : r.allowed ≠ 1) :
    r.retryAfterMs = l.waitMs key q (keyspace .honoured (script maxTtl l key q) s calls) c ∧
      ∀ ms : ℤ, 0 ≤ ms → ((∀ c', OnTime c' → c.nowMs + ms ≤ c'.nowMs →
          admitted (c', (serve .honoured (script maxTtl l key q) (serve .honoured
            (script maxTtl l key q) (keyspace .honoured (script maxTtl l key q) s calls) c).2
              c').1) = true) ↔
        l.waitMs key q (keyspace .honoured (script maxTtl l key q) s calls) c ≤ ms) := by
  have hWhole : 0 < (wholeLimit q).limit := by
    have hOne : float64Int 1 = 1 := float64Int_of_small (by decide)
    have := float64Int_mono (by omega : 1 ≤ q.limit)
    rw [hOne] at this
    exact this
  -- rounding the limit does not touch the wait
  have hWait : ∀ s, l.waitMs key (wholeLimit q) s c = l.waitMs key q s c := by
    intro s
    unfold RedisLimiter.waitMs
    cases hName : l.alg with
    | tokenBucket => exact absurd hName hAlg
    | slidingWindow => rfl
    | fixedWindow => rfl
  rw [keyspace_window hAlg, serve_window hAlg] at hReply
  dsimp only at hReply
  simp only [keyspace_window hAlg, serve_window hAlg, admitted_rounded]
  -- the exact script refuses for its wait
  have hNot : admitted (c, (serve .honoured (l.script key (wholeLimit q))
      (keyspace .honoured (l.script key (wholeLimit q)) s calls) c).1) = false := by
    rw [← admitted_rounded, hReply]
    simp [admitted, hRefused]
  obtain ⟨r', hExact, -, hHint, hReopens⟩ :=
    reopensAfter_wait hWhole hWindow hUnused hOrder hOnTime hNot
  rw [hExact] at hReply
  obtain rfl := Except.ok.inj hReply
  rw [hWait] at hHint hReopens
  refine ⟨hHint, fun ms hms => ⟨fun hAdmits => ?_, fun hOver c' hOnTime' hLate => ?_⟩⟩
  · -- a call made exactly that much later is one of those that get in
    have hTaken := hAdmits ⟨c.nowMs + ms, c.nowMs + ms, ""⟩ rfl le_rfl
    have hLate : c.nowMs ≤ c.nowMs + ms := by omega
    have hOver := (hReopens ⟨c.nowMs + ms, c.nowMs + ms, ""⟩ rfl hLate).mp hTaken
    exact (add_le_add_iff_left _).mp hOver
  · exact (hReopens c' hOnTime' (by omega)).mpr (by omega)

/-- **A refusal in a run on a key.** Its hint is the wait, and whoever waits for the wait,
rounded to seconds, is admitted if and only if the key reopens in so many seconds. -/
theorem reopens_iff (hLimit : 0 < q.limit) (hWindow : 0 < q.window) (hUnused : NeverUsed l key s)
    (hOrder : InOrder (calls ++ [c])) (hOnTime : ∀ a ∈ calls ++ [c], OnTime a) :
    let script := script maxTtl l key q
    let before := keyspace .honoured script s calls
    ∀ r, (serve .honoured script before c).1 = .ok r → r.allowed ≠ 1 →
      r.retryAfterMs = waitMs l key q before c ∧
        ∀ n : ℤ, 0 ≤ n → n ≤ 9223372036 →
          (0 < waitMs l key q before c → n = 1 ∨ 1000 * n ≤ waitMs l key q before c + 500) →
          ((∀ c', OnTime c' → c.nowMs + 1000 * n ≤ c'.nowMs →
              admitted (c', (serve .honoured script (serve .honoured script before c).2 c').1) =
                true) ↔
            Reopens maxTtl l key q before c (1000 * n)) := by
  intro script' before r hReply hRefused
  by_cases hAlg : l.alg = .tokenBucket
  · -- the bucket: what is found after the wait decides
    have hRate := ratePerSecond_pos hLimit hWindow
    have hBurst : 1 ≤ float64 q.burstCapacity := by
      refine one_le_float64 ?_
      unfold Quota.burstCapacity
      split <;> omega
    have hScript : script' = _ := script_tokenBucket hAlg maxTtl key q
    have hKept : KeptBucket (l.redisKey key) before := by
      have hBefore : before = keyspace .honoured script' s calls := rfl
      rw [hBefore, hScript]
      exact keptBucket_run ((kept_tokenBucket hAlg).mp (kept_of_unused hUnused.unused q 0)) calls
    rw [hScript] at hReply ⊢
    obtain ⟨hShort, -, hHint, hReopens⟩ := bucket_reopens_iff hRate (float64_float64 _) hKept
      (hOnTime c (List.mem_append_right _ (List.mem_singleton_self c))) hReply hRefused
    simp only [waitMs, Reopens, tokensAfter, hAlg]
    exact ⟨hHint, fun n _ hSeconds hRounded => hReopens _ (lt_ttl_of_rounded hRate hBurst hShort
      hSeconds (hRounded (msFor_pos hRate (sub_pos.mpr hShort))))⟩
  · -- the windows: it opens at the wait and stays open
    obtain ⟨hHint, hReopens⟩ :=
      window_reopens_iff hAlg hLimit hWindow hUnused hOrder hOnTime hReply hRefused
    have hWait : waitMs l key q before c = l.waitMs key q before c := by
      unfold waitMs
      split
      · exact absurd ‹_› hAlg
      · rfl
    have hOpen : ∀ ms, Reopens maxTtl l key q before c ms ↔ l.waitMs key q before c ≤ ms := by
      intro ms
      unfold Reopens
      split
      · exact absurd ‹_› hAlg
      · exact Iff.rfl
    rw [hWait]
    refine ⟨hHint, fun n hn _ _ => ?_⟩
    rw [hOpen]
    exact hReopens _ (by omega)

end ByAlgorithm

end RatelimitGateway.Limiter.Doubles
