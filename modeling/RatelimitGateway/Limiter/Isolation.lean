import RatelimitGateway.Lib.Separator
import RatelimitGateway.Limiter.SameClock
import RatelimitGateway.Redis.Footprint

/-!
# Callers share the store, not their keys

Every call of `Allow` acts on one Redis key (`run_actsOn`): the limiter's own
key, or for the fixed window the key that the script derives from it by
appending a window index. The name of the algorithm and the window index hold
no colon, so a Redis key can be taken apart from both ends and what remains is
the limiter key, colons and all (`touchedKey_inj`). Two limiter keys therefore
never share a Redis key, whatever algorithms use them.

`Allow` declares one key to Redis, the limiter's own. The fixed window is the
script that acts on another one.

* `callers_do_not_interfere` — deleting the calls on one limiter key from a run
  changes no reply on any other;
* `acts_on_declared_iff`     — the scripts that act on the key that is declared.
-/

namespace RatelimitGateway.Limiter

open KeyStore Redis

-- ---------------------------------------------------------------------------
-- The key a call acts on
-- ---------------------------------------------------------------------------

namespace RedisLimiter

/-- The Redis key that a call reads and writes. -/
def touchedKey (l : RedisLimiter) (key : String) (q : Quota) (nowMs : ℤ) : String :=
  match l.alg with
  | .fixedWindow => windowKey (l.redisKey key) (windowIndex nowMs q.windowMs)
  | _ => l.redisKey key

end RedisLimiter

/-- The token bucket acts on its key alone. -/
theorem tokenBucket_actsOn (key : String) (rate burst nowMs requested : ℚ) :
    ActsOn key (tokenBucket key rate burst nowMs requested) := by
  unfold tokenBucket
  refine actsOn_hmget.bind fun bucket => ?_
  split
  dsimp only
  split <;> exact (actsOn_hset _ _).bind fun _ => (actsOn_pexpire _).bind fun _ => actsOn_pure _

/-- So does the sliding window. -/
theorem slidingWindow_actsOn (key : String) (nowMs windowMs limit : ℤ) (member : String) :
    ActsOn key (slidingWindow key nowMs windowMs limit member) := by
  unfold slidingWindow
  refine (actsOn_zremrangebyscore _).bind fun _ => actsOn_zcard.bind fun count => ?_
  dsimp only
  split
  · refine (actsOn_zadd _ _).bind fun _ => (actsOn_pure _).bind fun _ =>
      actsOn_zrangeFirst.bind fun _ => ?_
    split <;> exact (actsOn_pexpire _).bind fun _ => actsOn_pure _
  · refine (actsOn_pure _).bind fun _ => actsOn_zrangeFirst.bind fun _ => ?_
    split <;> exact (actsOn_pexpire _).bind fun _ => actsOn_pure _

/-- The fixed window acts on the key of its window. -/
theorem fixedWindow_actsOn (keyPrefix : String) (nowMs windowMs limit : ℤ) :
    ActsOn (windowKey keyPrefix (windowIndex nowMs windowMs))
      (fixedWindow keyPrefix nowMs windowMs limit) := by
  unfold fixedWindow
  refine actsOn_incr.bind fun count => ?_
  dsimp only
  split
  · refine (actsOn_pexpire _).bind fun _ => ?_
    split <;> exact actsOn_pure _
  · split <;> exact actsOn_pure _

/-- Whichever the algorithm, on the key that it touches. -/
theorem run_actsOn (l : RedisLimiter) (key : String) (q : Quota) (nowMs : ℤ) (member : String) :
    ActsOn (l.touchedKey key q nowMs) (l.run key q nowMs member) := by
  unfold RedisLimiter.touchedKey RedisLimiter.run
  cases l.alg with
  | tokenBucket => exact tokenBucket_actsOn _ _ _ _ _
  | slidingWindow => exact slidingWindow_actsOn _ _ _ _ _
  | fixedWindow => exact fixedWindow_actsOn _ _ _ _

-- ---------------------------------------------------------------------------
-- Taking a Redis key apart
-- ---------------------------------------------------------------------------

/-- A number is written without a colon. -/
theorem colon_not_mem_repr (k : ℤ) : ':' ∉ k.repr.toList := by
  have hDigits : ∀ n : ℕ, ':' ∉ Nat.toDigits 10 n := by
    intro n hMem
    have hDigit := Nat.isDigit_of_mem_toDigits (by decide) (by decide) hMem
    exact absurd hDigit (by decide)
  rw [Int.repr_eq_if]
  split
  · simp [Nat.toList_repr, hDigits]
  · simp [Nat.toList_repr, hDigits]

/-- So is the index of a window. -/
theorem colon_not_mem_render (index : WindowIndex) : ':' ∉ index.render.toList := by
  cases index with
  | whole k => exact colon_not_mem_repr k
  | posInf => decide
  | negInf => decide
  | nan => decide

/-- A window's key gives back the key it was derived from. -/
theorem windowKey_inj_prefix {key key' : String} {index index' : WindowIndex}
    (h : windowKey key index = windowKey key' index') : key = key' := by
  have hChars := congrArg String.toList h
  simp only [windowKey, String.toList_append, List.append_assoc] at hChars
  have hSplit := Separator.append_cons_inj_last (colon_not_mem_render index)
    (colon_not_mem_render index') hChars
  exact String.ext hSplit.1

theorem colon_not_mem_name (alg : Algorithm) : ':' ∉ alg.name.toList := by
  cases alg <;> decide

theorem name_inj {alg alg' : Algorithm} (h : alg.name = alg'.name) : alg = alg' := by
  cases alg <;> cases alg' <;> first | rfl | exact absurd h (by decide)

/-- The limiters that `NewRedis` returns without options share one prefix. -/
theorem redisKey_inj {alg alg' : Algorithm} {key key' : String}
    (h : RedisLimiter.redisKey { alg := alg } key = RedisLimiter.redisKey { alg := alg' } key') :
    alg = alg' ∧ key = key' := by
  have hChars := congrArg String.toList h
  simp only [RedisLimiter.redisKey, String.toList_append, List.append_assoc] at hChars
  obtain ⟨hName, hKey⟩ := Separator.append_cons_inj_first (colon_not_mem_name alg)
    (colon_not_mem_name alg') (List.append_cancel_left (List.append_cancel_left hChars))
  exact ⟨name_inj (String.ext hName), String.ext hKey⟩

/-- The key of a window, under the key of the limiter. -/
theorem windowKey_redisKey (l : RedisLimiter) (key : String) (index : WindowIndex) :
    windowKey (l.redisKey key) index = l.redisKey (windowKey key index) := by
  simp only [windowKey, RedisLimiter.redisKey, String.append_assoc]

/-- Calls on different limiter keys touch different Redis keys. -/
theorem touchedKey_inj {alg alg' : Algorithm} {key key' : String} {q q' : Quota} {t t' : ℤ}
    (h : RedisLimiter.touchedKey { alg := alg } key q t =
      RedisLimiter.touchedKey { alg := alg' } key' q' t') : key = key' := by
  cases alg <;> cases alg' <;>
    simp only [RedisLimiter.touchedKey, windowKey_redisKey] at h <;>
    obtain ⟨hAlg, hKey⟩ := redisKey_inj h <;>
    first | exact hKey | exact windowKey_inj_prefix hKey | exact absurd hAlg nofun

-- ---------------------------------------------------------------------------
-- Runs of many callers
-- ---------------------------------------------------------------------------

/-- A call of `Allow` on any key, by a limiter under the default prefix. -/
structure KeyedCall where
  alg : Algorithm
  key : String
  quota : Quota
  nowMs : ℤ
  execAt : ℤ
  hex : Option String
  deriving DecidableEq, Repr

namespace KeyedCall

def limiter (c : KeyedCall) : RedisLimiter := { alg := c.alg }

def touched (c : KeyedCall) : String := c.limiter.touchedKey c.key c.quota c.nowMs

/-- What `Allow` returns, and the keyspace. -/
def allow (e : Expiry) (s : Store) (c : KeyedCall) : Except LimiterError Decision × Store :=
  c.limiter.allow c.key c.quota c.nowMs c.hex ⟨e, c.execAt⟩ s

/-- What its script replies, and the keyspace. -/
def reply (e : Expiry) (s : Store) (c : KeyedCall) : Except RedisError Reply × Store :=
  exec (c.limiter.run c.key c.quota c.nowMs (uniqueMember c.nowMs (c.hex.getD ""))) ⟨e, c.execAt⟩ s

/-- The call as its script sees it. -/
def toCall (c : KeyedCall) : Call := ⟨c.nowMs, c.execAt, uniqueMember c.nowMs (c.hex.getD "")⟩

theorem reply_eq_serve (e : Expiry) (s : Store) (c : KeyedCall) :
    c.reply e s = serve e (c.limiter.script c.key c.quota) s c.toCall := rfl

end KeyedCall

/-- Calls act on the keys that they touch. -/
structure Local {α : Type} (step : Store → KeyedCall → α × Store) : Prop where
  answer : ∀ {s s' c}, s c.touched = s' c.touched → (step s c).1 = (step s' c).1
  entry  : ∀ {s s' c}, s c.touched = s' c.touched →
    (step s c).2 c.touched = (step s' c).2 c.touched
  frame  : ∀ {s c k}, k ≠ c.touched → (step s c).2 k = s k

theorem local_reply (e : Expiry) : Local (KeyedCall.reply e) where
  answer := (run_actsOn _ _ _ _ _).reply
  entry := (run_actsOn _ _ _ _ _).entry
  frame := (run_actsOn _ _ _ _ _).frame _ _

/-- `Allow` hands its script's reply on, or stops before the script. -/
theorem allow_eq (e : Expiry) (s : Store) (c : KeyedCall) :
    c.allow e s =
      if c.quota.limit ≤ 0 ∨ c.quota.window ≤ 0 then
        (.error (.invalidQuota c.quota.limit c.quota.window), s)
      else if c.alg = .slidingWindow ∧ c.hex = none then (.error .generateMember, s)
      else
        match c.reply e s with
        | (.ok r, s') => (.ok (c.limiter.decision c.quota r), s')
        | (.error e, s') => (.error (.runScript c.alg e), s') :=
  rfl

/-- `Allow` is local to the key of its caller. -/
theorem local_allow (e : Expiry) : Local (KeyedCall.allow e) where
  answer := fun {s s' c} h => by
    have hAnswer := (local_reply e).answer h
    rw [allow_eq, allow_eq]
    generalize c.reply e s = p, c.reply e s' = p' at hAnswer
    obtain ⟨r, t⟩ := p
    obtain ⟨r', t'⟩ := p'
    obtain rfl : r = r' := hAnswer
    split
    · rfl
    · -- a context that is done answers without a call; otherwise the reply decides
      split
      · rfl
      · cases r <;> rfl
  entry := fun {s s' c} h => by
    have hAnswer := (local_reply e).answer h
    have hEntry := (local_reply e).entry h
    rw [allow_eq, allow_eq]
    generalize c.reply e s = p, c.reply e s' = p' at hAnswer hEntry
    obtain ⟨r, t⟩ := p
    obtain ⟨r', t'⟩ := p'
    obtain rfl : r = r' := hAnswer
    split
    · exact h
    · split
      · exact h
      · cases r <;> exact hEntry
  frame := fun {s c k} hk => by
    have hFrame := (local_reply e).frame (s := s) hk
    rw [allow_eq]
    generalize c.reply e s = p at hFrame
    obtain ⟨r, t⟩ := p
    split
    · rfl
    · split
      · rfl
      · cases r <;> exact hFrame

/-- The stores of a run with and without the calls on some limiter keys agree on
everything that the other calls touch. -/
theorem Local.restricted {α : Type} {step : Store → KeyedCall → α × Store} (hLocal : Local step)
    (s : Store) (calls : List KeyedCall) (p : String → Bool) :
    (Machine.trace step s calls).filter (fun x => p x.1.key) =
      Machine.trace step s (calls.filter fun c => p c.key) := by
  have hSame : ((Machine.trace step s calls).filter fun x => p x.1.key).map
        (fun x => (x.1, id x.2)) =
      (Machine.trace step s (calls.filter fun c => p c.key)).map fun x => (x.1, id x.2) := by
    refine Machine.trace_filter_of_simulation (p := fun c : KeyedCall => p c.key)
      (f := id) (C := fun _ _ => True) (D := fun _ _ => True)
      (R := fun _ s t => ∀ c : KeyedCall, p c.key = true → s c.touched = t c.touched)
      (fun _ _ => rfl) ?_ ?_ (fun _ _ _ _ => trivial) (fun _ _ _ => trivial)
    · -- a call that is kept: both runs make it, on entries that agree
      intro pre s t c _ hAgree hKept
      have hHere := hAgree c hKept
      refine ⟨hLocal.answer hHere, fun c' hc' => ?_⟩
      by_cases hTouched : c'.touched = c.touched
      · rw [hTouched]
        exact hLocal.entry hHere
      · rw [hLocal.frame hTouched, hLocal.frame hTouched]
        exact hAgree c' hc'
    · intro pre s t c _ hAgree hDropped _ c' hc'
      -- a call that is dropped touches a key of no call that is kept
      have hTouched : c'.touched ≠ c.touched := fun h => by
        rw [touchedKey_inj h, hDropped] at hc'
        cases hc'
      rw [hLocal.frame hTouched]
      exact hAgree c' hc'
  simpa using hSame

theorem Local.isolated {α : Type} {step : Store → KeyedCall → α × Store} (hLocal : Local step)
    (s : Store) (calls : List KeyedCall) (key : String) :
    (Machine.trace step s calls).filter (fun x => x.1.key ≠ key) =
      Machine.trace step s (calls.filter fun c => c.key ≠ key) :=
  hLocal.restricted s calls fun k => decide (k ≠ key)

/--
**Callers do not interfere.** On any store, with or without expiry, in every
interleaving of calls of any algorithms on any limiter keys: deleting the calls
on one key leaves what `Allow` returns for every call on another key, and the
reply of its script, as they were.
-/
theorem callers_do_not_interfere (e : Expiry) (s : Store) (calls : List KeyedCall)
    (key : String) :
    (Machine.trace (KeyedCall.allow e) s calls).filter (fun x => x.1.key ≠ key) =
        Machine.trace (KeyedCall.allow e) s (calls.filter fun c => c.key ≠ key) ∧
      (Machine.trace (KeyedCall.reply e) s calls).filter (fun x => x.1.key ≠ key) =
        Machine.trace (KeyedCall.reply e) s (calls.filter fun c => c.key ≠ key) :=
  ⟨(local_allow e).isolated s calls key, (local_reply e).isolated s calls key⟩

-- ---------------------------------------------------------------------------
-- The key that is declared
-- ---------------------------------------------------------------------------

/-- The key of a window is longer than the key it is derived from. -/
theorem windowKey_ne (keyPrefix : String) (index : WindowIndex) :
    windowKey keyPrefix index ≠ keyPrefix := by
  intro hSame
  have hLength := congrArg String.length hSame
  have hColon : (":" : String).length = 1 := rfl
  simp only [windowKey, String.length_append, hColon] at hLength
  omega

/-- On an unused key the script leaves a counter under the key of the window. -/
theorem fixedWindow_leaves (keyPrefix : String) (nowMs windowMs limit : ℤ) (c : Clock) :
    (exec (fixedWindow keyPrefix nowMs windowMs limit) c empty).2
      (windowKey keyPrefix (windowIndex nowMs windowMs)) ≠ none := by
  have hGone : find c (empty : Store) (windowKey keyPrefix (windowIndex nowMs windowMs)) = none :=
    find_eq_none_of_absent rfl
  rw [exec_fixedWindow limit rfl (holdsCounter_of_gone hGone)]
  dsimp only
  rw [Function.update_self]
  exact Option.some_ne_none _

/--
**Declared keys.** `Allow` passes the limiter's own key in `KEYS`. The script
replies by what is stored there and leaves every other key alone exactly when
it is not the one of the fixed window, on every key and for every quota, stamp
and member.
-/
theorem acts_on_declared_iff (l : RedisLimiter) (key : String) (q : Quota) (nowMs : ℤ)
    (member : String) :
    ActsOn (l.redisKey key) (l.run key q nowMs member) ↔ l.alg ≠ .fixedWindow := by
  constructor
  · intro hActs hAlg
    -- fixed_window writes a counter under a name that is not in KEYS
    have hFrame := hActs.frame ⟨.ignored, 0⟩ empty
      (windowKey_ne (l.redisKey key) (windowIndex nowMs q.windowMs))
    have hLeaves := fixedWindow_leaves (l.redisKey key) nowMs q.windowMs q.limit ⟨.ignored, 0⟩
    simp only [RedisLimiter.run, hAlg] at hFrame
    exact hLeaves hFrame
  · intro hAlg
    have hActs := run_actsOn l key q nowMs member
    have hTouched : l.touchedKey key q nowMs = l.redisKey key := by
      unfold RedisLimiter.touchedKey
      split
      · rename_i hFixed
        exact absurd hFixed hAlg
      · rfl
    rwa [hTouched] at hActs

/-- At 1500 ms, with windows of a second and a limit of 1: nothing is stored
under the declared key in either of two stores, and the replies differ. -/
theorem fixedWindow_reads_undeclared :
    ¬ ActsOn "rl:fixed_window:acme"
      (RedisLimiter.run ⟨.fixedWindow, "rl"⟩ "acme" ⟨1, 1000000000, 0⟩ 1500 "") := by
  intro hActs
  have hSame := @hActs.reply ⟨.ignored, 0⟩ empty
    (Function.update empty "rl:fixed_window:acme:1" (some ⟨.counter 1, none⟩)) rfl
  exact absurd hSame (by decide +kernel)

end RatelimitGateway.Limiter
