import Mathlib
import RatelimitGateway.Limiter.Execution

/-!
# Fixed window: what a run admits

The counter of a window lives for one window length from the first script
that runs for it, not until the last call stamped in that window has arrived.
A call that was delayed in flight can find the counter gone and start a new
one: the window then has more than one generation of counters, and each
generation admits up to `limit` calls (`CounterOf`).

* `fixedWindow_cap_iff` — the cap holds in a window exactly when at most
  `limit` calls are stamped in it, or the scripts of all of them run less than
  one window length apart.
-/

namespace RatelimitGateway.Limiter

open KeyStore Redis

/-- The script as `Allow` calls it, under a constant quota. -/
def fixedWindowCall (keyPrefix : String) (windowMs limit : ℤ) (c : Call) : Script Reply :=
  fixedWindow keyPrefix c.nowMs windowMs limit

/-- Is the call stamped in window `k`? -/
def stampedIn (windowMs k : ℤ) (c : Call) : Bool :=
  decide (windowIndex c.nowMs windowMs = .whole k)

/-- No counter is stored for any window of the key. -/
def NoCounters (s : Store) (keyPrefix : String) : Prop :=
  ∀ k : ℤ, s (windowKey keyPrefix (.whole k)) = none

theorem windowIndex_whole {windowMs : ℤ} (hWindow : 1 ≤ windowMs) (nowMs : ℤ) :
    windowIndex nowMs windowMs = .whole ⌊(nowMs : ℚ) / windowMs⌋ :=
  if_pos (by omega)

/-- Windows do not share counters. -/
theorem windowKey_inj {keyPrefix : String} {j k : ℤ} :
    windowKey keyPrefix (.whole j) = windowKey keyPrefix (.whole k) ↔ j = k := by
  unfold windowKey WindowIndex.render
  rw [String.append_right_inj, Int.repr_inj]

theorem update_windowKey_of_ne {keyPrefix : String} {j k : ℤ} (hjk : j ≠ k) (s : Store)
    (x : Option (Entry Value)) :
    Function.update s (windowKey keyPrefix (.whole k)) x (windowKey keyPrefix (.whole j)) =
      s (windowKey keyPrefix (.whole j)) :=
  Function.update_of_ne (fun h => hjk (windowKey_inj.mp h)) x s

theorem admitted_fixedReply (windowMs limit : ℤ) (c : Call) (count : ℤ) :
    admitted (c, .ok (fixedReply c.nowMs windowMs limit count)) = decide (count ≤ limit) := by
  by_cases h : count ≤ limit
  · simp [admitted, fixedReply, h]
  · simp [admitted, fixedReply, h, not_le.mp h]

-- ---------------------------------------------------------------------------
-- The counter of one window
-- ---------------------------------------------------------------------------

section Counter

variable {c : Clock} {s : Store} {key : String} (windowMs : ℤ)

/-- A call that finds no counter starts one. -/
theorem counterEntry_of_gone (hGone : find c s key = none) :
    counterAt c s key = 0 ∧
      counterEntry c s key windowMs = ⟨.counter 1, some (c.time + windowMs)⟩ := by
  have hZero : counterAt c s key = 0 := by simp [counterAt, valueAt, hGone]
  refine ⟨hZero, ?_⟩
  unfold counterEntry
  simp [hZero]

/-- A call that finds a counter moves it on and leaves its deadline. -/
theorem counterEntry_of_found {n : ℤ} {d : Option ℤ} (hn : 1 ≤ n)
    (hFound : find c s key = some ⟨.counter n, d⟩) :
    counterAt c s key = n ∧ counterEntry c s key windowMs = ⟨.counter (n + 1), d⟩ := by
  have hCount : counterAt c s key = n := by simp [counterAt, valueAt, hFound]
  refine ⟨hCount, ?_⟩
  unfold counterEntry
  rw [hCount, if_neg (by omega), hFound]
  rfl

end Counter

/-- The count that is stored for a window, whether or not it has run out. -/
def countOf (keyPrefix : String) (s : Store) (k : ℤ) : ℤ :=
  counterAt ⟨.ignored, 0⟩ s (windowKey keyPrefix (.whole k))

/-- The keys of all windows hold counters, if anything. -/
def HoldsCounters (keyPrefix : String) (s : Store) : Prop :=
  ∀ k : ℤ, HoldsCounter ⟨.ignored, 0⟩ s (windowKey keyPrefix (.whole k))

theorem holdsCounters_of_unused {keyPrefix : String} {s : Store} (h : NoCounters s keyPrefix) :
    HoldsCounters keyPrefix s :=
  fun k => holdsCounter_of_gone (find_eq_none_of_absent (h k))

theorem countOf_of_unused {keyPrefix : String} {s : Store} (h : NoCounters s keyPrefix) (k : ℤ) :
    countOf keyPrefix s k = 0 := by
  simp [countOf, counterAt, valueAt, find_eq_none_of_absent (h k)]

/-- Where keys do not expire, a call moves the counter of its window on, and no
other. -/
theorem serve_fixedWindow {keyPrefix : String} {windowMs : ℤ} (limit : ℤ) {s : Store}
    (hType : HoldsCounters keyPrefix s) {c : Call} {k : ℤ}
    (hIndex : windowIndex c.nowMs windowMs = .whole k) :
    (serve .ignored (fixedWindowCall keyPrefix windowMs limit) s c).1 =
      .ok (fixedReply c.nowMs windowMs limit (countOf keyPrefix s k + 1)) ∧
    HoldsCounters keyPrefix (serve .ignored (fixedWindowCall keyPrefix windowMs limit) s c).2 ∧
    countOf keyPrefix (serve .ignored (fixedWindowCall keyPrefix windowMs limit) s c).2 =
      Function.update (countOf keyPrefix s) k (countOf keyPrefix s k + 1) := by
  have hRun := exec_fixedWindow (c := ⟨.ignored, c.execAt⟩) limit
    (congrArg (windowKey keyPrefix) hIndex) (hType k)
  rw [serve, fixedWindowCall, hRun]
  have hSelf : ∀ x : Entry Value,
      valueAt ⟨.ignored, 0⟩ (Function.update s (windowKey keyPrefix (.whole k)) (some x))
        (windowKey keyPrefix (.whole k)) = some x.value := fun x => valueAt_update rfl
  have hOther : ∀ j, j ≠ k → ∀ x : Option (Entry Value),
      valueAt ⟨.ignored, 0⟩ (Function.update s (windowKey keyPrefix (.whole k)) x)
        (windowKey keyPrefix (.whole j)) =
      valueAt ⟨.ignored, 0⟩ s (windowKey keyPrefix (.whole j)) := by
    intro j hjk x
    simp only [valueAt, find, update_windowKey_of_ne hjk]
  refine ⟨rfl, fun j v hv => ?_, ?_⟩
  · -- the types of the keys: the counter is a number again
    by_cases hjk : j = k
    · subst hjk
      rw [hSelf] at hv
      exact ⟨_, (Option.some.inj hv).symm⟩
    · rw [hOther j hjk] at hv
      exact hType j v hv
  · funext j
    -- the counts: this one is up by one
    by_cases hjk : j = k
    · subst hjk
      rw [Function.update_self, countOf, counterAt, hSelf]
      rfl
    · rw [Function.update_of_ne hjk, countOf, counterAt, hOther j hjk]
      rfl

/--
The calls stamped in one window so far, how many of them were admitted, and
what the key of the window holds: nothing yet, its first counter, or a later
one.
-/
inductive CounterOf (windowMs limit : ℤ) : List Call → ℤ → Option (Entry Value) → Prop
  | unused : CounterOf windowMs limit [] 0 none
  | first {calls : List Call} {a : Call} (hFirst : a ∈ calls)
      (hNear : ∀ b ∈ calls, a.execAt ≤ b.execAt ∧ b.execAt < a.execAt + windowMs) :
      CounterOf windowMs limit calls (min calls.length limit)
        (some ⟨.counter calls.length, some (a.execAt + windowMs)⟩)
  | later {calls : List Call} {n d granted : ℤ} (hCount : 1 ≤ n)
      (hFar : ∃ a ∈ calls, ∃ b ∈ calls, a.execAt + windowMs ≤ b.execAt)
      (hCurrent : 1 + min n limit ≤ granted)
      (hTotal : min (calls.length : ℤ) (limit + 1) ≤ granted) :
      CounterOf windowMs limit calls granted (some ⟨.counter n, some d⟩)

/-- The key holds a counter, or nothing. -/
theorem CounterOf.holdsCounter {windowMs limit granted : ℤ} {calls : List Call} {c : Clock}
    {s : Store} {key : String} (h : CounterOf windowMs limit calls granted (s key)) :
    HoldsCounter c s key := by
  intro v hv
  obtain ⟨x, hEntry, rfl⟩ := exists_entry hv
  rw [hEntry] at h
  cases h with
  | first => exact ⟨_, rfl⟩
  | later => exact ⟨_, rfl⟩

/-- A call that finds the counter gone starts another, and is admitted. -/
theorem CounterOf.restarted {windowMs limit granted : ℤ} (hLimit : 1 ≤ limit) {calls : List Call}
    {s : Store} {key : String} {c : Call} (hGone : find ⟨.honoured, c.execAt⟩ s key = none)
    (hFar : ∃ a ∈ calls ++ [c], ∃ b ∈ calls ++ [c], a.execAt + windowMs ≤ b.execAt)
    (hGranted : 1 ≤ granted) (hTotal : min (calls.length : ℤ) limit ≤ granted) :
    CounterOf windowMs limit (calls ++ [c])
      (granted + if counterAt ⟨.honoured, c.execAt⟩ s key + 1 ≤ limit then 1 else 0)
      (some (counterEntry ⟨.honoured, c.execAt⟩ s key windowMs)) := by
  obtain ⟨hCount, hNew⟩ := counterEntry_of_gone windowMs hGone
  have hLength : ((calls ++ [c]).length : ℤ) = calls.length + 1 := by simp
  rw [hCount, hNew, if_pos (by omega)]
  refine .later le_rfl hFar ?_ ?_
  · omega
  · rw [hLength]
    omega

/-- One more call of the window, its script running no earlier than those
before it. -/
theorem CounterOf.step {windowMs limit granted : ℤ} (hLimit : 1 ≤ limit) (hWindow : 1 ≤ windowMs)
    {calls : List Call} {s : Store} {key : String}
    (h : CounterOf windowMs limit calls granted (s key)) {c : Call}
    (hOrder : ∀ a ∈ calls, a.execAt ≤ c.execAt) :
    CounterOf windowMs limit (calls ++ [c])
      (granted + if counterAt ⟨.honoured, c.execAt⟩ s key + 1 ≤ limit then 1 else 0)
      (some (counterEntry ⟨.honoured, c.execAt⟩ s key windowMs)) := by
  have hLast : c ∈ calls ++ [c] := by simp
  have hLength : ((calls ++ [c]).length : ℤ) = calls.length + 1 := by simp
  generalize hEntry : s key = entry at h
  cases h with
  | unused =>
    -- the first call of the window
    obtain ⟨hCount, hNew⟩ := counterEntry_of_gone windowMs
      (find_eq_none_of_absent (c := ⟨.honoured, c.execAt⟩) hEntry)
    have hOne : CounterOf windowMs limit [c] _ _ :=
      .first (List.mem_singleton_self c) (by simp; omega)
    rw [hCount, hNew]
    simpa [hLimit] using hOne
  | @first _ a hFirst hNear =>
    have hPos := List.length_pos_of_mem hFirst
    rcases lt_or_ge c.execAt (a.execAt + windowMs) with hLive | hDead
    · -- the first counter is still there
      obtain ⟨hCount, hNew⟩ :=
        counterEntry_of_found windowMs (by omega) (find_before hEntry hLive)
      have hNear' : ∀ b ∈ calls ++ [c],
          a.execAt ≤ b.execAt ∧ b.execAt < a.execAt + windowMs := by
        intro b hb
        rcases List.mem_append.mp hb with hMem | hNew
        · exact hNear b hMem
        · rw [List.mem_singleton.mp hNew]
          exact ⟨hOrder a hFirst, hLive⟩
      have hOne : CounterOf windowMs limit (calls ++ [c]) _ _ :=
        .first (List.mem_append_left _ hFirst) hNear'
      rw [hLength] at hOne
      rw [hCount, hNew]
      convert hOne using 1
      split <;> omega
    · -- it has run out: the call starts a second one
      have hFar : ∃ b ∈ calls ++ [c], ∃ b' ∈ calls ++ [c], b.execAt + windowMs ≤ b'.execAt :=
        ⟨a, List.mem_append_left _ hFirst, c, hLast, hDead⟩
      exact .restarted hLimit (find_after hEntry hDead) hFar (by omega) le_rfl
  | @later _ n d _ hCountPos hFar hCurrent hTotal =>
    -- two calls are at least a window apart, and stay in the list
    have hFar' : ∃ a ∈ calls ++ [c], ∃ b ∈ calls ++ [c], a.execAt + windowMs ≤ b.execAt := by
      obtain ⟨a, ha, b, hb, hab⟩ := hFar
      exact ⟨a, List.mem_append_left _ ha, b, List.mem_append_left _ hb, hab⟩
    rcases lt_or_ge c.execAt d with hLive | hDead
    · obtain ⟨hCount, hNew⟩ :=
        counterEntry_of_found windowMs hCountPos (find_before hEntry hLive)
      rw [hCount, hNew]
      refine .later (by omega) hFar' ?_ ?_
      · split <;> omega
      · rw [hLength]
        split <;> omega
    · exact .restarted hLimit (find_after hEntry hDead) hFar' (by omega) (by omega)

-- ---------------------------------------------------------------------------
-- Whole runs
-- ---------------------------------------------------------------------------

/-- The calls are listed in the order in which their scripts run. -/
def InRunOrder (calls : List Call) : Prop := calls.Pairwise fun a b => a.execAt ≤ b.execAt

/-- What holds after every call: each window has its own counter. -/
def CountersInv (keyPrefix : String) (windowMs limit : ℤ) (tr : List Served) (s : Store) : Prop :=
  ∀ k : ℤ, CounterOf windowMs limit ((tr.map Prod.fst).filter (stampedIn windowMs k))
    ((admittedCalls tr).countP (stampedIn windowMs k)) (s (windowKey keyPrefix (.whole k)))

/-- A call counts in its own window, and the other windows keep theirs. -/
theorem countersInv_step {keyPrefix : String} {windowMs limit : ℤ} (hLimit : 1 ≤ limit)
    (hWindow : 1 ≤ windowMs) {tr : List Served} {s : Store} {c : Call}
    (hOrder : ∀ x ∈ tr, x.1.execAt ≤ c.execAt)
    (hInv : CountersInv keyPrefix windowMs limit tr s) :
    CountersInv keyPrefix windowMs limit
      (tr ++ [(c, (serve .honoured (fixedWindowCall keyPrefix windowMs limit) s c).1)])
      (serve .honoured (fixedWindowCall keyPrefix windowMs limit) s c).2 := by
  obtain ⟨j, hj⟩ : ∃ j, windowIndex c.nowMs windowMs = .whole j :=
    ⟨_, windowIndex_whole hWindow c.nowMs⟩
  have hRun : serve .honoured (fixedWindowCall keyPrefix windowMs limit) s c = _ :=
    exec_fixedWindow limit (congrArg (windowKey keyPrefix) hj)
      (hInv j).holdsCounter (c := ⟨.honoured, c.execAt⟩)
  rw [hRun]
  have hAdm := admitted_fixedReply windowMs limit c
    (counterAt ⟨.honoured, c.execAt⟩ s (windowKey keyPrefix (.whole j)) + 1)
  intro k
  dsimp only
  rw [List.map_append, List.map_singleton, List.filter_append, admittedCalls_concat, hAdm]
  by_cases hkj : k = j
  · -- the window the call is stamped in
    subst hkj
    have hIn : stampedIn windowMs k c = true := by simp [stampedIn, hj]
    have hEarlier : ∀ a ∈ (tr.map Prod.fst).filter (stampedIn windowMs k),
        a.execAt ≤ c.execAt := by
      intro a ha
      obtain ⟨x, hx, rfl⟩ := List.mem_map.mp (List.mem_filter.mp ha).1
      exact hOrder x hx
    have hStep := (hInv k).step hLimit hWindow hEarlier
    rw [Function.update_self, List.filter_cons_of_pos hIn, List.filter_nil]
    convert hStep using 1
    by_cases hTaken :
        counterAt ⟨.honoured, c.execAt⟩ s (windowKey keyPrefix (.whole k)) + 1 ≤ limit
    · simp [hTaken, hIn]
    · simp [hTaken]
  · -- any other window: neither its counter nor its calls change
    have hOut : ¬ stampedIn windowMs k c = true := by
      simp only [stampedIn, hj, decide_eq_true_eq, WindowIndex.whole.injEq]
      exact fun h => hkj h.symm
    rw [update_windowKey_of_ne hkj, List.filter_cons_of_neg hOut, List.filter_nil,
      List.append_nil]
    convert hInv k using 1
    split <;> simp [hOut]

/-- So they do along every run in order of the run times. -/
theorem countersInv_run {keyPrefix : String} {windowMs limit : ℤ} (hLimit : 1 ≤ limit)
    (hWindow : 1 ≤ windowMs) {s : Store} (hUnused : NoCounters s keyPrefix) {calls : List Call}
    (hOrder : InRunOrder calls) :
    CountersInv keyPrefix windowMs limit
      (transcript .honoured (fixedWindowCall keyPrefix windowMs limit) s calls)
      (keyspace .honoured (fixedWindowCall keyPrefix windowMs limit) s calls) := by
  refine Machine.trace_invariant ?_
    (fun _ _ _ hEarlier hInv => countersInv_step hLimit hWindow hEarlier hInv) hOrder
  intro k
  rw [hUnused k]
  exact .unused

/--
**Fixed window under in-flight delay.** Gateways and Redis share one clock,
and Redis expires a counter one window after the script that created it. At
most `limit` admitted calls are stamped in window `k` exactly when at most
`limit` calls are stamped in it at all, or the scripts of all the calls
stamped in it run less than one window length apart.
-/
theorem fixedWindow_cap_iff {keyPrefix : String} {windowMs limit : ℤ} (hLimit : 1 ≤ limit)
    (hWindow : 1 ≤ windowMs) {s : Store} (hUnused : NoCounters s keyPrefix) {calls : List Call}
    (hOrder : InRunOrder calls) (k : ℤ) :
    ((admittedCalls (transcript .honoured (fixedWindowCall keyPrefix windowMs limit) s
        calls)).countP (stampedIn windowMs k) : ℤ) ≤ limit ↔
      (calls.countP (stampedIn windowMs k) : ℤ) ≤ limit ∨
        ∀ a ∈ calls, ∀ b ∈ calls, stampedIn windowMs k a = true → stampedIn windowMs k b = true →
          b.execAt < a.execAt + windowMs := by
  have hCounter := countersInv_run hLimit hWindow hUnused hOrder k
  have hSub := admittedCalls_sublist
    (transcript .honoured (fixedWindowCall keyPrefix windowMs limit) s calls)
  rw [transcript, Machine.map_fst_trace, ← transcript] at hCounter hSub
  have hLess := hSub.countP_le (p := stampedIn windowMs k)
  rw [List.countP_eq_length_filter (l := calls)] at hLess ⊢
  generalize ((admittedCalls (transcript .honoured (fixedWindowCall keyPrefix windowMs limit) s
    calls)).countP (stampedIn windowMs k)) = granted at hCounter hLess ⊢
  have hMem : ∀ a, a ∈ calls.filter (stampedIn windowMs k) ↔
      a ∈ calls ∧ stampedIn windowMs k a = true := fun _ => List.mem_filter
  generalize calls.filter (stampedIn windowMs k) = stamped at hCounter hLess hMem ⊢
  generalize hGranted : (granted : ℤ) = g at hCounter ⊢
  generalize keyspace .honoured (fixedWindowCall keyPrefix windowMs limit) s calls
    (windowKey keyPrefix (.whole k)) = entry at hCounter
  cases hCounter with
  | unused =>
    -- no call is stamped in the window
    have hZero : (([] : List Call).length : ℤ) ≤ limit := by simp; omega
    exact iff_of_true (by omega) (.inl hZero)
  | @first _ a _ hNear =>
    -- one counter for the whole window: it counts right
    refine iff_of_true (min_le_right _ _) (.inr fun x hx y hy hInX hInY => ?_)
    have hX := hNear x ((hMem x).mpr ⟨hx, hInX⟩)
    have hY := hNear y ((hMem y).mpr ⟨hy, hInY⟩)
    omega
  | later _ hFar _ hTotal =>
    -- a second counter: every call beyond `limit` overspends
    constructor
    · intro hCap
      left
      omega
    · rintro (hFew | hNear)
      · omega
      · obtain ⟨a, ha, b, hb, hab⟩ := hFar
        obtain ⟨haCalls, haIn⟩ := (hMem a).mp ha
        obtain ⟨hbCalls, hbIn⟩ := (hMem b).mp hb
        exact absurd (hNear a haCalls b hbCalls haIn hbIn) (by omega)

/-- One call per second, served within the second. -/
theorem fixedWindow_cap_iff_demo :
    let calls : List Call := [⟨0, 0, ""⟩, ⟨500, 700, ""⟩, ⟨999, 999, ""⟩]
    ((admittedCalls (transcript .honoured (fixedWindowCall "rl:fixed_window:demo" 1000 1) empty
        calls)).countP (stampedIn 1000 0) : ℤ) ≤ 1 ↔
      (calls.countP (stampedIn 1000 0) : ℤ) ≤ 1 ∨ ∀ a ∈ calls, ∀ b ∈ calls,
        stampedIn 1000 0 a = true → stampedIn 1000 0 b = true → b.execAt < a.execAt + 1000 :=
  fixedWindow_cap_iff (by decide) (by decide) (fun _ => rfl) (by simp [InRunOrder]) 0

/-- One call per second: the second call is stamped in the last millisecond of
window 0 and its script runs when the counter of the first has just gone. -/
theorem fixedWindow_overspends :
    ¬ ((admittedCalls (transcript .honoured (fixedWindowCall "rl:fixed_window:demo" 1000 1) empty
        [⟨0, 0, ""⟩, ⟨999, 1000, ""⟩])).countP (stampedIn 1000 0) : ℤ) ≤ 1 := by
  decide +kernel

end RatelimitGateway.Limiter
