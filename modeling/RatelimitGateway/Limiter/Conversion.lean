import RatelimitGateway.Limiter.Expiry

/-!
# From nanoseconds to milliseconds

A quota is validated in nanoseconds and enforced in milliseconds:
`Window.Milliseconds()` cuts the remainder off. The scripts keep the cap of the
shorter window. A sliding window that is not a whole number of milliseconds
admits the limit once more at the last whole millisecond before its end, and a
fixed window of less than one millisecond never finds the counter that it has
just written, because the counter is given no time to live.

* `conversion_keeps_cap_iff` — the windows whose cap survives the conversion.
-/

namespace RatelimitGateway.Limiter

open KeyStore Redis

/-- The stamps of the calls pairwise differ by less than the window. -/
def CloseTogether (q : Quota) (calls : List Call) : Prop :=
  calls.Pairwise fun a b => |a.nowMs - b.nowMs| * 1000000 < q.window

/-- In every run on an unused key, admitted calls that are close together
number at most `bound`. -/
def CapsAt (l : RedisLimiter) (q : Quota) (bound : ℤ) : Prop :=
  ∀ (key : String) (s : Store) (calls close : List Call), Unused l key s →
    InOrder calls → (∀ c ∈ calls, OnTime c) →
    (l.alg = .slidingWindow → DistinctMembers calls) →
    close.Sublist (admittedCalls (transcript .honoured (l.script key q) s calls)) →
    CloseTogether q close → (close.length : ℤ) ≤ bound

theorem windowMs_bounds {q : Quota} (hWindow : 0 < q.window) :
    0 ≤ q.windowMs ∧ q.windowMs * 1000000 ≤ q.window ∧ q.window < (q.windowMs + 1) * 1000000 := by
  have hMs : q.windowMs = q.window / 1000000 := Int.tdiv_eq_ediv_of_nonneg hWindow.le
  omega

/-- Admitted calls are stamped in order, as all calls are. -/
theorem inOrder_admittedCalls {e : Expiry} {script : Call → Script Reply} {s : Store}
    {calls : List Call} (hOrder : InOrder calls) :
    InOrder (admittedCalls (transcript e script s calls)) := by
  have hSub := admittedCalls_sublist (transcript e script s calls)
  rw [transcript, Machine.map_fst_trace] at hSub
  exact hOrder.sublist hSub

/-- Calls are stamped no further apart than the window reaches, in whole
milliseconds. -/
theorem CloseTogether.within {q : Quota} {calls : List Call} (h : CloseTogether q calls)
    (hOrder : InOrder calls) :
    calls.Pairwise fun a b => a.nowMs ≤ b.nowMs ∧ (b.nowMs - a.nowMs) * 1000000 < q.window := by
  refine (h.and hOrder).imp ?_
  rintro a b ⟨hClose, hLe⟩
  rw [abs_sub_comm, abs_of_nonneg (sub_nonneg.mpr hLe)] at hClose
  exact ⟨hLe, hClose⟩

-- ---------------------------------------------------------------------------
-- sliding_window.lua
-- ---------------------------------------------------------------------------

/-- A window of whole milliseconds keeps its cap. -/
theorem slidingWindow_capsAt {l : RedisLimiter} (hAlg : l.alg = .slidingWindow) {q : Quota}
    (hq : ValidQuota q) (hWhole : q.window = q.windowMs * 1000000) : CapsAt l q q.limit := by
  intro key s calls close hUnused hOrder hOnTime hDistinct hSub hClose
  have hInOrder := (inOrder_admittedCalls hOrder).sublist hSub
  have hWithin := hClose.within hInOrder
  rw [transcript_onTime hq hUnused hOrder hOnTime, script_slidingWindow hAlg] at hSub
  have hCap := (windowInv_run hq.limit hq.window hUnused.entry hOrder (hDistinct hAlg)).cap
  cases close using List.reverseRecOn with
  | nil => exact zero_le_one.trans hq.limit
  | append_singleton close c =>
    -- the window that ends with the last of them holds them all
    have hAll : ∀ a ∈ close ++ [c], inWindow q.windowMs c.nowMs a = true := by
      have hPos := hq.window
      intro a ha
      rw [inWindow, decide_eq_true_eq]
      rcases List.mem_append.mp ha with hBefore | hLast
      · have hNear := (List.pairwise_append.mp hWithin).2.2 a hBefore c (List.mem_singleton_self c)
        omega
      · rw [List.mem_singleton.mp hLast]
        omega
    calc ((close ++ [c]).length : ℤ)
        = windowCount q.windowMs c.nowMs (close ++ [c]) := by
          rw [windowCount, List.countP_eq_length.mpr hAll]
      _ ≤ windowCount q.windowMs c.nowMs (admittedCalls _) := by
          exact_mod_cast hSub.countP_le
      _ ≤ q.limit := hCap c.nowMs

/-- `n` calls stamped 0, with different members. -/
def volley (n : ℕ) : List Call := (List.range n).map fun i : ℕ => ⟨0, 0, (i : ℤ).repr⟩

theorem onTime_volley {n : ℕ} {c : Call} (hc : c ∈ volley n) : c.nowMs = 0 ∧ OnTime c := by
  obtain ⟨i, -, rfl⟩ := List.mem_map.mp hc
  exact ⟨rfl, rfl⟩

theorem length_volley (n : ℕ) : (volley n).length = n := by
  rw [volley, List.length_map, List.length_range]

theorem allAdmitted_concat {tr : List Served} {x : Served} (h : ∀ y ∈ tr, admitted y = true)
    (hx : admitted x = true) : ∀ y ∈ tr ++ [x], admitted y = true :=
  List.forall_mem_append.mpr ⟨h, List.forall_mem_singleton.mpr hx⟩

/-- A run of which every call is admitted. -/
theorem admittedCalls_of_all {tr : List Served} (h : ∀ x ∈ tr, admitted x = true) :
    admittedCalls tr = tr.map Prod.fst := by
  rw [admittedCalls, List.filter_eq_self.mpr h]

/-- What holds while calls stamped 0 fill the log. -/
structure FillingInv (key : String) (limit : ℤ) (tr : List Served) (s : Store) : Prop where
  zset     : HoldsZset ⟨.ignored, 0⟩ s key
  card     : (logOf key s).card ≤ tr.length
  scores   : ∀ e ∈ (logOf key s).entries, e.1 = 0
  admitted : ∀ x ∈ tr, admitted x = true

/-- A call at 0 is admitted and logged while there is room. -/
theorem fillingInv_step {key : String} {windowMs limit : ℤ} {tr : List Served} {s : Store}
    {c : Call} (hNow : c.nowMs = 0) (hRoom : (tr.length : ℤ) < limit)
    (hInv : FillingInv key limit tr s) :
    FillingInv key limit
      (tr ++ [(c, (serve .ignored (slidingWindowCall key windowMs limit) s c).1)])
      (serve .ignored (slidingWindowCall key windowMs limit) s c).2 := by
  obtain ⟨hReply, hZset, hLog⟩ := serve_slidingWindow windowMs limit hInv.zset c
  have hPruned := SortedSet.card_removeUpTo_le (c.nowMs - windowMs) (logOf key s)
  have hCard := hInv.card
  -- all stamps are 0, so nothing is pruned and the log is not full yet
  have hFree : (((logOf key s).removeUpTo (c.nowMs - windowMs)).card : ℤ) < limit := by omega
  refine ⟨hZset, ?_, fun e he => ?_, allAdmitted_concat hInv.admitted ?_⟩
  · have hAdded := SortedSet.card_add_le c.nowMs c.member
      ((logOf key s).removeUpTo (c.nowMs - windowMs))
    rw [hLog, logAfter, if_pos hFree, List.length_append, List.length_singleton]
    omega
  · rw [hLog] at he
    rcases mem_logAfter he with rfl | ⟨hOld, -⟩
    · exact hNow
    · exact hInv.scores e hOld
  · rw [hReply, admitted_slidingReply]
    exact decide_eq_true hFree

/-- The limit at 0, and one more as soon as the shorter window has passed. -/
theorem slidingWindow_one_more {key : String} {windowMs limit : ℤ} (hLimit : 1 ≤ limit)
    {s : Store} (hAbsent : s key = none) {member : String} :
    ∀ x ∈ transcript .ignored (slidingWindowCall key windowMs limit) s
      (volley limit.toNat ++ [⟨windowMs, windowMs, member⟩]), admitted x = true := by
  -- the volley at 0 fills the log with entries stamped 0
  have hFilled : FillingInv key limit
      (transcript .ignored (slidingWindowCall key windowMs limit) s (volley limit.toNat))
      (keyspace .ignored (slidingWindowCall key windowMs limit) s (volley limit.toNat)) := by
    refine Machine.trace_invariant_of_prefix
      (C := fun pre c => c.nowMs = 0 ∧ (pre.length : ℤ) < limit) (P := FillingInv key limit)
      ⟨holdsZset_of_absent hAbsent, ?_, fun e he => ?_, fun x hx => absurd hx List.not_mem_nil⟩
      (fun tr s c hC hInv => fillingInv_step hC.1 (by simpa using hC.2) hInv) ?_
    · rw [logOf, logAt_of_absent hAbsent]
      rfl
    · rw [logOf, logAt_of_absent hAbsent] at he
      exact absurd he SortedSet.not_mem_empty
    · intro pre c post hEq
      have hMem : c ∈ volley limit.toNat := by
        rw [hEq]
        exact List.mem_append_right _ List.mem_cons_self
      have hLength : (volley limit.toNat).length = pre.length + (post.length + 1) := by
        rw [hEq, List.length_append, List.length_cons]
      rw [length_volley] at hLength
      exact ⟨(onTime_volley hMem).1, by omega⟩
  rw [transcript, Machine.trace_concat]
  refine allAdmitted_concat hFilled.admitted ?_
  -- the whole log has aged out for the last call
  obtain ⟨hReply, -⟩ :=
    serve_slidingWindow windowMs limit hFilled.zset ⟨windowMs, windowMs, member⟩
  have hGone : ((logOf key (keyspace .ignored (slidingWindowCall key windowMs limit) s
      (volley limit.toNat))).removeUpTo (windowMs - windowMs)).card = 0 := by
    refine SortedSet.card_removeUpTo_eq_zero_iff.mpr fun e he => ?_
    rw [hFilled.scores e he, sub_self]
  rw [← keyspace, hReply, admitted_slidingReply, hGone]
  exact decide_eq_true (by omega)

/-- A later call of the volley has a member id of its own. -/
theorem member_volley {n i : ℕ} {c : Call} (hc : c ∈ volley n) (hi : n ≤ i) :
    c.member ≠ (i : ℤ).repr := by
  obtain ⟨j, hj, rfl⟩ := List.mem_map.mp hc
  have hLess := List.mem_range.mp hj
  intro hEq
  have hSame : (j : ℤ) = i := Int.repr_inj.mp (show (j : ℤ).repr = (i : ℤ).repr from hEq)
  omega

theorem distinctMembers_volley (n : ℕ) : DistinctMembers (volley n) := by
  refine List.pairwise_map.mpr (List.nodup_range.imp ?_)
  intro i j hij hEq
  have hSame : (i : ℤ) = j := Int.repr_inj.mp (show (i : ℤ).repr = (j : ℤ).repr from hEq)
  omega

/-- Any other window admits one call more than the limit. -/
theorem slidingWindow_not_capsAt {l : RedisLimiter} (hAlg : l.alg = .slidingWindow) {q : Quota}
    (hLimit : 1 ≤ q.limit) (hWindow : 0 < q.window) (hPart : q.window ≠ q.windowMs * 1000000) :
    ¬ CapsAt l q q.limit := by
  obtain ⟨hMs, hShorter, -⟩ := windowMs_bounds hWindow
  intro hCaps
  generalize hLast : (⟨q.windowMs, q.windowMs, (q.limit.toNat : ℤ).repr⟩ : Call) = last
  have hNow : last.nowMs = q.windowMs := by rw [← hLast]
  have hOnTime : ∀ a ∈ volley q.limit.toNat ++ [last], OnTime a := by
    intro a ha
    rcases List.mem_append.mp ha with hOld | hNew
    · exact (onTime_volley hOld).2
    · rw [List.mem_singleton.mp hNew, ← hLast]
      rfl
  have hOrder : InOrder (volley q.limit.toNat ++ [last]) := by
    refine List.pairwise_append.mpr ⟨List.pairwise_of_forall_mem_list fun a ha b hb => ?_,
      List.pairwise_singleton _ _, fun a ha b hb => ?_⟩
    · rw [(onTime_volley ha).1, (onTime_volley hb).1]
    · rw [(onTime_volley ha).1, List.mem_singleton.mp hb, hNow]
      exact hMs
  have hDistinct : DistinctMembers (volley q.limit.toNat ++ [last]) := by
    refine List.pairwise_append.mpr ⟨distinctMembers_volley _, List.pairwise_singleton _ _,
      fun a ha b hb => ?_⟩
    rw [List.mem_singleton.mp hb, ← hLast]
    exact member_volley ha le_rfl
  -- the dropped part of a millisecond puts the last call less than a window after the first
  have hClose : CloseTogether q (volley q.limit.toNat ++ [last]) := by
    refine List.pairwise_append.mpr ⟨List.pairwise_of_forall_mem_list fun a ha b hb => ?_,
      List.pairwise_singleton _ _, fun a ha b hb => ?_⟩
    · rw [(onTime_volley ha).1, (onTime_volley hb).1]
      simpa using hWindow
    · rw [(onTime_volley ha).1, List.mem_singleton.mp hb, hNow, zero_sub, abs_neg,
        abs_of_nonneg hMs]
      omega
  have hAll : ∀ x ∈ transcript .honoured (l.script "" q) empty (volley q.limit.toNat ++ [last]),
      admitted x = true := by
    rw [script_slidingWindow hAlg, transcript_slidingWindow_expiry _ _ rfl
      (inRunOrder_of_onTime hOrder hOnTime) fun c hc => (hOnTime c hc).inFlight, ← hLast]
    exact slidingWindow_one_more hLimit rfl
  have hCount := hCaps "" empty _ (volley q.limit.toNat ++ [last]) ⟨rfl, fun _ => rfl⟩ hOrder
    hOnTime (fun _ => hDistinct) (by
      rw [admittedCalls_of_all hAll, transcript, Machine.map_fst_trace]) hClose
  rw [List.length_append, List.length_singleton, length_volley] at hCount
  omega

-- ---------------------------------------------------------------------------
-- fixed_window.lua
-- ---------------------------------------------------------------------------

/-- Each window admits as many calls as its counter says, up to the limit. -/
structure CountedInv (keyPrefix : String) (windowMs limit : ℤ) (tr : List Served) (s : Store) :
    Prop where
  counters : HoldsCounters keyPrefix s
  counted  : ∀ k, ((admittedCalls tr).countP (stampedIn windowMs k) : ℤ) ≤ countOf keyPrefix s k
  capped   : ∀ k, ((admittedCalls tr).countP (stampedIn windowMs k) : ℤ) ≤ limit

/-- Every call counts in its window. -/
theorem countedInv_step {keyPrefix : String} {windowMs limit : ℤ} (hWindow : 1 ≤ windowMs)
    {tr : List Served} {s : Store} {c : Call} (hInv : CountedInv keyPrefix windowMs limit tr s) :
    CountedInv keyPrefix windowMs limit
      (tr ++ [(c, (serve .ignored (fixedWindowCall keyPrefix windowMs limit) s c).1)])
      (serve .ignored (fixedWindowCall keyPrefix windowMs limit) s c).2 := by
  have hIndex := windowIndex_whole hWindow c.nowMs
  generalize ⌊(c.nowMs : ℚ) / windowMs⌋ = j at hIndex
  obtain ⟨hReply, hType, hCount⟩ := serve_fixedWindow limit hInv.counters hIndex
  have hStamped : ∀ k, stampedIn windowMs k c = decide (k = j) := by
    intro k
    rw [stampedIn, hIndex, Bool.eq_iff_iff, decide_eq_true_eq, decide_eq_true_eq,
      WindowIndex.whole.injEq]
    exact eq_comm
  rw [hReply]
  generalize (serve .ignored (fixedWindowCall keyPrefix windowMs limit) s c).2 = s'
    at hType hCount ⊢
  have hBoth : ∀ k, ((admittedCalls (tr ++ [(c, .ok (fixedReply c.nowMs windowMs limit
      (countOf keyPrefix s j + 1)))])).countP (stampedIn windowMs k) : ℤ) ≤ countOf keyPrefix s' k ∧
      ((admittedCalls (tr ++ [(c, .ok (fixedReply c.nowMs windowMs limit
      (countOf keyPrefix s j + 1)))])).countP (stampedIn windowMs k) : ℤ) ≤ limit := by
    intro k
    have hCounted := hInv.counted k
    have hCapped := hInv.capped k
    rw [admittedCalls_concat, admitted_fixedReply, hCount]
    -- only the counter of the window of the call moves
    by_cases hkj : k = j
    · subst hkj
      rw [Function.update_self]
      by_cases hRoom : countOf keyPrefix s k + 1 ≤ limit
      · simp only [hRoom, decide_true, if_true, List.countP_append, List.countP_singleton,
          hStamped]
        push_cast
        omega
      · simp only [hRoom, decide_false, Bool.false_eq_true, if_false]
        omega
    · rw [Function.update_of_ne hkj]
      have hSame : ∀ room : Bool, (if room = true then admittedCalls tr ++ [c] else
          admittedCalls tr).countP (stampedIn windowMs k) =
            (admittedCalls tr).countP (stampedIn windowMs k) := by
        intro room
        cases room <;> simp [List.countP_append, hStamped, hkj]
      rw [hSame]
      exact ⟨hCounted, hCapped⟩
  exact ⟨hType, fun k => (hBoth k).1, fun k => (hBoth k).2⟩

/-- So it does along every run. -/
theorem countedInv_run {keyPrefix : String} {windowMs limit : ℤ} (hLimit : 1 ≤ limit)
    (hWindow : 1 ≤ windowMs) {s : Store} (hUnused : NoCounters s keyPrefix) (calls : List Call) :
    CountedInv keyPrefix windowMs limit
      (transcript .ignored (fixedWindowCall keyPrefix windowMs limit) s calls)
      (keyspace .ignored (fixedWindowCall keyPrefix windowMs limit) s calls) := by
  refine Machine.trace_invariant' ⟨holdsCounters_of_unused hUnused, fun k => ?_, fun k => ?_⟩
    (fun _ _ _ hInv => countedInv_step hWindow hInv) calls
  · rw [countOf_of_unused hUnused]
    exact le_rfl
  · exact zero_le_one.trans hLimit

/-- A window of a millisecond or more keeps twice its cap: stamps less than the
window apart lie in two windows at most. -/
theorem fixedWindow_capsAt {l : RedisLimiter} (hAlg : l.alg = .fixedWindow) {q : Quota}
    (hq : ValidQuota q) : CapsAt l q (2 * q.limit) := by
  intro key s calls close hUnused hOrder hOnTime _ hSub hClose
  have hInOrder := (inOrder_admittedCalls hOrder).sublist hSub
  have hWithin := hClose.within hInOrder
  rw [transcript_onTime hq hUnused hOrder hOnTime, script_fixedWindow hAlg] at hSub
  have hCap := (countedInv_run hq.limit hq.window hUnused.counters calls).capped
  have hLimit := hq.limit
  cases close with
  | nil =>
    show (0 : ℤ) ≤ _
    omega
  | cons a close =>
    obtain ⟨-, -, hMs⟩ := windowMs_bounds hq.window_pos
    obtain ⟨k, hIndex⟩ : ∃ k, windowIndex a.nowMs q.windowMs = .whole k :=
      ⟨_, windowIndex_whole hq.window a.nowMs⟩
    obtain ⟨hStart, hEnd⟩ := (windowIndex_eq_iff hq.window).mp hIndex
    -- less than a window after the first: its own aligned window or the next one
    have hTwo : ∀ c ∈ a :: close, ¬ stampedIn q.windowMs k c = true →
        stampedIn q.windowMs (k + 1) c = true := by
      intro c hc hOther
      have hNear : a.nowMs ≤ c.nowMs ∧ (c.nowMs - a.nowMs) * 1000000 < q.window := by
        rcases List.mem_cons.mp hc with rfl | hMem
        · have := hq.window_pos
          omega
        · exact (List.pairwise_cons.mp hWithin).1 c hMem
      rw [stampedIn, decide_eq_true_eq, windowIndex_eq_iff hq.window] at hOther ⊢
      rw [add_mul, one_mul] at hOther hEnd ⊢
      rw [add_mul (k + 1), add_mul k, one_mul]
      omega
    have hSplit : (a :: close).length ≤ (a :: close).countP (stampedIn q.windowMs k) +
        (a :: close).countP (stampedIn q.windowMs (k + 1)) := by
      rw [List.length_eq_countP_add_countP (stampedIn q.windowMs k)]
      refine Nat.add_le_add_left (List.countP_mono_left fun c hc hOther => ?_) _
      exact hTwo c hc (by simpa using hOther)
    have hFirst := hSub.countP_le (p := stampedIn q.windowMs k)
    have hSecond := hSub.countP_le (p := stampedIn q.windowMs (k + 1))
    have hCapFirst := hCap k
    have hCapSecond := hCap (k + 1)
    omega

/-- Every counter of the key has run out. -/
def RunOut (keyPrefix : String) (t : ℤ) (s : Store) : Prop :=
  ∀ i x, s (windowKey keyPrefix i) = some x → ∃ v D, x = ⟨v, some D⟩ ∧ D ≤ t

/-- A counter that has run out is not found. -/
theorem find_of_runOut {keyPrefix : String} {t : ℤ} {s : Store} {c : Call}
    (h : RunOut keyPrefix t s) (hLate : t ≤ c.execAt) (i : WindowIndex) :
    find ⟨.honoured, c.execAt⟩ s (windowKey keyPrefix i) = none := by
  cases hEntry : s (windowKey keyPrefix i) with
  | none => exact find_eq_none_of_absent hEntry
  | some x =>
    obtain ⟨v, D, rfl, hD⟩ := h i x hEntry
    exact find_after hEntry (hD.trans hLate)

/-- A counter without time to live is gone for the next call: each call starts
one of its own. -/
theorem serve_runOut {keyPrefix : String} {limit t : ℤ} {s : Store} {c : Call}
    (h : RunOut keyPrefix t s) (hLate : t ≤ c.nowMs) (hOnTime : OnTime c) :
    (serve .honoured (fixedWindowCall keyPrefix 0 limit) s c).1 =
        .ok (fixedReply c.nowMs 0 limit 1) ∧
      RunOut keyPrefix c.nowMs (serve .honoured (fixedWindowCall keyPrefix 0 limit) s c).2 := by
  have hGone := find_of_runOut h (hOnTime ▸ hLate) (windowIndex c.nowMs 0)
  have hRun : exec (fixedWindow keyPrefix c.nowMs 0 limit) ⟨.honoured, c.execAt⟩ s = _ :=
    exec_fixedWindow limit rfl (holdsCounter_of_gone hGone)
  obtain ⟨hZero, hEntry⟩ := counterEntry_of_gone 0 hGone
  rw [hZero, hEntry] at hRun
  rw [serve, fixedWindowCall, hRun]
  refine ⟨rfl, fun i x hx => ?_⟩
  dsimp only at hx
  -- the counter just written expires with its PEXPIRE of 0
  by_cases hSame : windowKey keyPrefix i = windowKey keyPrefix (windowIndex c.nowMs 0)
  · rw [hSame, Function.update_self] at hx
    refine ⟨_, _, (Option.some.inj hx).symm, ?_⟩
    rw [add_zero, hOnTime]
  · rw [Function.update_of_ne hSame] at hx
    obtain ⟨v, D, hx, hD⟩ := h i x hx
    exact ⟨v, D, hx, hD.trans hLate⟩

/-- A window of less than a millisecond has no cap at all. -/
theorem fixedWindow_not_capsAt {l : RedisLimiter} (hAlg : l.alg = .fixedWindow) {q : Quota}
    (hLimit : 1 ≤ q.limit) (hWindow : 0 < q.window) (hShort : q.window < 1000000) (bound : ℤ) :
    ¬ CapsAt l q bound := by
  obtain ⟨hMs, hShorter, -⟩ := windowMs_bounds hWindow
  -- less than a millisecond converts to 0
  have hZero : q.windowMs = 0 := by omega
  intro hCaps
  generalize hCalls : List.replicate (bound.toNat + 1) (⟨0, 0, ""⟩ : Call) = calls
  have hSame : ∀ c ∈ calls, c = ⟨0, 0, ""⟩ := by
    rw [← hCalls]
    exact fun c hc => List.eq_of_mem_replicate hc
  have hPairs : ∀ r : Call → Call → Prop, r ⟨0, 0, ""⟩ ⟨0, 0, ""⟩ → calls.Pairwise r := by
    intro r hr
    refine List.pairwise_of_forall_mem_list fun a ha b hb => ?_
    rw [hSame a ha, hSame b hb]
    exact hr
  have hInv : (∀ x ∈ transcript .honoured (l.script "" q) empty calls, admitted x = true) ∧
      RunOut (l.redisKey "") 0 (keyspace .honoured (l.script "" q) empty calls) := by
    rw [script_fixedWindow hAlg, hZero]
    refine Machine.trace_invariant_of_prefix (C := fun _ c => c = ⟨0, 0, ""⟩)
      (P := fun tr s => (∀ x ∈ tr, admitted x = true) ∧ RunOut (l.redisKey "") 0 s)
      ⟨fun x hx => absurd hx List.not_mem_nil, fun i x hx => absurd hx.symm (Option.some_ne_none x)⟩
      ?_ ?_
    · rintro tr s c rfl ⟨hAll, hRunOut⟩
      -- each call finds the counter gone and starts from one
      obtain ⟨hReply, hStill⟩ := serve_runOut (c := ⟨0, 0, ""⟩) hRunOut le_rfl rfl
      refine ⟨allAdmitted_concat hAll ?_, hStill⟩
      rw [hReply, admitted_fixedReply]
      exact decide_eq_true hLimit
    · intro pre c post hEq
      exact hSame c (by simp [hEq])
  have hCount := hCaps "" empty calls calls ⟨rfl, fun _ => rfl⟩ (hPairs _ le_rfl)
    (fun c hc => by rw [hSame c hc]; rfl) (fun h => absurd (hAlg.symm.trans h) nofun)
    (by rw [admittedCalls_of_all hInv.1, transcript, Machine.map_fst_trace])
    (hPairs _ (by simpa using hWindow))
  rw [← hCalls, List.length_replicate] at hCount
  omega

/--
**What the conversion to milliseconds keeps.** For every quota that `Allow`
accepts: admitted calls whose stamps pairwise differ by less than `Window`
number at most `Limit` in every run of the sliding window exactly when `Window`
is a whole number of milliseconds, and at most `2 * Limit` in every run of the
fixed window exactly when `Window` is at least one millisecond.
-/
theorem conversion_keeps_cap_iff {l : RedisLimiter} {q : Quota} (hLimit : 0 < q.limit)
    (hWindow : 0 < q.window) :
    (l.alg = .slidingWindow → (CapsAt l q q.limit ↔ 1000000 ∣ q.window)) ∧
    (l.alg = .fixedWindow → (CapsAt l q (2 * q.limit) ↔ 1000000 ≤ q.window)) := by
  obtain ⟨hMs, hShorter, hLonger⟩ := windowMs_bounds hWindow
  refine ⟨fun hAlg => ⟨fun hCaps => ?_, fun hWhole => ?_⟩,
    fun hAlg => ⟨fun hCaps => ?_, fun hLong => ?_⟩⟩
  · by_contra hPart
    refine slidingWindow_not_capsAt hAlg hLimit hWindow (fun hEq => hPart ?_) hCaps
    exact ⟨q.windowMs, by omega⟩
  · obtain ⟨k, hk⟩ := hWhole
    exact slidingWindow_capsAt hAlg ⟨hLimit, by omega⟩ (by omega)
  · by_contra hShort
    exact fixedWindow_not_capsAt hAlg hLimit hWindow (not_le.mp hShort) _ hCaps
  · exact fixedWindow_capsAt hAlg ⟨hLimit, by omega⟩

theorem conversion_keeps_cap_iff_demo :
    CapsAt ⟨.slidingWindow, "rl"⟩ ⟨1, 1000000000, 0⟩ 1 ↔ (1000000 : ℤ) ∣ 1000000000 :=
  (@conversion_keeps_cap_iff ⟨.slidingWindow, "rl"⟩ ⟨1, 1000000000, 0⟩ (by decide)
    (by decide)).1 rfl

/-- One call in 1.5 ms: calls at 0 and at 1 ms are admitted. And one call in
half a millisecond, under the fixed window: three calls at once are admitted. -/
theorem conversion_weakens_cap :
    ¬ CapsAt ⟨.slidingWindow, "rl"⟩ ⟨1, 1500000, 0⟩ 1 ∧
      ¬ CapsAt ⟨.fixedWindow, "rl"⟩ ⟨1, 500000, 0⟩ (2 * 1) := by
  constructor
  · intro hCaps
    have hCount := hCaps "acme" empty [⟨0, 0, "a"⟩, ⟨1, 1, "b"⟩] [⟨0, 0, "a"⟩, ⟨1, 1, "b"⟩]
      ⟨rfl, fun _ => rfl⟩ (by simp [InOrder]) (by simp [OnTime]) (by simp [DistinctMembers])
      (by decide +kernel) (by simp [CloseTogether])
    exact absurd hCount (by decide)
  · intro hCaps
    have hCount := hCaps "acme" empty [⟨0, 0, ""⟩, ⟨0, 0, ""⟩, ⟨0, 0, ""⟩]
      [⟨0, 0, ""⟩, ⟨0, 0, ""⟩, ⟨0, 0, ""⟩] ⟨rfl, fun _ => rfl⟩ (by simp [InOrder])
      (by simp [OnTime]) (fun hSliding => by cases hSliding) (by decide +kernel)
      (by simp [CloseTogether])
    exact absurd hCount (by decide)

end RatelimitGateway.Limiter
