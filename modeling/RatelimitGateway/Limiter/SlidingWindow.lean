import RatelimitGateway.Limiter.Execution

/-!
# Sliding window: what a run admits

The script prunes the log destructively, each call at its own cutoff. On runs
whose stamps never step back the pruned log is all that later calls can ever
count (`WindowInv.kept`), so the script decides as if it had the whole
history.

A call with a later stamp may prune entries that a call with an earlier
stamp, running afterwards, would still have to count (`LatePrune`); and a call
that is delayed for long may find the whole key gone (`LateLapse`). A window
that sees neither is never overspent: each of its admitted calls found the
earlier ones in the log (`OrderInv.kept`).

* `slidingWindow_admission_law`   — the exact admission law, in-order stamps;
* `slidingWindow_cap`             — the cap, for the windows that lose no entry
  too early, stamps in any order;
* `slidingWindow_late_prune`      — a late prune does break the cap, for every
  limit from two on.
-/

namespace RatelimitGateway.Limiter

open KeyStore Redis

/-- The script as `Allow` calls it, under a constant quota. -/
def slidingWindowCall (key : String) (windowMs limit : ℤ) (c : Call) : Script Reply :=
  slidingWindow key c.nowMs windowMs limit c.member

/-- Is the call stamped in the half-open interval `(t - windowMs, t]`? -/
def inWindow (windowMs t : ℤ) (c : Call) : Bool :=
  decide (t - windowMs < c.nowMs ∧ c.nowMs ≤ t)

/-- The entry a call makes in the log. -/
def logged (c : Call) : ℤ × String := (c.nowMs, c.member)

-- ---------------------------------------------------------------------------
-- One call
-- ---------------------------------------------------------------------------

section Step

variable {key : String} {windowMs limit : ℤ} {s : Store}

theorem logAt_of_absent {c : Clock} (hAbsent : s key = none) :
    logAt c s key = SortedSet.empty := by
  simp [logAt, valueAt, find, hAbsent]

theorem holdsZset_of_absent {c : Clock} (hAbsent : s key = none) : HoldsZset c s key := by
  intro v hv
  simp [valueAt, find, hAbsent] at hv

/-- What a script leaves under its key is a log, with the expiry of the call. -/
theorem entry_of_logUpdate {c : Clock} {log : SortedSet ℤ String} {x : Entry Value}
    (hx : Function.update s key (logEntry c windowMs log) key = some x) :
    x = ⟨.zset log, some (c.time + (windowMs + 1000))⟩ := by
  rw [Function.update_self, logEntry] at hx
  split at hx
  · cases hx
  · exact (Option.some.inj hx).symm

/-- A key holds the log a script left there, for as long as it is live. -/
theorem logAt_logEntry {c c' : Clock} {log : SortedSet ℤ String}
    (hLive : ∀ x : Entry Value, x.deadline = some (c.time + (windowMs + 1000)) → live c' x = true) :
    HoldsZset c' (Function.update s key (logEntry c windowMs log)) key ∧
      logAt c' (Function.update s key (logEntry c windowMs log)) key = log := by
  unfold logEntry
  split
  · rename_i hEmpty
    have hNone : Function.update s key (none : Option (Entry Value)) key = none := by simp
    refine ⟨holdsZset_of_absent hNone, ?_⟩
    rw [logAt_of_absent hNone, SortedSet.eq_empty_of_card hEmpty]
  · have hSeen := valueAt_update (s := s) (k := key)
      (hLive ⟨.zset log, some (c.time + (windowMs + 1000))⟩ rfl)
    refine ⟨fun v hv => ?_, ?_⟩
    · rw [hSeen] at hv
      exact ⟨_, (Option.some.inj hv).symm⟩
    · rw [logAt, hSeen]

/-- The log that is stored under the key, whether or not it has run out. -/
def logOf (key : String) (s : Store) : SortedSet ℤ String := logAt ⟨.ignored, 0⟩ s key

theorem logOf_logEntry {c : Clock} {log : SortedSet ℤ String} :
    logOf key (Function.update s key (logEntry c windowMs log)) = log := by
  unfold logOf
  exact (logAt_logEntry fun _ _ => rfl).2

/-- The log that the call finds. -/
def foundLog (e : Expiry) (key : String) (s : Store) (c : Call) : SortedSet ℤ String :=
  logAt ⟨e, c.execAt⟩ s key

theorem foundLog_of_find {e : Expiry} {c : Call} {z : SortedSet ℤ String} {d : Option ℤ}
    (hFind : find ⟨e, c.execAt⟩ s key = some ⟨.zset z, d⟩) : foundLog e key s c = z := by
  simp only [foundLog, logAt, valueAt, hFind, Option.map_some]

theorem foundLog_of_gone {e : Expiry} {c : Call} (hGone : find ⟨e, c.execAt⟩ s key = none) :
    foundLog e key s c = SortedSet.empty := by
  simp only [foundLog, logAt, valueAt, hGone, Option.map_none]

/-- What a call does to the log that it finds. -/
theorem serve_log {e : Expiry} {c : Call} (hType : HoldsZset ⟨e, c.execAt⟩ s key) :
    serve e (slidingWindowCall key windowMs limit) s c =
      (.ok (slidingReply c.nowMs windowMs limit c.member (foundLog e key s c)),
        Function.update s key (logEntry ⟨e, c.execAt⟩ windowMs
          (logAfter c.nowMs windowMs limit c.member (foundLog e key s c)))) :=
  exec_slidingWindow hType _ _ _ _ rfl

/-- An entry that is left is the call's own, or was spared. -/
theorem mem_logAfter {nowMs windowMs limit : ℤ} {member : String} {log : SortedSet ℤ String}
    {x : ℤ × String} (hx : x ∈ (logAfter nowMs windowMs limit member log).entries) :
    x = (nowMs, member) ∨ x ∈ log.entries ∧ nowMs - windowMs < x.1 := by
  unfold logAfter at hx
  dsimp only at hx
  split at hx
  · rcases SortedSet.mem_add.mp hx with rfl | ⟨hMem, -⟩
    · exact .inl rfl
    · exact .inr (SortedSet.mem_removeUpTo.mp hMem)
  · exact .inr (SortedSet.mem_removeUpTo.mp hx)

/-- An entry that the cutoff spares stays in the log. -/
theorem mem_logAfter_of_spared {nowMs windowMs limit : ℤ} {member : String}
    {log : SortedSet ℤ String} {x : ℤ × String} (hMem : x ∈ log.entries) (hOther : x.2 ≠ member)
    (hSpared : nowMs - windowMs < x.1) :
    x ∈ (logAfter nowMs windowMs limit member log).entries := by
  have hKept := SortedSet.mem_removeUpTo.mpr ⟨hMem, hSpared⟩
  rw [logAfter]
  split
  · exact SortedSet.mem_add.mpr (.inr ⟨hKept, hOther⟩)
  · exact hKept

/-- With a limit, a call never leaves an empty log. -/
theorem logAfter_pos {limit : ℤ} {c : Call} {log : SortedSet ℤ String} (hLimit : 1 ≤ limit) :
    0 < (logAfter c.nowMs windowMs limit c.member log).card := by
  unfold logAfter
  dsimp only
  split
  · exact List.length_pos_of_mem (SortedSet.mem_add.mpr (.inl rfl))
  · omega

/-- Admitted or not, the reset time is that of the log that is left. -/
theorem resetAfterMs_slidingReply {limit : ℤ} {c : Call} {log : SortedSet ℤ String} :
    (slidingReply c.nowMs windowMs limit c.member log).resetAfterMs =
      slidingReset c.nowMs windowMs (logAfter c.nowMs windowMs limit c.member log) := by
  unfold slidingReply
  dsimp only
  split <;> rfl

/-- Without expiry, a call acts on the stored log. -/
theorem serve_slidingWindow (windowMs limit : ℤ) (hType : HoldsZset ⟨.ignored, 0⟩ s key)
    (c : Call) :
    (serve .ignored (slidingWindowCall key windowMs limit) s c).1 =
      .ok (slidingReply c.nowMs windowMs limit c.member (logOf key s)) ∧
    HoldsZset ⟨.ignored, 0⟩ (serve .ignored (slidingWindowCall key windowMs limit) s c).2 key ∧
    logOf key (serve .ignored (slidingWindowCall key windowMs limit) s c).2 =
      logAfter c.nowMs windowMs limit c.member (logOf key s) := by
  have hRun := exec_slidingWindow (c := ⟨.ignored, c.execAt⟩) hType c.nowMs windowMs limit
    c.member (show logAt ⟨.ignored, c.execAt⟩ s key = logOf key s from rfl)
  rw [serve, slidingWindowCall, hRun]
  exact ⟨rfl, logAt_logEntry fun _ _ => rfl⟩

theorem admitted_slidingReply (windowMs limit : ℤ) (c : Call) (log : SortedSet ℤ String) :
    admitted (c, .ok (slidingReply c.nowMs windowMs limit c.member log)) =
      decide (((log.removeUpTo (c.nowMs - windowMs)).card : ℤ) < limit) := by
  by_cases h : ((log.removeUpTo (c.nowMs - windowMs)).card : ℤ) < limit <;>
    simp [admitted, slidingReply, h]

end Step

-- ---------------------------------------------------------------------------
-- Counting calls in a window
-- ---------------------------------------------------------------------------

/-- The calls of a list stamped in `(t - windowMs, t]`. -/
def windowCount (windowMs t : ℤ) (calls : List Call) : ℕ :=
  calls.countP (inWindow windowMs t)

theorem windowCount_concat (windowMs t : ℤ) (calls : List Call) (c : Call) :
    windowCount windowMs t (calls ++ [c]) =
      windowCount windowMs t calls + if inWindow windowMs t c then 1 else 0 := by
  simp [windowCount, List.countP_append, List.countP_cons]

/-- Pruning the log of some calls leaves the log of the later ones. -/
theorem perm_removeUpTo {z : SortedSet ℤ String} {calls : List Call}
    (h : z.entries.Perm (calls.map logged)) (bound : ℤ) :
    (z.removeUpTo bound).entries.Perm
      ((calls.filter fun a => decide (bound < a.nowMs)).map logged) := by
  have hFilter : ((calls.map logged).filter fun x => !decide (x.1 ≤ bound)) =
      (calls.filter fun a => decide (bound < a.nowMs)).map logged := by
    rw [List.filter_map]
    congr 1
    apply List.filter_congr
    intro a _
    rw [Bool.eq_iff_iff]
    simp only [Function.comp_apply, logged, Bool.not_eq_true', decide_eq_true_eq]
    exact decide_eq_false_iff_not.trans not_le
  rw [← hFilter]
  exact h.filter _

/-- A later prune makes an earlier one redundant. -/
theorem filter_later {b b' : ℤ} (hb : b ≤ b') (calls : List Call) :
    ((calls.filter fun a => decide (b < a.nowMs)).filter fun a => decide (b' < a.nowMs)) =
      calls.filter fun a => decide (b' < a.nowMs) := by
  rw [List.filter_filter]
  apply List.filter_congr
  intro a _
  rw [Bool.eq_iff_iff]
  simp only [Bool.and_eq_true, decide_eq_true_eq]
  omega

-- ---------------------------------------------------------------------------
-- In-order stamps: the pruned log is the history
-- ---------------------------------------------------------------------------

/-- What holds after every call of a run with in-order stamps and distinct
members. -/
structure WindowInv (key : String) (windowMs limit : ℤ) (tr : List Served) (s : Store) :
    Prop where
  answered : Answered tr
  zset     : HoldsZset ⟨.ignored, 0⟩ s key
  kept     : ∀ t, (∀ x ∈ tr, x.1.nowMs ≤ t) →
    ((logOf key s).removeUpTo (t - windowMs)).entries.Perm
      (((admittedCalls tr).filter fun a => decide (t - windowMs < a.nowMs)).map logged)
  law      : ∀ j (hj : j < tr.length), admitted tr[j] = true ↔
    (windowCount windowMs tr[j].1.nowMs (admittedCalls (tr.take j)) : ℤ) < limit
  cap      : ∀ t, (windowCount windowMs t (admittedCalls tr) : ℤ) ≤ limit
  last     : ∀ c ∈ (tr.map Prod.fst).getLast?, (logOf key s).entries.Perm
    (((admittedCalls tr).filter (inWindow windowMs c.nowMs)).map logged)

/-- An unused key has an empty log. -/
theorem windowInv_init {key : String} {windowMs limit : ℤ} (hLimit : 1 ≤ limit) {s : Store}
    (hAbsent : s key = none) : WindowInv key windowMs limit [] s where
  answered := by simp [Answered]
  zset := holdsZset_of_absent hAbsent
  kept := by
    intro t _
    simp [logOf, logAt_of_absent hAbsent, admittedCalls]
  law := by simp
  cap := by
    intro t
    simp [windowCount, admittedCalls]
    omega
  last := by simp

/-- Of calls that are not in the future, a window holds those its start spares. -/
theorem filter_inWindow_of_past {windowMs t : ℤ} {calls : List Call}
    (hPast : ∀ a ∈ calls, a.nowMs ≤ t) :
    calls.filter (inWindow windowMs t) = calls.filter fun a => decide (t - windowMs < a.nowMs) :=
  List.filter_congr fun a ha => by simp [inWindow, hPast a ha]

theorem admittedCalls_past {tr : List Served} {t : ℤ} (hLate : ∀ x ∈ tr, x.1.nowMs ≤ t) :
    ∀ a ∈ admittedCalls tr, a.nowMs ≤ t := by
  intro a ha
  obtain ⟨x, hx, rfl⟩ := mem_of_mem_admittedCalls ha
  exact hLate x hx

/-- The pruned log a call counts holds the admitted calls of its window. -/
theorem windowInv_count {key : String} {windowMs limit : ℤ} {tr : List Served} {s : Store}
    (hInv : WindowInv key windowMs limit tr s) {t : ℤ} (hLate : ∀ x ∈ tr, x.1.nowMs ≤ t) :
    ((logOf key s).removeUpTo (t - windowMs)).card =
      windowCount windowMs t (admittedCalls tr) := by
  rw [SortedSet.card, (hInv.kept t hLate).length_eq, List.length_map, windowCount,
    List.countP_eq_length_filter, filter_inWindow_of_past (admittedCalls_past hLate)]

/-- The log a call leaves, as a list of admitted calls. -/
theorem windowInv_logAfter {key : String} {windowMs limit : ℤ} {tr : List Served} {s : Store}
    {c : Call} (hInv : WindowInv key windowMs limit tr s)
    (hOrder : ∀ x ∈ tr, x.1.nowMs ≤ c.nowMs ∧ x.1.member ≠ c.member) (hWindow : 1 ≤ windowMs) :
    (logAfter c.nowMs windowMs limit c.member (logOf key s)).entries.Perm
      (((admittedCalls (tr ++
        [(c, .ok (slidingReply c.nowMs windowMs limit c.member (logOf key s)))])).filter
          fun a => decide (c.nowMs - windowMs < a.nowMs)).map logged) := by
  have hKept := hInv.kept c.nowMs fun x hx => (hOrder x hx).1
  have hAdm := admitted_slidingReply windowMs limit c (logOf key s)
  rw [admittedCalls_concat, hAdm, logAfter]
  by_cases hRoom : (((logOf key s).removeUpTo (c.nowMs - windowMs)).card : ℤ) < limit
  · -- the member id is new, so ZADD adds an entry
    have hFresh : ∀ x ∈ ((logOf key s).removeUpTo (c.nowMs - windowMs)).entries,
        x.2 ≠ c.member := by
      intro x hx
      obtain ⟨a, ha, rfl⟩ := List.mem_map.mp (hKept.mem_iff.mp hx)
      obtain ⟨y, hy, rfl⟩ := mem_of_mem_admittedCalls (List.mem_filter.mp ha).1
      exact (hOrder y hy).2
    have hSelf : c.nowMs - windowMs < c.nowMs := by omega
    simp only [hRoom, if_true, decide_true, List.filter_append, List.map_append,
      List.filter_cons, hSelf, List.filter_nil]
    exact (SortedSet.perm_add_of_fresh hFresh).trans
      ((hKept.cons _).trans (List.perm_append_singleton _ _).symm)
  · -- a refused call leaves the pruned log
    rw [if_neg hRoom, if_neg (by simpa using hRoom)]
    exact hKept

/-- A call that is admitted under the law does not break the cap. -/
theorem windowCount_concat_le {windowMs limit : ℤ} {calls : List Call} {c : Call}
    (hOrder : ∀ a ∈ calls, a.nowMs ≤ c.nowMs)
    (hCap : ∀ t, (windowCount windowMs t calls : ℤ) ≤ limit)
    (hRoom : (windowCount windowMs c.nowMs calls : ℤ) < limit) (t : ℤ) :
    (windowCount windowMs t (calls ++ [c]) : ℤ) ≤ limit := by
  rw [windowCount_concat]
  by_cases hIn : inWindow windowMs t c = true
  · -- a window that reaches the new call holds no more than the call's own
    have hLess : windowCount windowMs t calls ≤ windowCount windowMs c.nowMs calls := by
      apply List.countP_mono_left
      intro a ha hInT
      have := hOrder a ha
      simp only [inWindow, decide_eq_true_eq] at hIn hInT ⊢
      omega
    rw [if_pos hIn]
    push_cast
    omega
  · rw [if_neg hIn]
    exact_mod_cast hCap t

/-- The log is that of the admitted calls of the window, also after one more call. -/
theorem windowInv_step {key : String} {windowMs limit : ℤ} (hWindow : 1 ≤ windowMs)
    {tr : List Served} {s : Store} {c : Call}
    (hOrder : ∀ x ∈ tr, x.1.nowMs ≤ c.nowMs ∧ x.1.member ≠ c.member)
    (hInv : WindowInv key windowMs limit tr s) :
    WindowInv key windowMs limit
      (tr ++ [(c, (serve .ignored (slidingWindowCall key windowMs limit) s c).1)])
      (serve .ignored (slidingWindowCall key windowMs limit) s c).2 := by
  obtain ⟨hReply, hZset, hLog⟩ := serve_slidingWindow windowMs limit hInv.zset c
  have hCount := windowInv_count hInv fun x hx => (hOrder x hx).1
  have hAfter := windowInv_logAfter hInv hOrder hWindow
  have hAdm := admitted_slidingReply windowMs limit c (logOf key s)
  rw [hCount] at hAdm
  rw [hReply]
  generalize (serve .ignored (slidingWindowCall key windowMs limit) s c).2 = s' at hZset hLog ⊢
  rw [← hLog] at hAfter
  generalize hx : ((c, .ok (slidingReply c.nowMs windowMs limit c.member (logOf key s))) :
    Served) = x at hAfter hAdm ⊢
  have hxc : x.1 = c := by rw [← hx]
  have hEarlier := admittedCalls_past fun y hy => (hOrder y hy).1
  have hPast : ∀ a ∈ admittedCalls (tr ++ [x]), a.nowMs ≤ c.nowMs :=
    admittedCalls_past <| List.forall_mem_append.mpr
      ⟨fun y hy => (hOrder y hy).1, List.forall_mem_singleton.mpr (by rw [hxc])⟩
  refine ⟨?_, hZset, fun t ht => ?_, ?_, fun t => ?_, fun y hy => ?_⟩
  · exact answered_concat hInv.answered (by rw [← hx])
  · -- what a later call keeps of the log is what it would keep of the history
    have hLater : c.nowMs ≤ t := by
      have := ht x (List.mem_append_right _ (List.mem_singleton_self x))
      rwa [hxc] at this
    have hPruned := perm_removeUpTo hAfter (t - windowMs)
    rwa [filter_later (by omega)] at hPruned
  · refine Machine.forall_getElem_concat (P := fun pre x => admitted x = true ↔
      (windowCount windowMs x.1.nowMs (admittedCalls pre) : ℤ) < limit) hInv.law ?_
    rw [hAdm, hxc, decide_eq_true_eq]
  · rw [admittedCalls_concat, hAdm, hxc]
    -- an admitted call is one more in its window, which had room
    by_cases hRoom : (windowCount windowMs c.nowMs (admittedCalls tr) : ℤ) < limit
    · simp only [hRoom, decide_true, if_true]
      exact windowCount_concat_le hEarlier hInv.cap hRoom t
    · simp only [hRoom, decide_false]
      exact hInv.cap t
  · -- no admitted call is later than the last one
    simp only [List.map_append, List.map_singleton, List.getLast?_concat, Option.mem_some_iff,
      hxc] at hy
    subst hy
    rw [filter_inWindow_of_past hPast]
    exact hAfter

/-- So it is along every run in order. -/
theorem windowInv_run {key : String} {windowMs limit : ℤ} (hLimit : 1 ≤ limit)
    (hWindow : 1 ≤ windowMs) {s : Store} (hAbsent : s key = none) {calls : List Call}
    (hOrder : InOrder calls) (hDistinct : DistinctMembers calls) :
    WindowInv key windowMs limit
      (transcript .ignored (slidingWindowCall key windowMs limit) s calls)
      (keyspace .ignored (slidingWindowCall key windowMs limit) s calls) :=
  Machine.trace_invariant (windowInv_init hLimit hAbsent)
    (fun _ _ _ hEarlier hInv => windowInv_step hWindow hEarlier hInv) (hOrder.and hDistinct)

/--
**Sliding window, exact admission law.** On an initially absent key, with
stamps that never step back and member ids that never repeat, every call is
answered; a call is admitted exactly when fewer than `limit` earlier admitted
calls are stamped in the window that ends with it; after every call the log
holds exactly the admitted calls of that window, at most `limit` of them; and
no window ever holds more than `limit` admitted calls.
-/
theorem slidingWindow_admission_law {key : String} {windowMs limit : ℤ} (hLimit : 1 ≤ limit)
    (hWindow : 1 ≤ windowMs) {s : Store} (hAbsent : s key = none) {calls : List Call}
    (hOrder : InOrder calls) (hDistinct : DistinctMembers calls) :
    let script := slidingWindowCall key windowMs limit
    let run := transcript .ignored script s calls
    Answered run ∧
    (∀ j (hj : j < run.length), admitted run[j] = true ↔
      (windowCount windowMs run[j].1.nowMs (admittedCalls (run.take j)) : ℤ) < limit) ∧
    (∀ j (hj : j < calls.length),
      let log := logOf key (keyspace .ignored script s (calls.take (j + 1)))
      log.entries.Perm (((admittedCalls (run.take (j + 1))).filter
        (inWindow windowMs calls[j].nowMs)).map logged) ∧ (log.card : ℤ) ≤ limit) ∧
    ∀ t, (windowCount windowMs t (admittedCalls run) : ℤ) ≤ limit := by
  intro script run
  have hInv := windowInv_run hLimit hWindow hAbsent hOrder hDistinct
  refine ⟨hInv.answered, hInv.law, fun j hj => ?_, hInv.cap⟩
  intro log
  -- the run up to call `j` is a run itself
  have hPart := windowInv_run hLimit hWindow hAbsent
    (hOrder.sublist (List.take_sublist (j + 1) calls))
    (hDistinct.sublist (List.take_sublist (j + 1) calls))
  have hRun : run.take (j + 1) =
      transcript .ignored script s (calls.take (j + 1)) := Machine.take_trace _ _ _ _
  have hLog := hPart.last calls[j] (by
    rw [transcript, Machine.map_fst_trace, List.take_succ_eq_append_getElem hj,
      List.getLast?_concat]
    exact Option.mem_some_self _)
  have hCap := hPart.cap calls[j].nowMs
  refine ⟨by rw [hRun]; exact hLog, ?_⟩
  rw [windowCount, List.countP_eq_length_filter] at hCap
  rw [SortedSet.card, hLog.length_eq, List.length_map]
  exact hCap

/-- Two calls in 1000 ms: the third is refused, the fourth is stamped exactly
when the first has aged out. -/
theorem slidingWindow_admission_law_demo :
    let script := slidingWindowCall "rl:sliding_window:demo" 1000 2
    let calls : List Call := [⟨0, 0, "a"⟩, ⟨400, 400, "b"⟩, ⟨999, 999, "c"⟩, ⟨1000, 1000, "d"⟩]
    let run := transcript .ignored script empty calls
    Answered run ∧
    (∀ j (hj : j < run.length), admitted run[j] = true ↔
      (windowCount 1000 run[j].1.nowMs (admittedCalls (run.take j)) : ℤ) < 2) ∧
    (∀ j (hj : j < calls.length),
      let log := logOf "rl:sliding_window:demo"
        (keyspace .ignored script empty (calls.take (j + 1)))
      log.entries.Perm (((admittedCalls (run.take (j + 1))).filter
        (inWindow 1000 calls[j].nowMs)).map logged) ∧ (log.card : ℤ) ≤ 2) ∧
    ∀ t, (windowCount 1000 t (admittedCalls run) : ℤ) ≤ 2 :=
  slidingWindow_admission_law (by decide) (by decide) rfl (by simp [InOrder])
    (by simp [DistinctMembers])

-- ---------------------------------------------------------------------------
-- Stamps in any order: entries that are lost too early
-- ---------------------------------------------------------------------------

/-- Two calls `x` and `y` are stamped in the window that ends at `t`, and
between their scripts runs one whose cutoff removes `x`. -/
def LatePrune (windowMs t : ℤ) (calls : List Call) : Prop :=
  ∃ x p y, [x, p, y].Sublist calls ∧ inWindow windowMs t x = true ∧
    inWindow windowMs t y = true ∧ x.nowMs + windowMs ≤ p.nowMs

theorem LatePrune.concat {windowMs t : ℤ} {calls : List Call} (h : LatePrune windowMs t calls)
    (c : Call) : LatePrune windowMs t (calls ++ [c]) := by
  obtain ⟨x, p, y, hSub, hRest⟩ := h
  exact ⟨x, p, y, hSub.trans (List.sublist_append_left _ _), hRest⟩

/-- Redis removes the key between the scripts of `x` and `y`: two scripts in a
row run further apart than a key lives. -/
def Lapse (e : Expiry) (windowMs : ℤ) (calls : List Call) (x y : Call) : Prop :=
  ∃ before u v after, calls = before ++ [u] ++ v :: after ∧ e = .honoured ∧
    u.execAt + (windowMs + 1000) ≤ v.execAt ∧ x ∈ before ++ [u] ∧ y ∈ v :: after

section Lapse

variable {e : Expiry} {windowMs : ℤ} {calls : List Call} {x y : Call}

theorem Lapse.exists_gap (h : Lapse e windowMs calls x y) :
    ∃ u ∈ calls, ∃ v ∈ calls, u.execAt + (windowMs + 1000) ≤ v.execAt := by
  obtain ⟨before, u, v, after, rfl, -, hGap, -, -⟩ := h
  exact ⟨u, by simp, v, by simp, hGap⟩

/-- What has lapsed stays so after one more call. -/
theorem Lapse.concat (h : Lapse e windowMs calls x y) (c : Call) :
    Lapse e windowMs (calls ++ [c]) x y := by
  obtain ⟨before, u, v, after, rfl, hExpiry, hGap, hx, hy⟩ := h
  refine ⟨before, u, v, after ++ [c], by simp, hExpiry, hGap, hx, ?_⟩
  rw [← List.cons_append]
  exact List.mem_append_left _ hy

theorem Lapse.last (h : Lapse e windowMs calls x y) (c : Call) :
    Lapse e windowMs (calls ++ [c]) x c := by
  obtain ⟨before, u, v, after, rfl, hExpiry, hGap, hx, -⟩ := h
  exact ⟨before, u, v, after ++ [c], by simp, hExpiry, hGap, hx, by simp⟩

/-- A pause longer than the key lives. -/
theorem lapse_of_gap {u c : Call} (hLast : u ∈ calls.getLast?) (hExpiry : e = .honoured)
    (hGap : u.execAt + (windowMs + 1000) ≤ c.execAt) (hx : x ∈ calls) :
    Lapse e windowMs (calls ++ [c]) x c := by
  have hSplit : calls = calls.dropLast ++ [u] := (List.dropLast_append_getLast? u hLast).symm
  rw [hSplit] at hx
  exact ⟨calls.dropLast, u, c, [], by rw [← hSplit], hExpiry, hGap, hx, by simp⟩

end Lapse

/-- Redis removes the key between two calls stamped in the window that ends at
`t`. -/
def LateLapse (e : Expiry) (windowMs t : ℤ) (calls : List Call) : Prop :=
  ∃ x y, Lapse e windowMs calls x y ∧ inWindow windowMs t x = true ∧
    inWindow windowMs t y = true

theorem LateLapse.concat {e : Expiry} {windowMs t : ℤ} {calls : List Call}
    (h : LateLapse e windowMs t calls) (c : Call) : LateLapse e windowMs t (calls ++ [c]) := by
  obtain ⟨x, y, hLapse, hRest⟩ := h
  exact ⟨x, y, hLapse.concat c, hRest⟩

/-- The key holds the log that the last of the calls left there. -/
def LeftByLast (key : String) (windowMs : ℤ) (calls : List Call) (s : Store) : Prop :=
  ∀ x, s key = some x → ∃ z, ∃ u ∈ calls.getLast?,
    x = ⟨.zset z, some (u.execAt + (windowMs + 1000))⟩

section Left

variable {e : Expiry} {key : String} {windowMs limit : ℤ} {calls : List Call} {s : Store}

/-- The key can be used as a log. -/
theorem LeftByLast.holdsZset (h : LeftByLast key windowMs calls s) (c : Clock) :
    HoldsZset c s key := by
  intro v hv
  obtain ⟨x, hx, rfl⟩ := exists_entry hv
  obtain ⟨z, u, -, rfl⟩ := h x hx
  exact ⟨z, rfl⟩

theorem leftByLast_of_absent (hAbsent : s key = none) : LeftByLast key windowMs calls s := by
  intro x hx
  exact absurd (hAbsent.symm.trans hx) nofun

/-- The log that a call leaves was left by the last call. -/
theorem leftByLast_update {c : Call} {log : SortedSet ℤ String} :
    LeftByLast key windowMs (calls ++ [c])
      (Function.update s key (logEntry ⟨e, c.execAt⟩ windowMs log)) := by
  intro x hx
  refine ⟨log, c, ?_, entry_of_logUpdate hx⟩
  rw [List.getLast?_concat]
  exact Option.mem_some_self c

/-- A call finds the stored log, or the key has run out since the last call. -/
theorem LeftByLast.foundLog_cases (h : LeftByLast key windowMs calls s) (e : Expiry) (c : Call) :
    foundLog e key s c = logOf key s ∨
      foundLog e key s c = SortedSet.empty ∧ e = .honoured ∧
        ∃ u ∈ calls.getLast?, u.execAt + (windowMs + 1000) ≤ c.execAt := by
  cases e with
  | ignored => exact .inl rfl
  | honoured =>
    cases hEntry : s key with
    | none =>
      left
      rw [foundLog_of_gone (find_eq_none_of_absent hEntry), logOf, logAt_of_absent hEntry]
    | some x =>
      obtain ⟨z, u, hLast, rfl⟩ := h x hEntry
      have hLog : logOf key s = z :=
        foundLog_of_find (c := ⟨0, 0, ""⟩) (find_eq_some_iff.mpr ⟨hEntry, live_ignored 0 _⟩)
      -- the key lives until the deadline of the last call
      rcases lt_or_ge c.execAt (u.execAt + (windowMs + 1000)) with hLive | hDead
      · left
        rw [hLog]
        exact foundLog_of_find (find_before hEntry hLive)
      · exact .inr ⟨foundLog_of_gone (find_after hEntry hDead), rfl, u, hLast, hDead⟩

end Left

/-- What holds after every call, whatever the stamps, of the window that ends
at `t`. -/
structure OrderInv (e : Expiry) (key : String) (windowMs limit t : ℤ) (tr : List Served)
    (s : Store) : Prop where
  stored   : LeftByLast key windowMs (tr.map Prod.fst) s
  distinct : DistinctMembers (tr.map Prod.fst)
  entries  : ∀ x ∈ (logOf key s).entries, ∃ a ∈ tr.map Prod.fst, logged a = x
  kept     : ∀ a ∈ admittedCalls tr, logged a ∈ (logOf key s).entries ∨
    (∃ p, [a, p].Sublist (tr.map Prod.fst) ∧ a.nowMs + windowMs ≤ p.nowMs) ∨
    ∃ b, Lapse e windowMs (tr.map Prod.fst) a b
  cap      : (windowCount windowMs t (admittedCalls tr) : ℤ) ≤ limit ∨
    LatePrune windowMs t (tr.map Prod.fst) ∨ LateLapse e windowMs t (tr.map Prod.fst)

/-- An unused key has lost nothing. -/
theorem orderInv_init {e : Expiry} {key : String} {windowMs limit t : ℤ} (hLimit : 1 ≤ limit)
    {s : Store} (hAbsent : s key = none) : OrderInv e key windowMs limit t [] s where
  stored := leftByLast_of_absent hAbsent
  distinct := by simp [DistinctMembers]
  entries := by simp [logOf, logAt_of_absent hAbsent]
  kept := by simp [admittedCalls]
  cap := by
    left
    simp [windowCount, admittedCalls]
    omega

/-- An admitted call that is not in the log a call finds was pruned, or the
key has run out since. -/
theorem orderInv_found {e : Expiry} {key : String} {windowMs limit t : ℤ} {tr : List Served}
    {s : Store} (hInv : OrderInv e key windowMs limit t tr s) (c : Call) {a : Call}
    (ha : a ∈ admittedCalls tr) :
    logged a ∈ (foundLog e key s c).entries ∨
      (∃ p, [a, p].Sublist (tr.map Prod.fst) ∧ a.nowMs + windowMs ≤ p.nowMs) ∨
      Lapse e windowMs (tr.map Prod.fst ++ [c]) a c := by
  rcases hInv.stored.foundLog_cases e c with hSame | ⟨-, hExpiry, u, hLast, hGap⟩
  · rw [hSame]
    rcases hInv.kept a ha with hKept | hPruned | ⟨b, hLapse⟩
    · exact .inl hKept
    · exact .inr (.inl hPruned)
    · exact .inr (.inr (hLapse.last c))
  · exact .inr (.inr (lapse_of_gap hLast hExpiry hGap ((admittedCalls_sublist tr).subset ha)))

/-- Either the pruned log holds every admitted call of the window, or one of
them was lost too early. -/
theorem orderInv_room {e : Expiry} {key : String} {windowMs limit t : ℤ} {tr : List Served}
    {s : Store} {c : Call} (hInv : OrderInv e key windowMs limit t tr s)
    (hIn : inWindow windowMs t c = true) :
    windowCount windowMs t (admittedCalls tr) ≤
        ((foundLog e key s c).removeUpTo (c.nowMs - windowMs)).card ∨
      LatePrune windowMs t (tr.map Prod.fst ++ [c]) ∨
      LateLapse e windowMs t (tr.map Prod.fst ++ [c]) := by
  -- either a call of the window is missing from the log, or all of them are there
  by_cases hLost : ∃ a ∈ admittedCalls tr, inWindow windowMs t a = true ∧
      logged a ∉ (foundLog e key s c).entries
  · right
    obtain ⟨a, ha, hInA, hNot⟩ := hLost
    rcases orderInv_found hInv c ha with hFound | ⟨p, hSub, hLate⟩ | hLapse
    · exact absurd hFound hNot
    · exact .inl ⟨a, p, c, hSub.append (List.Sublist.refl [c]), hInA, hIn, hLate⟩
    · exact .inr ⟨a, c, hLapse, hInA, hIn⟩
  · left
    -- the calls of the window are different entries of the pruned log
    have hNodup : (((admittedCalls tr).filter (inWindow windowMs t)).map logged).Nodup := by
      rw [List.Nodup, List.pairwise_map]
      refine ((hInv.distinct.sublist (admittedCalls_sublist tr)).filter _).imp fun hNe hEq => ?_
      exact hNe (congrArg Prod.snd hEq)
    have hSubset : ((admittedCalls tr).filter (inWindow windowMs t)).map logged ⊆
        ((foundLog e key s c).removeUpTo (c.nowMs - windowMs)).entries := by
      intro x hx
      obtain ⟨a, ha, rfl⟩ := List.mem_map.mp hx
      obtain ⟨hAdm, hInA⟩ := List.mem_filter.mp ha
      refine SortedSet.mem_removeUpTo.mpr ⟨?_, ?_⟩
      · by_contra hNot
        exact hLost ⟨a, hAdm, hInA, hNot⟩
      · simp only [inWindow, decide_eq_true_eq] at hIn hInA
        show c.nowMs - windowMs < a.nowMs
        omega
    have hLength := (List.subperm_of_subset hNodup hSubset).length_le
    rwa [List.length_map, ← List.countP_eq_length_filter] at hLength

/-- Every entry that a call finds is that of an earlier call. -/
theorem orderInv_entries {e : Expiry} {key : String} {windowMs limit t : ℤ} {tr : List Served}
    {s : Store} (hInv : OrderInv e key windowMs limit t tr s) (c : Call) :
    ∀ x ∈ (foundLog e key s c).entries, ∃ a ∈ tr.map Prod.fst, logged a = x := by
  rcases hInv.stored.foundLog_cases e c with hSame | ⟨hEmpty, -⟩
  · rw [hSame]
    exact hInv.entries
  · rw [hEmpty]
    exact fun x hx => absurd hx SortedSet.not_mem_empty

/-- An earlier admitted call is still in the log a call leaves, unless it was
pruned, by this call at the latest, or the key has run out since. -/
theorem orderInv_kept {e : Expiry} {key : String} {windowMs limit t : ℤ} {tr : List Served}
    {s : Store} {c : Call} (hFresh : ∀ x ∈ tr, x.1.member ≠ c.member)
    (hInv : OrderInv e key windowMs limit t tr s) {a : Call} (ha : a ∈ admittedCalls tr) :
    logged a ∈ (logAfter c.nowMs windowMs limit c.member (foundLog e key s c)).entries ∨
      (∃ p, [a, p].Sublist (tr.map Prod.fst ++ [c]) ∧ a.nowMs + windowMs ≤ p.nowMs) ∨
      ∃ b, Lapse e windowMs (tr.map Prod.fst ++ [c]) a b := by
  rcases orderInv_found hInv c ha with hKept | ⟨p, hSub, hLate⟩ | hLapse
  · by_cases hSpared : c.nowMs - windowMs < a.nowMs
    · obtain ⟨y, hy, rfl⟩ := mem_of_mem_admittedCalls ha
      exact .inl (mem_logAfter_of_spared hKept (hFresh y hy) hSpared)
    · -- this call is the one that prunes it
      have hMem := (admittedCalls_sublist tr).subset ha
      refine .inr (.inl ⟨c, ?_, by omega⟩)
      exact (List.singleton_sublist.mpr hMem).append (List.Sublist.refl [c])
  · exact .inr (.inl ⟨p, hSub.trans (List.sublist_append_left _ _), hLate⟩)
  · exact .inr (.inr ⟨c, hLapse⟩)

/-- A call that finds room keeps the cap, or an entry it should have counted
was lost too early. -/
theorem orderInv_cap {e : Expiry} {key : String} {windowMs limit t : ℤ} {tr : List Served}
    {s : Store} {c : Call} (hInv : OrderInv e key windowMs limit t tr s)
    (hCap : (windowCount windowMs t (admittedCalls tr) : ℤ) ≤ limit)
    (hTaken : (((foundLog e key s c).removeUpTo (c.nowMs - windowMs)).card : ℤ) < limit) :
    (windowCount windowMs t (admittedCalls tr ++ [c]) : ℤ) ≤ limit ∨
      LatePrune windowMs t (tr.map Prod.fst ++ [c]) ∨
      LateLapse e windowMs t (tr.map Prod.fst ++ [c]) := by
  rw [windowCount_concat]
  by_cases hIn : inWindow windowMs t c = true
  · rw [if_pos hIn]
    rcases orderInv_room hInv hIn with hCount | hLost
    · left
      push_cast
      omega
    · exact .inr hLost
  · rw [if_neg hIn]
    exact .inl (by exact_mod_cast hCap)

/-- One more call, in whatever order. -/
theorem orderInv_step {e : Expiry} {key : String} {windowMs limit t : ℤ} {tr : List Served}
    {s : Store} {c : Call} (hFresh : ∀ x ∈ tr, x.1.member ≠ c.member)
    (hInv : OrderInv e key windowMs limit t tr s) :
    OrderInv e key windowMs limit t
      (tr ++ [(c, (serve e (slidingWindowCall key windowMs limit) s c).1)])
      (serve e (slidingWindowCall key windowMs limit) s c).2 := by
  have hAdm := admitted_slidingReply windowMs limit c (foundLog e key s c)
  have hEntries := orderInv_entries hInv c
  have hKept := fun a => orderInv_kept hFresh hInv (a := a)
  have hCapAfter := orderInv_cap hInv (c := c)
  rw [serve_log (hInv.stored.holdsZset _)]
  generalize foundLog e key s c = log at hAdm hEntries hKept hCapAfter ⊢
  generalize hx : ((c, .ok (slidingReply c.nowMs windowMs limit c.member log)) : Served) = x
    at hAdm ⊢
  have hxc : x.1 = c := by rw [← hx]
  have hCalls : (tr ++ [x]).map Prod.fst = tr.map Prod.fst ++ [c] := by
    rw [List.map_append, List.map_singleton, hxc]
  refine ⟨?_, ?_, fun x hx => ?_, fun a ha => ?_, ?_⟩
  · rw [hCalls]
    exact leftByLast_update
  · rw [hCalls]
    refine List.pairwise_append.mpr ⟨hInv.distinct, List.pairwise_singleton _ _, ?_⟩
    intro a ha b hb
    obtain ⟨y, hy, rfl⟩ := List.mem_map.mp ha
    rw [List.mem_singleton.mp hb]
    exact hFresh y hy
  · rw [hCalls]
    rw [logOf_logEntry] at hx
    -- an entry comes from this call or from an earlier one
    rcases mem_logAfter hx with rfl | ⟨hMem, -⟩
    · exact ⟨c, by simp, rfl⟩
    · obtain ⟨a, ha, hEq⟩ := hEntries x hMem
      exact ⟨a, List.mem_append_left _ ha, hEq⟩
  · rw [hCalls, logOf_logEntry]
    rw [admittedCalls_concat, hAdm, hxc] at ha
    -- admitted calls are kept, pruned late or gone with a lapsed key
    by_cases hTaken : ((log.removeUpTo (c.nowMs - windowMs)).card : ℤ) < limit
    · simp only [hTaken, decide_true, if_true] at ha
      rcases List.mem_append.mp ha with hMem | hNew
      · exact hKept a hMem
      · rw [List.mem_singleton.mp hNew, logAfter, if_pos hTaken]
        exact .inl (SortedSet.mem_add.mpr (.inl rfl))
    · simp only [hTaken, decide_false] at ha
      exact hKept a ha
  · rw [hCalls, admittedCalls_concat, hAdm, hxc]
    rcases hInv.cap with hCap | hLate | hLapse
    · by_cases hTaken : ((log.removeUpTo (c.nowMs - windowMs)).card : ℤ) < limit
      · simp only [hTaken, decide_true, if_true]
        exact hCapAfter hCap hTaken
      · simp only [hTaken, decide_false]
        exact .inl hCap
    · -- what went wrong once stays so
      exact .inr (.inl (hLate.concat c))
    · exact .inr (.inr (hLapse.concat c))

/-- With a limit of one the log is the last admitted call, and every admitted
call waits for the one before to age out, or for the key to run out. -/
structure SingleInv (e : Expiry) (key : String) (windowMs : ℤ) (tr : List Served) (s : Store) :
    Prop where
  stored : LeftByLast key windowMs (tr.map Prod.fst) s
  log    : (logOf key s).entries = (admittedCalls tr).getLast?.toList.map logged
  apart  : (admittedCalls tr).Pairwise fun a b =>
    a.nowMs + windowMs ≤ b.nowMs ∨ Lapse e windowMs (tr.map Prod.fst) a b

theorem singleInv_init {e : Expiry} {key : String} {windowMs : ℤ} {s : Store}
    (hAbsent : s key = none) : SingleInv e key windowMs [] s where
  stored := leftByLast_of_absent hAbsent
  log := by simp [logOf, logAt_of_absent hAbsent, admittedCalls]
  apart := by simp [admittedCalls]

/-- A call that finds the log empty once pruned: the earlier ones have aged
out, or the key has run out. -/
theorem singleInv_apart {e : Expiry} {key : String} {windowMs : ℤ} (hWindow : 1 ≤ windowMs)
    {tr : List Served} {s : Store} (hInv : SingleInv e key windowMs tr s) {c : Call}
    (hEmpty : ((foundLog e key s c).removeUpTo (c.nowMs - windowMs)).entries = []) {a : Call}
    (ha : a ∈ admittedCalls tr) :
    a.nowMs + windowMs ≤ c.nowMs ∨ Lapse e windowMs (tr.map Prod.fst ++ [c]) a c := by
  rcases hInv.stored.foundLog_cases e c with hSame | ⟨-, hExpiry, u, hLast, hGap⟩
  · -- the log was there: its only entry is the last admitted call
    rw [hSame] at hEmpty
    have hLog := hInv.log
    have hApart := hInv.apart
    rcases List.eq_nil_or_concat (admittedCalls tr) with hNil | ⟨earlier, last, hLast⟩
    · simp [hNil] at ha
    · rw [List.concat_eq_append] at hLast
      rw [hLast, List.getLast?_concat] at hLog
      have hGone : last.nowMs + windowMs ≤ c.nowMs := by
        by_contra hStill
        have hMem : logged last ∈ ((logOf key s).removeUpTo (c.nowMs - windowMs)).entries := by
          refine SortedSet.mem_removeUpTo.mpr ⟨by rw [hLog]; simp, ?_⟩
          show c.nowMs - windowMs < last.nowMs
          omega
        rw [hEmpty] at hMem
        exact absurd hMem List.not_mem_nil
      rw [hLast, List.pairwise_append] at hApart
      rw [hLast] at ha
      rcases List.mem_append.mp ha with hMem | hSame
      · rcases hApart.2.2 a hMem last (List.mem_singleton_self _) with hFar | hLapse
        · left
          omega
        · exact .inr (hLapse.last c)
      · rw [List.mem_singleton.mp hSame]
        exact .inl hGone
  · -- the key had expired
    exact .inr (lapse_of_gap hLast hExpiry hGap ((admittedCalls_sublist tr).subset ha))

theorem entries_empty_of_card {log : SortedSet ℤ String} (hRoom : (log.card : ℤ) < 1) :
    log.entries = [] := by
  rw [← List.length_eq_zero_iff]
  unfold SortedSet.card at hRoom
  omega

/-- An admitted call is the only entry it leaves. -/
theorem logAfter_of_empty {windowMs : ℤ} {c : Call} {log : SortedSet ℤ String}
    (hTaken : ((log.removeUpTo (c.nowMs - windowMs)).card : ℤ) < 1) :
    (logAfter c.nowMs windowMs 1 c.member log).entries = [logged c] := by
  have hEmpty := entries_empty_of_card hTaken
  have hFresh : ∀ x ∈ (log.removeUpTo (c.nowMs - windowMs)).entries, x.2 ≠ c.member := by
    rw [hEmpty]
    simp
  have hPerm : ((log.removeUpTo (c.nowMs - windowMs)).add c.nowMs c.member).entries.Perm _ :=
    SortedSet.perm_add_of_fresh hFresh
  rw [logAfter, if_pos hTaken]
  rw [hEmpty] at hPerm
  exact List.perm_singleton.mp hPerm

/-- A log of at most one entry that is full once pruned lost nothing. -/
theorem logAfter_of_full {windowMs : ℤ} {c : Call} {log : SortedSet ℤ String} {last : Option Call}
    (hLog : log.entries = last.toList.map logged)
    (hFull : ¬ ((log.removeUpTo (c.nowMs - windowMs)).card : ℤ) < 1) :
    (logAfter c.nowMs windowMs 1 c.member log).entries = log.entries := by
  rw [logAfter, if_neg hFull, SortedSet.entries_removeUpTo, hLog]
  rw [SortedSet.card, SortedSet.entries_removeUpTo, hLog] at hFull
  cases last with
  | none => rfl
  | some last =>
    rw [List.filter_eq_self]
    intro x hx
    by_contra hDrop
    rw [Option.toList_some, List.map_singleton] at hFull hx
    rw [List.mem_singleton.mp hx] at hDrop
    simp [hDrop] at hFull

/-- With a limit of one, the log holds the last call that was admitted. -/
theorem singleInv_step {e : Expiry} {key : String} {windowMs : ℤ} (hWindow : 1 ≤ windowMs)
    {tr : List Served} {s : Store} (c : Call) (hInv : SingleInv e key windowMs tr s) :
    SingleInv e key windowMs
      (tr ++ [(c, (serve e (slidingWindowCall key windowMs 1) s c).1)])
      (serve e (slidingWindowCall key windowMs 1) s c).2 := by
  have hApart := fun h a => singleInv_apart hWindow hInv (c := c) h (a := a)
  have hFound : foundLog e key s c = logOf key s ∨ foundLog e key s c = SortedSet.empty :=
    (hInv.stored.foundLog_cases e c).imp_right And.left
  have hAdm := admitted_slidingReply windowMs 1 c (foundLog e key s c)
  rw [serve_log (hInv.stored.holdsZset _)]
  generalize foundLog e key s c = log at hApart hFound hAdm ⊢
  by_cases hTaken : ((log.removeUpTo (c.nowMs - windowMs)).card : ℤ) < 1
  · -- admitted: the log holds this call alone, and the earlier ones are a window away
    have hCalls : admittedCalls
        (tr ++ [(c, .ok (slidingReply c.nowMs windowMs 1 c.member log))]) =
          admittedCalls tr ++ [c] := by
      rw [admittedCalls_concat, hAdm, if_pos (by simpa using hTaken)]
    refine ⟨?_, ?_, ?_⟩
    · rw [List.map_append]
      exact leftByLast_update
    · rw [hCalls, logOf_logEntry, logAfter_of_empty hTaken, List.getLast?_concat]
      rfl
    · rw [hCalls, List.pairwise_append, List.map_append]
      refine ⟨hInv.apart.imp fun h => h.imp_right fun hLapse => hLapse.concat c,
        List.pairwise_singleton _ _, fun a ha b hb => ?_⟩
      rw [List.mem_singleton.mp hb]
      exact hApart (entries_empty_of_card hTaken) a ha
  · -- refused: the log held a call, so it was not lost, and stays as it is
    have hCalls : admittedCalls
        (tr ++ [(c, .ok (slidingReply c.nowMs windowMs 1 c.member log))]) =
          admittedCalls tr := by
      rw [admittedCalls_concat, hAdm, if_neg (by simpa using hTaken)]
    refine ⟨?_, ?_, ?_⟩
    · rw [List.map_append]
      exact leftByLast_update
    · rw [hCalls, logOf_logEntry]
      rcases hFound with rfl | rfl
      · rw [logAfter_of_full hInv.log hTaken, hInv.log]
      · exact absurd hTaken (by simp [SortedSet.card])
    · rw [hCalls, List.map_append]
      exact hInv.apart.imp fun h => h.imp_right fun hLapse => hLapse.concat c

/-- Calls that are a window apart never share one. -/
theorem windowCount_le_one {windowMs : ℤ} {r : Call → Call → Prop} {calls : List Call}
    (hApart : calls.Pairwise fun a b => a.nowMs + windowMs ≤ b.nowMs ∨ r a b) (t : ℤ) :
    windowCount windowMs t calls ≤ 1 ∨
      ∃ a b, r a b ∧ inWindow windowMs t a = true ∧ inWindow windowMs t b = true := by
  rw [windowCount, List.countP_eq_length_filter]
  have hShared := hApart.filter (inWindow windowMs t)
  match hCalls : calls.filter (inWindow windowMs t) with
  | [] => simp
  | [a] => simp
  | a :: b :: rest =>
    right
    have hIn : ∀ x ∈ a :: b :: rest, inWindow windowMs t x = true := by
      intro x hx
      rw [← hCalls] at hx
      exact (List.mem_filter.mp hx).2
    rw [hCalls] at hShared
    have hInA := hIn a (by simp)
    have hInB := hIn b (by simp)
    -- two calls of one window are not a window apart
    rcases (List.pairwise_cons.mp hShared).1 b (by simp) with hFar | hRel
    · simp only [inWindow, decide_eq_true_eq] at hInA hInB
      omega
    · exact ⟨a, b, hRel, hInA, hInB⟩

/--
**Sliding window, stamps in any order.** With member ids that never repeat,
the window that ends at `t` holds at most `limit` admitted calls if at most
`limit` calls are stamped in it at all, or if the limit is one or no call
stamped in it is pruned before another one stamped in it runs, and Redis does
not remove the key between two calls stamped in it.
-/
theorem slidingWindow_cap {e : Expiry} {key : String} {windowMs limit : ℤ} (hLimit : 1 ≤ limit)
    (hWindow : 1 ≤ windowMs) {s : Store} (hAbsent : s key = none) {calls : List Call}
    (hDistinct : DistinctMembers calls) (t : ℤ)
    (hOrder : (windowCount windowMs t calls : ℤ) ≤ limit ∨
      (limit = 1 ∨ ¬ LatePrune windowMs t calls) ∧ ¬ LateLapse e windowMs t calls) :
    (windowCount windowMs t (admittedCalls
      (transcript e (slidingWindowCall key windowMs limit) s calls)) : ℤ) ≤ limit := by
  rcases hOrder with hFew | ⟨rfl | hKept, hThere⟩
  · -- no more calls were made than the limit
    have hSub := admittedCalls_sublist
      (transcript e (slidingWindowCall key windowMs limit) s calls)
    rw [transcript, Machine.map_fst_trace] at hSub
    have hLess : windowCount windowMs t _ ≤ windowCount windowMs t calls := hSub.countP_le
    rw [transcript]
    omega
  · -- limit 1: two admitted calls are a window apart or a lapse lies between them
    have hInv : SingleInv e key windowMs
        (transcript e (slidingWindowCall key windowMs 1) s calls)
        (keyspace e (slidingWindowCall key windowMs 1) s calls) :=
      Machine.trace_invariant' (singleInv_init hAbsent)
        (fun _ _ c hInv => singleInv_step hWindow c hInv) calls
    rcases windowCount_le_one hInv.apart t with hOne | hLapse
    · exact_mod_cast hOne
    · rw [transcript, Machine.map_fst_trace] at hLapse
      exact absurd hLapse hThere
  · -- any limit: the log holds the window, unless it lost calls
    have hInv : OrderInv e key windowMs limit t
        (transcript e (slidingWindowCall key windowMs limit) s calls)
        (keyspace e (slidingWindowCall key windowMs limit) s calls) :=
      Machine.trace_invariant (orderInv_init hLimit hAbsent)
        (fun _ _ _ hFresh hInv => orderInv_step hFresh hInv) hDistinct
    have hLost := hInv.cap
    rw [transcript, Machine.map_fst_trace, ← transcript] at hLost
    rcases hLost with hCap | hLate | hLapse
    · exact hCap
    · exact absurd hLate hKept
    · exact absurd hLapse hThere

/-- Stamps that step back by less than a window prune nothing too early. -/
theorem slidingWindow_cap_demo :
    (windowCount 1000 900 (admittedCalls (transcript .honoured
      (slidingWindowCall "rl:sliding_window:demo" 1000 2) empty
        [⟨500, 500, "a"⟩, ⟨900, 900, "b"⟩, ⟨400, 950, "c"⟩])) : ℤ) ≤ 2 := by
  have hNear : ∀ x ∈ [⟨500, 500, "a"⟩, ⟨900, 900, "b"⟩, (⟨400, 950, "c"⟩ : Call)],
      ∀ p ∈ [⟨500, 500, "a"⟩, ⟨900, 900, "b"⟩, (⟨400, 950, "c"⟩ : Call)],
      ¬ x.nowMs + 1000 ≤ p.nowMs ∧ ¬ x.execAt + (1000 + 1000) ≤ p.execAt := by decide
  refine slidingWindow_cap (by decide) (by decide) rfl (by simp [DistinctMembers]) 900
    (.inr ⟨.inr ?_, ?_⟩)
  · rintro ⟨x, p, y, hSub, -, -, hLate⟩
    exact (hNear x (hSub.subset (by simp)) p (hSub.subset (by simp))).1 hLate
  · rintro ⟨x, y, hLapse, -, -⟩
    obtain ⟨u, hu, v, hv, hGap⟩ := hLapse.exists_gap
    exact (hNear u hu v hv).2 hGap

/-- Two per 1000 ms: the call stamped 1001 prunes the one stamped 0 before the
one stamped 999 runs, and the window that ends at 999 holds three. -/
theorem slidingWindow_overspends :
    ¬ (windowCount 1000 999 (admittedCalls (transcript .honoured
      (slidingWindowCall "rl:sliding_window:demo" 1000 2) empty
        [⟨0, 1001, "a"⟩, ⟨1, 1001, "b"⟩, ⟨1001, 1001, "c"⟩, ⟨999, 1002, "d"⟩])) : ℤ) ≤ 2 := by
  decide +kernel

/-- Calls that would all find room if all of them were admitted are. -/
theorem WindowInv.all_admitted {key : String} {windowMs limit : ℤ} {tr : List Served} {s : Store}
    (hInv : WindowInv key windowMs limit tr s)
    (hRoom : ∀ j (hj : j < tr.length),
      (windowCount windowMs tr[j].1.nowMs ((tr.map Prod.fst).take j) : ℤ) < limit) :
    admittedCalls tr = tr.map Prod.fst := by
  have hFilter : tr.filter admitted = tr := by
    rw [List.filter_eq_self]
    intro x hx
    obtain ⟨j, hj, rfl⟩ := List.mem_iff_getElem.mp hx
    rw [hInv.law j hj]
    have hSub := admittedCalls_sublist (tr.take j)
    rw [List.map_take] at hSub
    have hCount := hSub.countP_le (p := inWindow windowMs tr[j].1.nowMs)
    have := hRoom j hj
    unfold windowCount at *
    omega
  rw [admittedCalls, hFilter]

theorem inWindow_of_aged {windowMs : ℤ} {a p : Call} (hLate : a.nowMs + windowMs ≤ p.nowMs) :
    inWindow windowMs p.nowMs a = false := by
  simp only [inWindow, decide_eq_false_iff_not, not_and]
  omega

/-- `limit` calls stamped alike, and one that is stamped a window later: all of
them are admitted, and only the last stays in the log. -/
theorem admittedCalls_burst {key : String} {windowMs limit : ℤ} (hLimit : 1 ≤ limit)
    (hWindow : 1 ≤ windowMs) {s : Store} (hAbsent : s key = none) {xs : List Call} {p : Call}
    {tx : ℤ} (hLength : (xs.length : ℤ) = limit) (hStamp : ∀ x ∈ xs, x.nowMs = tx)
    (hDistinct : DistinctMembers (xs ++ [p])) (hLate : tx + windowMs ≤ p.nowMs) :
    admittedCalls (transcript .ignored (slidingWindowCall key windowMs limit) s (xs ++ [p])) =
        xs ++ [p] ∧
      HoldsZset ⟨.ignored, 0⟩
        (keyspace .ignored (slidingWindowCall key windowMs limit) s (xs ++ [p])) key ∧
      (logOf key (keyspace .ignored (slidingWindowCall key windowMs limit) s
        (xs ++ [p]))).card = 1 := by
  have hOrder : InOrder (xs ++ [p]) := by
    refine List.pairwise_append.mpr ⟨?_, List.pairwise_singleton _ _, fun a ha b hb => ?_⟩
    · exact List.pairwise_of_forall_mem_list fun a ha b hb =>
        (hStamp a ha).le.trans (hStamp b hb).ge
    · rw [List.mem_singleton.mp hb, hStamp a ha]
      omega
  have hInv := windowInv_run hLimit hWindow hAbsent hOrder hDistinct
  have hMap : (transcript .ignored (slidingWindowCall key windowMs limit) s
      (xs ++ [p])).map Prod.fst = xs ++ [p] := Machine.map_fst_trace _ _ _
  generalize transcript .ignored (slidingWindowCall key windowMs limit) s (xs ++ [p]) = run
    at hInv hMap ⊢
  have hRunLength : run.length = xs.length + 1 := by
    rw [← List.length_map Prod.fst, hMap, List.length_append, List.length_singleton]
  have hAged : ∀ a ∈ xs, inWindow windowMs p.nowMs a = false := fun a ha =>
    inWindow_of_aged (by rw [hStamp a ha]; exact hLate)
  have hAll : admittedCalls run = xs ++ [p] := by
    refine (hInv.all_admitted fun j hj => ?_).trans hMap
    rw [hMap]
    rcases Nat.lt_or_ge j xs.length with hlt | hge
    · -- fewer than `limit` calls came before
      have hFew := List.countP_le_length (p := inWindow windowMs run[j].1.nowMs)
        (l := (xs ++ [p]).take j)
      rw [List.length_take] at hFew
      unfold windowCount
      omega
    · -- every call before the last one has aged out
      obtain rfl : j = xs.length := by omega
      have hAt : run[xs.length].1 = p := by
        have hLast : (run.map Prod.fst)[xs.length]? = some p := by
          rw [hMap, List.getElem?_concat_length]
        rw [List.getElem?_map, List.getElem?_eq_getElem hj] at hLast
        exact Option.some.inj hLast
      rw [hAt, List.take_left, windowCount, List.countP_eq_zero.mpr fun a ha => by
        simp [hAged a ha]]
      exact hLimit
  refine ⟨hAll, hInv.zset, ?_⟩
  have hLog := hInv.last p (by rw [hMap, List.getLast?_concat]; exact Option.mem_some_self _)
  -- the last call prunes all the others
  have hGone : xs.filter (inWindow windowMs p.nowMs) = [] := by
    rw [List.filter_eq_nil_iff]
    intro a ha
    simp [hAged a ha]
  have hSelf : inWindow windowMs p.nowMs p = true := by
    simp only [inWindow, decide_eq_true_eq]
    omega
  rw [SortedSet.card, hLog.length_eq, hAll, List.filter_append, hGone]
  simp [hSelf]

/--
**A late prune overspends.** Whatever limit from two on: when `limit` calls
stamped `tx` are followed by one whose cutoff removes them and then by one
stamped within a window of `tx`, that window holds more than `limit` admitted
calls.
-/
theorem slidingWindow_late_prune {key : String} {windowMs limit : ℤ} (hLimit : 2 ≤ limit)
    (hWindow : 1 ≤ windowMs) {s : Store} (hAbsent : s key = none) {xs : List Call} {p y : Call}
    {t tx : ℤ} (hLength : (xs.length : ℤ) = limit) (hStamp : ∀ x ∈ xs, x.nowMs = tx)
    (hDistinct : DistinctMembers (xs ++ [p])) (hLate : tx + windowMs ≤ p.nowMs)
    (hInX : t - windowMs < tx ∧ tx ≤ t) (hInY : inWindow windowMs t y = true) :
    limit < windowCount windowMs t (admittedCalls
      (transcript .ignored (slidingWindowCall key windowMs limit) s (xs ++ [p] ++ [y]))) := by
  obtain ⟨hAll, hZset, hCard⟩ := admittedCalls_burst (by omega) hWindow hAbsent hLength hStamp
    hDistinct hLate
  obtain ⟨hReply, -, -⟩ := serve_slidingWindow windowMs limit hZset y
  have hAdm := admitted_slidingReply windowMs limit y
    (logOf key (keyspace .ignored (slidingWindowCall key windowMs limit) s (xs ++ [p])))
  -- one entry is left, so the late call finds room
  have hRoom := SortedSet.card_removeUpTo_le (y.nowMs - windowMs)
    (logOf key (keyspace .ignored (slidingWindowCall key windowMs limit) s (xs ++ [p])))
  rw [keyspace] at hReply hAdm hRoom
  rw [keyspace] at hCard
  rw [transcript, Machine.trace_concat, hReply, admittedCalls_concat, hAdm,
    if_pos (by rw [decide_eq_true_eq]; omega), ← transcript, hAll, windowCount_concat,
    windowCount_concat, if_pos hInY]
  have hWhole : windowCount windowMs t xs = xs.length := by
    rw [windowCount, List.countP_eq_length]
    intro a ha
    rw [inWindow, decide_eq_true_eq, hStamp a ha]
    exact hInX
  rw [hWhole]
  push_cast
  omega

end RatelimitGateway.Limiter
