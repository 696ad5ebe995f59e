import RatelimitGateway.Limiter.Conversion

/-!
# Fixed window: the worst case

On the gateways' own clock a counter lives to the end of its window, so it
counts every call that is stamped there, the refused ones too. A stretch of
`m` windows that is not aligned with them meets `m + 1` of them.

* `fixedWindow_worst_case` — a call is refused exactly when `limit` earlier
  calls share its window, and `m` window lengths admit `(m + 1) * limit` calls
  at most.
-/

namespace RatelimitGateway.Limiter

open KeyStore Redis

/-- The two calls are stamped in one aligned window. -/
def sameWindow (windowMs : ℤ) (a b : Call) : Bool :=
  decide (a.nowMs / windowMs = b.nowMs / windowMs)

theorem windowIndex_eq_ediv {windowMs : ℤ} (hWindow : 1 ≤ windowMs) (nowMs : ℤ) :
    windowIndex nowMs windowMs = .whole (nowMs / windowMs) := by
  refine (windowIndex_eq_iff hWindow).mpr ⟨Int.ediv_mul_le _ (by omega), ?_⟩
  exact Int.lt_ediv_add_one_mul_self _ (by omega)

theorem stampedIn_ediv {windowMs : ℤ} (hWindow : 1 ≤ windowMs) (a c : Call) :
    stampedIn windowMs (c.nowMs / windowMs) a = sameWindow windowMs a c := by
  unfold stampedIn sameWindow
  rw [windowIndex_eq_ediv hWindow]
  exact decide_eq_decide.mpr (by rw [WindowIndex.whole.injEq])

-- ---------------------------------------------------------------------------
-- Every call is counted
-- ---------------------------------------------------------------------------

/-- The stored counts are those of the calls so far, admitted or not. -/
structure CountsAll (keyPrefix : String) (windowMs : ℤ) (tr : List Served) (s : Store) :
    Prop where
  counters : HoldsCounters keyPrefix s
  counted  : ∀ k, countOf keyPrefix s k = ((tr.map Prod.fst).countP (stampedIn windowMs k) : ℤ)

/-- The counter of a window counts every call, refused or not. -/
theorem countsAll_step {keyPrefix : String} {windowMs limit : ℤ} (hWindow : 1 ≤ windowMs)
    {tr : List Served} {s : Store} {c : Call} (hInv : CountsAll keyPrefix windowMs tr s) :
    CountsAll keyPrefix windowMs
      (tr ++ [(c, (serve .ignored (fixedWindowCall keyPrefix windowMs limit) s c).1)])
      (serve .ignored (fixedWindowCall keyPrefix windowMs limit) s c).2 := by
  have hIndex := windowIndex_eq_ediv hWindow c.nowMs
  obtain ⟨-, hType, hCount⟩ := serve_fixedWindow limit hInv.counters hIndex
  refine ⟨hType, fun k => ?_⟩
  rw [hCount, List.map_append, List.map_singleton, List.countP_append, List.countP_singleton]
  -- the counter of the call goes up by one, with the count of its window
  by_cases hk : k = c.nowMs / windowMs
  · subst hk
    have hHere : stampedIn windowMs (c.nowMs / windowMs) c = true := by simp [stampedIn, hIndex]
    rw [Function.update_self, hInv.counted, hHere]
    push_cast
    rfl
  · have hElsewhere : ¬ stampedIn windowMs k c = true := by
      simp only [stampedIn, hIndex, decide_eq_true_eq, WindowIndex.whole.injEq]
      exact fun h => hk h.symm
    rw [Function.update_of_ne hk, hInv.counted, if_neg hElsewhere]
    simp

/-- So it does along every run. -/
theorem countsAll_run {keyPrefix : String} {windowMs : ℤ} (limit : ℤ) (hWindow : 1 ≤ windowMs)
    {s : Store} (hUnused : NoCounters s keyPrefix) (calls : List Call) :
    CountsAll keyPrefix windowMs
      (transcript .ignored (fixedWindowCall keyPrefix windowMs limit) s calls)
      (keyspace .ignored (fixedWindowCall keyPrefix windowMs limit) s calls) := by
  refine Machine.trace_invariant' ⟨holdsCounters_of_unused hUnused, fun k => ?_⟩
    (fun _ _ _ hInv => countsAll_step hWindow hInv) calls
  rw [countOf_of_unused hUnused]
  rfl

/-- The reply to a call, from how many calls before it share its window. -/
theorem reply_of_earlier {keyPrefix : String} {windowMs : ℤ} (limit : ℤ) (hWindow : 1 ≤ windowMs)
    {s : Store} (hUnused : NoCounters s keyPrefix) {calls : List Call} {pre post : List Served}
    {x : Served}
    (hRun : transcript .ignored (fixedWindowCall keyPrefix windowMs limit) s calls =
      pre ++ x :: post) :
    x.2 = .ok (fixedReply x.1.nowMs windowMs limit
      ((pre.map Prod.fst).countP (fun a => sameWindow windowMs a x.1) + 1)) := by
  obtain ⟨hPre, hAnswer⟩ := Machine.trace_split _ s hRun
  have hInv := countsAll_run limit hWindow hUnused (pre.map Prod.fst)
  rw [transcript, ← hPre] at hInv
  obtain ⟨hReply, -, -⟩ :=
    serve_fixedWindow limit hInv.counters (windowIndex_eq_ediv hWindow x.1.nowMs)
  rw [hAnswer]
  refine hReply.trans ?_
  have hSame : stampedIn windowMs (x.1.nowMs / windowMs) =
      fun a => sameWindow windowMs a x.1 := by
    funext a
    exact stampedIn_ediv hWindow a x.1
  rw [hInv.counted, hSame]

-- ---------------------------------------------------------------------------
-- Stretches of time
-- ---------------------------------------------------------------------------

/-- A list whose elements fall into `n` classes of at most `b` elements each. -/
theorem length_le_of_classes {α : Type*} {n : ℕ} {b : ℤ} {inClass : ℕ → α → Bool} {l : List α}
    (hCover : ∀ a ∈ l, ∃ j < n, inClass j a = true)
    (hClass : ∀ j < n, (l.countP (inClass j) : ℤ) ≤ b) : (l.length : ℤ) ≤ n * b := by
  induction n generalizing l with
  | zero =>
    have hNil : l = [] := List.eq_nil_iff_forall_not_mem.mpr fun a ha => by
      obtain ⟨j, hj, -⟩ := hCover a ha
      omega
    simp [hNil]
  | succ n ih =>
    -- take out the last class
    have hRest := @ih (l.filter fun a => !inClass n a) ?_ ?_
    · have hSplit := List.length_eq_countP_add_countP (inClass n) (l := l)
      have hOthers : (l.filter fun a => !inClass n a).length =
          l.countP fun a => decide ¬inClass n a = true := by
        rw [List.countP_eq_length_filter]
        simp
      have hLast := hClass n (Nat.lt_succ_self n)
      push_cast
      rw [add_mul, one_mul]
      omega
    · intro a ha
      obtain ⟨hMem, hNot⟩ := List.mem_filter.mp ha
      obtain ⟨j, hj, hIn⟩ := hCover a hMem
      rcases Nat.lt_succ_iff_lt_or_eq.mp hj with hLess | rfl
      · exact ⟨j, hLess, hIn⟩
      · simp [hIn] at hNot
    · intro j hj
      have hLess := (List.filter_sublist (p := fun a => !inClass n a) (l := l)).countP_le
        (p := inClass j)
      have hAll := hClass j (Nat.lt_succ_of_lt hj)
      omega

/-- A stretch of `m` windows meets `m + 1` aligned windows. -/
theorem exists_window_of_stretch {windowMs : ℤ} (hWindow : 1 ≤ windowMs) {m : ℕ} {t : ℤ}
    {c : Call} (hFrom : t ≤ c.nowMs) (hTo : c.nowMs < t + m * windowMs) :
    ∃ j < m + 1, stampedIn windowMs (t / windowMs + j) c = true := by
  have hLow : t / windowMs ≤ c.nowMs / windowMs := Int.ediv_le_ediv (by omega) hFrom
  have hHigh : c.nowMs / windowMs ≤ t / windowMs + m := by
    rw [← Int.add_mul_ediv_right t m (by omega)]
    exact Int.ediv_le_ediv (by omega) hTo.le
  refine ⟨(c.nowMs / windowMs - t / windowMs).toNat, by omega, ?_⟩
  rw [stampedIn, windowIndex_eq_ediv hWindow, decide_eq_true_eq, WindowIndex.whole.injEq]
  omega

/-- What is admitted in a stretch of `m` windows that starts at a whole
millisecond. -/
theorem admitted_in_stretch {keyPrefix : String} {windowMs limit : ℤ} (hLimit : 1 ≤ limit)
    (hWindow : 1 ≤ windowMs) {s : Store} (hUnused : NoCounters s keyPrefix) {calls : List Call}
    {stretch : List Call}
    (hSub : stretch.Sublist (admittedCalls
      (transcript .ignored (fixedWindowCall keyPrefix windowMs limit) s calls)))
    {m : ℕ} {t : ℤ} (hIn : ∀ c ∈ stretch, t ≤ c.nowMs ∧ c.nowMs < t + m * windowMs) :
    (stretch.length : ℤ) ≤ (m + 1) * limit := by
  have hCap := (countedInv_run hLimit hWindow hUnused calls).capped
  have hBound := @length_le_of_classes Call (m + 1) limit
    (fun j => stampedIn windowMs (t / windowMs + j)) stretch ?_ ?_
  · push_cast at hBound
    exact hBound
  · -- a stretch of `m` windows meets at most `m + 1` aligned ones
    intro c hc
    exact exists_window_of_stretch hWindow (hIn c hc).1 (hIn c hc).2
  · intro j _
    have hLess := hSub.countP_le (p := stampedIn windowMs (t / windowMs + j))
    have hWindowCap := hCap (t / windowMs + j)
    omega

/-- A half-open interval of real time, of either kind, and the whole
milliseconds in it. -/
theorem stretch_of_interval {windowMs : ℤ} {m : ℕ} {t : ℝ} {n : ℤ} :
    ((t ≤ n ∧ (n : ℝ) < t + m * windowMs) ↔ ⌈t⌉ ≤ n ∧ n < ⌈t⌉ + m * windowMs) ∧
      ((t < n ∧ (n : ℝ) ≤ t + m * windowMs) ↔ ⌊t⌋ + 1 ≤ n ∧ n < ⌊t⌋ + 1 + m * windowMs) := by
  have hShift : ((n - m * windowMs : ℤ) : ℝ) = n - m * windowMs := by push_cast; rfl
  constructor
  · rw [← sub_lt_iff_lt_add, ← hShift, Int.lt_ceil.symm, Int.ceil_le.symm]
    omega
  · rw [← sub_le_iff_le_add, ← hShift, Int.le_floor.symm, Int.floor_lt.symm]
    omega

/--
**Fixed window, worst case.** Scripts run at the stamps of their calls, on an
unused key, and Redis expires counters as the script asks. Every call gets a
decision, and it is to refuse exactly when at least `limit` earlier calls are
stamped in the same aligned window. In `m` window lengths of time, wherever
they start, at most `(m + 1) * limit` calls are admitted.
-/
theorem fixedWindow_worst_case {keyPrefix : String} {windowMs limit : ℤ} (hLimit : 1 ≤ limit)
    (hWindow : 1 ≤ windowMs) {s : Store} (hUnused : NoCounters s keyPrefix) {calls : List Call}
    (hOnTime : ∀ c ∈ calls, OnTime c) :
    (∀ pre x post, transcript .honoured (fixedWindowCall keyPrefix windowMs limit) s calls =
        pre ++ x :: post →
      ∃ r, x.2 = .ok r ∧ (r.allowed = 0 ∨ r.allowed = 1) ∧
        (r.allowed = 0 ↔ limit ≤ (pre.countP fun y => sameWindow windowMs y.1 x.1 : ℕ))) ∧
      ∀ (m : ℕ) (t : ℝ) (stretch : List Call), 1 ≤ m →
        stretch.Sublist (admittedCalls
          (transcript .honoured (fixedWindowCall keyPrefix windowMs limit) s calls)) →
        ((∀ c ∈ stretch, t ≤ c.nowMs ∧ (c.nowMs : ℝ) < t + m * windowMs) ∨
          ∀ c ∈ stretch, t < c.nowMs ∧ (c.nowMs : ℝ) ≤ t + m * windowMs) →
        (stretch.length : ℤ) ≤ (m + 1) * limit := by
  rw [transcript_fixedWindow_expiry hWindow limit hUnused hOnTime]
  constructor
  · intro pre x post hRun
    refine ⟨_, reply_of_earlier limit hWindow hUnused hRun, ?_⟩
    rw [List.countP_map]
    unfold fixedReply
    dsimp only
    have hFlip : (fun a => sameWindow windowMs a x.1) ∘ Prod.fst =
        fun y : Served => sameWindow windowMs y.1 x.1 := rfl
    rw [hFlip]
    split <;> simp <;> omega
  · -- half-open on either side: whole stamps make both the same stretch
    intro m t stretch _ hSub hIn
    rcases hIn with hIn | hIn
    · exact admitted_in_stretch hLimit hWindow hUnused hSub
        fun c hc => stretch_of_interval.1.mp (hIn c hc)
    · exact admitted_in_stretch hLimit hWindow hUnused hSub
        fun c hc => stretch_of_interval.2.mp (hIn c hc)

/-- One call per second: a call in the last millisecond of window 0 and two in
window 1. -/
theorem fixedWindow_worst_case_demo :
    (∃ r, (Except.ok ⟨0, 0, 500, 500⟩ : Except RedisError Reply) = .ok r ∧
        (r.allowed = 0 ∨ r.allowed = 1) ∧
        (r.allowed = 0 ↔ (1 : ℤ) ≤ (List.countP (fun y => sameWindow 1000 y.1 ⟨1500, 1500, ""⟩)
          [((⟨999, 999, ""⟩, .ok ⟨1, 0, 0, 1⟩) : Served),
            (⟨1000, 1000, ""⟩, .ok ⟨1, 0, 0, 1000⟩)] : ℕ))) ∧
      (([⟨999, 999, ""⟩, ⟨1000, 1000, ""⟩] : List Call).length : ℤ) ≤ ((1 : ℕ) + 1) * 1 := by
  have hCase := @fixedWindow_worst_case "rl:fixed_window:demo" 1000 1 (by decide) (by decide)
    empty (fun _ => rfl) [⟨999, 999, ""⟩, ⟨1000, 1000, ""⟩, ⟨1500, 1500, ""⟩] (by simp [OnTime])
  refine ⟨hCase.1 _ (⟨1500, 1500, ""⟩, _) [] (by decide +kernel), ?_⟩
  refine hCase.2 1 999 _ le_rfl (by decide +kernel) (.inl fun c hc => ?_)
  simp only [List.mem_cons, List.not_mem_nil, or_false] at hc
  rcases hc with rfl | rfl <;> norm_num

end RatelimitGateway.Limiter
