import Mathlib.Data.Finset.Card
import RatelimitGateway.Lib.CatchUp
import RatelimitGateway.Lib.Separator
import RatelimitGateway.Limiter.SameClock

/-!
# Clocks that disagree, and scripts that run again

Gateways stamp their calls by clocks of their own, a call is in flight for a
while, and a client that has lost a reply sends the script again, under the
same stamp and the same member id. So stamps arrive in any order, and a call
may be counted, or admitted, more than once.

What the sliding window keeps under all of this are the members: a call that
is in the log is not logged twice. As long as no entry is lost too early
(`NoneLost`), at most `limit` different members are admitted
(`slidingWindow_members`). The fixed window counts every run of a script.

When every script runs at most `early` before and `late` after its stamp, by
the clock of Redis, either window is enforced on all but the last
`early + late` of its length.

* `slidingWindow_skew` — every half-open interval of that length, wherever it
  ends;
* `fixedWindow_skew`   — the beginning of every aligned window.
-/

namespace RatelimitGateway.Limiter

open KeyStore Redis

/-- The script runs at most `early` before and `late` after its stamp. -/
def Skewed (early late : ℤ) (c : Call) : Prop :=
  c.nowMs ≤ c.execAt + early ∧ c.execAt ≤ c.nowMs + late

/-- Calls with one member id have one stamp. -/
def MembersTell (calls : List Call) : Prop :=
  calls.Pairwise fun a b => a.member = b.member → a.nowMs = b.nowMs

-- ---------------------------------------------------------------------------
-- Member ids
-- ---------------------------------------------------------------------------

/-- Only the first character of a number can be a minus sign. -/
theorem repr_shape (n : ℤ) : ∃ c cs, n.repr.toList = c :: cs ∧ '-' ∉ cs := by
  have hDigits : ∀ m : ℕ, '-' ∉ Nat.toDigits 10 m := fun m hMem =>
    absurd (Nat.isDigit_of_mem_toDigits (by decide) (by decide) hMem) (by decide)
  rw [Int.repr_eq_if]
  split
  · have hSome := Nat.toDigits_ne_nil (n := n.toNat) (b := 10)
    rw [Nat.toList_repr]
    obtain ⟨c, cs, hList⟩ := List.exists_cons_of_ne_nil hSome
    exact ⟨c, cs, hList, fun hMem => hDigits n.toNat (hList ▸ List.mem_cons_of_mem _ hMem)⟩
  · exact ⟨'-', Nat.toDigits 10 (-n).toNat, by simp [Nat.toList_repr], hDigits _⟩

/-- A member id gives back the stamp and the digits that it was made of. -/
theorem uniqueMember_inj {n n' : ℤ} {hex hex' : String}
    (h : uniqueMember n hex = uniqueMember n' hex') : n = n' ∧ hex = hex' := by
  obtain ⟨c, cs, hn, hMinus⟩ := repr_shape n
  obtain ⟨c', cs', hn', hMinus'⟩ := repr_shape n'
  have hChars := congrArg String.toList h
  simp only [uniqueMember, String.toList_append, hn, hn', List.cons_append,
    List.append_assoc] at hChars
  obtain ⟨rfl, hRest⟩ := List.cons.inj hChars
  obtain ⟨rfl, hHex⟩ := Separator.append_cons_inj_first hMinus hMinus' hRest
  exact ⟨Int.repr_inj.mp (String.ext (hn.trans hn'.symm)), String.ext hHex⟩

-- ---------------------------------------------------------------------------
-- sliding_window.lua
-- ---------------------------------------------------------------------------

/-- Calls that are stamped within one window of each other, none of which is
removed from the log before the script of another one runs. -/
structure NoneLost (e : Expiry) (windowMs : ℤ) (within : Call → Bool) (calls : List Call) :
    Prop where
  near  : ∀ x y, within x = true → within y = true → y.nowMs - windowMs < x.nowMs
  prune : ∀ x p y, [x, p, y].Sublist calls → within x = true → within y = true →
    p.nowMs < x.nowMs + windowMs
  lapse : ∀ x y, Lapse e windowMs calls x y → within x = true → within y = true → False

/-- What has lapsed stays so. -/
theorem Lapse.append {e : Expiry} {windowMs : ℤ} {calls : List Call} {x y : Call}
    (h : Lapse e windowMs calls x y) (more : List Call) : Lapse e windowMs (calls ++ more) x y := by
  obtain ⟨before, u, v, after, rfl, hExpiry, hGap, hx, hy⟩ := h
  refine ⟨before, u, v, after ++ more, by simp, hExpiry, hGap, hx, ?_⟩
  rw [← List.cons_append]
  exact List.mem_append_left _ hy

/-- If nothing was lost in the end, nothing was before. -/
theorem NoneLost.before {e : Expiry} {windowMs : ℤ} {within : Call → Bool}
    {calls more : List Call} (h : NoneLost e windowMs within (calls ++ more)) :
    NoneLost e windowMs within calls where
  near := h.near
  prune := fun x p y hSub => h.prune x p y (hSub.trans (List.sublist_append_left _ _))
  lapse := fun x y hLapse => h.lapse x y (hLapse.append more)

/-- The different members that a run has admitted, of the calls `within`. -/
def admittedMembers (within : Call → Bool) (tr : List Served) : Finset String :=
  (((admittedCalls tr).filter within).map Call.member).toFinset

theorem mem_admittedMembers {within : Call → Bool} {tr : List Served} {m : String} :
    m ∈ admittedMembers within tr ↔ ∃ a ∈ admittedCalls tr, within a = true ∧ a.member = m := by
  simp [admittedMembers, and_assoc]

/-- An entry that the cutoff spares stays in the log, also when its member is
added once more. -/
theorem mem_logAfter_of_repeated {nowMs windowMs limit : ℤ} {member : String}
    {log : SortedSet ℤ String} {x : ℤ × String} (hMem : x ∈ log.entries)
    (hSame : x.2 = member → x.1 = nowMs) (hSpared : nowMs - windowMs < x.1) :
    x ∈ (logAfter nowMs windowMs limit member log).entries := by
  by_cases hOther : x.2 = member
  · have hLeft : x ∈ (log.removeUpTo (nowMs - windowMs)).entries :=
      SortedSet.mem_removeUpTo.mpr ⟨hMem, hSpared⟩
    unfold logAfter
    simp only
    split
    · exact SortedSet.mem_add.mpr (.inl (Prod.ext (hSame hOther) hOther))
    · exact hLeft
  · exact mem_logAfter_of_spared hMem hOther hSpared

/-- What holds after every call. -/
structure MembersInv (e : Expiry) (key : String) (windowMs limit : ℤ) (within : Call → Bool)
    (tr : List Served) (s : Store) : Prop where
  stored : LeftByLast key windowMs (tr.map Prod.fst) s
  kept   : ∀ a ∈ admittedCalls tr, logged a ∈ (logOf key s).entries ∨
    (∃ p, [a, p].Sublist (tr.map Prod.fst) ∧ a.nowMs + windowMs ≤ p.nowMs) ∨
    ∃ b, Lapse e windowMs (tr.map Prod.fst) a b
  cap    : ((admittedMembers within tr).card : ℤ) ≤ limit

section Members

variable {e : Expiry} {key : String} {windowMs limit : ℤ} {within : Call → Bool}
  {tr : List Served} {s : Store} {c : Call}

/-- Nobody is admitted yet. -/
theorem membersInv_init (hLimit : 1 ≤ limit) (hAbsent : s key = none) :
    MembersInv e key windowMs limit within [] s where
  stored := leftByLast_of_absent hAbsent
  kept := by simp [admittedCalls]
  cap := by
    simp [admittedMembers, admittedCalls]
    omega

/-- An admitted call that a call does not find was pruned, or the key has run
out since. -/
theorem MembersInv.found (hInv : MembersInv e key windowMs limit within tr s) (c : Call) {a : Call}
    (ha : a ∈ admittedCalls tr) :
    logged a ∈ (foundLog e key s c).entries ∨
      (∃ p, [a, p].Sublist (tr.map Prod.fst) ∧ a.nowMs + windowMs ≤ p.nowMs) ∨
      Lapse e windowMs (tr.map Prod.fst ++ [c]) a c := by
  rcases hInv.stored.foundLog_cases e c with hSame | ⟨-, hExpiry, u, hLast, hGap⟩
  · rw [hSame]
    rcases hInv.kept a ha with hKept | hPruned | ⟨b, hLapse⟩
    · exact .inl hKept
    · exact .inr (.inl hPruned)
    · exact .inr (.inr (hLapse.last c))
  · exact .inr (.inr (lapse_of_gap hLast hExpiry hGap ((admittedCalls_sublist tr).subset ha)))

/-- A call `within` finds every member that was admitted. -/
theorem MembersInv.room (hInv : MembersInv e key windowMs limit within tr s)
    (hSafe : NoneLost e windowMs within (tr.map Prod.fst ++ [c])) (hIn : within c = true) :
    admittedMembers within tr ⊆
      (((foundLog e key s c).removeUpTo (c.nowMs - windowMs)).entries.map Prod.snd).toFinset := by
  intro m hm
  obtain ⟨a, ha, hInA, rfl⟩ := mem_admittedMembers.mp hm
  rw [List.mem_toFinset]
  refine List.mem_map.mpr
    ⟨logged a, SortedSet.mem_removeUpTo.mpr ⟨?_, hSafe.near a c hInA hIn⟩, rfl⟩
  rcases hInv.found c ha with hFound | ⟨p, hSub, hLate⟩ | hLapse
  · exact hFound
  · have hEarly := hSafe.prune a p c (hSub.append (List.Sublist.refl [c])) hInA hIn
    omega
  · exact (hSafe.lapse a c hLapse hInA hIn).elim

/-- A call outside the interval adds no member. -/
theorem admittedMembers_concat_of_out (hOut : within c = false) (r : Except RedisError Reply) :
    admittedMembers within (tr ++ [(c, r)]) = admittedMembers within tr := by
  ext m
  simp only [mem_admittedMembers, admittedCalls_concat]
  split
  · simp [hOut]
  · rfl

/-- One inside adds its own. -/
theorem admittedMembers_concat_of_in (hIn : within c = true) {r : Except RedisError Reply}
    (hAdm : admitted (c, r) = true) :
    admittedMembers within (tr ++ [(c, r)]) = insert c.member (admittedMembers within tr) := by
  ext m
  rw [Finset.mem_insert, mem_admittedMembers, mem_admittedMembers, admittedCalls_concat,
    if_pos hAdm]
  constructor
  · rintro ⟨a, ha, hInA, rfl⟩
    rcases List.mem_append.mp ha with hOld | hNew
    · exact .inr ⟨a, hOld, hInA, rfl⟩
    · rw [List.mem_singleton.mp hNew]
      exact .inl rfl
  · rintro (rfl | ⟨a, hOld, hInA, rfl⟩)
    · exact ⟨c, by simp, hIn, rfl⟩
    · exact ⟨a, List.mem_append_left _ hOld, hInA, rfl⟩

/-- A call adds its member to the log when it is admitted, unless it is there already. -/
theorem membersInv_step (hTells : ∀ a ∈ tr.map Prod.fst, a.member = c.member → a.nowMs = c.nowMs)
    (hSafe : NoneLost e windowMs within (tr.map Prod.fst ++ [c]))
    (hInv : MembersInv e key windowMs limit within tr s) :
    MembersInv e key windowMs limit within
      (tr ++ [(c, (serve e (slidingWindowCall key windowMs limit) s c).1)])
      (serve e (slidingWindowCall key windowMs limit) s c).2 := by
  have hFound := fun a => hInv.found c (a := a)
  have hRoom := hInv.room (c := c) hSafe
  rw [serve_log (hInv.stored.holdsZset _)]
  generalize foundLog e key s c = log at hFound hRoom ⊢
  have hAdm := admitted_slidingReply windowMs limit c log
  generalize (slidingReply c.nowMs windowMs limit c.member log : Reply) = r at hAdm ⊢
  have hCalls : (tr ++ [((c, .ok r) : Served)]).map Prod.fst = tr.map Prod.fst ++ [c] := by simp
  refine ⟨?_, fun a ha => ?_, ?_⟩
  · rw [hCalls]
    exact leftByLast_update
  · rw [hCalls, logOf_logEntry]
    -- a call admitted before: still logged, pruned by a call of the run, or gone with the key
    have hOld : a ∈ admittedCalls tr →
        logged a ∈ (logAfter c.nowMs windowMs limit c.member log).entries ∨
        (∃ p, [a, p].Sublist (tr.map Prod.fst ++ [c]) ∧ a.nowMs + windowMs ≤ p.nowMs) ∨
        ∃ b, Lapse e windowMs (tr.map Prod.fst ++ [c]) a b := by
      intro hMem
      have hRan := (admittedCalls_sublist tr).subset hMem
      rcases hFound a hMem with hKept | ⟨p, hSub, hLate⟩ | hLapse
      · by_cases hSpared : c.nowMs - windowMs < a.nowMs
        · exact .inl (mem_logAfter_of_repeated hKept (hTells a hRan) hSpared)
        · -- this call is the one that prunes it
          refine .inr (.inl ⟨c, ?_, by omega⟩)
          exact (List.singleton_sublist.mpr hRan).append (List.Sublist.refl [c])
      · exact .inr (.inl ⟨p, hSub.trans (List.sublist_append_left _ _), hLate⟩)
      · exact .inr (.inr ⟨c, hLapse⟩)
    rw [admittedCalls_concat, hAdm] at ha
    by_cases hTaken : ((log.removeUpTo (c.nowMs - windowMs)).card : ℤ) < limit
    · simp only [hTaken, decide_true, if_true] at ha
      rcases List.mem_append.mp ha with hMem | hNew
      · exact hOld hMem
      · -- the call just admitted is in the log
        rw [List.mem_singleton.mp hNew, logAfter, if_pos hTaken]
        exact .inl (SortedSet.mem_add.mpr (.inl rfl))
    · simp only [hTaken, decide_false] at ha
      exact hOld ha
  · cases hIn : within c with
    | false =>
      rw [admittedMembers_concat_of_out hIn]
      exact hInv.cap
    | true =>
      by_cases hTaken : ((log.removeUpTo (c.nowMs - windowMs)).card : ℤ) < limit
      · rw [admittedMembers_concat_of_in hIn (by rw [hAdm, decide_eq_true hTaken])]
        -- the members admitted within are all in the pruned log, which has room
        have hFits := (Finset.card_le_card (hRoom hIn)).trans (List.toFinset_card_le _)
        rw [List.length_map] at hFits
        have hOne := Finset.card_insert_le c.member (admittedMembers within tr)
        rw [SortedSet.card] at hTaken
        omega
      · have hSame : admittedMembers within (tr ++ [((c, .ok r) : Served)]) =
            admittedMembers within tr := by
          rw [admittedMembers, admittedCalls_concat, hAdm, decide_eq_false hTaken]
          rfl
        rw [hSame]
        exact hInv.cap

end Members

/-- As long as no entry is lost too early, at most `limit` members are admitted,
however often their scripts run. -/
theorem slidingWindow_members {e : Expiry} {key : String} {windowMs limit : ℤ} (hLimit : 1 ≤ limit)
    {s : Store} (hAbsent : s key = none) {calls : List Call} (hTells : MembersTell calls)
    {within : Call → Bool} (hSafe : NoneLost e windowMs within calls) :
    ((admittedMembers within
      (transcript e (slidingWindowCall key windowMs limit) s calls)).card : ℤ) ≤ limit := by
  refine (Machine.trace_invariant_of_prefix
    (P := MembersInv e key windowMs limit within)
    (C := fun pre c => (∀ a ∈ pre, a.member = c.member → a.nowMs = c.nowMs) ∧
      NoneLost e windowMs within (pre ++ [c]))
    (membersInv_init hLimit hAbsent) (fun tr s c hC hInv => membersInv_step hC.1 hC.2 hInv)
    fun pre c post hSplit => ⟨fun a ha => ?_, ?_⟩).cap
  · rw [hSplit] at hTells
    exact (List.pairwise_append.mp hTells).2.2 a ha c List.mem_cons_self
  · rw [hSplit, List.append_cons] at hSafe
    exact hSafe.before

/-- Within a window that is shorter than the log's by the skew no entry is lost
too early. -/
theorem noneLost_of_skewed {e : Expiry} {windowMs short early late : ℤ} (hSkew : 0 ≤ early + late)
    (hShort : short + (early + late) ≤ windowMs) {calls : List Call} (hOrder : InRunOrder calls)
    (hSkewed : ∀ c ∈ calls, Skewed early late c) (t : ℤ) :
    NoneLost e windowMs (inWindow short t) calls where
  near := fun x y hx hy => by
    simp only [inWindow, decide_eq_true_eq] at hx hy
    omega
  -- the clocks differ by too little for a prune to reach a call that is still near
  prune := fun x p y hSub hx hy => by
    simp only [inWindow, decide_eq_true_eq] at hx hy
    have hRan := hOrder.sublist hSub
    simp only [List.pairwise_cons, List.mem_cons, List.not_mem_nil, or_false, forall_eq_or_imp,
      forall_eq] at hRan
    obtain ⟨hp, -⟩ := hSkewed p (hSub.subset (by simp))
    obtain ⟨-, hyLate⟩ := hSkewed y (hSub.subset (by simp))
    omega
  -- and too little for the key to lapse between two calls that are near
  lapse := fun x y hLapse hx hy => by
    simp only [inWindow, decide_eq_true_eq] at hx hy
    obtain ⟨before, u, v, after, rfl, -, hGap, hxMem, hyMem⟩ := hLapse
    obtain ⟨hFirst, hSecond, -⟩ := List.pairwise_append.mp hOrder
    have hxu : x.execAt ≤ u.execAt := by
      rcases List.mem_append.mp hxMem with hOld | hLast
      · exact (List.pairwise_append.mp hFirst).2.2 x hOld u (List.mem_singleton_self u)
      · rw [List.mem_singleton.mp hLast]
    have hvy : v.execAt ≤ y.execAt := by
      rcases List.mem_cons.mp hyMem with rfl | hLater
      · exact le_rfl
      · exact (List.pairwise_cons.mp hSecond).1 y hLater
    obtain ⟨hxEarly, -⟩ := hSkewed x (List.mem_append_left _ hxMem)
    obtain ⟨-, hyLate⟩ := hSkewed y (List.mem_append_right _ hyMem)
    omega

/--
**Sliding window under skew.** The scripts run at most `early` before and
`late` after the stamps of their calls, in any order of stamps, and any of them
may run again. In every interval that is shorter than the window by
`early + late`, wherever it ends, at most `limit` different calls are admitted.
-/
theorem slidingWindow_skew {e : Expiry} {key : String} {windowMs limit : ℤ} (hLimit : 1 ≤ limit)
    {s : Store} (hAbsent : s key = none) {short early late : ℤ} (hSkew : 0 ≤ early + late)
    (hShort : short + (early + late) ≤ windowMs) {calls : List Call} (hOrder : InRunOrder calls)
    (hSkewed : ∀ c ∈ calls, Skewed early late c) (hTells : MembersTell calls) (t : ℤ) :
    ((admittedMembers (inWindow short t)
      (transcript e (slidingWindowCall key windowMs limit) s calls)).card : ℤ) ≤ limit :=
  slidingWindow_members hLimit hAbsent hTells (noneLost_of_skewed hSkew hShort hOrder hSkewed t)

/-- One call per second, up to 100 ms in flight. `a` runs twice and is logged
once; `b` overtakes `c`, which is stamped before it. -/
theorem slidingWindow_skew_demo :
    let calls : List Call :=
      [⟨0, 10, "a"⟩, ⟨0, 60, "a"⟩, ⟨990, 1000, "b"⟩, ⟨950, 1040, "c"⟩, ⟨1005, 1050, "d"⟩]
    ((admittedMembers (inWindow 900 1005)
      (transcript .honoured (slidingWindowCall "rl:sliding_window:demo" 1000 1) empty
        calls)).card : ℤ) ≤ 1 := by
  intro calls
  have hSkewed : ∀ c ∈ calls, Skewed 0 100 c := by simp [calls, Skewed]
  exact slidingWindow_skew (by decide) rfl (by decide) (by decide) (by simp [calls, InRunOrder])
    hSkewed (by simp [calls, MembersTell]) 1005

-- ---------------------------------------------------------------------------
-- fixed_window.lua
-- ---------------------------------------------------------------------------

/-- A window whose scripts all run less than one window length apart has one
counter. -/
theorem CounterOf.granted_le {windowMs limit granted : ℤ} (hLimit : 1 ≤ limit) {calls : List Call}
    {x : Option (Entry Value)} (h : CounterOf windowMs limit calls granted x)
    (hNear : ∀ a ∈ calls, ∀ b ∈ calls, b.execAt < a.execAt + windowMs) : granted ≤ limit := by
  cases h with
  | unused => omega
  | first _ _ => exact min_le_right _ _
  | later _ hFar _ _ =>
    obtain ⟨a, ha, b, hb, hApart⟩ := hFar
    have := hNear a ha b hb
    omega

/-- Is the call stamped in the first `short` milliseconds of window `k`? -/
def beginning (windowMs short k : ℤ) (c : Call) : Bool :=
  stampedIn windowMs k c && decide (c.nowMs < k * windowMs + short)

/-- The scripts that run before a time, and those that run later. -/
theorem exists_split {calls : List Call} (hOrder : InRunOrder calls) (time : ℤ) :
    ∃ i, (∀ c ∈ calls.take i, c.execAt < time) ∧ ∀ c ∈ calls.drop i, time ≤ c.execAt := by
  have hMono : calls.Pairwise fun a b =>
      decide (time ≤ a.execAt) = true → decide (time ≤ b.execAt) = true :=
    hOrder.imp fun hab => by simpa using fun h => le_trans h hab
  obtain ⟨i, hi⟩ := CatchUp.exists_suffix_of_monotone hMono
  refine ⟨i, fun c hc => ?_, fun c hc => ?_⟩
  · obtain ⟨j, hj, rfl⟩ := List.mem_take_iff_getElem.mp hc
    have := (hi j (by omega)).not.mpr (by omega)
    simpa using this
  · obtain ⟨j, hj, rfl⟩ := List.mem_drop_iff_getElem.mp hc
    simpa using (hi (i + j) (by omega)).mpr (by omega)

/--
**Fixed window under skew.** The scripts run at most `early` before and `late`
after the stamps of their calls, in any order of stamps, and any of them may run
again. Of the calls stamped in an aligned window before its last `early + late`
milliseconds, at most `limit` are admitted.
-/
theorem fixedWindow_skew {keyPrefix : String} {windowMs limit : ℤ} (hLimit : 1 ≤ limit)
    (hWindow : 1 ≤ windowMs) {s : Store} (hUnused : NoCounters s keyPrefix) {short early late : ℤ}
    (hShort : short + (early + late) ≤ windowMs) {calls : List Call} (hOrder : InRunOrder calls)
    (hSkewed : ∀ c ∈ calls, Skewed early late c) (k : ℤ) :
    ((admittedCalls (transcript .honoured (fixedWindowCall keyPrefix windowMs limit) s
      calls)).countP (beginning windowMs short k) : ℤ) ≤ limit := by
  -- up to here no counter of the window has run out
  obtain ⟨i, hBefore, hAfter⟩ := exists_split hOrder (k * windowMs - early + windowMs)
  rw [transcript, ← List.take_append_drop i calls, Machine.trace_append, admittedCalls,
    List.filter_append, List.map_append, List.countP_append]
  -- whoever runs after that reads a stamp past the beginning of the window
  have hNone : ((Machine.trace (serve .honoured (fixedWindowCall keyPrefix windowMs limit))
      (Machine.final (serve .honoured (fixedWindowCall keyPrefix windowMs limit)) s (calls.take i))
      (calls.drop i)).filter admitted |>.map Prod.fst).countP (beginning windowMs short k) = 0 := by
    refine List.countP_eq_zero.mpr fun c hc => ?_
    obtain ⟨x, hx, rfl⟩ := mem_of_mem_admittedCalls hc
    have hMem := Machine.fst_mem_of_mem_trace _ _ hx
    obtain ⟨-, hLate⟩ := hSkewed x.1 (List.mem_of_mem_drop hMem)
    have hFar := hAfter x.1 hMem
    simp only [beginning, Bool.and_eq_true, decide_eq_true_eq, not_and]
    omega
  have hInv := countersInv_run hLimit hWindow hUnused
    (hOrder.sublist (List.take_sublist i calls)) k
  -- the calls up to there run within one lifetime of the counter
  have hOne := hInv.granted_le hLimit fun a ha b hb => by
    obtain ⟨haMem, haIn⟩ := List.mem_filter.mp ha
    obtain ⟨hbMem, -⟩ := List.mem_filter.mp hb
    rw [transcript, Machine.map_fst_trace] at haMem hbMem
    obtain ⟨haEarly, -⟩ := hSkewed a (List.mem_of_mem_take haMem)
    have haFrom := ((windowIndex_eq_iff hWindow).mp (of_decide_eq_true haIn)).1
    have hbBefore := hBefore b hbMem
    omega
  have hFewer := List.countP_mono_left
    (l := admittedCalls (transcript .honoured (fixedWindowCall keyPrefix windowMs limit) s
      (calls.take i)))
    (p := beginning windowMs short k) (q := stampedIn windowMs k)
    fun c _ hc => (Bool.and_eq_true_iff.mp hc).1
  rw [hNone, add_zero]
  exact le_trans (Nat.cast_le.mpr hFewer) hOne

/-- One call per second, up to 100 ms in flight. The counter of window 0 runs out
at 1010, before the script of the last call, stamped in that window, starts
another. -/
theorem fixedWindow_skew_demo :
    let calls : List Call := [⟨0, 10, ""⟩, ⟨890, 900, ""⟩, ⟨880, 960, ""⟩, ⟨990, 1020, ""⟩]
    ((admittedCalls (transcript .honoured (fixedWindowCall "rl:fixed_window:demo" 1000 1) empty
      calls)).countP (beginning 1000 900 0) : ℤ) ≤ 1 := by
  intro calls
  have hSkewed : ∀ c ∈ calls, Skewed 0 100 c := by simp [calls, Skewed]
  exact fixedWindow_skew (by decide) (by decide) (fun _ => rfl) (by decide)
    (by simp [calls, InRunOrder]) hSkewed 0

end RatelimitGateway.Limiter
