import Mathlib.Algebra.Order.BigOperators.Group.Finset
import RatelimitGateway.Limiter.Skew
import RatelimitGateway.Middleware.Fleet

/-!
# The windows of a fleet

The token bucket of a fleet pays for every run of a script, so it is safe
against scripts that run again (`fleet_budget`). The two windows are enforced
on the requests of all replicas together as well, up to the skew between the
replicas' clocks and Redis' and the time that calls are in flight: the sliding
window because a call that is sent again has the same member id, the fixed
window because every run counts.

* `fleet_windows` — at most `limit` requests are forwarded in any window that is
  shorter by the skew, or in the beginning of an aligned one.
-/

namespace RatelimitGateway.Middleware

open Limiter Transitions

/-- The member id of a call that was sent. -/
def Sent.member (c : Sent) : String := uniqueMember c.nowMs (c.hex.getD "")

/-- Calls of one stamp have drawn different random digits. -/
def DigitsDiffer (f : Fleet) : Prop :=
  ∀ c ∈ f.sent, ∀ c' ∈ f.sent, c.nowMs = c'.nowMs → c.hex.getD "" = c'.hex.getD "" →
    c.owner = c'.owner

/-- Is the request forwarded for the key, without the mark, by a call that is
stamped in `P`? -/
def Fleet.counts (f : Fleet) (key : String) (P : ℤ → Bool) (i : ℕ) (r : Request) : Bool :=
  decide (r.tenant.id = key) && decide (0 < forwards (did r.story)) && !marked (did r.story) &&
    (f.stampOf (i, r.id)).any P

theorem enforced_eq (f : Fleet) (key : String) (P : ℤ → Bool) (i : ℕ) :
    f.enforced key P i = ((f.servers i).requests.filter (f.counts key P i)).length :=
  List.countP_eq_length_filter

/-- The members of the requests that a replica has forwarded. -/
def Fleet.members (f : Fleet) (key : String) (P : ℤ → Bool) (i : ℕ) : Finset String :=
  (((f.servers i).requests.filter (f.counts key P i)).map fun r =>
    ((f.sentBy (i, r.id)).map Sent.member).getD "").toFinset

section Members

variable {rl : RateLimit} {e : KeyStore.Expiry} {s₀ : Redis.Store} {events : List FleetEvent}
  {f : Fleet} {key : String} {P : ℤ → Bool}

/-- A forwarded request was admitted under the member id that it sent. -/
theorem FleetInv.admitted_member (hInv : FleetInv rl e s₀ events f) {i : ℕ} {r : Request}
    (hr : r ∈ (f.servers i).requests) (hCounts : f.counts key P i r = true) :
    ∃ x ∈ f.runs, ∃ c, f.sentBy (i, r.id) = some c ∧ x.call.key = key ∧
      P x.call.nowMs = true ∧ admitted (x.call.toCall, x.reply) = true ∧
      x.call.toCall.member = c.member := by
  simp only [Fleet.counts, Bool.and_eq_true, decide_eq_true_eq, Bool.not_eq_true'] at hCounts
  obtain ⟨⟨⟨hKey, hForwarded⟩, hUnmarked⟩, hStamp⟩ := hCounts
  obtain ⟨x, hx, hOwner, hxKey, hxStamp, hAdmitted⟩ := hInv.granted hr hForwarded hUnmarked
  obtain ⟨c, hSent, hCall⟩ := hInv.owned x hx _ hOwner
  rw [hxStamp] at hStamp
  refine ⟨x, hx, c, hSent, hxKey.trans hKey, hStamp, hAdmitted, ?_⟩
  rw [hCall]
  rfl

/-- A member is that of a call whose request was forwarded. -/
theorem mem_members {m : String} {i : ℕ} (hInv : FleetInv rl e s₀ events f) :
    m ∈ f.members key P i ↔ ∃ r ∈ (f.servers i).requests, f.counts key P i r = true ∧
      ∃ c, f.sentBy (i, r.id) = some c ∧ c.member = m := by
  rw [Fleet.members, List.mem_toFinset, List.mem_map]
  constructor
  · rintro ⟨r, hr, rfl⟩
    obtain ⟨hMem, hCounts⟩ := List.mem_filter.mp hr
    obtain ⟨x, -, c, hSent, -⟩ := hInv.admitted_member hMem hCounts
    exact ⟨r, hMem, hCounts, c, hSent, by rw [hSent]; rfl⟩
  · rintro ⟨r, hMem, hCounts, c, hSent, rfl⟩
    exact ⟨r, List.mem_filter.mpr ⟨hMem, hCounts⟩, by rw [hSent]; rfl⟩

/-- Requests that have sent the same member id are the same. -/
theorem owner_of_member (hDiffer : DigitsDiffer f) {o o' : Owner} {c c' : Sent}
    (hSent : f.sentBy o = some c) (hSent' : f.sentBy o' = some c')
    (hMember : c.member = c'.member) : o = o' := by
  obtain ⟨hStamp, hHex⟩ := uniqueMember_inj hMember
  obtain ⟨hMem, rfl⟩ := owner_of_sentBy hSent
  obtain ⟨hMem', rfl⟩ := owner_of_sentBy hSent'
  exact hDiffer c hMem c' hMem' hStamp hHex

/-- No two requests that were forwarded have one member. -/
theorem FleetInv.card_members (hInv : FleetInv rl e s₀ events f) (hDiffer : DigitsDiffer f)
    (i : ℕ) : (f.members key P i).card = f.enforced key P i := by
  rw [enforced_eq, Fleet.members, List.toFinset_card_of_nodup, List.length_map]
  have hIds := (hInv.distinct i).sublist
    ((List.filter_sublist (p := f.counts key P i) (l := (f.servers i).requests)).map Request.id)
  rw [List.Nodup, List.pairwise_map] at hIds ⊢
  refine hIds.imp_of_mem fun {r r'} hr hr' hNe hMember => hNe ?_
  obtain ⟨hMem, hCounts⟩ := List.mem_filter.mp hr
  obtain ⟨hMem', hCounts'⟩ := List.mem_filter.mp hr'
  obtain ⟨x, -, c, hSent, -⟩ := hInv.admitted_member hMem hCounts
  obtain ⟨x', -, c', hSent', -⟩ := hInv.admitted_member hMem' hCounts'
  rw [hSent, hSent'] at hMember
  exact congrArg Prod.snd (owner_of_member hDiffer hSent hSent' hMember)

/-- The members of different replicas are different. -/
theorem FleetInv.members_disjoint (hInv : FleetInv rl e s₀ events f) (hDiffer : DigitsDiffer f)
    {i j : ℕ} (hij : i ≠ j) : Disjoint (f.members key P i) (f.members key P j) := by
  refine Finset.disjoint_left.mpr fun m hi hj => hij ?_
  obtain ⟨r, -, -, c, hSent, hMember⟩ := (mem_members hInv).mp hi
  obtain ⟨r', -, -, c', hSent', hMember'⟩ := (mem_members hInv).mp hj
  exact congrArg Prod.fst (owner_of_member hDiffer hSent hSent' (hMember.trans hMember'.symm))

/-- The forwarded requests of the fleet are different members that the scripts
have admitted. -/
theorem FleetInv.enforced_le_members (hInv : FleetInv rl e s₀ events f) (hDiffer : DigitsDiffer f)
    {q : Quota} (hQuota : OneQuota rl events key q) (R : Finset ℕ) (P : ℤ → Bool) :
    ∑ i ∈ R, f.enforced key P i ≤ (admittedMembers (fun c => P c.nowMs)
      (transcript e (RedisLimiter.script { alg := rl.limiterName } key q) s₀
        (f.callsOn key))).card := by
  -- two replicas never write the same member, so their requests add up
  have hSum : ∑ i ∈ R, f.enforced key P i = (R.biUnion (f.members key P)).card := by
    rw [Finset.card_biUnion fun i _ j _ hij => hInv.members_disjoint hDiffer hij]
    exact Finset.sum_congr rfl fun i _ => (hInv.card_members hDiffer i).symm
  rw [hSum]
  refine Finset.card_le_card fun m hm => ?_
  obtain ⟨i, -, hi⟩ := Finset.mem_biUnion.mp hm
  obtain ⟨r, hr, hCounts, c, hSent, rfl⟩ := (mem_members hInv).mp hi
  obtain ⟨x, hx, c', hSent', hKey, hP, hAdmitted, hMember⟩ := hInv.admitted_member hr hCounts
  obtain rfl := Option.some.inj (hSent.symm.trans hSent')
  rw [mem_admittedMembers, ← hInv.transcript_on_key hQuota]
  refine ⟨x.call.toCall, ?_, hP, hMember⟩
  refine List.mem_map.mpr ⟨(x.call.toCall, x.reply), List.mem_filter.mpr ⟨?_, hAdmitted⟩, rfl⟩
  exact List.mem_map.mpr ⟨x, List.mem_filter.mpr ⟨hx, decide_eq_true hKey⟩, rfl⟩

/-- A member id tells the stamp, also of calls that nobody waits for. -/
theorem membersTell_callsOn (f : Fleet) (key : String) : MembersTell (f.callsOn key) := by
  refine List.pairwise_of_forall_mem_list fun a ha b hb hMember => ?_
  obtain ⟨x, -, rfl⟩ := List.mem_map.mp ha
  obtain ⟨y, -, rfl⟩ := List.mem_map.mp hb
  exact (uniqueMember_inj hMember).1

end Members

/--
**The windows of a fleet.** A key that was never used, on a Redis that removes
keys; every script of the key runs at most `early` before and `late` after its
stamp, some of them more than once, some never. Of the requests that all
replicas have forwarded for the key without marking them, at most `limit` are
stamped in any interval that is shorter than a sliding window by
`early + late`, and at most `limit` in a fixed window before its last
`early + late` milliseconds.
-/
theorem fleet_windows {rl : RateLimit} {config : Breaker.Config} {s₀ : Redis.Store}
    {events : List FleetEvent} {f : Fleet}
    (hRun : run (Fleet.step rl .honoured) (Fleet.start config s₀) events = some f) {key : String}
    {q : Quota} (hq : ValidQuota q) (hQuota : OneQuota rl events key q)
    (hUnused : Unused { alg := rl.limiterName } key s₀) (hOrder : InRunOrder (f.callsOn key))
    {early late short : ℤ} (hSkew : 0 ≤ early + late)
    (hSkewed : ∀ c ∈ f.callsOn key, Skewed early late c)
    (hShort : short + (early + late) ≤ q.windowMs) (hDiffer : DigitsDiffer f) (R : Finset ℕ) :
    (rl.limiterName = .slidingWindow → ∀ t, ((∑ i ∈ R, f.enforced key
      (fun n => decide (t - short < n ∧ n ≤ t)) i : ℕ) : ℤ) ≤ q.limit) ∧
    (rl.limiterName = .fixedWindow → ∀ k, ((∑ i ∈ R, f.enforced key
      (fun n => decide (k * q.windowMs ≤ n ∧ n < k * q.windowMs + short)) i : ℕ) : ℤ) ≤
        q.limit) := by
  have hInv := fleetInv_run hRun
  refine ⟨fun hAlg t => ?_, fun hAlg k => ?_⟩
  · -- the log counts a member once, however often its call was run
    have hMembers := hInv.enforced_le_members hDiffer hQuota R
      fun n => decide (t - short < n ∧ n ≤ t)
    rw [hAlg, script_slidingWindow rfl] at hMembers
    rw [hAlg] at hUnused
    exact (Nat.cast_le.mpr hMembers).trans (slidingWindow_skew hq.limit hUnused.entry hSkew hShort
      hOrder hSkewed (membersTell_callsOn f key) t)
  · -- the counter counts every execution, which is more
    have hSum := hInv.enforced_sum_le hQuota R
      fun n => decide (k * q.windowMs ≤ n ∧ n < k * q.windowMs + short)
    rw [hAlg, script_fixedWindow rfl] at hSum
    rw [hAlg] at hUnused
    have hCap := fixedWindow_skew hq.limit hq.window hUnused.counters hShort hOrder hSkewed k
    refine (Nat.cast_le.mpr (hSum.trans (List.countP_mono_left fun c _ hc => ?_))).trans hCap
    obtain ⟨hFrom, hTo⟩ := of_decide_eq_true hc
    rw [beginning, stampedIn, Bool.and_eq_true, decide_eq_true_eq, decide_eq_true_eq,
      windowIndex_eq_iff hq.window]
    refine ⟨⟨hFrom, ?_⟩, hTo⟩
    rw [add_mul]
    omega

/-- One call per second, up to 7 ms in flight: a script that runs again finds its
call in the log. -/
theorem fleet_windows_demo :
    let acme : Tenant := ⟨"acme", ⟨"free", 1, 1000000000, 0⟩⟩
    ∃ f, run (Fleet.step ⟨.slidingWindow, true⟩ .honoured)
        (Fleet.start (Breaker.Config.of 5 1 []) KeyStore.empty)
        (lostReply acme (some "a1") (some "b2")) = some f ∧
      ∑ i ∈ {0, 1}, f.enforced "acme" (fun n => decide ((5 : ℤ) - 993 < n ∧ n ≤ 5)) i = 1 ∧
      ((∑ i ∈ {0, 1}, f.enforced "acme" (fun n => decide ((5 : ℤ) - 993 < n ∧ n ≤ 5)) i : ℕ) : ℤ) ≤
        1 := by
  intro acme
  obtain ⟨f, hRun, hSeen⟩ : ∃ f, run (Fleet.step ⟨.slidingWindow, true⟩ .honoured)
      (Fleet.start (Breaker.Config.of 5 1 []) KeyStore.empty)
      (lostReply acme (some "a1") (some "b2")) = some f ∧
      (f.callsOn "acme", f.sent.map fun c => (c.nowMs, c.owner),
        ∑ i ∈ {0, 1}, f.enforced "acme" (fun n => decide ((5 : ℤ) - 993 < n ∧ n ≤ 5)) i) =
        ([⟨0, 5, "0-a1"⟩, ⟨3, 6, "3-b2"⟩, ⟨0, 7, "0-a1"⟩], [(0, 0, 1), (3, 1, 1)], 1) :=
    Option.map_eq_some_iff.mp (by decide +kernel)
  obtain ⟨hCalls, hRest⟩ := Prod.mk.inj hSeen
  obtain ⟨hSent, hForwarded⟩ := Prod.mk.inj hRest
  have hSkewed : ∀ c ∈ f.callsOn "acme", Skewed 0 7 c := by
    rw [hCalls]
    simp [Skewed]
  -- two calls are sent, on different stamps
  have hDiffer : DigitsDiffer f := by
    intro c hc c' hc' hStamp _
    have hMem := List.mem_map_of_mem (f := fun c : Sent => (c.nowMs, c.owner)) hc
    have hMem' := List.mem_map_of_mem (f := fun c : Sent => (c.nowMs, c.owner)) hc'
    rw [hSent] at hMem hMem'
    simp only [List.mem_cons, Prod.mk.injEq, List.not_mem_nil, or_false] at hMem hMem'
    rcases hMem with ⟨hn, ho⟩ | ⟨hn, ho⟩ <;> rcases hMem' with ⟨hn', ho'⟩ | ⟨hn', ho'⟩ <;>
      first | exact ho.trans ho'.symm | omega
  exact ⟨f, hRun, hForwarded, (fleet_windows hRun (by constructor <;> decide)
    (oneQuota_lostReply _ acme _ _) ⟨rfl, fun _ => rfl⟩ (by rw [hCalls]; simp [InRunOrder])
    (by decide) hSkewed (by decide) hDiffer {0, 1}).1 rfl 5⟩

end RatelimitGateway.Middleware
