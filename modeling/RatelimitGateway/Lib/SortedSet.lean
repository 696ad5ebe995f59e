import Mathlib.Data.List.Sort
import Mathlib.Data.Prod.Lex
import Mathlib.Data.List.Nodup

/-!
# Sorted sets

A sorted set maps distinct members to scores and lists them by ascending
score, members of one score by ascending member. The two invariants (the
order, and that no member occurs twice) are fields of the structure, so every
operation carries the proof that it keeps them:

* `add`                — insert a member, or move it when it is already there;
* `removeUpTo`         — drop every member whose score is at most a bound;
* `card`, `lowest?`    — the number of members, and the entry of least score.

Counting arguments never need the order of the list: `perm_add` and
`entries_removeUpTo` describe the operations up to permutation, and
`lowest?_le` is the one fact about order.
-/

/-- A score-ordered set of members. -/
structure SortedSet (σ μ : Type*) [LinearOrder σ] [LinearOrder μ] where
  entries : List (σ × μ)
  sorted : entries.Pairwise (fun a b => toLex a ≤ toLex b)
  nodup : (entries.map Prod.snd).Nodup

namespace SortedSet

variable {σ μ : Type*} [LinearOrder σ] [LinearOrder μ]

instance : DecidableEq (SortedSet σ μ) := fun a b =>
  decidable_of_iff (a.entries = b.entries) (by
    obtain ⟨a, _, _⟩ := a
    obtain ⟨b, _, _⟩ := b
    simp)

def empty : SortedSet σ μ := ⟨[], List.Pairwise.nil, List.nodup_nil⟩

/-- The number of members. -/
def card (z : SortedSet σ μ) : ℕ := z.entries.length

/-- The entry of least score, and among those of least member. -/
def lowest? (z : SortedSet σ μ) : Option (σ × μ) := z.entries.head?

/-- Keep the entries that satisfy `p`. -/
def filter (p : σ × μ → Bool) (z : SortedSet σ μ) : SortedSet σ μ where
  entries := z.entries.filter p
  sorted := z.sorted.filter p
  nodup := z.nodup.sublist (List.filter_sublist.map _)

/-- Drop every member whose score is at most `bound`. -/
def removeUpTo (bound : σ) (z : SortedSet σ μ) : SortedSet σ μ :=
  z.filter fun x => !decide (x.1 ≤ bound)

/-- Insert a member under a score, moving it when it is already there. -/
def add (score : σ) (member : μ) (z : SortedSet σ μ) : SortedSet σ μ where
  entries := (z.entries.filter fun x => !decide (x.2 = member)).orderedInsert
    (fun a b => toLex a ≤ toLex b) (score, member)
  sorted := (z.sorted.filter _).orderedInsert _ _
  nodup := by
    have hPerm := (List.perm_orderedInsert (fun a b : σ × μ => toLex a ≤ toLex b)
      (score, member) (z.entries.filter fun x => !decide (x.2 = member))).map Prod.snd
    rw [hPerm.nodup_iff, List.map_cons, List.nodup_cons]
    refine ⟨?_, z.nodup.sublist (List.filter_sublist.map _)⟩
    simp

/-! ## The operations up to permutation -/

@[simp] theorem entries_empty : (empty : SortedSet σ μ).entries = [] := rfl

theorem not_mem_empty {x : σ × μ} : x ∉ (empty : SortedSet σ μ).entries := List.not_mem_nil

@[simp] theorem entries_removeUpTo (bound : σ) (z : SortedSet σ μ) :
    (z.removeUpTo bound).entries = z.entries.filter fun x => !decide (x.1 ≤ bound) := rfl

theorem mem_removeUpTo {bound : σ} {z : SortedSet σ μ} {x : σ × μ} :
    x ∈ (z.removeUpTo bound).entries ↔ x ∈ z.entries ∧ bound < x.1 := by
  simp

theorem perm_add (score : σ) (member : μ) (z : SortedSet σ μ) :
    (z.add score member).entries.Perm
      ((score, member) :: z.entries.filter fun x => !decide (x.2 = member)) :=
  List.perm_orderedInsert _ _ _

/-- Adding a member the set does not hold adds exactly one entry. -/
theorem perm_add_of_fresh {score : σ} {member : μ} {z : SortedSet σ μ}
    (hFresh : ∀ x ∈ z.entries, x.2 ≠ member) :
    (z.add score member).entries.Perm ((score, member) :: z.entries) := by
  have hFilter : (z.entries.filter fun x => !decide (x.2 = member)) = z.entries := by
    rw [List.filter_eq_self]
    intro x hx
    simpa using hFresh x hx
  simpa [hFilter] using perm_add score member z

/-- The entry that is added, and those of other members. -/
theorem mem_add {score : σ} {member : μ} {z : SortedSet σ μ} {x : σ × μ} :
    x ∈ (z.add score member).entries ↔
      x = (score, member) ∨ x ∈ z.entries ∧ x.2 ≠ member := by
  rw [(perm_add score member z).mem_iff]
  simp

theorem eq_empty_of_card {z : SortedSet σ μ} (h : z.card = 0) : z = empty := by
  rw [card, List.length_eq_zero_iff] at h
  obtain ⟨entries, _, _⟩ := z
  simpa [empty] using h

/-- `add` makes room for at most one more member. -/
theorem card_add_le (score : σ) (member : μ) (z : SortedSet σ μ) :
    (z.add score member).card ≤ z.card + 1 := by
  rw [card, (perm_add score member z).length_eq, List.length_cons, card]
  exact Nat.succ_le_succ (List.length_filter_le _ _)

/-- `removeUpTo` never adds a member. -/
theorem card_removeUpTo_le (bound : σ) (z : SortedSet σ μ) :
    (z.removeUpTo bound).card ≤ z.card :=
  List.length_filter_le _ _

/-- Nothing is removed when every score is above the bound. -/
theorem removeUpTo_eq_self {bound : σ} {z : SortedSet σ μ} (h : ∀ x ∈ z.entries, bound < x.1) :
    z.removeUpTo bound = z := by
  have hEntries : (z.removeUpTo bound).entries = z.entries := by
    rw [entries_removeUpTo, List.filter_eq_self]
    intro x hx
    simpa using h x hx
  obtain ⟨entries, _, _⟩ := z
  simpa [removeUpTo, filter] using hEntries

/-- A later prune makes an earlier one redundant. -/
theorem removeUpTo_removeUpTo {a b : σ} (hab : a ≤ b) (z : SortedSet σ μ) :
    (z.removeUpTo a).removeUpTo b = z.removeUpTo b := by
  have hEntries : ((z.removeUpTo a).removeUpTo b).entries = (z.removeUpTo b).entries := by
    simp only [entries_removeUpTo, List.filter_filter]
    apply List.filter_congr
    intro x _
    by_cases hx : x.1 ≤ b
    · simp [hx]
    · simp [hx, mt (fun h => le_trans h hab) hx]
  obtain ⟨entries, _, _⟩ := z
  simpa [removeUpTo, filter] using hEntries

/-- Nothing is left when no score is. -/
theorem card_removeUpTo_eq_zero_iff {bound : σ} {z : SortedSet σ μ} :
    (z.removeUpTo bound).card = 0 ↔ ∀ x ∈ z.entries, x.1 ≤ bound := by
  rw [card, entries_removeUpTo, List.length_eq_zero_iff, List.filter_eq_nil_iff]
  simp

/-- Something is removed when one score is not. -/
theorem card_removeUpTo_lt {bound : σ} {z : SortedSet σ μ} {x : σ × μ} (hx : x ∈ z.entries)
    (hBound : x.1 ≤ bound) : (z.removeUpTo bound).card < z.card := by
  rw [card, entries_removeUpTo, card, List.length_filter_lt_length_iff_exists]
  exact ⟨x, hx, by simpa using hBound⟩

/-! ## The lowest entry -/

theorem lowest?_mem {z : SortedSet σ μ} {x : σ × μ} (h : z.lowest? = some x) :
    x ∈ z.entries :=
  List.mem_of_mem_head? h

/-- The lowest entry has the least score of all. -/
theorem lowest?_le {z : SortedSet σ μ} {x : σ × μ} (h : z.lowest? = some x)
    {y : σ × μ} (hy : y ∈ z.entries) : x.1 ≤ y.1 := by
  have hSorted := z.sorted
  cases hz : z.entries with
  | nil => simp [hz] at hy
  | cons e rest =>
    rw [lowest?, hz, List.head?_cons, Option.some.injEq] at h
    subst h
    rw [hz] at hy hSorted
    rcases List.mem_cons.mp hy with rfl | hMem
    · exact le_rfl
    · have hLex := (List.pairwise_cons.mp hSorted).1 y hMem
      rcases Prod.Lex.le_iff.mp hLex with hLt | hEq
      · exact hLt.le
      · exact hEq.1.le

theorem lowest?_eq_none_iff {z : SortedSet σ μ} : z.lowest? = none ↔ z.entries = [] := by
  simp [lowest?]

/-- A set that has a member has a lowest entry. -/
theorem exists_lowest {z : SortedSet σ μ} (hCard : 0 < z.card) : ∃ x, z.lowest? = some x := by
  cases h : z.lowest? with
  | some x => exact ⟨x, rfl⟩
  | none =>
    rw [lowest?_eq_none_iff] at h
    simp [card, h] at hCard

end SortedSet
