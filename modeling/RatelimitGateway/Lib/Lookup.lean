import Mathlib.Data.List.Nodup

/-!
# Association lists with distinct keys

A list of entries stands for a map when no key occurs twice. What is looked up in
it is then a matter of membership (`lookup_eq_some_iff_mem`), so that the order of
the entries makes no difference (`lookup_perm`).
-/

namespace Lookup

variable {κ ν : Type*} [BEq κ] [LawfulBEq κ] {entries entries' : List (κ × ν)} {k : κ} {v : ν}

theorem mem_of_lookup (h : entries.lookup k = some v) : (k, v) ∈ entries := by
  obtain ⟨before, after, rfl, -⟩ := List.lookup_eq_some_iff.mp h
  exact List.mem_append_right _ List.mem_cons_self

/-- An entry under a key of its own is the one that is looked up. -/
theorem lookup_of_mem (hDistinct : (entries.map Prod.fst).Nodup) (h : (k, v) ∈ entries) :
    entries.lookup k = some v := by
  obtain ⟨before, after, rfl⟩ := List.append_of_mem h
  refine List.lookup_eq_some_iff.mpr ⟨before, after, rfl, fun x hx => ?_⟩
  rw [List.map_append, List.nodup_append] at hDistinct
  have hOther : k ≠ x.1 := (hDistinct.2.2 x.1 (List.mem_map_of_mem hx) k (by simp)).symm
  simpa using hOther

theorem lookup_eq_some_iff_mem (hDistinct : (entries.map Prod.fst).Nodup) :
    entries.lookup k = some v ↔ (k, v) ∈ entries :=
  ⟨mem_of_lookup, lookup_of_mem hDistinct⟩

/-- The order of the entries makes no difference. -/
theorem lookup_perm (hDistinct : (entries.map Prod.fst).Nodup) (hPerm : entries.Perm entries')
    (k : κ) : entries.lookup k = entries'.lookup k := by
  have hDistinct' : (entries'.map Prod.fst).Nodup := (hPerm.map _).nodup_iff.mp hDistinct
  refine Option.ext fun v => ?_
  rw [lookup_eq_some_iff_mem hDistinct, lookup_eq_some_iff_mem hDistinct', hPerm.mem_iff]

end Lookup
