import Mathlib.Data.List.Basic

/-!
# Words joined by a separator

`a ++ x :: b` can be taken apart again when the separator `x` does not occur in
the first word (`append_cons_inj_first`: it is cut at its first `x`) or does
not occur in the second (`append_cons_inj_last`: at its last). The other word
may hold the separator any number of times. `idxOf?` finds the first one
(`idxOf?_append_cons`, `not_mem_take`).
-/

namespace Separator

variable {α : Type*} {x : α} {a b a' b' : List α}

/-- Two lists that are joined at the first `x` have the same parts. -/
theorem append_cons_inj_first (ha : x ∉ a) (ha' : x ∉ a') (h : a ++ x :: b = a' ++ x :: b') :
    a = a' ∧ b = b' := by
  induction a generalizing a' with
  | nil =>
    cases a' with
    | nil => exact ⟨rfl, (List.cons.inj h).2⟩
    | cons y a' =>
      obtain ⟨rfl, -⟩ := List.cons.inj h
      -- the separator would stand in the first part
      exact absurd List.mem_cons_self ha'
  | cons y a ih =>
    cases a' with
    | nil =>
      obtain ⟨rfl, -⟩ := List.cons.inj h
      exact absurd List.mem_cons_self ha
    | cons y' a' =>
      obtain ⟨rfl, hRest⟩ := List.cons.inj h
      obtain ⟨rfl, hb⟩ := ih (fun hx => ha (List.mem_cons_of_mem _ hx))
        (fun hx => ha' (List.mem_cons_of_mem _ hx)) hRest
      exact ⟨rfl, hb⟩

/-- Or at the last. -/
theorem append_cons_inj_last (hb : x ∉ b) (hb' : x ∉ b') (h : a ++ x :: b = a' ++ x :: b') :
    a = a' ∧ b = b' := by
  have hReverse : b.reverse ++ x :: a.reverse = b'.reverse ++ x :: a'.reverse := by
    simpa using congrArg List.reverse h
  obtain ⟨hTail, hHead⟩ := append_cons_inj_first (by simpa using hb) (by simpa using hb') hReverse
  exact ⟨List.reverse_injective hHead, List.reverse_injective hTail⟩

section Index

variable [BEq α] [LawfulBEq α]

/-- The first `x` is found after the first part. -/
theorem idxOf?_append_cons (ha : x ∉ a) : (a ++ x :: b).idxOf? x = some a.length := by
  induction a with
  | nil => simp [List.idxOf?_cons]
  | cons y a ih =>
    have hOther : y ≠ x := fun h => ha (h ▸ List.mem_cons_self)
    rw [List.cons_append, List.idxOf?_cons, if_neg (by simpa using hOther),
      ih fun hx => ha (List.mem_cons_of_mem _ hx)]
    rfl

/-- There is no `x` before the first. -/
theorem not_mem_take {l : List α} {i : ℕ} (h : l.idxOf? x = some i) : x ∉ l.take i := by
  obtain ⟨hLength, -, hBefore⟩ := List.idxOf?_eq_some_iff.mp h
  intro hx
  obtain ⟨j, hj, hxj⟩ := List.getElem_of_mem hx
  rw [List.length_take] at hj
  rw [List.getElem_take] at hxj
  exact hBefore j (by omega) hxj

end Index

end Separator
