import Mathlib.Logic.Function.Basic
import Mathlib.Data.Int.Order.Basic

/-!
# A keyed store with deadlines

A store maps keys to entries; an entry is a value and, optionally, the time
at which it runs out. The server's clock decides which entries are still
there: an entry is `live` strictly before its deadline, and an entry that has
run out is treated exactly as a key that was never written. The same store
can be read by a server that never removes anything (`Expiry.ignored`).

Writing to a live key keeps its deadline, writing to an absent one starts
without a deadline.
-/

namespace KeyStore

/-- Does the server remove entries whose deadline has passed? -/
inductive Expiry where
  | honoured
  | ignored
  deriving DecidableEq, Repr

/-- The server's clock when a command runs. -/
structure Clock where
  expiry : Expiry
  time : ℤ
  deriving DecidableEq, Repr

structure Entry (ν : Type*) where
  value : ν
  deadline : Option ℤ
  deriving DecidableEq, Repr

/-- A store over keys `κ` and values `ν`. -/
abbrev Store (κ ν : Type*) := κ → Option (Entry ν)

variable {κ ν : Type*}

/-- The store in which no key was ever written. -/
def empty : Store κ ν := fun _ => none

/-- Is an entry still there at the clock `c`? -/
def live (c : Clock) (x : Entry ν) : Bool :=
  match c.expiry, x.deadline with
  | .honoured, some d => decide (c.time < d)
  | _, _ => true

/-- The entry a command sees under a key. -/
def find (c : Clock) (s : Store κ ν) (k : κ) : Option (Entry ν) :=
  (s k).filter (live c)

/-- The value a command sees under a key. -/
def valueAt (c : Clock) (s : Store κ ν) (k : κ) : Option ν :=
  (find c s k).map Entry.value

/-! ## What a command sees -/

theorem find_eq_none_of_absent {c : Clock} {s : Store κ ν} {k : κ} (h : s k = none) :
    find c s k = none := by
  simp [find, h]

theorem find_eq_some_iff {c : Clock} {s : Store κ ν} {k : κ} {x : Entry ν} :
    find c s k = some x ↔ s k = some x ∧ live c x = true := by
  simp [find, Option.filter_eq_some_iff]

/-- A server that never removes anything sees every entry. -/
@[simp] theorem live_ignored (t : ℤ) (x : Entry ν) : live ⟨.ignored, t⟩ x = true := rfl

@[simp] theorem live_no_deadline (c : Clock) (v : ν) : live c ⟨v, none⟩ = true := by
  unfold live
  split <;> simp_all

/-- An entry is there strictly before its deadline. -/
theorem find_before {t d : ℤ} {s : Store κ ν} {k : κ} {v : ν} (hEntry : s k = some ⟨v, some d⟩)
    (hBefore : t < d) : find ⟨.honoured, t⟩ s k = some ⟨v, some d⟩ :=
  find_eq_some_iff.mpr ⟨hEntry, decide_eq_true hBefore⟩

/-- After its deadline an entry is not found. -/
theorem find_after {t d : ℤ} {s : Store κ ν} {k : κ} {v : ν} (hEntry : s k = some ⟨v, some d⟩)
    (hAfter : d ≤ t) : find ⟨.honoured, t⟩ s k = none := by
  have hDead : live ⟨.honoured, t⟩ (⟨v, some d⟩ : Entry ν) = false :=
    decide_eq_false (not_lt.mpr hAfter)
  rw [find, hEntry, Option.filter, hDead]
  rfl

/-- A value that is seen is the value of the entry. -/
theorem exists_entry {c : Clock} {s : Store κ ν} {k : κ} {v : ν} (hv : valueAt c s k = some v) :
    ∃ x, s k = some x ∧ x.value = v := by
  obtain ⟨x, hx, hValue⟩ := Option.map_eq_some_iff.mp hv
  exact ⟨x, (find_eq_some_iff.mp hx).1, hValue⟩

/-- A value that is read is that of the entry. -/
theorem value_of_entry {c : Clock} {s : Store κ ν} {k : κ} {v : ν} {x : Entry ν}
    (hEntry : s k = some x) (hv : valueAt c s k = some v) : x.value = v := by
  obtain ⟨y, hy, hValue⟩ := exists_entry hv
  rw [hEntry, Option.some.injEq] at hy
  rw [hy, hValue]

/-- A value that keeps the deadline of a live entry is live itself. -/
theorem live_kept {c : Clock} {s : Store κ ν} {k : κ} (v : ν) :
    live c ⟨v, (find c s k).bind Entry.deadline⟩ = true := by
  cases hf : find c s k with
  | none => simp
  | some x =>
    have hLive := (find_eq_some_iff.mp hf).2
    simpa [live] using hLive

/-! ## Commands on one key -/

variable [DecidableEq κ]

/-- Write a value, keeping the deadline of a live entry. -/
def write (c : Clock) (s : Store κ ν) (k : κ) (v : ν) : Store κ ν :=
  Function.update s k (some ⟨v, (find c s k).bind Entry.deadline⟩)

/-- Remove a key. -/
def erase (s : Store κ ν) (k : κ) : Store κ ν :=
  Function.update s k none

/-- Give a live key a new deadline; an absent key stays absent. -/
def expireAt (c : Clock) (s : Store κ ν) (k : κ) (d : ℤ) : Store κ ν :=
  match find c s k with
  | some x => Function.update s k (some ⟨x.value, some d⟩)
  | none => s

@[simp] theorem write_self (c : Clock) (s : Store κ ν) (k : κ) (v : ν) :
    write c s k v k = some ⟨v, (find c s k).bind Entry.deadline⟩ := by
  simp [write]

@[simp] theorem erase_self (s : Store κ ν) (k : κ) : erase s k k = none := by
  simp [erase]

/-- A command sees what the command before it wrote. -/
@[simp] theorem find_write_self (c : Clock) (s : Store κ ν) (k : κ) (v : ν) :
    find c (write c s k v) k = some ⟨v, (find c s k).bind Entry.deadline⟩ :=
  find_eq_some_iff.mpr ⟨write_self c s k v, live_kept v⟩

@[simp] theorem find_erase_self (c : Clock) (s : Store κ ν) (k : κ) :
    find c (erase s k) k = none :=
  find_eq_none_of_absent (erase_self s k)

@[simp] theorem valueAt_write_self (c : Clock) (s : Store κ ν) (k : κ) (v : ν) :
    valueAt c (write c s k v) k = some v := by
  simp [valueAt]

@[simp] theorem valueAt_erase_self (c : Clock) (s : Store κ ν) (k : κ) :
    valueAt c (erase s k) k = none := by
  simp [valueAt]

/-- An entry put under a key is seen until it runs out. -/
theorem valueAt_update {c : Clock} {s : Store κ ν} {k : κ} {x : Entry ν}
    (h : live c x = true) : valueAt c (Function.update s k (some x)) k = some x.value := by
  simp [valueAt, find, h, Option.filter]

/-- A deadline set on a live key. -/
theorem expireAt_of_find {c : Clock} {s : Store κ ν} {k : κ} {x : Entry ν}
    (h : find c s k = some x) (d : ℤ) :
    expireAt c s k d = Function.update s k (some ⟨x.value, some d⟩) := by
  simp [expireAt, h]

/-- A deadline set on an absent key does nothing. -/
theorem expireAt_of_absent {c : Clock} {s : Store κ ν} {k : κ}
    (h : find c s k = none) (d : ℤ) : expireAt c s k d = s := by
  simp [expireAt, h]

/-- A value written and given a deadline under one clock. -/
theorem expireAt_write (c : Clock) (s : Store κ ν) (k : κ) (v : ν) (d : ℤ) :
    expireAt c (write c s k v) k d = Function.update s k (some ⟨v, some d⟩) := by
  rw [expireAt_of_find (find_write_self c s k v), write, Function.update_idem]

end KeyStore
