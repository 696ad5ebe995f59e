import Mathlib.Logic.Function.Basic
import RatelimitGateway.Lib.Transitions

/-!
# Snapshots written out slot by slot

A writer takes a value and writes it out into cells that it shares with all
other writers, one slot after the other. Taking the value is one atomic step,
and so is each write; the steps of different writers interleave freely.

Results:

* `Upholds.take`, `Upholds.write`,
  `Upholds.shows`  — if, whenever a value is taken, what is still to be written
  agrees with it, then the cells show the value that was taken last once nobody
  is writing;
* `exists_mix`     — when two writers have the same slots left, the order of
  their writes can leave any mix of the two values there;
* `exists_overlap` — so it can for a writer that is overtaken by another, with
  everybody else finishing first.
-/

namespace Snapshot

open Transitions

/-- How a value is written out: its slots in their order, the cell of each slot
and what is written there. -/
structure Layout (ν ι κ β : Type*) where
  slots : List ι
  cell : ι → κ
  entry : ν → ι → β
  slots_nodup : slots.Nodup
  cell_injective : Function.Injective cell

variable {τ ν ι κ β : Type*} {L : Layout ν ι κ β}

/-- A writer, with the value it has taken and the slots it has still to
write. -/
structure Writer (L : Layout ν ι κ β) where
  value : ν
  rest : List ι
  suffix : rest <:+ L.slots

namespace Writer

def start (L : Layout ν ι κ β) (v : ν) : Writer L := ⟨v, L.slots, List.suffix_refl _⟩

/-- The writer after its next write. -/
def next (w : Writer L) : Writer L where
  value := w.value
  rest := w.rest.tail
  suffix := (List.tail_suffix _).trans w.suffix

end Writer

/-- The cells, and everybody who has taken a value. -/
structure Board (L : Layout ν ι κ β) (τ : Type*) where
  cells : κ → Option β
  writers : τ → Option (Writer L)

namespace Board

def empty : Board L τ where
  cells _ := none
  writers _ := none

/-- Is that writer in the middle of writing? -/
def busy (b : Board L τ) (id : τ) : Bool := (b.writers id).any fun w => !w.rest.isEmpty

/-- Nobody is writing. -/
def Quiet (b : Board L τ) : Prop := ∀ id w, b.writers id = some w → w.rest = []

/-- Somebody has finished. -/
def Done (b : Board L τ) : Prop := ∃ id w, b.writers id = some w ∧ w.rest = []

/-- The cells show that value. -/
def Shows (b : Board L τ) (v : ν) : Prop :=
  ∀ i ∈ L.slots, b.cells (L.cell i) = some (L.entry v i)

/-- Whatever is still to be written says what that value says. -/
def Agrees (b : Board L τ) (v : ν) : Prop :=
  ∀ id w, b.writers id = some w → ∀ i ∈ w.rest, L.entry w.value i = L.entry v i

/-- The cells show that value, or will once everybody has finished. -/
structure Upholds (b : Board L τ) (v : ν) : Prop where
  agrees : b.Agrees v
  cells  : ∀ i ∈ L.slots, b.cells (L.cell i) = some (L.entry v i) ∨
    ∃ id w, b.writers id = some w ∧ i ∈ w.rest

/-- What is upheld is shown once nobody is writing. -/
theorem Upholds.shows {b : Board L τ} {v : ν} (h : b.Upholds v) (hQuiet : b.Quiet) :
    b.Shows v := by
  intro i hi
  rcases h.cells i hi with hShown | ⟨id, w, hWriter, hLeft⟩
  · exact hShown
  · rw [hQuiet id w hWriter] at hLeft
    exact absurd hLeft List.not_mem_nil

theorem Quiet.done {b : Board L τ} {id : τ} (hQuiet : b.Quiet) (h : (b.writers id).isSome) :
    b.Done := by
  obtain ⟨w, hWriter⟩ := Option.isSome_iff_exists.mp h
  exact ⟨id, w, hWriter, hQuiet id w hWriter⟩

theorem quiet_iff_busy {b : Board L τ} : b.Quiet ↔ ∀ id, b.busy id = false := by
  refine forall_congr' fun id => ?_
  cases hWriter : b.writers id <;> simp [busy, hWriter]

-- ---------------------------------------------------------------------------
-- Steps
-- ---------------------------------------------------------------------------

section Take

variable [DecidableEq τ] {b : Board L τ} {id id' : τ} {v : ν}

/-- A writer takes a value. -/
def take (b : Board L τ) (id : τ) (v : ν) : Board L τ :=
  { b with writers := Function.update b.writers id (some (.start L v)) }

@[simp] theorem take_self : (b.take id v).writers id = some (.start L v) :=
  Function.update_self ..

theorem take_of_ne (h : id' ≠ id) : (b.take id v).writers id' = b.writers id' :=
  Function.update_of_ne h ..

/-- A writer that takes a value that all agree on upholds it. -/
theorem Upholds.take (h : b.Agrees v) (id : τ) :
    (b.take id v).Upholds v where
  agrees id' w hWriter i hi := by
    by_cases hSelf : id' = id
    · rw [hSelf, take_self] at hWriter
      rw [← Option.some.inj hWriter]
      rfl
    · rw [take_of_ne hSelf] at hWriter
      exact h id' w hWriter i hi
  cells i hi := .inr ⟨id, .start L v, take_self, hi⟩

end Take

section Write

variable [DecidableEq τ] [DecidableEq κ] {b b' : Board L τ} {id id' : τ} {v : ν} {w : Writer L}
  {i j : ι}

/-- What a write into that slot leaves. -/
def wrote (b : Board L τ) (id : τ) (w : Writer L) (i : ι) : Board L τ where
  cells := Function.update b.cells (L.cell i) (some (L.entry w.value i))
  writers := Function.update b.writers id (some w.next)

/-- A writer writes its next slot. -/
def write (b : Board L τ) (id : τ) : Option (Board L τ) :=
  (b.writers id).bind fun w => w.rest.head?.map (b.wrote id w)

@[simp] theorem wrote_self : (b.wrote id w i).writers id = some w.next := Function.update_self ..

theorem wrote_of_ne (h : id' ≠ id) : (b.wrote id w i).writers id' = b.writers id' :=
  Function.update_of_ne h ..

@[simp] theorem cells_wrote_self :
    (b.wrote id w i).cells (L.cell i) = some (L.entry w.value i) := Function.update_self ..

theorem cells_wrote_of_ne (h : j ≠ i) :
    (b.wrote id w i).cells (L.cell j) = b.cells (L.cell j) :=
  Function.update_of_ne (fun hCell => h (L.cell_injective hCell)) ..

/-- A write takes the next slot of a writer. -/
theorem write_eq_some : b.write id = some b' ↔
    ∃ w i rest, b.writers id = some w ∧ w.rest = i :: rest ∧ b' = b.wrote id w i := by
  rw [write, Option.bind_eq_some_iff]
  refine exists_congr fun w => ?_
  cases hRest : w.rest with
  | nil => simp
  | cons i rest => simp [eq_comm]

/-- A write upholds the same value. -/
theorem Upholds.write (h : b.Upholds v) (hWrite : b.write id = some b') : b'.Upholds v := by
  obtain ⟨w, i, rest, hWriter, hRest, rfl⟩ := write_eq_some.mp hWrite
  have hTail : w.next.rest = rest := congrArg List.tail hRest
  refine ⟨fun id' w' hWriter' j hj => ?_, fun j hj => ?_⟩
  · -- the writer that wrote has one slot less to go; the others are as before
    by_cases hSelf : id' = id
    · rw [hSelf, wrote_self] at hWriter'
      obtain rfl := Option.some.inj hWriter'
      exact h.agrees id w hWriter j (List.mem_of_mem_tail hj)
    · rw [wrote_of_ne hSelf] at hWriter'
      exact h.agrees id' w' hWriter' j hj
  · by_cases hSlot : j = i
    · -- the slot that was just written
      left
      rw [hSlot, cells_wrote_self, h.agrees id w hWriter i (hRest ▸ List.mem_cons_self)]
    · rw [cells_wrote_of_ne hSlot]
      refine (h.cells j hj).imp_right ?_
      rintro ⟨id', w', hWriter', hLeft⟩
      by_cases hSelf : id' = id
      · obtain rfl : w = w' := Option.some.inj (hWriter.symm.trans (hSelf ▸ hWriter'))
        rw [hRest] at hLeft
        have hStill := (List.mem_cons.mp hLeft).resolve_left hSlot
        exact ⟨id, w.next, wrote_self, hTail ▸ hStill⟩
      · exact ⟨id', w', (wrote_of_ne hSelf).trans hWriter', hLeft⟩

/-- No writer is lost. -/
theorem isSome_of_write (hWrite : b.write id = some b') (h : (b.writers id').isSome) :
    (b'.writers id').isSome := by
  obtain ⟨w, i, rest, -, -, rfl⟩ := write_eq_some.mp hWrite
  by_cases hSelf : id' = id
  · rw [hSelf, wrote_self]
    rfl
  · rwa [wrote_of_ne hSelf]

theorem isSome_of_run {ids : List τ} (hRun : run write b ids = some b')
    (h : (b.writers id).isSome) : (b'.writers id).isSome :=
  reachable_invariant (I := fun b => (b.writers id).isSome) h
    (fun _ _ _ hHere hStep => isSome_of_write hStep hHere) ⟨ids, hRun⟩

end Write

-- ---------------------------------------------------------------------------
-- What some order of the writes leaves
-- ---------------------------------------------------------------------------

/-- These slots were written, of each that value last, and no others. -/
structure Overwrites (b b' : Board L τ) (slots : List ι) (value : ι → ν) : Prop where
  written : ∀ i ∈ slots, b'.cells (L.cell i) = some (L.entry (value i) i)
  kept    : ∀ i ∉ slots, b'.cells (L.cell i) = b.cells (L.cell i)

theorem Overwrites.nil {b : Board L τ} {value : ι → ν} : Overwrites b b [] value where
  written _ hi := absurd hi List.not_mem_nil
  kept _ _ := rfl

/-- Slots that are written one after the other. -/
theorem Overwrites.cons {b m b' : Board L τ} {i : ι} {rest : List ι} {value : ι → ν}
    (hFirst : Overwrites b m [i] value) (hThen : Overwrites m b' rest value) (hNew : i ∉ rest) :
    Overwrites b b' (i :: rest) value where
  written j hj := by
    rcases List.mem_cons.mp hj with rfl | hLater
    · rw [hThen.kept j hNew]
      exact hFirst.written j (List.mem_singleton_self j)
    · exact hThen.written j hLater
  kept j hj := by
    rw [List.mem_cons, not_or] at hj
    rw [hThen.kept j hj.2]
    exact hFirst.kept j (fun h => hj.1 (List.mem_singleton.mp h))

/-- These writers have finished, and no others have moved. -/
structure Finishes (b b' : Board L τ) (ids : List τ) : Prop where
  finished : ∀ id ∈ ids, b'.busy id = false
  others   : ∀ id ∉ ids, b'.writers id = b.writers id

theorem busy_congr {b b' : Board L τ} {id : τ} (h : b'.writers id = b.writers id) :
    b'.busy id = b.busy id := by
  rw [busy, busy, h]

/-- Writers that finish one after the other. -/
theorem Finishes.trans {b m b' : Board L τ} {ids ids' : List τ} (hFirst : Finishes b m ids)
    (hThen : Finishes m b' ids') : Finishes b b' (ids ++ ids') where
  finished id hId := by
    by_cases hLater : id ∈ ids'
    · exact hThen.finished id hLater
    · rw [busy_congr (hThen.others id hLater)]
      exact hFirst.finished id ((List.mem_append.mp hId).resolve_right hLater)
  others id hId := by
    rw [List.mem_append, not_or] at hId
    exact (hThen.others id hId.2).trans (hFirst.others id hId.1)

/-- Nobody is writing when everybody who was has finished. -/
theorem Finishes.quiet {b b' : Board L τ} {ids : List τ} (h : Finishes b b' ids)
    (hBusy : ∀ id, b.busy id = true → id ∈ ids) : b'.Quiet := by
  refine quiet_iff_busy.mpr fun id => ?_
  by_cases hMem : id ∈ ids
  · exact h.finished id hMem
  · rw [busy_congr (h.others id hMem)]
    exact Bool.eq_false_iff.mpr fun hStill => hMem (hBusy id hStill)

section Schedules

variable [DecidableEq τ] [DecidableEq κ]

/-- A writer writes its next slots. -/
theorem exists_writes {b : Board L τ} {id : τ} {w : Writer L} (hWriter : b.writers id = some w)
    {slots rest : List ι} (hRest : w.rest = slots ++ rest) :
    ∃ (w' : Writer L) (b' : Board L τ),
      run write b (List.replicate slots.length id) = some b' ∧
      b'.writers = Function.update b.writers id (some w') ∧ w'.value = w.value ∧
      w'.rest = rest ∧ Overwrites b b' slots fun _ => w.value := by
  induction slots generalizing b w with
  | nil =>
    refine ⟨w, b, rfl, ?_, rfl, hRest, .nil⟩
    rw [← hWriter, Function.update_eq_self]
  | cons i slots ih =>
    have hStep : b.write id = some (b.wrote id w i) :=
      write_eq_some.mpr ⟨w, i, _, hWriter, hRest, rfl⟩
    have hTail : w.next.rest = slots ++ rest := congrArg List.tail hRest
    -- no slot is written twice
    have hNew : i ∉ slots := by
      have hNodup := L.slots_nodup.sublist w.suffix.sublist
      rw [hRest, List.cons_append, List.nodup_cons] at hNodup
      exact fun hi => hNodup.1 (List.mem_append_left _ hi)
    obtain ⟨w', b', hRun, hWriters, hValue, hLeft, hCells⟩ := ih wrote_self hTail
    refine ⟨w', b', run_cons_eq_some.mpr ⟨_, hStep, hRun⟩, ?_, hValue, hLeft,
      .cons ⟨fun j hj => ?_, fun j hj => ?_⟩ hCells hNew⟩
    · rw [hWriters]
      exact Function.update_idem ..
    · rw [List.mem_singleton.mp hj, cells_wrote_self]
    · exact cells_wrote_of_ne fun h => hj (List.mem_singleton.mpr h)

/-- A writer finishes. -/
theorem exists_finish (b : Board L τ) (id : τ) :
    ∃ ids b', run write b ids = some b' ∧ Finishes b b' [id] := by
  cases hWriter : b.writers id with
  | none =>
    refine ⟨[], b, rfl, fun id' hId => ?_, fun _ _ => rfl⟩
    rw [List.mem_singleton.mp hId, busy, hWriter]
    rfl
  | some w =>
    obtain ⟨w', b', hRun, hWriters, -, hLeft, -⟩ :=
      exists_writes hWriter (List.append_nil w.rest).symm
    refine ⟨_, b', hRun, fun id' hId => ?_, fun id' hId => ?_⟩
    · rw [List.mem_singleton.mp hId, busy, hWriters, Function.update_self]
      simp [hLeft]
    · rw [hWriters, Function.update_of_ne fun h => hId (List.mem_singleton.mpr h)]

/-- Any writers can finish, one after the other. -/
theorem exists_finishes (b : Board L τ) (ids : List τ) :
    ∃ writes b', run write b writes = some b' ∧ Finishes b b' ids := by
  induction ids generalizing b with
  | nil => exact ⟨[], b, rfl, fun _ hId => absurd hId List.not_mem_nil, fun _ _ => rfl⟩
  | cons id ids ih =>
    obtain ⟨first, m, hFirst, hFinishes⟩ := exists_finish b id
    obtain ⟨rest, b', hRest, hThen⟩ := ih m
    exact ⟨first ++ rest, b', run_trans hFirst hRest, hFinishes.trans hThen⟩

/-- Two writers write the same slot, one right after the other. -/
theorem exists_pair {b : Board L τ} {id id' : τ} (hOther : id ≠ id') {w w' : Writer L}
    (hWriter : b.writers id = some w) (hWriter' : b.writers id' = some w') {i : ι}
    {rest rest' : List ι} (hRest : w.rest = i :: rest) (hRest' : w'.rest = i :: rest') :
    ∃ m, run write b [id, id'] = some m ∧ m.writers id = some w.next ∧
      m.writers id' = some w'.next ∧ (∀ j, j ≠ id → j ≠ id' → m.writers j = b.writers j) ∧
      Overwrites b m [i] fun _ => w'.value := by
  have hFirst : b.write id = some (b.wrote id w i) :=
    write_eq_some.mpr ⟨w, i, rest, hWriter, hRest, rfl⟩
  have hSecond : (b.wrote id w i).write id' = some ((b.wrote id w i).wrote id' w' i) :=
    write_eq_some.mpr ⟨w', i, rest', (wrote_of_ne hOther.symm).trans hWriter', hRest', rfl⟩
  refine ⟨(b.wrote id w i).wrote id' w' i,
    run_cons_eq_some.mpr ⟨_, hFirst, run_cons_eq_some.mpr ⟨_, hSecond, rfl⟩⟩,
    (wrote_of_ne hOther).trans wrote_self, wrote_self, fun j hId hId' => ?_,
    fun j hj => ?_, fun j hj => ?_⟩
  · rw [wrote_of_ne hId', wrote_of_ne hId]
  · rw [List.mem_singleton.mp hj, cells_wrote_self]
  · -- any other cell is left alone by both
    have hSlot : j ≠ i := fun h => hj (List.mem_singleton.mpr h)
    rw [cells_wrote_of_ne hSlot, cells_wrote_of_ne hSlot]

/-- **Any mix of two values.** Two writers that have the same slots left can
finish so that in each slot the one that `late` chooses is the last to
write. -/
theorem exists_mix {b : Board L τ} {id id' : τ} (hOther : id ≠ id') {w w' : Writer L}
    (hWriter : b.writers id = some w) (hWriter' : b.writers id' = some w')
    (hSame : w'.rest = w.rest) (late : ι → Bool) :
    ∃ ids b', run write b ids = some b' ∧ Finishes b b' [id, id'] ∧
      Overwrites b b' w.rest fun i => if late i then w.value else w'.value := by
  induction hRest : w.rest generalizing b w w' with
  | nil =>
    -- both have written all their slots
    refine ⟨[], b, rfl, ⟨fun j hj => ?_, fun _ _ => rfl⟩, .nil⟩
    rcases List.mem_pair.mp hj with rfl | rfl
    · simp [busy, hWriter, hRest]
    · simp [busy, hWriter', hSame, hRest]
  | cons i rest ih =>
    have hRest' : w'.rest = i :: rest := hSame.trans hRest
    -- both write the next slot, the one that is to show there second
    obtain ⟨ids, m, hRun, hNext, hNext', hOthers, hSlot⟩ : ∃ ids m, run write b ids = some m ∧
        m.writers id = some w.next ∧ m.writers id' = some w'.next ∧
        (∀ j, j ≠ id → j ≠ id' → m.writers j = b.writers j) ∧
        Overwrites b m [i] fun i => if late i then w.value else w'.value := by
      cases hLate : late i with
      | true =>
        obtain ⟨m, hRun, hNext', hNext, hOthers, hSlot⟩ :=
          exists_pair hOther.symm hWriter' hWriter hRest' hRest
        refine ⟨_, m, hRun, hNext, hNext', fun j h h' => hOthers j h' h, fun j hj => ?_, hSlot.kept⟩
        rw [hSlot.written j hj, List.mem_singleton.mp hj, if_pos hLate]
      | false =>
        obtain ⟨m, hRun, hNext, hNext', hOthers, hSlot⟩ :=
          exists_pair hOther hWriter hWriter' hRest hRest'
        refine ⟨_, m, hRun, hNext, hNext', hOthers, fun j hj => ?_, hSlot.kept⟩
        rw [hSlot.written j hj, List.mem_singleton.mp hj, if_neg (by simp [hLate])]
    have hLeft : w.next.rest = rest := congrArg List.tail hRest
    have hLeft' : w'.next.rest = w.next.rest := (congrArg List.tail hRest').trans hLeft.symm
    -- the rest of the run does not touch this slot again
    have hNew : i ∉ rest := by
      have hNodup := L.slots_nodup.sublist w.suffix.sublist
      rw [hRest, List.nodup_cons] at hNodup
      exact hNodup.1
    obtain ⟨ids', b', hRun', hFinishes, hCells⟩ := ih hNext hNext' hLeft' hLeft
    refine ⟨ids ++ ids', b', run_trans hRun hRun', ⟨hFinishes.finished, fun j hj => ?_⟩,
      hSlot.cons hCells hNew⟩
    rw [hFinishes.others j hj]
    rw [List.mem_pair, not_or] at hj
    exact hOthers j hj.1 hj.2

/--
**Overtaken.** A writer has some slots left when another one starts with all of
them. If only the writers in `ids` are busy besides, everybody can finish so
that in the slots that were left the one that `late` chooses is the last to
write, and the other writer in the rest.
-/
theorem exists_overlap [DecidableEq ι] {b : Board L τ} {id id' : τ} (hOther : id ≠ id')
    {w w' : Writer L} (hWriter : b.writers id = some w) (hWriter' : b.writers id' = some w')
    (hStart : w'.rest = L.slots) {ids : List τ} (hBusy : ∀ j, b.busy j = true → j ∈ ids)
    (late : ι → Bool) :
    ∃ writes b', run write b writes = some b' ∧ b'.Quiet ∧ ∀ i ∈ L.slots,
      b'.cells (L.cell i) =
        some (L.entry (if i ∈ w.rest ∧ late i then w.value else w'.value) i) := by
  -- everybody else finishes first
  obtain ⟨first, b₁, hFirst, hOthers⟩ :=
    exists_finishes b (ids.filter fun j => decide (j ≠ id ∧ j ≠ id'))
  have hWriter₁ : b₁.writers id = some w := (hOthers.others id (by simp)).trans hWriter
  have hWriter₁' : b₁.writers id' = some w' := (hOthers.others id' (by simp)).trans hWriter'
  -- then the later writer catches up
  obtain ⟨done, hSlots⟩ := w.suffix
  obtain ⟨v, b₂, hSecond, hWriters, hValue, hLeft, hDone⟩ :=
    exists_writes hWriter₁' (hStart.trans hSlots.symm)
  have hWriter₂ : b₂.writers id = some w := by
    rw [hWriters, Function.update_of_ne hOther, hWriter₁]
  have hWriter₂' : b₂.writers id' = some v := by
    rw [hWriters, Function.update_self]
  -- and the two write the slots left in turn
  obtain ⟨third, b₃, hThird, hLast, hMix⟩ := exists_mix hOther hWriter₂ hWriter₂' hLeft late
  have hBoth : Finishes b₁ b₃ [id, id'] := by
    refine ⟨hLast.finished, fun j hj => ?_⟩
    rw [hLast.others j hj, hWriters, Function.update_of_ne fun h => hj (by simp [h])]
  refine ⟨first ++ (_ ++ third), b₃, run_trans hFirst (run_trans hSecond hThird), ?_,
    fun i hi => ?_⟩
  · refine (hOthers.trans hBoth).quiet fun j hStill => ?_
    have hMem := hBusy j hStill
    by_cases hPair : j = id ∨ j = id'
    · exact List.mem_append_right _ (List.mem_pair.mpr hPair)
    · rw [not_or] at hPair
      exact List.mem_append_left _ (List.mem_filter.mpr ⟨hMem, by simpa using hPair⟩)
  · -- a slot that the first had still to write is mixed; any other shows the later writer
    by_cases hMem : i ∈ w.rest
    · rw [hMix.written i hMem, hValue]
      simp [hMem]
    · have hBefore : i ∈ done := by
        rw [← hSlots] at hi
        exact (List.mem_append.mp hi).resolve_right hMem
      rw [hMix.kept i hMem, hDone.written i hBefore, if_neg fun h => hMem h.1]

end Schedules

end Board

end Snapshot
