import Mathlib.Data.List.Nodup
import Mathlib.Data.List.Perm.Basic
import Mathlib.Data.List.Range

/-! A window of a table: the entries from a place on. Removing an entry by moving the
last one of the window into its place permutes what is left. -/

namespace UnixProgramming.Lib
universe u v
variable {α : Type u}

def window (table : Int → α) (start : Int) (count : Nat) : List α :=
  (List.range count).map fun offset : Nat => table (start + offset)

@[simp] theorem window_zero (table : Int → α) (start : Int) : window table start 0 = [] := rfl

@[simp] theorem length_window (table : Int → α) (start : Int) (count : Nat) :
    (window table start count).length = count := by
  simp [window]

theorem window_succ (table : Int → α) (start : Int) (count : Nat) :
    window table start (count + 1) = window table start count ++ [table (start + count)] := by
  simp [window, List.range_succ]

theorem window_cons (table : Int → α) (start : Int) (count : Nat) :
    window table start (count + 1) = table start :: window table (start + 1) count := by
  simp only [window, List.range_succ_eq_map, List.map_cons, List.map_map]
  congr 1
  · simp
  · apply List.map_congr_left
    intro offset _
    simp only [Function.comp_apply]
    congr 1
    omega

theorem mem_window {table : Int → α} {start : Int} {count : Nat} {entry : α} :
    entry ∈ window table start count ↔ ∃ place, start ≤ place ∧ place < start + count ∧ table place = entry := by
  simp only [window, List.mem_map, List.mem_range]
  constructor
  · rintro ⟨offset, below, same⟩
    exact ⟨start + offset, by omega, by omega, same⟩
  · rintro ⟨place, above, below, same⟩
    refine ⟨(place - start).toNat, by omega, ?_⟩
    rw [Int.toNat_of_nonneg (by omega), ← same]
    congr 1
    omega

theorem map_window {β : Type v} (f : α → β) (table : Int → α) (start : Int) (count : Nat) :
    (window table start count).map f = window (fun place => f (table place)) start count := by
  simp only [window, List.map_map]
  rfl

/-- In a window without repetitions an entry has one place. -/
theorem place_unique {table : Int → α} {start : Int} {count : Nat} (distinct : (window table start count).Nodup)
    {place other : Int} (above : start ≤ place) (below : place < start + count) (otherAbove : start ≤ other)
    (otherBelow : other < start + count) (same : table place = table other) : place = other := by
  have offsets := List.inj_on_of_nodup_map distinct (List.mem_range.mpr (by omega : (place - start).toNat < count))
    (List.mem_range.mpr (by omega : (other - start).toNat < count))
  rw [Int.toNat_of_nonneg (by omega), Int.toNat_of_nonneg (by omega), show start + (place - start) = place by omega,
    show start + (other - start) = other by omega] at offsets
  have equal := offsets same
  omega

theorem window_congr {table other : Int → α} {start : Int} {count : Nat}
    (same : ∀ place, start ≤ place → place < start + count → table place = other place) :
    window table start count = window other start count := by
  apply List.map_congr_left
  intro offset member
  have below := List.mem_range.mp member
  exact same _ (by omega) (by omega)

/-- An entry inside the window is replaced. -/
theorem window_update (table : Int → α) (start : Int) {count offset : Nat} (entry : α) :
    window (Function.update table (start + offset) entry) start count = (window table start count).set offset entry := by
  apply List.ext_getElem
  · simp
  · intro index below _
    simp only [window, List.getElem_map, List.getElem_range, List.getElem_set, Function.update_apply]
    by_cases here : offset = index
    · simp [here]
    · rw [if_neg (by omega), if_neg here]

/-- The last entry of the window moves to the place of a removed one. -/
theorem window_remove (table : Int → α) (start : Int) {count offset : Nat} (inside : offset ≤ count) :
    (table (start + offset) ::
      window (Function.update table (start + offset) (table (start + count))) start count).Perm
      (window table start (count + 1)) := by
  rw [window_update, window_succ]
  rcases Nat.lt_or_eq_of_le inside with before | rfl
  · have bound : offset < (window table start count).length := by simpa using before
    have here : (window table start count)[offset] = table (start + offset) := by simp [window]
    calc table (start + offset) :: (window table start count).set offset (table (start + count))
      _ |>.Perm (table (start + offset) :: table (start + count) :: (window table start count).eraseIdx offset) :=
        (List.set_perm_cons_eraseIdx bound _).cons _
      _ |>.Perm (table (start + count) :: table (start + offset) :: (window table start count).eraseIdx offset) :=
        .swap _ _ _
      _ |>.Perm (table (start + count) :: window table start count) :=
        (here ▸ List.getElem_cons_eraseIdx_perm bound).cons _
      _ |>.Perm (window table start count ++ [table (start + count)]) := (List.perm_append_singleton _ _).symm
  · rw [List.set_eq_of_length_le (by simp)]
    exact (List.perm_append_singleton _ _).symm

end UnixProgramming.Lib
