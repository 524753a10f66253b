import Mathlib.Data.List.Sort
import Mathlib.Order.Basic

/-! Stable insertion into a sequence kept in ascending order of a key: the new
element goes after every element whose key is less than or equal to its own. -/

namespace UnixProgramming.Lib
universe u v
variable {α : Type u} {ι : Type v} [LinearOrder ι] (key : α → ι)

def stableInsert (item : α) (items : List α) : List α :=
  items.orderedInsert (fun new old => key new < key old) item

def Ascending (items : List α) : Prop := items.Pairwise fun left right => key left ≤ key right

variable {key}

theorem mem_stableInsert {item other : α} {items : List α} :
    other ∈ stableInsert key item items ↔ other = item ∨ other ∈ items :=
  List.mem_orderedInsert _

variable (key) in
theorem stableInsert_perm (item : α) (items : List α) :
    (stableInsert key item items).Perm (item :: items) :=
  List.perm_orderedInsert _ item items

theorem stableInsert_of_lt {item head : α} (smaller : key item < key head) (rest : List α) :
    stableInsert key item (head :: rest) = item :: head :: rest :=
  List.orderedInsert_cons_of_le _ rest smaller

theorem stableInsert_of_le {item head : α} (later : key head ≤ key item) (rest : List α) :
    stableInsert key item (head :: rest) = head :: stableInsert key item rest :=
  List.orderedInsert_of_not_le _ rest later.not_gt

/-- Elements that are not larger stay in front, in their order. -/
theorem stableInsert_append {item : α} {left : List α} (later : ∀ other ∈ left, key other ≤ key item)
    (right : List α) :
    stableInsert key item (left ++ right) = left ++ stableInsert key item right := by
  induction left with
  | nil => rfl
  | cons head rest ih =>
    rw [List.cons_append, stableInsert_of_le (later head (by simp)),
      ih (fun other member => later other (by simp [member])), List.cons_append]

theorem stableInsert_ascending (item : α) {items : List α} (sorted : Ascending key items) :
    Ascending key (stableInsert key item items) := by
  induction items with
  | nil => exact List.pairwise_singleton _ item
  | cons head rest ih =>
    obtain ⟨headLe, restSorted⟩ := List.pairwise_cons.mp sorted
    rcases lt_or_ge (key item) (key head) with smaller | later
    · rw [stableInsert_of_lt smaller]
      refine List.pairwise_cons.mpr ⟨?_, sorted⟩
      intro other member
      rcases List.mem_cons.mp member with same | inRest
      · exact same ▸ smaller.le
      · exact smaller.le.trans (headLe other inRest)
    · rw [stableInsert_of_le later]
      refine List.pairwise_cons.mpr ⟨?_, ih restSorted⟩
      intro other member
      rcases mem_stableInsert.mp member with same | inRest
      · exact same ▸ later
      · exact headLe other inRest

end UnixProgramming.Lib
