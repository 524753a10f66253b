import Mathlib.Data.List.Perm.Basic
import Mathlib.Order.Basic

/-! Merging any number of ordered runs by always taking the least of their heads. The
relation leaves open how it is found and which of several equal heads is taken. -/

namespace UnixProgramming.Lib

universe u
variable {α : Type u}

/-- The list comes out of the runs, least head first. -/
inductive Merges [LE α] : List (List α) → List α → Prop where
  | done {runs : List (List α)} (empty : ∀ run ∈ runs, run = []) : Merges runs []
  | take {runs : List (List α)} {index : Nat} {head : α} {rest merged : List α}
      (found : runs[index]? = some (head :: rest)) (least : ∀ run ∈ runs, ∀ first ∈ run.head?, head ≤ first)
      (later : Merges (runs.set index rest) merged) : Merges runs (head :: merged)

/-- Taking the head of a run takes it out of all elements. -/
theorem flatten_take {runs : List (List α)} {index : Nat} {head : α} {rest : List α}
    (found : runs[index]? = some (head :: rest)) : (head :: (runs.set index rest).flatten).Perm runs.flatten := by
  induction runs generalizing index with
  | nil => cases found
  | cons run runs ih =>
    cases index with
    | zero =>
      obtain rfl := Option.some.inj found
      exact .refl _
    | succ index =>
      rw [List.set_cons_succ, List.flatten_cons, List.flatten_cons]
      exact List.perm_middle.symm.trans ((ih found).append_left run)

namespace Merges
variable {runs : List (List α)} {merged : List α}

theorem perm [LE α] (merges : Merges runs merged) : merged.Perm runs.flatten := by
  induction merges with
  | done empty => rw [List.flatten_eq_nil_iff.mpr empty]
  | take found least later ih => exact (ih.cons _).trans (flatten_take found)

theorem sorted [Preorder α] (merges : Merges runs merged) (ordered : ∀ run ∈ runs, run.Pairwise (· ≤ ·)) :
    merged.Pairwise (· ≤ ·) := by
  induction merges with
  | done => exact .nil
  | @take runs index head rest merged found least later ih =>
    have taken := ordered _ (List.mem_of_getElem? found)
    refine List.pairwise_cons.mpr ⟨fun value member => ?_, ih fun run inside => ?_⟩
    · have anywhere : value ∈ runs.flatten :=
        (flatten_take found).subset (List.mem_cons_of_mem head (later.perm.subset member))
      obtain ⟨run, inRuns, inRun⟩ := List.mem_flatten.mp anywhere
      cases run with
      | nil => cases inRun
      | cons first others =>
        have low := least _ inRuns first rfl
        rcases List.mem_cons.mp inRun with rfl | behind
        · exact low
        · exact le_trans low ((List.pairwise_cons.mp (ordered _ inRuns)).1 value behind)
    · rcases List.mem_or_eq_of_mem_set inside with old | rfl
      · exact ordered run old
      · exact (List.pairwise_cons.mp taken).2

end Merges
end UnixProgramming.Lib
