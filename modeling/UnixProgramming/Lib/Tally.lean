import Mathlib.Algebra.Order.BigOperators.Group.Finset
import Mathlib.Data.Fintype.BigOperators

/-! Totals over the parts of a concurrent state. A step changes one part, so it changes
a total by what that part weighs before and after. -/

namespace UnixProgramming.Lib
universe u v
variable {Index : Type u} {Part : Type v} [Fintype Index]

/-- The total weight of all parts. -/
def tally (weight : Part → Nat) (parts : Index → Part) : Nat := ∑ index, weight (parts index)

theorem tally_update [DecidableEq Index] (weight : Part → Nat) (parts : Index → Part) (index : Index)
    (part : Part) :
    tally weight (Function.update parts index part) + weight (parts index) =
      tally weight parts + weight part := by
  have others : ∑ other ∈ Finset.univ.erase index, weight (Function.update parts index part other) =
      ∑ other ∈ Finset.univ.erase index, weight (parts other) := by
    apply Finset.sum_congr rfl
    intro other member
    rw [Function.update_of_ne (Finset.ne_of_mem_erase member)]
  have before := Finset.add_sum_erase Finset.univ (fun other => weight (parts other)) (Finset.mem_univ index)
  have after := Finset.add_sum_erase Finset.univ
    (fun other => weight (Function.update parts index part other)) (Finset.mem_univ index)
  simp only [Function.update_self] at after
  unfold tally
  omega

theorem weight_le_tally (weight : Part → Nat) (parts : Index → Part) (index : Index) :
    weight (parts index) ≤ tally weight parts :=
  Finset.single_le_sum (f := fun other => weight (parts other)) (fun _ _ => Nat.zero_le _) (Finset.mem_univ index)

theorem tally_eq_zero {weight : Part → Nat} {parts : Index → Part} :
    tally weight parts = 0 ↔ ∀ index, weight (parts index) = 0 := by
  simp [tally]

/-- With at most one for each part, the number of parts is reached only by one for each. -/
theorem tally_full {weight : Part → Nat} (atMost : ∀ part, weight part ≤ 1) {parts : Index → Part}
    (full : tally weight parts = Fintype.card Index) (index : Index) : weight (parts index) = 1 := by
  have whole : ∑ index, weight (parts index) = ∑ _index : Index, 1 := by
    rw [← Finset.card_eq_sum_ones, Finset.card_univ]
    exact full
  exact (Finset.sum_eq_sum_iff_of_le fun index _ => atMost (parts index)).mp whole index (Finset.mem_univ index)

end UnixProgramming.Lib
