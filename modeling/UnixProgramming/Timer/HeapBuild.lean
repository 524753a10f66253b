import UnixProgramming.Timer.TimeHeap

/-! The constructor of `time_heap` from an array. `percolate_down` stops at
`cur_size - 1`, so the last timer takes no part in the construction. -/

namespace UnixProgramming.Timer

open UnixProgramming.Lib

namespace TimeHeap

theorem percolateAll_live {timers : Timers} {count : Nat} {used : List (Option Nat)} (rest : List (Option Nat))
    (live : ∀ pointer ∈ used, Live timers pointer) (small : count ≤ used.length) :
    percolateAll timers count ⟨used ++ rest, used.length⟩ =
      some ⟨BinaryHeap.build (expireAt timers) (used.length - 1) count used ++ rest, used.length⟩ := by
  induction count generalizing used with
  | zero => rfl
  | succ count ih =>
    have alive : ∀ index, index < used.length → Live timers (BinaryHeap.entry (used ++ rest) index) := by
      intro index inside
      rw [BinaryHeap.entry_append used rest inside]
      exact live_entry live inside
    have first := @percolateDown_live timers ⟨used ++ rest, used.length⟩ count (by simp [capacity]; omega)
      (by simp [capacity]; omega) fun index _ inside => alive index (by simp at inside; omega)
    simp only [BinaryHeap.entry_append used rest small,
      BinaryHeap.siftDown_append rest (Nat.sub_le used.length 1) small] at first
    have sifted : (BinaryHeap.siftDown (expireAt timers) (used.length - 1) (BinaryHeap.entry used count) used
        count).Perm used :=
      (BinaryHeap.siftDown_perm (Nat.sub_le _ 1) small).trans (by rw [BinaryHeap.set_entry])
    have later := ih (fun pointer member => live pointer (sifted.mem_iff.mp member)) (by simp; omega)
    rw [BinaryHeap.siftDown_length] at later
    rw [percolateAll, first]
    exact later

/-- The constructor makes a heap of all timers but the last, which stays where it is. -/
theorem ofArray_concat {timers : Timers} {front : List (Option Nat)} {last : Option Nat} {capacity : Nat}
    (live : ∀ pointer ∈ front ++ [last], Live timers pointer) (room : front.length + 1 ≤ capacity) :
    ofArray timers (front ++ [last]) (front.length + 1) capacity =
      some (some ⟨BinaryHeap.heapify (expireAt timers) front ++ [last] ++
        List.replicate (capacity - (front.length + 1)) none, front.length + 1⟩) := by
  have whole : (front ++ [last]).length = front.length + 1 := by simp
  have built := @percolateAll_live timers (front.length / 2 + 1) (front ++ [last])
    (List.replicate (capacity - (front.length + 1)) none) live (by omega)
  rw [BinaryHeap.build_leaf (by omega), BinaryHeap.build_append [last] (by omega) (by omega), whole] at built
  rw [ofArray, if_neg (by omega), if_neg (by omega), if_pos (by omega), List.take_of_length_le (by omega)]
  simp only [Nat.add_sub_cancel]
  rw [built]
  rfl

/-- The constructor yields a heap of exactly the timers of the array, with one
that takes effect first on top. -/
def BuildsHeap (timers : Timers) (initArray : List (Option Nat)) (size capacity : Nat) : Prop :=
  ∃ heap, ofArray timers initArray size capacity = some (some heap) ∧ heap.curSize = size ∧
    heap.entries.Perm initArray ∧ Valid timers heap ∧
    ∃ first, heap.top = some first ∧ ∀ pointer ∈ initArray, expireAt timers first ≤ expireAt timers pointer

theorem Valid.top_le {timers : Timers} {heap : TimeHeap} (valid : Valid timers heap) :
    ∃ first, heap.top = some first ∧ ∀ pointer ∈ heap.entries, expireAt timers first ≤ expireAt timers pointer := by
  by_cases unused : heap.curSize = 0
  · refine ⟨none, by simp [top, empty, unused], fun pointer member => ?_⟩
    simp [entries, unused] at member
  · have inside : 0 < heap.array.length := Nat.lt_of_lt_of_le (Nat.pos_of_ne_zero unused) valid.size
    refine ⟨BinaryHeap.entry heap.array 0, by simp [top, empty, unused, getElem?_entry inside], ?_⟩
    intro pointer member
    obtain ⟨index, below, rfl⟩ := (mem_entries valid.size).mp member
    exact valid.ordered.root_le index below

theorem builds_concat_iff {timers : Timers} {front : List (Option Nat)} {last : Option Nat} {capacity : Nat}
    (live : ∀ pointer ∈ front ++ [last], Live timers pointer) (room : front.length + 1 ≤ capacity) :
    BuildsHeap timers (front ++ [last]) (front.length + 1) capacity ↔
      (0 < front.length → expireAt timers (BinaryHeap.entry (BinaryHeap.heapify (expireAt timers) front)
        ((front.length - 1) / 2)) ≤ expireAt timers last) := by
  have built := ofArray_concat live room
  have order := BinaryHeap.heapify_ordered (expireAt timers) front
  have moved := BinaryHeap.heapify_perm (expireAt timers) front
  generalize BinaryHeap.heapify (expireAt timers) front = heaped at *
  generalize List.replicate (capacity - (front.length + 1)) (none : Option Nat) = nulls at built
  have permuted : (heaped ++ [last]).Perm (front ++ [last]) := moved.append_right [last]
  rw [← moved.length_eq] at built order ⊢
  rw [show heaped.length + 1 = (heaped ++ [last]).length by simp] at built ⊢
  have valid_iff := @valid_append_iff timers (heaped ++ [last]) nulls
  rw [List.length_append, List.length_singleton, BinaryHeap.ordered_concat_iff] at valid_iff
  constructor
  · rintro ⟨heap, result, -, -, valid, -⟩
    obtain rfl := Option.some.inj (Option.some.inj (built.symm.trans result))
    exact (valid_iff.mp (by simpa using valid)).2.2
  · intro fits
    have valid : Valid timers ⟨heaped ++ [last] ++ nulls, (heaped ++ [last]).length⟩ := by
      rw [List.length_append, List.length_singleton]
      exact valid_iff.mpr ⟨fun pointer member => live pointer (permuted.mem_iff.mp member), order, fits⟩
    obtain ⟨first, found, least⟩ := valid.top_le
    rw [entries_append] at least
    refine ⟨_, built, rfl, by rw [entries_append]; exact permuted, valid, first, found, fun pointer member => ?_⟩
    exact least pointer (permuted.mem_iff.mpr member)

/-- The constructor builds a heap exactly when the timer that the construction
from all timers but the last puts above the last one does not take effect later. -/
theorem ofArray_builds_iff (timers : Timers) (initArray : List (Option Nat)) (capacity : Nat)
    (live : ∀ pointer ∈ initArray, Live timers pointer) (room : initArray.length ≤ capacity) :
    BuildsHeap timers initArray initArray.length capacity ↔
      (1 < initArray.length →
        expireAt timers (BinaryHeap.entry (BinaryHeap.heapify (expireAt timers) initArray.dropLast)
          ((initArray.length - 2) / 2)) ≤
        expireAt timers (BinaryHeap.entry initArray (initArray.length - 1))) := by
  rcases List.eq_nil_or_concat' initArray with rfl | ⟨front, last, rfl⟩
  · refine iff_of_true ⟨ofCapacity capacity, rfl, rfl, by simp [entries, ofCapacity], ?_, none, rfl, by simp⟩ (by simp)
    exact ⟨Nat.zero_le _, by simp [entries, ofCapacity], fun index _ inside => absurd inside (Nat.not_lt_zero _)⟩
  · have whole : (front ++ [last]).length = front.length + 1 := by simp
    rw [whole] at room ⊢
    rw [builds_concat_iff live room, List.dropLast_concat, Nat.add_sub_cancel, BinaryHeap.entry_append_length]
    rw [show front.length + 1 - 2 = front.length - 1 by omega]
    simp

theorem ofArray_builds_three :
    (∀ pointer ∈ [some 0, some 1, some 2], Live (timersAt [5, 2, 7]) pointer) ∧
      BuildsHeap (timersAt [5, 2, 7]) [some 0, some 1, some 2] 3 4 := by
  have live : ∀ pointer ∈ [some 0, some 1, some 2], Live (timersAt [5, 2, 7]) pointer := by
    simp [Live, deref, timersAt]
  have fits := (ofArray_builds_iff (timersAt [5, 2, 7]) [some 0, some 1, some 2] 4 live (by decide)).mpr
    (by decide +kernel)
  exact ⟨live, fits⟩

/-- Two timers with the one that takes effect first at the end are left as they are. -/
theorem reversed_pair_not_built :
    (∀ pointer ∈ [some 0, some 1], Live (timersAt [2, 1]) pointer) ∧
      ¬BuildsHeap (timersAt [2, 1]) [some 0, some 1] 2 2 := by
  refine ⟨by simp [Live, deref, timersAt], ?_⟩
  rintro ⟨heap, built, -, -, valid, -⟩
  have result : ofArray (timersAt [2, 1]) [some 0, some 1] 2 2 = some (some ⟨[some 0, some 1], 2⟩) := by
    decide +kernel
  obtain rfl := Option.some.inj (Option.some.inj (result.symm.trans built))
  exact absurd (valid.ordered.parent Nat.one_pos (by decide)) (by decide)

end TimeHeap

end UnixProgramming.Timer
