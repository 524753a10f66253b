import UnixProgramming.Timer.TimeHeap

/-! What one `percolate_down` does to the subtree of its hole. All of it is about the entries
below `cur_size - 1`, where the loop stops. -/

namespace UnixProgramming.Timer

open UnixProgramming.Lib

namespace TimeHeap

/-- `percolate_down` returns if the entries it may look at lead to timers. It takes the entries
of the subtree to other places of it and leaves the others; and with the timers of every node
but the hole in order, it brings the hole into order and keeps the rest. -/
theorem percolateDown_sifts (timers : Timers) (heap : TimeHeap) (size : heap.curSize ≤ heap.capacity) (hole : Nat)
    (inside : hole < heap.curSize) :
    ((∀ index, BinaryHeap.Subtree hole index → index < heap.curSize - 1 →
        Live timers (BinaryHeap.entry heap.array index)) →
      ∃ result, percolateDown timers heap hole = some result) ∧
    ∀ result, percolateDown timers heap hole = some result →
      result.curSize = heap.curSize ∧
      (∃ places : Equiv.Perm Nat,
        (∀ index, places index ≠ index → BinaryHeap.Subtree hole index ∧ index < heap.curSize) ∧
        ∀ index, result.array[index]? = heap.array[places index]?) ∧
      ((∀ node, BinaryHeap.Subtree hole node → node ≠ hole → node < heap.curSize - 1 →
          BinaryHeap.NodeOrdered (expireAt timers) (heap.curSize - 1) heap.array node) →
        ∀ node, BinaryHeap.Subtree hole node → node < heap.curSize - 1 →
          BinaryHeap.NodeOrdered (expireAt timers) (heap.curSize - 1) result.array node) := by
  have room : hole < heap.array.length := Nat.lt_of_lt_of_le inside size
  have known : heap.curSize - 1 ≤ heap.array.length :=
    Nat.le_trans (Nat.sub_le heap.curSize 1) size
  refine ⟨fun live => ⟨_, percolateDown_live known room live⟩, fun result done => ?_⟩
  obtain rfl := percolateDown_some done
  refine ⟨rfl, ?_, fun below node within _ => ?_⟩
  · obtain ⟨places, confined, sifted⟩ :=
      @BinaryHeap.siftDown_places _ _ _ _ (expireAt timers) _ (BinaryHeap.entry heap.array hole) _ _ known room
    rw [BinaryHeap.set_entry] at sifted
    refine ⟨places, fun index moved => ?_, sifted⟩
    obtain ⟨within, small⟩ := confined index moved
    exact ⟨within, Nat.lt_of_lt_of_le small (Nat.sub_le _ 1)⟩
  · refine BinaryHeap.siftDown_nodeOrdered known room (fun node within apart => ?_) node within
    by_cases small : node < heap.curSize - 1
    · exact below node within apart small
    · intro index positive bounded parent
      omega

/-- Of five timers the first one goes down two levels, and the last one stays. -/
theorem percolateDown_sifts_five :
    ∃ result, percolateDown (timersAt [9, 2, 5, 7, 1]) ⟨[some 0, some 1, some 2, some 3, some 4, none], 5⟩ 0 =
        some result ∧
      ∀ node, BinaryHeap.Subtree 0 node → node < 4 →
        BinaryHeap.NodeOrdered (expireAt (timersAt [9, 2, 5, 7, 1])) 4 result.array node := by
  obtain ⟨returns, sifts⟩ := percolateDown_sifts (timersAt [9, 2, 5, 7, 1])
    ⟨[some 0, some 1, some 2, some 3, some 4, none], 5⟩ (by decide) 0 (by decide)
  have live : ∀ index < 4, (deref (timersAt [9, 2, 5, 7, 1])
      (BinaryHeap.entry [some 0, some 1, some 2, some 3, some 4, none] index)).isSome = true := by
    decide
  have ordered : ∀ node < 4, node ≠ 0 → ∀ index < 4, 0 < index → (index - 1) / 2 = node →
      expireAt (timersAt [9, 2, 5, 7, 1]) (BinaryHeap.entry [some 0, some 1, some 2, some 3, some 4, none] node) ≤
        expireAt (timersAt [9, 2, 5, 7, 1]) (BinaryHeap.entry [some 0, some 1, some 2, some 3, some 4, none] index) := by
    decide
  obtain ⟨result, done⟩ := returns fun index _ small => Option.isSome_iff_exists.mp (live index small)
  refine ⟨result, done, (sifts result done).2.2 fun node _ apart small index positive below parent => ?_⟩
  exact ordered node small apart index below positive parent

end TimeHeap

end UnixProgramming.Timer
