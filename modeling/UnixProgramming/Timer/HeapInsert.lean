import UnixProgramming.Timer.TimeHeap

/-! `add_timer` of the time heap. It increments `cur_size` before it takes it as
the hole, so the loop starts one place past the first unused entry and that entry
joins the heap with whatever it holds. -/

namespace UnixProgramming.Timer

open UnixProgramming.Lib

namespace TimeHeap

/-- What one turn of the loop does: it stops at the root or below an entry that takes effect no
later, or moves the parent into the hole. -/
inductive Turn (timers : Timers) (timer : Nat) (array : List (Option Nat)) (hole : Nat) :
    List (Option Nat) → List Access → Prop
  | root (root : ¬0 < hole) : Turn timers timer array hole (array.set hole (some timer)) [.write hole]
  | stop {pointer : Option Nat} (inner : 0 < hole) (read : array[(hole - 1) / 2]? = some pointer)
      (live : Live timers pointer) (le : expireAt timers pointer ≤ expireAt timers (some timer)) :
      Turn timers timer array hole (array.set hole (some timer)) [.read ((hole - 1) / 2) pointer, .write hole]
  | move {pointer : Option Nat} {result : List (Option Nat)} {later : List Access} (inner : 0 < hole)
      (read : array[(hole - 1) / 2]? = some pointer) (live : Live timers pointer)
      (notLe : ¬expireAt timers pointer ≤ expireAt timers (some timer))
      (rest : percolateUp timers timer (array.set hole pointer) ((hole - 1) / 2) = some (result, later)) :
      Turn timers timer array hole result
        (.read ((hole - 1) / 2) pointer :: .read ((hole - 1) / 2) pointer :: .write hole :: later)

theorem percolateUp_turn {timers : Timers} {timer : Nat} {array result : List (Option Nat)} {hole : Nat}
    {trace : List Access} (done : percolateUp timers timer array hole = some (result, trace)) :
    hole < array.length ∧ Turn timers timer array hole result trace := by
  rw [percolateUp] at done
  split at done
  · rename_i inner
    simp only [Option.bind_eq_bind, Option.bind_eq_some_iff] at done
    obtain ⟨pointer, read, above, aboveKnown, own, ownKnown, moved⟩ := done
    have ownAt : expireAt timers (some timer) = own.expire := expireAt_of_deref ownKnown
    rw [← expireAt_of_deref aboveKnown, ← ownAt] at moved
    split at moved
    · rename_i le
      obtain ⟨written, stored, same⟩ := Option.bind_eq_some_iff.mp moved
      obtain ⟨inside, rfl⟩ := store_some stored
      cases same
      exact ⟨inside, .stop inner read ⟨above, aboveKnown⟩ le⟩
    · rename_i notLe
      obtain ⟨written, stored, more⟩ := Option.bind_eq_some_iff.mp moved
      obtain ⟨⟨final, later⟩, rest, same⟩ := Option.bind_eq_some_iff.mp more
      obtain ⟨inside, rfl⟩ := store_some stored
      cases same
      exact ⟨inside, .move inner read ⟨above, aboveKnown⟩ notLe rest⟩
  · rename_i root
    obtain ⟨written, stored, same⟩ := Option.bind_eq_some_iff.mp done
    obtain ⟨inside, rfl⟩ := store_some stored
    cases same
    exact ⟨inside, .root root⟩

theorem percolateUp_some {timers : Timers} {timer : Nat} {array result : List (Option Nat)} {hole : Nat}
    {trace : List Access} (done : percolateUp timers timer array hole = some (result, trace)) :
    hole < array.length ∧ result = BinaryHeap.siftUp (expireAt timers) (some timer) array hole := by
  refine ⟨(percolateUp_turn done).1, ?_⟩
  induction hole using Nat.strongRecOn generalizing array result trace with
  | ind hole ih =>
    rw [BinaryHeap.siftUp]
    cases (percolateUp_turn done).2 with
    | root root => rw [dif_neg root]
    | stop inner read live le => rw [dif_pos inner, entry_of_getElem? read, if_pos le]
    | move inner read live notLe rest =>
      rw [dif_pos inner, entry_of_getElem? read, if_neg notLe]
      exact ih ((hole - 1) / 2) (by omega) rest

/-- What the loop uses: live entries from the first parent upwards, and holes. -/
theorem percolateUp_trace {timers : Timers} {timer : Nat} {array result : List (Option Nat)} {hole : Nat}
    {trace : List Access} (done : percolateUp timers timer array hole = some (result, trace)) :
    (∀ index value, .read index value ∈ trace → index ≤ (hole - 1) / 2 ∧ value ≠ none) ∧
      (∀ index, .write index ∈ trace → index ≤ hole) ∧
      (0 < hole → ∃ value, .read ((hole - 1) / 2) value ∈ trace) := by
  induction hole using Nat.strongRecOn generalizing array result trace with
  | ind hole ih =>
    cases (percolateUp_turn done).2 with
    | root root => simp [root]
    | stop inner read live le => simp [live.ne_none]
    | @move pointer _ later inner read live notLe rest =>
      obtain ⟨reads, writes, -⟩ := ih ((hole - 1) / 2) (by omega) rest
      refine ⟨fun index value member => ?_, fun index member => ?_, fun _ => ⟨pointer, by simp⟩⟩
      · simp only [List.mem_cons, Access.read.injEq, reduceCtorEq, false_or] at member
        rcases member with ⟨rfl, rfl⟩ | ⟨rfl, rfl⟩ | deeper
        · exact ⟨Nat.le_refl _, live.ne_none⟩
        · exact ⟨Nat.le_refl _, live.ne_none⟩
        · have bounded := reads index value deeper
          exact ⟨by omega, bounded.2⟩
      · simp only [List.mem_cons, Access.write.injEq, reduceCtorEq, false_or] at member
        rcases member with rfl | deeper
        · exact Nat.le_refl _
        · have bounded := writes index deeper
          omega

theorem percolateUp_live {timers : Timers} {timer : Nat} {array : List (Option Nat)} {hole : Nat}
    (inside : hole < array.length) (own : Live timers (some timer))
    (live : ∀ index, index < hole → index ≤ (hole - 1) / 2 → Live timers (BinaryHeap.entry array index)) :
    ∃ trace, percolateUp timers timer array hole =
      some (BinaryHeap.siftUp (expireAt timers) (some timer) array hole, trace) := by
  suffices ∃ result trace, percolateUp timers timer array hole = some (result, trace) by
    obtain ⟨result, trace, done⟩ := this
    exact ⟨trace, by rw [done, (percolateUp_some done).2]⟩
  obtain ⟨fields, known⟩ := own
  have found : timers timer = some fields := known
  fun_induction percolateUp timers timer array hole with
  | case1 array hole inner parent =>
    rename_i ih
    have bounded : parent < array.length := by omega
    obtain ⟨above, aboveKnown⟩ := live parent (by omega) (Nat.le_refl _)
    simp only [getElem?_entry bounded, aboveKnown, found, Option.bind_eq_bind, Option.bind_some, store_inside inside]
    split
    · exact ⟨_, _, rfl⟩
    · obtain ⟨result, trace, later⟩ := ih (array.set hole (BinaryHeap.entry array parent))
        (by simpa using bounded) fun index below _ => by
          rw [BinaryHeap.entry_set_ne array _ (by omega)]
          exact live index (by omega) (by omega)
      simp only [later, Option.bind_some]
      exact ⟨_, _, rfl⟩
  | case2 array hole root =>
    simp only [store_inside inside, Option.bind_eq_bind, Option.bind_some]
    exact ⟨_, _, rfl⟩

/-- The entry that the first turn of the loop puts one past the unused one: the
new timer, or the entry at the parent index where that takes effect later. -/
def pushed (timers : Timers) (used : List (Option Nat)) (timer : Nat) : Option Nat :=
  if expireAt timers (BinaryHeap.entry used (used.length / 2)) ≤ expireAt timers (some timer) then some timer
  else BinaryHeap.entry used (used.length / 2)

/-- The entries that were in use, as the loop leaves them. -/
def raised (timers : Timers) (used : List (Option Nat)) (timer : Nat) : List (Option Nat) :=
  if expireAt timers (BinaryHeap.entry used (used.length / 2)) ≤ expireAt timers (some timer) then used
  else BinaryHeap.siftUp (expireAt timers) (some timer) used (used.length / 2)

theorem siftUp_past {timers : Timers} {used : List (Option Nat)} {timer : Nat} (stale spare : Option Nat)
    (more : List (Option Nat)) (nonempty : 0 < used.length) :
    BinaryHeap.siftUp (expireAt timers) (some timer) (used ++ stale :: spare :: more) (used.length + 1) =
      raised timers used timer ++ stale :: pushed timers used timer :: more := by
  have write : ∀ pointer, (used ++ stale :: spare :: more).set (used.length + 1) pointer =
      used ++ stale :: pointer :: more := by
    intro pointer
    rw [List.set_append_right _ _ (Nat.le_add_right _ 1), Nat.add_sub_cancel_left]
    rfl
  rw [BinaryHeap.siftUp, dif_pos (Nat.succ_pos _), Nat.add_sub_cancel,
    BinaryHeap.entry_append used _ (by omega), write, write]
  unfold raised pushed
  split
  · rfl
  · exact BinaryHeap.siftUp_append _ (by omega)

theorem raised_perm (timers : Timers) {used : List (Option Nat)} (timer : Nat) (nonempty : 0 < used.length) :
    (raised timers used timer ++ [pushed timers used timer]).Perm (some timer :: used) := by
  have half : used.length / 2 < used.length := by omega
  unfold raised pushed
  split
  · exact List.perm_append_singleton _ _
  · -- The timer goes to the parent's place and the parent to the end of the list.
    have moved := @BinaryHeap.set_move_perm _ _ (used ++ [some timer]) used.length (used.length / 2) (some timer)
      (by simp) (by simp; omega) (by omega)
    rw [BinaryHeap.entry_append used _ half] at moved
    simp only [List.set_append_right _ _ (Nat.le_refl _), Nat.sub_self, List.set_cons_zero,
      List.set_append_left _ _ half] at moved
    have sifted : (BinaryHeap.siftUp (expireAt timers) (some timer) used (used.length / 2)).Perm
        (used.set (used.length / 2) (some timer)) := BinaryHeap.siftUp_perm half
    exact (sifted.append_right _).trans (moved.trans (List.perm_append_singleton _ _))

theorem raised_ordered {timers : Timers} {used : List (Option Nat)} (timer : Nat) (nonempty : 0 < used.length)
    (ordered : BinaryHeap.Ordered (expireAt timers) used.length used) :
    BinaryHeap.Ordered (expireAt timers) used.length (raised timers used timer) := by
  unfold raised
  split
  · exact ordered
  · rename_i later
    exact (BinaryHeap.siftUp_ordered (Nat.le_refl _) (by omega) ordered (le_of_not_ge later)).1

/-- The loop does not change whether the entry it pushes is in order with the parent it gets. -/
theorem raised_parent_le_iff {timers : Timers} {used : List (Option Nat)} (timer : Nat) (nonempty : 0 < used.length)
    (ordered : BinaryHeap.Ordered (expireAt timers) used.length used) :
    expireAt timers (BinaryHeap.entry (raised timers used timer) ((used.length - 1) / 2)) ≤
        expireAt timers (pushed timers used timer) ↔
      expireAt timers (BinaryHeap.entry used ((used.length - 1) / 2)) ≤ expireAt timers (pushed timers used timer) := by
  unfold raised pushed
  split
  · exact Iff.rfl
  · rename_i later
    have lowered := (BinaryHeap.siftUp_ordered (Nat.le_refl _) (by omega) ordered (le_of_not_ge later)).2
    by_cases above : expireAt timers (BinaryHeap.entry used ((used.length - 1) / 2)) ≤
        expireAt timers (BinaryHeap.entry used (used.length / 2))
    · exact iff_of_true ((lowered _).trans above) above
    · -- The new parent is then neither the hole nor the parent of the hole.
      have different : (used.length - 1) / 2 ≠ used.length / 2 := by
        intro same
        exact above (by rw [same])
      have inner : 0 < used.length / 2 → (used.length / 2 - 1) / 2 < (used.length - 1) / 2 := by
        intro positive
        by_contra near
        have same : (used.length - 1) / 2 = (used.length / 2 - 1) / 2 := by omega
        rw [same] at above
        exact above (ordered.parent positive (by omega))
      rw [BinaryHeap.entry_siftUp different inner]

/-- `add_timer` reads live entries that were in use, writes inside the array and
adds the timer to the heap. -/
def AddsTimer (timers : Timers) (heap : TimeHeap) (timer : Nat) : Prop :=
  ∃ after trace, addTimer timers heap (some timer) = some (after, trace) ∧
    (∀ index value, .read index value ∈ trace → index < heap.curSize ∧ value ≠ none) ∧
    (∀ index, .write index ∈ trace → index < after.capacity) ∧
    Valid timers after ∧ after.curSize = heap.curSize + 1 ∧ after.entries.Perm (some timer :: heap.entries)

/-- Every success went through the loop from one past the first unused entry. -/
theorem addTimer_some {timers : Timers} {heap after : TimeHeap} {timer : Nat} {trace : List Access}
    (done : addTimer timers heap (some timer) = some (after, trace)) :
    ∃ array moving, (array = heap.array ∧ heap.curSize < heap.capacity ∨
        array = heap.entries ++ List.replicate (2 * heap.capacity - heap.curSize) none ∧ heap.curSize = heap.capacity) ∧
      percolateUp timers timer array (heap.curSize + 1) = some (after.array, moving) ∧
      after.curSize = heap.curSize + 1 ∧ ∀ access ∈ moving, access ∈ trace := by
  simp only [addTimer] at done
  split at done
  · rename_i full
    simp only [Option.bind_eq_bind, Option.bind_eq_some_iff] at done
    obtain ⟨⟨grown, copying⟩, resized, ⟨array, moving⟩, moved, same⟩ := done
    cases same
    unfold resize at resized
    split at resized
    · rename_i within
      cases resized
      exact ⟨_, moving, Or.inr ⟨rfl, Nat.le_antisymm within full⟩, moved, rfl, by simp +contextual⟩
    · cases resized
  · rename_i room
    simp only [Option.bind_eq_bind, Option.bind_some, Option.bind_eq_some_iff] at done
    obtain ⟨⟨array, moving⟩, moved, same⟩ := done
    cases same
    exact ⟨_, moving, Or.inl ⟨rfl, Nat.lt_of_not_le room⟩, moved, rfl, by simp⟩

theorem addTimer_room {timers : Timers} {used : List (Option Nat)} {timer : Nat} (stale spare : Option Nat)
    (more : List (Option Nat)) (nonempty : 0 < used.length) (live : ∀ pointer ∈ used, Live timers pointer)
    (own : Live timers (some timer)) :
    ∃ trace, addTimer timers ⟨used ++ stale :: spare :: more, used.length⟩ (some timer) =
        some (⟨raised timers used timer ++ stale :: pushed timers used timer :: more, used.length + 1⟩, trace) ∧
      (∀ index value, .read index value ∈ trace → index < used.length ∧ value ≠ none) ∧
      (∀ index, .write index ∈ trace → index ≤ used.length + 1) := by
  obtain ⟨moving, moved⟩ := @percolateUp_live timers timer (used ++ stale :: spare :: more) (used.length + 1)
    (by simp) own fun index _ low => by
      have inside : index < used.length := by omega
      rw [BinaryHeap.entry_append used _ inside]
      exact live_entry live inside
  obtain ⟨reads, writes, -⟩ := percolateUp_trace moved
  rw [siftUp_past stale spare more nonempty] at moved
  have room : ¬used.length ≥ (used ++ stale :: spare :: more).length := by simp
  refine ⟨moving, ?_, fun index value member => ?_, writes⟩
  · simp only [addTimer, capacity, room, if_false, Option.bind_eq_bind, Option.bind_some, moved]
    rfl
  · have low := reads index value member
    exact ⟨by omega, low.2⟩

theorem raised_length (timers : Timers) {used : List (Option Nat)} (timer : Nat) (nonempty : 0 < used.length) :
    (raised timers used timer).length = used.length := by
  simpa using (raised_perm timers timer nonempty).length_eq

/-- The heap after the loop is one of the right timers exactly when the entry that was unused
holds the pointer written past it, in order with its parent. -/
theorem raised_heap_iff {timers : Timers} {used : List (Option Nat)} {timer : Nat} {stale : Option Nat}
    (rest : List (Option Nat)) (nonempty : 0 < used.length) (live : ∀ pointer ∈ used, Live timers pointer)
    (own : Live timers (some timer)) (ordered : BinaryHeap.Ordered (expireAt timers) used.length used) :
    Valid timers ⟨raised timers used timer ++ stale :: rest, used.length + 1⟩ ∧
        (entries ⟨raised timers used timer ++ stale :: rest, used.length + 1⟩).Perm (some timer :: used) ↔
      stale = pushed timers used timer ∧
        expireAt timers (BinaryHeap.entry used ((used.length - 1) / 2)) ≤ expireAt timers (pushed timers used timer) := by
  have length := raised_length timers timer nonempty
  have whole := raised_perm timers timer nonempty
  have fits := raised_parent_le_iff timer nonempty ordered
  have kept := raised_ordered timer nonempty ordered
  generalize raised timers used timer = upper at *
  rw [← length] at kept fits nonempty ⊢
  rw [show upper ++ stale :: rest = upper ++ [stale] ++ rest by simp,
    show upper.length + 1 = (upper ++ [stale]).length by simp, valid_append_iff, entries_append,
    List.length_append, List.length_singleton, BinaryHeap.ordered_concat_iff, ← fits]
  constructor
  · rintro ⟨⟨-, -, last⟩, permuted⟩
    have same : [stale].Perm [pushed timers used timer] :=
      (List.perm_append_left_iff upper).mp (permuted.trans whole.symm)
    obtain rfl : stale = pushed timers used timer := List.singleton_perm_singleton.mp same
    exact ⟨rfl, last nonempty⟩
  · rintro ⟨rfl, last⟩
    refine ⟨⟨fun pointer member => ?_, kept, fun _ => last⟩, whole⟩
    rcases List.mem_cons.mp (whole.mem_iff.mp member) with rfl | old
    · exact own
    · exact live pointer old

/-- Grown or not, the array that the loop works on is the entries in use with two or more behind
them, where `resize` puts null pointers. -/
theorem addTimer_after {timers : Timers} {used rest : List (Option Nat)} {timer : Nat} {after : TimeHeap}
    {trace : List Access} (nonempty : 0 < used.length)
    (done : addTimer timers ⟨used ++ rest, used.length⟩ (some timer) = some (after, trace)) :
    ∃ stale spare more,
      after = ⟨raised timers used timer ++ stale :: pushed timers used timer :: more, used.length + 1⟩ ∧
        (rest = stale :: spare :: more ∨ stale = none) := by
  obtain ⟨array, moving, source, moved, size, -⟩ := addTimer_some done
  obtain ⟨tail, rfl, origin⟩ : ∃ tail, array = used ++ tail ∧ (rest = tail ∨ ∃ count, tail = List.replicate count none) := by
    rcases source with ⟨rfl, -⟩ | ⟨rfl, -⟩
    · exact ⟨rest, rfl, Or.inl rfl⟩
    · exact ⟨_, by rw [entries_append], Or.inr ⟨_, rfl⟩⟩
  obtain ⟨inside, result⟩ := percolateUp_some moved
  rcases tail with _ | ⟨stale, _ | ⟨spare, more⟩⟩
  · rw [List.append_nil] at inside
    have short : used.length + 1 < used.length := inside
    omega
  · simp at inside
  · obtain ⟨upper, newSize⟩ := after
    obtain rfl : newSize = used.length + 1 := size
    obtain rfl : upper = _ := result.trans (siftUp_past stale spare more nonempty)
    refine ⟨stale, spare, more, rfl, origin.imp_right ?_⟩
    rintro ⟨count, nulls⟩
    exact List.eq_of_mem_replicate (nulls ▸ List.mem_cons_self)

/-- The first parent that the loop looks at is in use only when there is one. -/
theorem addTimer_nonempty {timers : Timers} {heap after : TimeHeap} {timer : Nat} {trace : List Access}
    (done : addTimer timers heap (some timer) = some (after, trace))
    (reads : ∀ index value, .read index value ∈ trace → index < heap.curSize ∧ value ≠ none) : 0 < heap.curSize := by
  obtain ⟨array, moving, -, moved, -, within⟩ := addTimer_some done
  obtain ⟨value, firstRead⟩ := (percolateUp_trace moved).2.2 (Nat.succ_pos _)
  have low := (reads _ value (within _ firstRead)).1
  omega

theorem addTimer_append_iff {timers : Timers} {used rest : List (Option Nat)} {timer : Nat}
    (live : ∀ pointer ∈ used, Live timers pointer) (own : Live timers (some timer))
    (ordered : BinaryHeap.Ordered (expireAt timers) used.length used) :
    AddsTimer timers ⟨used ++ rest, used.length⟩ timer ↔
      0 < used.length ∧ used.length + 1 < (used ++ rest).length ∧
        BinaryHeap.entry (used ++ rest) used.length = pushed timers used timer ∧
        expireAt timers (BinaryHeap.entry used ((used.length - 1) / 2)) ≤ expireAt timers (pushed timers used timer) := by
  constructor
  · rintro ⟨after, trace, done, reads, -, valid, -, permuted⟩
    have nonempty : 0 < used.length := addTimer_nonempty done reads
    obtain ⟨stale, spare, more, rfl, origin⟩ := addTimer_after nonempty done
    obtain ⟨same, last⟩ := (raised_heap_iff _ nonempty live own ordered).mp ⟨valid, by simpa using permuted⟩
    have known : stale ≠ none := by
      refine (valid.live stale ?_).ne_none
      rw [permuted.mem_iff, entries_append, ← (raised_perm timers timer nonempty).mem_iff, same]
      simp
    obtain rfl := origin.resolve_right known
    exact ⟨nonempty, by simp, by rw [BinaryHeap.entry_append_length, same], last⟩
  · rintro ⟨nonempty, room, same, last⟩
    rcases rest with _ | ⟨stale, _ | ⟨spare, more⟩⟩
    · rw [List.append_nil] at room
      omega
    · simp at room
    · rw [BinaryHeap.entry_append_length] at same
      obtain ⟨valid, permuted⟩ := (raised_heap_iff (pushed timers used timer :: more) nonempty live own ordered).mpr
        ⟨same, last⟩
      obtain ⟨trace, done, reads, writes⟩ := addTimer_room stale spare more nonempty live own
      refine ⟨_, trace, done, reads, fun index member => ?_, valid, rfl, by simpa using permuted⟩
      have bounded := writes index member
      have length := raised_length timers timer nonempty
      simp [capacity]
      omega

/-- `add_timer` adds the timer exactly when the heap is not empty, has two unused entries, and
the first of them already holds the pointer that the loop puts into the second, which
does not take effect before the entry at its parent. -/
theorem addTimer_adds_iff (timers : Timers) (heap : TimeHeap) (timer : Nat) (valid : Valid timers heap)
    (own : Live timers (some timer)) :
    AddsTimer timers heap timer ↔
      0 < heap.curSize ∧ heap.curSize + 1 < heap.capacity ∧
        BinaryHeap.entry heap.array heap.curSize = pushed timers heap.entries timer ∧
        expireAt timers (BinaryHeap.entry heap.entries ((heap.curSize - 1) / 2)) ≤
          expireAt timers (pushed timers heap.entries timer) := by
  obtain ⟨used, rest, rfl⟩ := valid.split
  rw [entries_append]
  obtain ⟨live, ordered⟩ := valid_append_iff.mp valid
  exact addTimer_append_iff live own ordered

/-- A heap of one timer, with the copy of it that `pop_timer` left behind. -/
theorem addTimer_adds_below_copy :
    Valid (timersAt [2, 5]) ⟨[some 1, some 1, none, none], 1⟩ ∧ Live (timersAt [2, 5]) (some 0) ∧
      AddsTimer (timersAt [2, 5]) ⟨[some 1, some 1, none, none], 1⟩ 0 := by
  have valid : Valid (timersAt [2, 5]) ⟨[some 1, some 1, none, none], 1⟩ :=
    ⟨by decide, by simp [entries, Live, deref, timersAt], fun index positive inside => by simp at inside; omega⟩
  have own : Live (timersAt [2, 5]) (some 0) := ⟨_, rfl⟩
  exact ⟨valid, own, (addTimer_adds_iff _ _ 0 valid own).mpr (by decide)⟩

/-- The first timer of an empty heap is compared with the null pointer in `array[0]`. -/
theorem empty_heap_not_added :
    Valid (timersAt [1]) (ofCapacity 4) ∧ Live (timersAt [1]) (some 0) ∧ ¬AddsTimer (timersAt [1]) (ofCapacity 4) 0 := by
  refine ⟨⟨by decide, by simp [entries, ofCapacity], fun index _ inside => absurd inside (Nat.not_lt_zero _)⟩,
    ⟨_, rfl⟩, ?_⟩
  rintro ⟨after, trace, done, -⟩
  have stuck : addTimer (timersAt [1]) (ofCapacity 4) (some 0) = none := by decide +kernel
  rw [stuck] at done
  cases done

end TimeHeap

end UnixProgramming.Timer
