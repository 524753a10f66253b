import UnixProgramming.Timer.TimeHeap

/-! `pop_timer` of the time heap, and what a pop leaves to a tick. A pop restores
the heap order of all entries but the last. -/

namespace UnixProgramming.Timer

open UnixProgramming.Lib

namespace TimeHeap

section Shape
variable (front rest : List (Option Nat)) (last : Option Nat)

theorem used_nonempty : 0 < (front ++ [last]).length := by
  rw [List.length_append]
  exact Nat.succ_pos _

theorem entry_root : BinaryHeap.entry (front ++ [last] ++ rest) 0 = BinaryHeap.entry (front ++ [last]) 0 :=
  BinaryHeap.entry_append _ rest (used_nonempty front last)

theorem room_for_root : 0 < (front ++ [last] ++ rest).length := by
  rw [List.length_append]
  exact Nat.lt_of_lt_of_le (used_nonempty front last) (Nat.le_add_right _ _)

theorem getElem?_root :
    (front ++ [last] ++ rest)[0]? = some (BinaryHeap.entry (front ++ [last]) 0) := by
  rw [getElem?_entry (room_for_root front rest last), entry_root]

theorem getElem?_last : (front ++ [last] ++ rest)[front.length]? = some last := by simp

theorem concat_of_length {used : List (Option Nat)} {size : Nat} (whole : used.length = size + 1) :
    ∃ front last, used = front ++ [last] ∧ front.length = size := by
  rcases List.eq_nil_or_concat' used with rfl | ⟨front, last, rfl⟩
  · cases whole
  · exact ⟨front, last, rfl, by simpa using whole⟩

end Shape

section Pop
variable {timers : Timers} {address : Nat}

theorem deref_free_ne {pointer : Option Nat} (different : pointer ≠ some address) :
    deref (Function.update timers address none) pointer = deref timers pointer := by
  cases pointer with
  | none => rfl
  | some other =>
    have apart : other ≠ address := fun same => different (by rw [same])
    exact Function.update_of_ne apart none timers

theorem not_live_free : ¬Live (Function.update timers address none) (some address) := by
  rintro ⟨timer, known⟩
  have gone : Function.update timers address none address = some timer := known
  rw [Function.update_self] at gone
  cases gone

/-- The entries after a pop, made of all entries but the last one and of the last one. -/
def sunk (timers : Timers) (front : List (Option Nat)) (last : Option Nat) : List (Option Nat) :=
  BinaryHeap.siftDown (expireAt timers) (front.length - 1) last (front.set 0 last) 0

@[simp] theorem sunk_length (timers : Timers) (front : List (Option Nat)) (last : Option Nat) :
    (sunk timers front last).length = front.length := by
  rw [sunk, BinaryHeap.siftDown_length, List.length_set]

theorem sunk_perm_set (timers : Timers) (front : List (Option Nat)) (last : Option Nat) :
    (sunk timers front last).Perm (front.set 0 last) := by
  cases front with
  | nil =>
    have unchanged : sunk timers [] last = [] := BinaryHeap.siftDown_leaf (Nat.zero_le _)
    rw [unchanged]
    rfl
  | cons first rest =>
    have sifted : (sunk timers (first :: rest) last).Perm (((first :: rest).set 0 last).set 0 last) :=
      BinaryHeap.siftDown_perm (by simp) (by simp)
    rwa [List.set_set] at sifted

/-- A pop takes the root out and keeps the others. -/
theorem sunk_perm (timers : Timers) (front : List (Option Nat)) (last : Option Nat) :
    (BinaryHeap.entry (front ++ [last]) 0 :: sunk timers front last).Perm (front ++ [last]) := by
  have moved := sunk_perm_set timers front last
  cases front with
  | nil => exact moved.cons _
  | cons first rest =>
    have swapped : (first :: last :: rest).Perm (first :: rest ++ [last]) :=
      (List.perm_append_singleton last rest).symm.cons first
    exact (moved.cons first).trans swapped

theorem set_root {front : List (Option Nat)} (rest : List (Option Nat)) (last : Option Nat)
    (nonempty : 0 < front.length) :
    (front ++ [last] ++ rest).set 0 last = front.set 0 last ++ last :: rest := by
  rw [List.append_assoc, List.set_append_left _ _ nonempty, List.singleton_append]

theorem siftDown_front (timers : Timers) (front rest : List (Option Nat)) (last : Option Nat) :
    BinaryHeap.siftDown (expireAt timers) (front.length - 1) last ((front ++ [last] ++ rest).set 0 last) 0 =
      sunk timers front last ++ last :: rest := by
  rcases Nat.eq_zero_or_pos front.length with bare | nonempty
  · obtain rfl := List.length_eq_zero_iff.mp bare
    rw [sunk, BinaryHeap.siftDown_leaf (by simp), BinaryHeap.siftDown_leaf (by simp)]
    rfl
  · rw [set_root rest last nonempty, BinaryHeap.siftDown_append _ (by simp) (by simpa using nonempty)]
    rfl

/-- What a pop of a non-null root does when it comes to an end. -/
theorem popTimer_some {front rest : List (Option Nat)} {last : Option Nat} {result : Timers × TimeHeap}
    (root : BinaryHeap.entry (front ++ [last]) 0 = some address)
    (done : popTimer timers ⟨front ++ [last] ++ rest, front.length + 1⟩ = some result) :
    Live timers (some address) ∧
      result = (Function.update timers address none,
        ⟨sunk (Function.update timers address none) front last ++ last :: rest, front.length⟩) := by
  have inside := room_for_root front rest last
  have first := getElem?_root front rest last
  rw [root] at first
  have final := getElem?_last front rest last
  simp only [popTimer, empty, Nat.add_one_ne_zero, beq_iff_eq, if_false, first, Option.bind_eq_bind, Option.bind_some,
    Option.bind_eq_some_iff, Nat.add_sub_cancel, final] at done
  obtain ⟨timer, known, array, stored, heap, percolated, same⟩ := done
  obtain ⟨-, rfl⟩ := store_some stored
  have sifted := percolateDown_some percolated
  rw [BinaryHeap.entry_set_self _ 0 last inside, siftDown_front] at sifted
  rw [← sifted]
  exact ⟨⟨timer, known⟩, (Option.some.inj same).symm⟩

/-- A pop comes to an end when the root and, without it, every other entry in use lead to timers. -/
theorem popTimer_live {front rest : List (Option Nat)} {last : Option Nat}
    (root : BinaryHeap.entry (front ++ [last]) 0 = some address) (own : Live timers (some address))
    (others : ∀ pointer ∈ front.set 0 last, Live (Function.update timers address none) pointer) :
    popTimer timers ⟨front ++ [last] ++ rest, front.length + 1⟩ = some (Function.update timers address none,
      ⟨sunk (Function.update timers address none) front last ++ last :: rest, front.length⟩) := by
  suffices ∃ result, popTimer timers ⟨front ++ [last] ++ rest, front.length + 1⟩ = some result by
    obtain ⟨result, done⟩ := this
    rw [done, (popTimer_some root done).2]
  have inside := room_for_root front rest last
  have first := getElem?_root front rest last
  rw [root] at first
  have final := getElem?_last front rest last
  obtain ⟨timer, known⟩ := own
  have found : timers address = some timer := known
  have alive : ∀ index, index < front.length - 1 → Live (Function.update timers address none)
      (BinaryHeap.entry ((front ++ [last] ++ rest).set 0 last) index) := by
    intro index below
    have known : index < (front.set 0 last).length := by simp; omega
    rw [set_root rest last (by omega), BinaryHeap.entry_append _ _ known]
    exact live_entry others known
  have percolated := @percolateDown_live (Function.update timers address none)
    ⟨(front ++ [last] ++ rest).set 0 last, front.length⟩ 0 (by simp [capacity]; omega) (by simpa [capacity] using inside)
    fun index _ below => alive index below
  simp only [popTimer, empty, Nat.add_one_ne_zero, beq_iff_eq, if_false, first, Option.bind_eq_bind, Option.bind_some,
    Nat.add_sub_cancel, final, found, store_inside inside, percolated]
  exact ⟨_, rfl⟩

end Pop

section Fire
variable {timers : Timers} {cur : Int}

/-- The timer takes effect at `cur` or before. -/
def due (timers : Timers) (cur : Int) (pointer : Option Nat) : Bool := expireAt timers pointer ≤ cur

/-- The call of the timer's callback, if it has one. -/
def callOf (timers : Timers) (pointer : Option Nat) : Option Call :=
  (timerAt timers pointer).cbFunc.map fun function => ⟨pointer, function, (timerAt timers pointer).userData⟩

theorem timer_of_mem_callOf {pointer : Option Nat} {call : Call} (member : call ∈ callOf timers pointer) :
    call.timer = pointer := by
  obtain ⟨function, -, rfl⟩ := Option.map_eq_some_iff.mp member
  rfl

variable {address : Nat}

theorem timerAt_free_ne {pointer : Option Nat} (different : pointer ≠ some address) :
    timerAt (Function.update timers address none) pointer = timerAt timers pointer := by
  rw [timerAt, timerAt, deref_free_ne different]

section Leaves
variable {used next : List (Option Nat)} {calls : List Call} {heap : TimeHeap}

end Leaves

end Fire

end TimeHeap

end UnixProgramming.Timer
