import Mathlib.Data.Int.Order.Basic
import Mathlib.Logic.Function.Basic
import UnixProgramming.Lib.BinaryHeap

/-! The time heap of `time_heap_timer.h`: timers ordered by the time at which
they take effect, in an array of pointers that `add_timer` doubles. A function
that reads or writes outside the array, or goes through a null pointer or one to
a deleted timer, has no value. -/

namespace UnixProgramming.Timer

open UnixProgramming.Lib

/-- The fields of `heap_timer`, `expire` an absolute time. -/
structure HeapTimer where
  expire : Int
  cbFunc : Option Nat
  userData : Option Nat
deriving DecidableEq, Repr, Inhabited

/-- The allocated timers by address. -/
abbrev Timers := Nat → Option HeapTimer

/-- The timer a pointer leads to. -/
def deref (timers : Timers) (pointer : Option Nat) : Option HeapTimer := pointer.bind timers

/-- The same, with a default where there is none. -/
def timerAt (timers : Timers) (pointer : Option Nat) : HeapTimer := (deref timers pointer).getD default

def expireAt (timers : Timers) (pointer : Option Nat) : Int := (timerAt timers pointer).expire

/-- Timers with the given times at the addresses `0`, `1`, …, each with a callback of its own. -/
def timersAt (expires : List Int) : Timers := fun address =>
  expires[address]?.map fun expire => ⟨expire, some address, none⟩

theorem timerAt_of_deref {timers : Timers} {pointer : Option Nat} {timer : HeapTimer}
    (known : deref timers pointer = some timer) : timerAt timers pointer = timer := by
  rw [timerAt, known, Option.getD_some]

theorem expireAt_of_deref {timers : Timers} {pointer : Option Nat} {timer : HeapTimer}
    (known : deref timers pointer = some timer) : expireAt timers pointer = timer.expire := by
  rw [expireAt, timerAt_of_deref known]

/-- A use of one entry of the heap's array. -/
inductive Access where
  | read (index : Nat) (value : Option Nat)
  | write (index : Nat)
deriving DecidableEq, Repr

/-- A callback that `tick` runs: the timer it belongs to, the function and its argument. -/
structure Call where
  timer : Option Nat
  function : Nat
  userData : Option Nat
deriving DecidableEq, Repr

/-- `array` has `capacity` entries, null where no timer was ever put. -/
structure TimeHeap where
  array : List (Option Nat)
  curSize : Nat
deriving DecidableEq, Repr

namespace TimeHeap

def capacity (heap : TimeHeap) : Nat := heap.array.length

/-- The part of the array in use. -/
def entries (heap : TimeHeap) : List (Option Nat) := heap.array.take heap.curSize

def empty (heap : TimeHeap) : Bool := heap.curSize == 0

def store (array : List (Option Nat)) (index : Nat) (pointer : Option Nat) : Option (List (Option Nat)) :=
  if index < array.length then some (array.set index pointer) else none

/-- The right operand of `&&` in `percolate_down` is evaluated only below the bound. -/
def rightSmaller (timers : Timers) (bound : Nat) (array : List (Option Nat)) (child : Nat) : Option Bool :=
  if child + 1 < bound then do
    let right ← deref timers (← array[child + 1]?)
    let left ← deref timers (← array[child]?)
    return decide (right.expire < left.expire)
  else some false

/-- The loop of `percolate_down` and the assignment after it, where `bound` is
`cur_size - 1`. -/
def percolateLoop (timers : Timers) (bound : Nat) (temp : Option Nat) (array : List (Option Nat)) (hole : Nat) :
    Option (List (Option Nat)) :=
  if _inside : hole * 2 + 1 < bound then do
    let right ← rightSmaller timers bound array (hole * 2 + 1)
    let child := hole * 2 + 1 + right.toNat
    let pointer ← array[child]?
    let below ← deref timers pointer
    let own ← deref timers temp
    if below.expire < own.expire then
      let array ← store array hole pointer
      percolateLoop timers bound temp array child
    else store array hole temp
  else store array hole temp
termination_by bound - hole

def percolateDown (timers : Timers) (heap : TimeHeap) (hole : Nat) : Option TimeHeap := do
  let temp ← heap.array[hole]?
  let array ← percolateLoop timers (heap.curSize - 1) temp heap.array hole
  return { heap with array := array }

/-- `resize`, with its uses of the two arrays in order. -/
def resize (heap : TimeHeap) : Option (TimeHeap × List Access) :=
  if heap.curSize ≤ heap.capacity then
    some ({ heap with array := heap.entries ++ List.replicate (2 * heap.capacity - heap.curSize) none },
      (List.range (2 * heap.capacity)).map Access.write ++
        heap.entries.zipIdx.flatMap fun (pointer, index) => [.read index pointer, .write index])
  else none

/-- `time_heap(cap)`. -/
def ofCapacity (cap : Nat) : TimeHeap := ⟨List.replicate cap none, 0⟩

/-- `for (int i = count - 1; i >= 0; --i) percolate_down(i);` -/
def percolateAll (timers : Timers) : Nat → TimeHeap → Option TimeHeap
  | 0, heap => some heap
  | count + 1, heap => do
    let heap ← percolateDown timers heap count
    percolateAll timers count heap

/-- `time_heap(init_array, size, capacity)`; `some none` where it throws. -/
def ofArray (timers : Timers) (initArray : List (Option Nat)) (size capacity : Nat) : Option (Option TimeHeap) :=
  if capacity < size then some none
  else if size = 0 then some (some (ofCapacity capacity))
  else if size ≤ initArray.length then do
    let array := initArray.take size ++ List.replicate (capacity - size) none
    let heap ← percolateAll timers ((size - 1) / 2 + 1) ⟨array, size⟩
    return some heap
  else none

/-- The loop of `add_timer` and the assignment after it, with the uses of the array. -/
def percolateUp (timers : Timers) (timer : Nat) (array : List (Option Nat)) (hole : Nat) :
    Option (List (Option Nat) × List Access) :=
  if _inner : 0 < hole then do
    let parent := (hole - 1) / 2
    let pointer ← array[parent]?
    let above ← deref timers pointer
    let own ← timers timer
    if above.expire ≤ own.expire then
      let array ← store array hole (some timer)
      return (array, [.read parent pointer, .write hole])
    else
      let array ← store array hole pointer
      let (array, later) ← percolateUp timers timer array parent
      return (array, .read parent pointer :: .read parent pointer :: .write hole :: later)
  else do
    let array ← store array hole (some timer)
    return (array, [.write hole])
termination_by hole

def addTimer (timers : Timers) (heap : TimeHeap) : Option Nat → Option (TimeHeap × List Access)
  | none => some (heap, [])
  | some timer => do
    let (heap, copying) ← if heap.curSize ≥ heap.capacity then resize heap else some (heap, [])
    let hole := heap.curSize + 1
    let (array, moving) ← percolateUp timers timer heap.array hole
    return (⟨array, hole⟩, copying ++ moving)

/-- `del_timer`: the timer stays where it is and loses its callback. -/
def delTimer (timers : Timers) : Option Nat → Option Timers
  | none => some timers
  | some timer => do
    let fields ← timers timer
    return Function.update timers timer (some { fields with cbFunc := none })

/-- `top`. -/
def top (heap : TimeHeap) : Option (Option Nat) := if heap.empty then some none else heap.array[0]?

def popTimer (timers : Timers) (heap : TimeHeap) : Option (Timers × TimeHeap) :=
  if heap.empty then some (timers, heap)
  else do
    match ← heap.array[0]? with
    | none => some (timers, heap)
    | some first =>
      let _ ← timers first
      let timers := Function.update timers first none
      let last ← heap.array[heap.curSize - 1]?
      let array ← store heap.array 0 last
      let heap ← percolateDown timers ⟨array, heap.curSize - 1⟩ 0
      return (timers, heap)

/-- `if (array[0]->cb_func) array[0]->cb_func(array[0]->user_data);` -/
def callback (timers : Timers) (heap : TimeHeap) : Option (List Call) := do
  let first ← heap.array[0]?
  let timer ← deref timers first
  return timer.cbFunc.toList.map fun function => ⟨first, function, timer.userData⟩

/-- The loop of `tick` by recursion on `cur_size`, which a `pop_timer` of a
non-null top makes one smaller. -/
def tickLoop (cur : Int) : Nat → Timers → TimeHeap → Option Nat → Option (Timers × TimeHeap × List Call)
  | 0, timers, heap, _ => some (timers, heap, [])
  | _ + 1, timers, heap, none => some (timers, heap, [])
  | size + 1, timers, heap, some tmp => do
    let timer ← timers tmp
    if cur < timer.expire then return (timers, heap, [])
    else
      let calls ← callback timers heap
      let (timers, heap) ← popTimer timers heap
      let tmp ← heap.array[0]?
      let (timers, heap, later) ← tickLoop cur size timers heap tmp
      return (timers, heap, calls ++ later)

/-- `tick`, where `cur` is the value of `time(nullptr)`. -/
def tick (timers : Timers) (heap : TimeHeap) (cur : Int) : Option (Timers × TimeHeap × List Call) := do
  let tmp ← heap.array[0]?
  tickLoop cur heap.curSize timers heap tmp

/-! ### The percolations are the sifts of a binary heap -/

theorem store_some {array result : List (Option Nat)} {index : Nat} {pointer : Option Nat}
    (stored : store array index pointer = some result) :
    index < array.length ∧ result = array.set index pointer := by
  unfold store at stored
  split at stored
  · rename_i inside
    exact ⟨inside, (Option.some.inj stored).symm⟩
  · cases stored

theorem store_inside {array : List (Option Nat)} {index : Nat} (inside : index < array.length)
    (pointer : Option Nat) : store array index pointer = some (array.set index pointer) := if_pos inside

theorem entry_of_getElem? {array : List (Option Nat)} {index : Nat} {pointer : Option Nat}
    (known : array[index]? = some pointer) : BinaryHeap.entry array index = pointer := by
  simp [BinaryHeap.entry, known]

theorem getElem?_entry {array : List (Option Nat)} {index : Nat} (inside : index < array.length) :
    array[index]? = some (BinaryHeap.entry array index) := by
  rw [BinaryHeap.entry_eq_getElem array inside, List.getElem?_eq_getElem inside]

theorem rightSmaller_some {timers : Timers} {bound : Nat} {array : List (Option Nat)} {hole : Nat} {right : Bool}
    (compared : rightSmaller timers bound array (hole * 2 + 1) = some right) :
    hole * 2 + 1 + right.toNat = BinaryHeap.smallerChild (expireAt timers) bound array hole := by
  unfold rightSmaller at compared
  unfold BinaryHeap.smallerChild
  split at compared
  · rename_i inside
    simp only [Option.bind_eq_bind, Option.bind_eq_some_iff, Option.pure_def, Option.some.injEq] at compared
    obtain ⟨second, secondRead, rightTimer, rightKnown, first, firstRead, leftTimer, leftKnown, rfl⟩ := compared
    rw [entry_of_getElem? secondRead, entry_of_getElem? firstRead, expireAt_of_deref rightKnown,
      expireAt_of_deref leftKnown]
    by_cases less : rightTimer.expire < leftTimer.expire
    · simp [less, inside]
    · simp [less]
  · rename_i outside
    cases Option.some.inj compared
    rw [if_neg fun both => outside both.1]
    rfl

theorem percolateLoop_some {timers : Timers} {bound : Nat} {temp : Option Nat} {array result : List (Option Nat)}
    {hole : Nat} (done : percolateLoop timers bound temp array hole = some result) :
    result = BinaryHeap.siftDown (expireAt timers) bound temp array hole := by
  fun_induction percolateLoop timers bound temp array hole with
  | case1 array hole inside ih =>
    simp only [Option.bind_eq_bind, Option.bind_eq_some_iff] at done
    obtain ⟨right, compared, pointer, read, below, belowKnown, own, ownKnown, moved⟩ := done
    have child := rightSmaller_some compared
    rw [BinaryHeap.siftDown, dif_pos inside]
    simp only
    rw [← child, entry_of_getElem? read, expireAt_of_deref belowKnown, expireAt_of_deref ownKnown]
    split at moved
    · rename_i less
      obtain ⟨next, stored, later⟩ := Option.bind_eq_some_iff.mp moved
      obtain ⟨-, rfl⟩ := store_some stored
      rw [if_pos less]
      exact ih right _ later
    · rename_i notLess
      rw [if_neg notLess]
      exact (store_some moved).2
  | case2 array hole outside =>
    rw [BinaryHeap.siftDown, dif_neg outside]
    exact (store_some done).2

theorem percolateDown_some {timers : Timers} {heap result : TimeHeap} {hole : Nat}
    (done : percolateDown timers heap hole = some result) :
    result = ⟨BinaryHeap.siftDown (expireAt timers) (heap.curSize - 1) (BinaryHeap.entry heap.array hole) heap.array
      hole, heap.curSize⟩ := by
  obtain ⟨temp, read, more⟩ := Option.bind_eq_some_iff.mp done
  obtain ⟨array, moved, same⟩ := Option.bind_eq_some_iff.mp more
  obtain rfl := entry_of_getElem? read
  obtain rfl := percolateLoop_some moved
  exact (Option.some.inj same).symm

/-- The pointer leads to an allocated timer. -/
def Live (timers : Timers) (pointer : Option Nat) : Prop := ∃ timer, deref timers pointer = some timer

theorem live_entry {timers : Timers} {array : List (Option Nat)} (live : ∀ pointer ∈ array, Live timers pointer)
    {index : Nat} (inside : index < array.length) : Live timers (BinaryHeap.entry array index) := by
  rw [BinaryHeap.entry_eq_getElem array inside]
  exact live _ (List.getElem_mem inside)

theorem Live.address {timers : Timers} {pointer : Option Nat} (live : Live timers pointer) :
    ∃ address, pointer = some address := by
  obtain ⟨timer, known⟩ := live
  cases pointer with
  | none => cases known
  | some address => exact ⟨address, rfl⟩

theorem Live.ne_none {timers : Timers} {pointer : Option Nat} (live : Live timers pointer) : pointer ≠ none := by
  obtain ⟨address, rfl⟩ := live.address
  exact Option.some_ne_none address

theorem rightSmaller_live {timers : Timers} {bound : Nat} {array : List (Option Nat)} {hole : Nat}
    (known : bound ≤ array.length)
    (live : ∀ index, 0 < index → index < bound → (index - 1) / 2 = hole → Live timers (BinaryHeap.entry array index)) :
    ∃ right, rightSmaller timers bound array (hole * 2 + 1) = some right := by
  by_cases inside : hole * 2 + 1 + 1 < bound
  · obtain ⟨right, rightKnown⟩ := live (hole * 2 + 1 + 1) (by omega) inside (by omega)
    obtain ⟨left, leftKnown⟩ := live (hole * 2 + 1) (by omega) (by omega) (by omega)
    refine ⟨decide (right.expire < left.expire), ?_⟩
    rw [rightSmaller, if_pos inside, getElem?_entry (by omega), getElem?_entry (by omega)]
    simp [rightKnown, leftKnown]
  · exact ⟨false, if_neg inside⟩

/-- The loop looks at no timers but the ones below the hole and the one held aside. -/
theorem percolateLoop_live {timers : Timers} {bound : Nat} {temp : Option Nat} {array : List (Option Nat)} {hole : Nat}
    (known : bound ≤ array.length) (inside : hole < array.length)
    (live : ∀ index, BinaryHeap.Subtree hole index → index ≠ hole → index < bound →
      Live timers (BinaryHeap.entry array index))
    (own : hole * 2 + 1 < bound → Live timers temp) :
    percolateLoop timers bound temp array hole =
      some (BinaryHeap.siftDown (expireAt timers) bound temp array hole) := by
  suffices ∃ result, percolateLoop timers bound temp array hole = some result by
    obtain ⟨result, done⟩ := this
    rw [done, percolateLoop_some done]
  fun_induction percolateLoop timers bound temp array hole with
  | case1 array hole branching ih =>
    have children : ∀ index, 0 < index → index < bound → (index - 1) / 2 = hole →
        Live timers (BinaryHeap.entry array index) := fun index positive below under =>
      live index (.of_parent positive under) (by omega) below
    obtain ⟨right, compared⟩ := rightSmaller_live known children
    have bounds := BinaryHeap.smallerChild_bounds (expireAt timers) array branching
    rw [← rightSmaller_some compared] at bounds
    obtain ⟨below, belowKnown⟩ := children (hole * 2 + 1 + right.toNat) (by omega) bounds.2.1 bounds.2.2
    obtain ⟨timer, tempKnown⟩ := own branching
    simp only [compared, getElem?_entry (Nat.lt_of_lt_of_le bounds.2.1 known), belowKnown, tempKnown,
      Option.bind_eq_bind, Option.bind_some]
    split
    · rw [store_inside inside, Option.bind_some]
      refine ih right _ (by simpa using known) (by simp; omega) (fun index within _ small => ?_)
        fun _ => ⟨timer, tempKnown⟩
      have deeper := within.le
      rw [BinaryHeap.entry_set_ne array _ (by omega)]
      exact live index ((BinaryHeap.Subtree.of_parent (by omega) bounds.2.2).trans within) (by omega) small
    · exact ⟨_, store_inside inside temp⟩
  | case2 array hole leaf => exact ⟨_, store_inside inside temp⟩

theorem percolateDown_live {timers : Timers} {heap : TimeHeap} {hole : Nat} (known : heap.curSize - 1 ≤ heap.capacity)
    (inside : hole < heap.capacity)
    (live : ∀ index, BinaryHeap.Subtree hole index → index < heap.curSize - 1 →
      Live timers (BinaryHeap.entry heap.array index)) :
    percolateDown timers heap hole = some ⟨BinaryHeap.siftDown (expireAt timers) (heap.curSize - 1)
      (BinaryHeap.entry heap.array hole) heap.array hole, heap.curSize⟩ := by
  have percolated := @percolateLoop_live timers (heap.curSize - 1) (BinaryHeap.entry heap.array hole) heap.array hole
    known inside (fun index within _ below => live index within below) fun branching => live hole .self (by omega)
  rw [percolateDown, getElem?_entry inside]
  simp only [Option.bind_eq_bind, Option.bind_some, percolated]
  rfl

theorem mem_entries {heap : TimeHeap} (size : heap.curSize ≤ heap.capacity) {pointer : Option Nat} :
    pointer ∈ heap.entries ↔ ∃ index, index < heap.curSize ∧ BinaryHeap.entry heap.array index = pointer := by
  rw [entries, List.mem_take_iff_getElem]
  constructor
  · rintro ⟨index, inside, rfl⟩
    exact ⟨index, by omega, BinaryHeap.entry_eq_getElem heap.array (by omega)⟩
  · rintro ⟨index, inside, rfl⟩
    have known : index < heap.array.length := Nat.lt_of_lt_of_le inside size
    exact ⟨index, by omega, (BinaryHeap.entry_eq_getElem heap.array known).symm⟩

/-- The min-heap invariant: the entries in use lead to timers, and no timer takes
effect before the one at its parent. -/
structure Valid (timers : Timers) (heap : TimeHeap) : Prop where
  size : heap.curSize ≤ heap.capacity
  live : ∀ pointer ∈ heap.entries, Live timers pointer
  ordered : BinaryHeap.Ordered (expireAt timers) heap.curSize heap.array

@[simp] theorem entries_append (used rest : List (Option Nat)) :
    entries ⟨used ++ rest, used.length⟩ = used := List.take_left

theorem valid_append_iff {timers : Timers} {used rest : List (Option Nat)} :
    Valid timers ⟨used ++ rest, used.length⟩ ↔
      (∀ pointer ∈ used, Live timers pointer) ∧ BinaryHeap.Ordered (expireAt timers) used.length used := by
  constructor
  · intro valid
    refine ⟨fun pointer member => valid.live pointer (by simpa using member), ?_⟩
    exact (BinaryHeap.ordered_append_iff used rest).mp valid.ordered
  · rintro ⟨live, ordered⟩
    refine ⟨by simp [capacity], fun pointer member => live pointer (by simpa using member), ?_⟩
    exact (BinaryHeap.ordered_append_iff used rest).mpr ordered

theorem Valid.split {timers : Timers} {heap : TimeHeap} (valid : Valid timers heap) :
    ∃ used rest, heap = ⟨used ++ rest, used.length⟩ := by
  obtain ⟨array, curSize⟩ := heap
  have size : curSize ≤ array.length := valid.size
  exact ⟨array.take curSize, array.drop curSize, by simp [size]⟩

end TimeHeap

end UnixProgramming.Timer
