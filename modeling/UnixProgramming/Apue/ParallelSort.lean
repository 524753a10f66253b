import Mathlib.Data.List.GetD
import UnixProgramming.Lib.Merging
import UnixProgramming.Lib.Tally
import UnixProgramming.Apue.PthreadBarrier

/-! The parallel sort is a sort. The barrier opens when every segment is sorted, and the
merge takes the least head of what is left of the segments. -/

namespace UnixProgramming.Apue

open UnixProgramming.Lib

theorem complong_nonpos (left right : Int) : complong left right ≤ 0 ↔ left ≤ right := by
  unfold complong
  split_ifs <;> omega

theorem complong_comparison : Comparison complong where
  total left right := by
    rw [complong_nonpos, complong_nonpos]
    exact Int.le_total left right
  trans left middle right := by
    rw [complong_nonpos, complong_nonpos, complong_nonpos]
    exact Int.le_trans

/-! ## Segments -/

theorem segment_cons {nums : List Int} {start count : Nat} (inside : start < nums.length) (positive : 0 < count) :
    segment nums start count = nums.getD start 0 :: segment nums (start + 1) (count - 1) := by
  obtain ⟨count, rfl⟩ : ∃ fewer, count = fewer + 1 := ⟨count - 1, by omega⟩
  rw [segment, List.drop_eq_getElem_cons inside, List.take_succ_cons, List.getD_eq_getElem _ _ inside, segment,
    Nat.add_sub_cancel]

@[simp] theorem segment_zero (nums : List Int) (start : Nat) : segment nums start 0 = [] := List.take_zero

theorem getElem?_segment {nums : List Int} {start count position : Nat} (below : position < count) :
    (segment nums start count)[position]? = nums[start + position]? := by
  rw [segment, List.getElem?_take_of_lt below, List.getElem?_drop]

theorem length_segment {nums : List Int} {start count : Nat} (fits : start + count ≤ nums.length) :
    (segment nums start count).length = count := by
  rw [segment, List.length_take, List.length_drop]
  omega

/-- The array is made of its segments. -/
theorem flatMap_segment {nums : List Int} {nthr tnum : Nat} (size : nums.length = nthr * tnum) :
    (List.range nthr).flatMap (fun i => segment nums (i * tnum) tnum) = nums := by
  have front : ∀ count, (List.range count).flatMap (fun i => segment nums (i * tnum) tnum) = nums.take (count * tnum) := by
    intro count
    induction count with
    | zero => simp
    | succ count ih =>
      rw [List.range_succ, List.flatMap_append, ih, List.flatMap_singleton, segment, Nat.add_one_mul, List.take_add]
  rw [front, ← size, List.take_length]

/-! ## One turn of the merge -/

namespace MergeState
variable {nthr tnum sidx : Nat} {nums : List Int} {state next : MergeState}

/-- What is left of a segment. -/
def rest (tnum : Nat) (nums : List Int) (state : MergeState) (i : Nat) : List Int :=
  segment nums (state.idx i) ((i + 1) * tnum - state.idx i)

def runs (nthr tnum : Nat) (nums : List Int) (state : MergeState) : List (List Int) :=
  (List.range nthr).map (state.rest tnum nums)

/-- The cursors are in their segments, and what they have passed has been emitted. -/
structure Ready (nthr tnum : Nat) (nums : List Int) (state : MergeState) (sidx : Nat) : Prop where
  inside : ∀ i < nthr, i * tnum ≤ state.idx i ∧ state.idx i ≤ (i + 1) * tnum
  left : sidx + (state.runs nthr tnum nums).flatten.length = nthr * tnum
  room : state.snums.length = nthr * tnum

theorem rest_cons (size : nums.length = nthr * tnum) {i : Nat} (thread : i < nthr)
    (more : state.idx i < (i + 1) * tnum) :
    state.rest tnum nums i =
      state.value nums i :: segment nums (state.idx i + 1) ((i + 1) * tnum - (state.idx i + 1)) := by
  have within : (i + 1) * tnum ≤ nthr * tnum := Nat.mul_le_mul_right tnum thread
  rw [rest, segment_cons (by omega) (by omega), value, Nat.sub_sub]

theorem rest_nil {i : Nat} (exhausted : ¬ state.idx i < (i + 1) * tnum) : state.rest tnum nums i = [] := by
  rw [rest, Nat.sub_eq_zero_of_le (Nat.not_lt.mp exhausted), segment_zero]

/-- What the inner loop has found in the first segments. -/
structure Scanned (tnum : Nat) (nums : List Int) (state : MergeState) (count : Nat) (minimum : Minimum) : Prop where
  least : ∀ i < count, ∀ first ∈ (state.rest tnum nums i).head?, minimum.num ≤ first
  found : minimum.assigned = true → ∃ i < count, minimum.minidx = some i ∧ state.idx i < (i + 1) * tnum ∧
    state.value nums i = minimum.num
  untouched : minimum.assigned = false → minimum.num = longMax

theorem Scanned.compare (size : nums.length = nthr * tnum) {count : Nat} (thread : count < nthr) {minimum : Minimum}
    (scanned : state.Scanned tnum nums count minimum) :
    state.Scanned tnum nums (count + 1) (state.compare tnum nums minimum count) := by
  obtain ⟨least, found, untouched⟩ := scanned
  unfold MergeState.compare
  split_ifs with smaller
  · refine ⟨fun i below first head => ?_, fun _ => ⟨count, Nat.lt_succ_self count, rfl, smaller.1, rfl⟩, nofun⟩
    rcases Nat.lt_succ_iff_lt_or_eq.mp below with before | rfl
    · exact (Int.le_of_lt smaller.2).trans (least i before first head)
    · rw [rest_cons size thread smaller.1] at head
      exact Int.le_of_eq (Option.some.inj head)
  · refine ⟨fun i below first head => ?_, fun assigned => ?_, untouched⟩
    · rcases Nat.lt_succ_iff_lt_or_eq.mp below with before | rfl
      · exact least i before first head
      · by_cases more : state.idx i < (i + 1) * tnum
        · rw [rest_cons size thread more] at head
          exact (Int.not_lt.mp fun lower => smaller ⟨more, lower⟩).trans (Int.le_of_eq (Option.some.inj head))
        · rw [rest_nil more] at head
          cases head
    · obtain ⟨i, before, rest⟩ := found assigned
      exact ⟨i, Nat.lt_succ_of_lt before, rest⟩

theorem scan_scanned (size : nums.length = nthr * tnum) (state : MergeState) :
    state.Scanned tnum nums nthr (state.scan tnum nums nthr) := by
  have front : ∀ count ≤ nthr, state.Scanned tnum nums count
      ((List.range count).foldl (state.compare tnum nums) ⟨longMax, state.minidx, false⟩) := by
    intro count within
    induction count with
    | zero => exact ⟨fun i below => absurd below (Nat.not_lt_zero i), nofun, fun _ => rfl⟩
    | succ count ih =>
      rw [List.range_succ, List.foldl_append]
      exact (ih (by omega)).compare size (by omega)
  exact front nthr (Nat.le_refl nthr)

/-- A cursor with something left is inside the array. -/
theorem idx_lt (size : nums.length = nthr * tnum) {i : Nat} (thread : i < nthr)
    (more : state.idx i < (i + 1) * tnum) : state.idx i < nums.length := by
  have within : (i + 1) * tnum ≤ nthr * tnum := Nat.mul_le_mul_right tnum thread
  omega

/-- While something is left, the inner loop assigns `minidx`. -/
theorem scan_assigned (size : nums.length = nthr * tnum) (below : ∀ num ∈ nums, num < longMax)
    (left : (state.runs nthr tnum nums).flatten ≠ []) : (state.scan tnum nums nthr).assigned = true := by
  obtain ⟨least, -, untouched⟩ := scan_scanned size state
  by_contra unassigned
  have sentinel := untouched (by simpa using unassigned)
  obtain ⟨num, member⟩ := List.exists_mem_of_ne_nil _ left
  obtain ⟨run, inRuns, inRun⟩ := List.mem_flatten.mp member
  obtain ⟨i, inRange, rfl⟩ := List.mem_map.mp inRuns
  have thread := List.mem_range.mp inRange
  have more : state.idx i < (i + 1) * tnum := by
    by_contra exhausted
    rw [rest_nil exhausted] at inRun
    cases inRun
  have low := least i thread (state.value nums i) (by rw [rest_cons size thread more]; rfl)
  have inside := idx_lt size thread more
  have high := below (state.value nums i) (by
    rw [value, List.getD_eq_getElem _ _ inside]
    exact List.getElem_mem inside)
  omega

/-- The state behind a turn that has found the least head in segment `i`. -/
def emit (nums : List Int) (state : MergeState) (sidx i : Nat) : MergeState :=
  ⟨Function.update state.idx i (state.idx i + 1), some i, state.snums.set sidx (state.value nums i)⟩

theorem rest_emit (i : Nat) :
    (state.emit nums sidx i).rest tnum nums i =
      segment nums (state.idx i + 1) ((i + 1) * tnum - (state.idx i + 1)) := by
  simp [rest, emit]

theorem rest_emit_of_ne {i other : Nat} (apart : other ≠ i) :
    (state.emit nums sidx i).rest tnum nums other = state.rest tnum nums other := by
  simp [rest, emit, Function.update_of_ne apart]

theorem runs_emit (i : Nat) :
    (state.emit nums sidx i).runs nthr tnum nums =
      (state.runs nthr tnum nums).set i ((state.emit nums sidx i).rest tnum nums i) := by
  apply List.ext_getElem
  · simp [runs]
  · intro position _ _
    rw [List.getElem_set]
    split_ifs with same
    · simp [runs, same]
    · simp [runs, rest_emit_of_ne (Ne.symm same)]

theorem runs_getElem? (size : nums.length = nthr * tnum) (sidx : Nat) {i : Nat} (thread : i < nthr)
    (more : state.idx i < (i + 1) * tnum) :
    (state.runs nthr tnum nums)[i]? = some (state.value nums i :: (state.emit nums sidx i).rest tnum nums i) := by
  rw [runs, List.getElem?_map, List.getElem?_range thread, Option.map_some, rest_cons size thread more, rest_emit]

theorem Ready.emit (size : nums.length = nthr * tnum) (ready : state.Ready nthr tnum nums sidx) {i : Nat}
    (thread : i < nthr) (more : state.idx i < (i + 1) * tnum) :
    (state.emit nums sidx i).Ready nthr tnum nums (sidx + 1) where
  inside other within := by
    have bounds := ready.inside other within
    by_cases same : other = i
    · subst same
      simp only [MergeState.emit, Function.update_self]
      omega
    · simpa [MergeState.emit, Function.update_of_ne same] using bounds
  left := by
    have left := ready.left
    have lengths := (flatten_take (runs_getElem? size sidx thread more)).length_eq
    rw [List.length_cons] at lengths
    rw [runs_emit]
    omega
  room := by
    rw [MergeState.emit, List.length_set, ready.room]

/-- A turn finds the least head and moves it to the output. -/
theorem Ready.turn (size : nums.length = nthr * tnum) (below : ∀ num ∈ nums, num < longMax)
    (ready : state.Ready nthr tnum nums sidx) (more : sidx < nthr * tnum) :
    (state.scan tnum nums nthr).assigned = true ∧
      ∃ i < nthr, (state.scan tnum nums nthr).minidx = some i ∧ state.idx i < (i + 1) * tnum ∧
        (∀ run ∈ state.runs nthr tnum nums, ∀ first ∈ run.head?, state.value nums i ≤ first) ∧
        MergeState.turn tnum nums state nthr sidx = some (state.emit nums sidx i) := by
  have left := ready.left
  have assigned : (state.scan tnum nums nthr).assigned = true := by
    refine scan_assigned size below fun empty => ?_
    rw [empty, List.length_nil] at left
    omega
  obtain ⟨least, found, -⟩ := scan_scanned size state
  obtain ⟨i, thread, minidx, inside, value⟩ := found assigned
  refine ⟨assigned, i, thread, minidx, inside, fun run inRuns first head => ?_, ?_⟩
  · obtain ⟨other, inRange, rfl⟩ := List.mem_map.mp inRuns
    rw [value]
    exact least other (List.mem_range.mp inRange) first head
  · rw [MergeState.turn, minidx, Option.map_some, MergeState.emit]

/-- The reads of a turn are inside the segments they are for. -/
theorem Ready.reads (size : nums.length = nthr * tnum) (below : ∀ num ∈ nums, num < longMax)
    (ready : state.Ready nthr tnum nums sidx) (more : sidx < nthr * tnum) {i position : Nat}
    (read : (i, position) ∈ state.reads tnum nums nthr) :
    i < nthr ∧ i * tnum ≤ position ∧ position < (i + 1) * tnum := by
  obtain ⟨-, least, thread, minidx, inside, -⟩ := ready.turn size below more
  rcases List.mem_append.mp read with compared | emitted
  · obtain ⟨other, member, same⟩ := List.mem_map.mp compared
    obtain ⟨inRange, within⟩ := List.mem_filter.mp member
    obtain ⟨rfl, rfl⟩ := Prod.mk.inj same
    have thread := List.mem_range.mp inRange
    exact ⟨thread, (ready.inside other thread).1, of_decide_eq_true within⟩
  · rw [minidx, Option.map_some, Option.mem_toList] at emitted
    obtain ⟨rfl, rfl⟩ := Prod.mk.inj (Option.some.inj emitted)
    exact ⟨thread, (ready.inside least thread).1, inside⟩

/-! ## The whole merge -/

theorem take_set_succ {values : List Int} {position : Nat} (inside : position < values.length) (value : Int) :
    (values.set position value).take (position + 1) = values.take position ++ [value] := by
  rw [List.take_add_one, List.take_set_of_le (Nat.le_refl position), List.getElem?_set_self inside, Option.toList_some]

/-- The merge writes what comes out of the runs behind what it has written. -/
theorem Ready.turns (size : nums.length = nthr * tnum) (below : ∀ num ∈ nums, num < longMax)
    (ready : state.Ready nthr tnum nums sidx) {count : Nat} (whole : sidx + count = nthr * tnum) :
    ∃ final merged, MergeState.turns tnum nums nthr sidx count state = some final ∧
      Merges (state.runs nthr tnum nums) merged ∧ final.snums = state.snums.take sidx ++ merged := by
  induction count generalizing state sidx with
  | zero =>
    have left := ready.left
    have room := ready.room
    refine ⟨state, [], rfl, .done fun run member => ?_, ?_⟩
    · have empty := List.eq_nil_of_length_eq_zero (by omega : (state.runs nthr tnum nums).flatten.length = 0)
      exact List.flatten_eq_nil_iff.mp empty run member
    · rw [List.append_nil, List.take_of_length_le (by omega)]
  | succ count ih =>
    have room := ready.room
    obtain ⟨-, i, thread, -, inside, least, taken⟩ := ready.turn size below (by omega)
    obtain ⟨final, merged, reached, merges, output⟩ := ih (ready.emit size thread inside) (by omega)
    rw [runs_emit] at merges
    refine ⟨final, state.value nums i :: merged, ?_, .take (runs_getElem? size sidx thread inside) least merges, ?_⟩
    · rw [MergeState.turns, taken, Option.bind_some, reached]
    · rw [output, MergeState.emit, take_set_succ (by omega), List.append_assoc, List.singleton_append]

/-- The state before each turn is ready for it. -/
theorem Ready.before (size : nums.length = nthr * tnum) (below : ∀ num ∈ nums, num < longMax)
    (ready : state.Ready nthr tnum nums sidx) {count : Nat} (within : sidx + count ≤ nthr * tnum) :
    ∃ middle, MergeState.turns tnum nums nthr sidx count state = some middle ∧
      middle.Ready nthr tnum nums (sidx + count) := by
  induction count generalizing state sidx with
  | zero => exact ⟨state, rfl, ready⟩
  | succ count ih =>
    obtain ⟨-, i, thread, -, inside, -, taken⟩ := ready.turn size below (by omega)
    obtain ⟨middle, reached, later⟩ := ih (ready.emit size thread inside) (by omega)
    refine ⟨middle, ?_, ?_⟩
    · rw [MergeState.turns, taken, Option.bind_some, reached]
    · rwa [Nat.add_right_comm, Nat.add_assoc] at later

theorem runs_initial (nthr tnum : Nat) (nums snums : List Int) :
    (initial tnum snums).runs nthr tnum nums = (List.range nthr).map fun i => segment nums (i * tnum) tnum := by
  refine List.map_congr_left fun i _ => ?_
  rw [rest, initial, Nat.add_one_mul, Nat.add_sub_cancel_left]

theorem Ready.initial (size : nums.length = nthr * tnum) {snums : List Int} (room : snums.length = nthr * tnum) :
    (initial tnum snums).Ready nthr tnum nums 0 where
  inside i _ := ⟨Nat.le_refl _, Nat.mul_le_mul_right tnum (Nat.le_succ i)⟩
  left := by
    rw [runs_initial, ← List.flatMap_def, flatMap_segment size, size, Nat.zero_add]
  room := room

end MergeState

/-! ## The threads and the barrier -/

section Sorting
variable {qsort : Qsort} {nthr tnum : Nat} {nums : List Int}

theorem Qsort.Correct.length (correct : qsort.Correct) (segment : List Int) :
    (qsort complong segment).length = segment.length :=
  (correct.perm complong complong_comparison segment).length_eq

theorem getElem?_sortSegment (correct : qsort.Correct) {idx : Nat} (fits : idx + tnum ≤ nums.length) (position : Nat) :
    (sortSegment qsort nums idx tnum)[position]? =
      if idx ≤ position ∧ position < idx + tnum then (qsort complong (segment nums idx tnum))[position - idx]?
      else nums[position]? := by
  have length : (qsort complong (segment nums idx tnum)).length = tnum := by
    rw [correct.length, length_segment fits]
  have front : (nums.take idx).length = idx := List.length_take_of_le (by omega)
  rw [sortSegment, List.getElem?_append, List.getElem?_append, front, length]
  split_ifs with before inside
  · omega
  · rw [List.getElem?_take_of_lt before]
  · rfl
  · omega
  · omega
  · rw [List.getElem?_drop]
    congr 1
    omega

/-- A thread sorts its own segment and leaves the others alone. -/
theorem segment_sortSegment (correct : qsort.Correct) (size : nums.length = nthr * tnum) (i j : Fin nthr) :
    segment (sortSegment qsort nums (i * tnum) tnum) (j * tnum) tnum =
      if j = i then qsort complong (segment nums (i * tnum) tnum) else segment nums (j * tnum) tnum := by
  have within (i : Fin nthr) : i * tnum + tnum ≤ nums.length := by
    have bound : (i + 1) * tnum ≤ nthr * tnum := Nat.mul_le_mul_right tnum i.isLt
    rw [Nat.add_one_mul] at bound
    omega
  have apart {i j : Fin nthr} (before : j < i) : j * tnum + tnum ≤ i * tnum := by
    have bound : (j + 1) * tnum ≤ i * tnum := Nat.mul_le_mul_right tnum before
    rwa [Nat.add_one_mul] at bound
  apply List.ext_getElem?
  intro position
  by_cases below : position < tnum
  · rw [getElem?_segment below, getElem?_sortSegment correct (within i)]
    by_cases same : j = i
    · subst same
      rw [if_pos rfl, if_pos (by omega), Nat.add_sub_cancel_left]
    · rw [if_neg same, getElem?_segment below, if_neg]
      rcases Fin.lt_or_lt_of_ne same with before | behind
      · have bound := apart before
        omega
      · have bound := apart behind
        omega
  · have long : tnum ≤ position := Nat.not_lt.mp below
    rw [List.getElem?_eq_none, List.getElem?_eq_none]
    · split_ifs
      · rwa [correct.length, length_segment (within i)]
      · rwa [length_segment (within j)]
    · rw [segment, List.length_take]
      omega

theorem length_sortSegment (correct : qsort.Correct) {idx : Nat} (fits : idx + tnum ≤ nums.length) :
    (sortSegment qsort nums idx tnum).length = nums.length := by
  rw [sortSegment, List.length_append, List.length_append, correct.length, length_segment fits, List.length_take,
    List.length_drop]
  omega

end Sorting

/-- One if the thread is at the barrier. -/
def ThreadPhase.waits (phase : ThreadPhase) : Nat := if phase = .waiting then 1 else 0

def ThreadPhase.hasSorted (phase : ThreadPhase) : Bool := phase = .sorted ∨ phase = .waiting

/-- One if the main thread has come to the barrier. -/
def MainPhase.waits : MainPhase → Nat
  | .creating _ => 0
  | .waiting | .merging => 1

namespace SortProgram
variable {qsort : Qsort} {nthr tnum : Nat} {nums current : List Int} {thread : Fin nthr → ThreadPhase}
  {program next : SortProgram nthr}

/-- The segments whose threads have sorted them are sorted, and the others are as they were. -/
def SortedBy (qsort : Qsort) (tnum : Nat) (nums current : List Int) (thread : Fin nthr → ThreadPhase) : Prop :=
  ∀ i : Fin nthr, segment current (i * tnum) tnum =
    if (thread i).hasSorted then qsort complong (segment nums (i * tnum) tnum) else segment nums (i * tnum) tnum

theorem SortedBy.update (sortedBy : SortedBy qsort tnum nums current thread) {i : Fin nthr} {phase : ThreadPhase}
    (same : phase.hasSorted = (thread i).hasSorted) :
    SortedBy qsort tnum nums current (Function.update thread i phase) := by
  intro j
  by_cases here : j = i
  · rw [here, Function.update_self, same]
    exact sortedBy i
  · rw [Function.update_of_ne here]
    exact sortedBy j

theorem SortedBy.sort (correct : qsort.Correct) (size : current.length = nthr * tnum)
    (sortedBy : SortedBy qsort tnum nums current thread) {i : Fin nthr} (before : (thread i).hasSorted = false) :
    SortedBy qsort tnum nums (sortSegment qsort current (i * tnum) tnum) (Function.update thread i .sorted) := by
  intro j
  have here := sortedBy i
  rw [before, if_neg Bool.false_ne_true] at here
  rw [segment_sortSegment correct size]
  by_cases same : j = i
  · rw [if_pos same, same, Function.update_self, here]
    rfl
  · rw [if_neg same, Function.update_of_ne same]
    exact sortedBy j

/-- What the barrier has counted. -/
structure Held (qsort : Qsort) (tnum : Nat) (nums : List Int) (program : SortProgram nthr) : Prop where
  size : program.nums.length = nthr * tnum
  sortedBy : SortedBy qsort tnum nums program.nums program.thread
  created : ∀ k, program.main = .creating k → ∀ i : Fin nthr, k ≤ i → program.thread i = .absent
  arrived : program.arrived = tally ThreadPhase.waits program.thread + program.main.waits
  released : program.main = .merging → ∀ i, program.thread i = .waiting

theorem Held.start (qsort : Qsort) (size : nums.length = nthr * tnum) : (start nthr nums).Held qsort tnum nums where
  size := size
  sortedBy _ := rfl
  created _ _ _ _ := rfl
  arrived := by
    have nobody : tally ThreadPhase.waits (fun _ : Fin nthr => .absent) = 0 := tally_eq_zero.mpr fun _ => rfl
    rw [SortProgram.start, nobody]
    rfl
  released := nofun

/-- While a thread is not at the barrier, the main thread does not merge; and a thread that
exists is not one of those still to be created. -/
theorem Held.phase (held : program.Held qsort tnum nums) {i : Fin nthr} {phase : ThreadPhase}
    (here : program.thread i = phase) (notWaiting : phase ≠ .waiting) (notAbsent : phase ≠ .absent) :
    program.main ≠ .merging ∧ ∀ k, program.main = .creating k → (i : Nat) < k := by
  refine ⟨fun merging => notWaiting (here.symm.trans (held.released merging i)), fun k main => ?_⟩
  by_contra behind
  exact notAbsent (here.symm.trans (held.created k main i (Nat.not_lt.mp behind)))

/-- A step of a thread that exists and is not at the barrier. -/
theorem Held.advance (held : program.Held qsort tnum nums) {i : Fin nthr} {before after : ThreadPhase}
    (here : program.thread i = before) (notWaiting : before ≠ .waiting) (notAbsent : before ≠ .absent)
    (size : current.length = nthr * tnum)
    (sortedBy : SortedBy qsort tnum nums current (Function.update program.thread i after)) :
    Held qsort tnum nums { program with
      nums := current, thread := Function.update program.thread i after, arrived := program.arrived + after.waits } where
  size := size
  sortedBy := sortedBy
  created k main j behind := by
    have order := (held.phase here notWaiting notAbsent).2 k main
    have other : j ≠ i := by
      rintro rfl
      omega
    simpa [Function.update_of_ne other] using held.created k main j behind
  arrived := by
    have count := tally_update ThreadPhase.waits program.thread i after
    have nobody : (program.thread i).waits = 0 := if_neg (here ▸ notWaiting)
    have arrived := held.arrived
    simp only
    omega
  released merging := absurd merging (held.phase here notWaiting notAbsent).1

/-- `main` starts the next thread, or goes on without it. -/
theorem Held.create (held : program.Held qsort tnum nums) {succeeds : Bool}
    (taken : step qsort tnum program (.create succeeds) = some next) : next.Held qsort tnum nums := by
  simp only [SortProgram.step] at taken
  split at taken
  · next k main =>
    obtain ⟨size, sortedBy, created, arrived, -⟩ := held
    have later : ∀ i : Fin nthr, k + 1 ≤ i → program.thread i = .absent := fun i behind =>
      created k main i (by omega)
    rw [main] at arrived
    split_ifs at taken with inside made
    · cases taken
      have absent := created k main ⟨k, inside⟩ (Nat.le_refl k)
      have count := tally_update ThreadPhase.waits program.thread ⟨k, inside⟩ .created
      rw [absent] at count
      refine ⟨size, sortedBy.update (by rw [absent]; rfl), fun other same i behind => ?_, ?_, nofun⟩
      · cases same
        have apart : i ≠ ⟨k, inside⟩ := by
          rintro rfl
          exact absurd behind (by simp)
        simpa [Function.update_of_ne apart] using later i behind
      · exact arrived.trans (congrArg (· + 0) count.symm)
    · cases taken
      exact ⟨size, sortedBy, fun other same => by cases same; exact later, arrived, nofun⟩
  · cases taken

/-- With the barrier full, every thread has come to it. -/
theorem Held.everybody (held : program.Held qsort tnum nums) (main : program.main = .waiting)
    (full : program.arrived = nthr + 1) (i : Fin nthr) : program.thread i = .waiting := by
  have arrived := held.arrived
  rw [main] at arrived
  have everybody : tally ThreadPhase.waits program.thread = Fintype.card (Fin nthr) := by
    rw [Fintype.card_fin]
    exact Nat.add_right_cancel (arrived.symm.trans full)
  have one := tally_full (fun phase => by unfold ThreadPhase.waits; split <;> omega) everybody i
  by_contra elsewhere
  rw [ThreadPhase.waits, if_neg elsewhere] at one
  cases one

theorem Held.step (correct : qsort.Correct) (held : program.Held qsort tnum nums) {label : Label nthr}
    (taken : step qsort tnum program label = some next) : next.Held qsort tnum nums := by
  have within (i : Fin nthr) : i * tnum + tnum ≤ program.nums.length := by
    have bound : (i + 1) * tnum ≤ nthr * tnum := Nat.mul_le_mul_right tnum i.isLt
    rw [Nat.add_one_mul] at bound
    rw [held.size]
    exact bound
  cases label with
  | create succeeds => exact held.create taken
  | sort i =>
    simp only [SortProgram.step, Option.ite_none_right_eq_some, Option.some.injEq] at taken
    obtain ⟨phase, rfl⟩ := taken
    exact held.advance phase nofun nofun ((length_sortSegment correct (within i)).trans held.size)
      (held.sortedBy.sort correct held.size (by rw [phase]; rfl))
  | threadWait i =>
    simp only [SortProgram.step, Option.ite_none_right_eq_some, Option.some.injEq] at taken
    obtain ⟨phase, rfl⟩ := taken
    exact held.advance phase nofun nofun held.size (held.sortedBy.update (by rw [phase]; rfl))
  | mainWait =>
    simp only [SortProgram.step, Option.ite_none_right_eq_some, Option.some.injEq] at taken
    obtain ⟨main, rfl⟩ := taken
    have arrived := held.arrived
    rw [main] at arrived
    exact ⟨held.size, held.sortedBy, nofun, congrArg (· + 1) arrived, nofun⟩
  | release =>
    simp only [SortProgram.step, Option.ite_none_right_eq_some, Option.some.injEq] at taken
    obtain ⟨⟨main, full⟩, rfl⟩ := taken
    have arrived := held.arrived
    rw [main] at arrived
    exact ⟨held.size, held.sortedBy, nofun, arrived, fun _ => held.everybody main full⟩

/-- Behind the barrier the array consists of the sorted segments. -/
theorem Held.merging (held : program.Held qsort tnum nums) (merging : program.main = .merging) (i : Fin nthr) :
    segment program.nums (i * tnum) tnum = qsort complong (segment nums (i * tnum) tnum) := by
  have here := held.sortedBy i
  rw [held.released merging i] at here
  exact here

theorem Held.merging_perm (correct : qsort.Correct) (size : nums.length = nthr * tnum)
    (held : program.Held qsort tnum nums) (merging : program.main = .merging) : program.nums.Perm nums := by
  rw [← flatMap_segment held.size, ← flatMap_segment size]
  refine List.Perm.flatMap_left _ fun i member => ?_
  rw [held.merging merging ⟨i, List.mem_range.mp member⟩]
  exact correct.perm complong complong_comparison _

/-- The parallel sort is a sort. In every run of the threads the merge starts with its segments
sorted, reads them at cursors that are inside, assigns `minidx` in every turn, and leaves the
values of `nums` in ascending order. -/
theorem parallel_sort_sorts (qsort : Qsort) (correct : qsort.Correct) (nthr tnum : Nat) (nums : List Int)
    (size : nums.length = nthr * tnum) (below : ∀ num ∈ nums, num < longMax) (labels : List (Label nthr))
    (program : SortProgram nthr) (reached : run (step qsort tnum) (start nthr nums) labels = some program)
    (merging : program.main = .merging) (snums : List Int) (room : snums.length = nthr * tnum) :
    (∀ sidx < nthr * tnum, ∃ state,
      MergeState.turns tnum program.nums nthr 0 sidx (.initial tnum snums) = some state ∧
        (state.scan tnum program.nums nthr).assigned = true ∧
        ∀ i position, (i, position) ∈ state.reads tnum program.nums nthr →
          i < nthr ∧ i * tnum ≤ position ∧ position < (i + 1) * tnum) ∧
      ∃ final, merge nthr tnum program.nums snums = some final ∧
        final.snums.Perm nums ∧ final.snums.Pairwise (· ≤ ·) := by
  have held : program.Held qsort tnum nums :=
    run_invariant (fun _ _ _ held taken => Held.step correct held taken) (Held.start qsort size) reached
  have perm := held.merging_perm correct size merging
  have small : ∀ num ∈ program.nums, num < longMax := fun num member => below num (perm.subset member)
  have ready := MergeState.Ready.initial held.size room
  refine ⟨fun sidx within => ?_, ?_⟩
  · obtain ⟨state, before, here⟩ := ready.before held.size small (by omega : 0 + sidx ≤ nthr * tnum)
    rw [Nat.zero_add] at here
    exact ⟨state, before, (here.turn held.size small within).1, fun i position read =>
      here.reads held.size small within read⟩
  · obtain ⟨final, merged, finished, merges, output⟩ := ready.turns held.size small (Nat.zero_add _)
    rw [MergeState.runs_initial] at merges
    rw [List.take_zero, List.nil_append] at output
    refine ⟨final, finished, ?_, ?_⟩
    · rw [output]
      refine merges.perm.trans ?_
      rw [← List.flatMap_def, flatMap_segment held.size]
      exact perm
    · rw [output]
      refine merges.sorted fun run member => ?_
      obtain ⟨i, inRange, rfl⟩ := List.mem_map.mp member
      rw [held.merging merging ⟨i, List.mem_range.mp inRange⟩]
      exact (correct.sorted complong complong_comparison _).imp fun ordered => (complong_nonpos _ _).mp ordered

/-- A correct `qsort`. -/
def mergingQsort : Qsort := fun compar segment => segment.mergeSort fun left right => compar left right ≤ 0

theorem mergingQsort_correct : mergingQsort.Correct where
  perm _ _ segment := List.mergeSort_perm segment _
  sorted compar comparison segment := by
    have ordered := @List.pairwise_mergeSort _ (fun left right => decide (compar left right ≤ 0))
      (fun left middle right => by simpa using comparison.trans left middle right)
      (fun left right => by simpa using comparison.total left right) segment
    exact ordered.imp of_decide_eq_true

/-- Two threads with three numbers each, the second one first. -/
theorem parallel_sort_sorts_two :
    ∃ program, run (step mergingQsort 3) (start 2 [7, 2, 2, 9, 0, 2])
        [.create true, .create true, .sort 1, .threadWait 1, .mainWait, .sort 0, .threadWait 0, .release] = some program ∧
      ∃ final, merge 2 3 program.nums [0, 0, 0, 0, 0, 0] = some final ∧
        final.snums.Perm [7, 2, 2, 9, 0, 2] ∧ final.snums.Pairwise (· ≤ ·) := by
  have computed : (run (step mergingQsort 3) (start 2 [7, 2, 2, 9, 0, 2])
      [.create true, .create true, .sort 1, .threadWait 1, .mainWait, .sort 0, .threadWait 0, .release]).map
        SortProgram.main = some .merging := rfl
  obtain ⟨program, reached, merging⟩ := Option.map_eq_some_iff.mp computed
  exact ⟨program, reached, (parallel_sort_sorts mergingQsort mergingQsort_correct 2 3 [7, 2, 2, 9, 0, 2] rfl
    (by decide) _ program reached merging [0, 0, 0, 0, 0, 0] rfl).2⟩

end SortProgram
end UnixProgramming.Apue
