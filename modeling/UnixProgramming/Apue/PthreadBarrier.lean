import Mathlib.Algebra.Group.Int.Defs
import Mathlib.Data.Int.Order.Basic
import Mathlib.Logic.Function.Basic
import UnixProgramming.Lib.Run

/-! The parallel sort: threads that sort one segment each, a barrier, and the merge behind
it. `qsort` is a parameter, and a thread's call of it is one step, as no other thread has a
part in its segment. -/

namespace UnixProgramming.Apue

/-- `LONG_MAX`. -/
def longMax : Int := 2 ^ 63 - 1

def complong (l1 l2 : Int) : Int := if l1 = l2 then 0 else if l1 < l2 then -1 else 1

/-- `qsort` on a segment. -/
abbrev Qsort := (Int → Int → Int) → List Int → List Int

/-- The function orders all values. -/
structure Comparison (compar : Int → Int → Int) : Prop where
  total : ∀ left right, compar left right ≤ 0 ∨ compar right left ≤ 0
  trans : ∀ left middle right, compar left middle ≤ 0 → compar middle right ≤ 0 → compar left right ≤ 0

/-- What `qsort` promises to callers that pass such a function. -/
structure Qsort.Correct (qsort : Qsort) : Prop where
  perm : ∀ compar, Comparison compar → ∀ segment, (qsort compar segment).Perm segment
  sorted : ∀ compar, Comparison compar → ∀ segment, (qsort compar segment).Pairwise (compar · · ≤ 0)

/-- The `count` elements of an array from `start` on. -/
def segment (nums : List Int) (start count : Nat) : List Int := (nums.drop start).take count

/-- `heapsort(&nums[idx], TNUM, sizeof(long), complong)`. -/
def sortSegment (qsort : Qsort) (nums : List Int) (idx tnum : Nat) : List Int :=
  nums.take idx ++ (qsort complong (segment nums idx tnum) ++ nums.drop (idx + tnum))

/-! ## Threads -/

/-- Where a thread is in `thr_fn`. -/
inductive ThreadPhase where
  | absent
  | created
  | sorted
  | waiting
  deriving DecidableEq, Repr

inductive MainPhase where
  /-- In the loop of `pthread_create`. -/
  | creating (i : Nat)
  | waiting
  | merging
  deriving DecidableEq, Repr

structure SortProgram (nthr : Nat) where
  nums : List Int
  thread : Fin nthr → ThreadPhase
  main : MainPhase
  /-- How many have come to `pthread_barrier_wait`. -/
  arrived : Nat

namespace SortProgram

inductive Label (nthr : Nat) where
  /-- `pthread_create` and whether it succeeds. -/
  | create (succeeds : Bool)
  | sort (i : Fin nthr)
  | threadWait (i : Fin nthr)
  | mainWait
  /-- The barrier lets everybody go. -/
  | release
  deriving DecidableEq, Repr

/-- With `nums` filled and the barrier initialised. -/
def start (nthr : Nat) (nums : List Int) : SortProgram nthr := ⟨nums, fun _ => .absent, .creating 0, 0⟩

def step {nthr : Nat} (qsort : Qsort) (tnum : Nat) (program : SortProgram nthr) :
    Label nthr → Option (SortProgram nthr)
  | .create succeeds =>
    match program.main with
    | .creating i =>
      if inside : i < nthr then
        some { program with
          thread := if succeeds then Function.update program.thread ⟨i, inside⟩ .created else program.thread
          main := .creating (i + 1) }
      else none
    | _ => none
  | .sort i =>
    if program.thread i = .created then
      some { program with
        nums := sortSegment qsort program.nums (i * tnum) tnum
        thread := Function.update program.thread i .sorted }
    else none
  | .threadWait i =>
    if program.thread i = .sorted then
      some { program with thread := Function.update program.thread i .waiting, arrived := program.arrived + 1 }
    else none
  | .mainWait =>
    if program.main = .creating nthr then some { program with main := .waiting, arrived := program.arrived + 1 }
    else none
  | .release =>
    if program.main = .waiting ∧ program.arrived = nthr + 1 then some { program with main := .merging } else none

end SortProgram

/-! ## The merge -/

/-- The variables of `merge`; `minidx` is not initialised. -/
structure MergeState where
  idx : Nat → Nat
  minidx : Option Nat
  snums : List Int

/-- `num` and `minidx` in the inner loop, and whether `minidx` has been assigned in it. -/
structure Minimum where
  num : Int
  minidx : Option Nat
  assigned : Bool
  deriving DecidableEq, Repr

namespace MergeState
variable (tnum : Nat) (nums : List Int) (state : MergeState)

/-- `nums[idx[i]]`. -/
def value (i : Nat) : Int := nums.getD (state.idx i) 0

/-- One turn of the inner loop. -/
def compare (minimum : Minimum) (i : Nat) : Minimum :=
  if state.idx i < (i + 1) * tnum ∧ state.value nums i < minimum.num then ⟨state.value nums i, some i, true⟩
  else minimum

/-- The inner loop. -/
def scan (nthr : Nat) : Minimum := (List.range nthr).foldl (state.compare tnum nums) ⟨longMax, state.minidx, false⟩

/-- The reads `nums[idx[i]]` of one turn of the outer loop, with the segment they are for. -/
def reads (nthr : Nat) : List (Nat × Nat) :=
  ((List.range nthr).filter fun i => state.idx i < (i + 1) * tnum).map (fun i => (i, state.idx i)) ++
    ((state.scan tnum nums nthr).minidx.map fun minidx => (minidx, state.idx minidx)).toList

/-- One turn of the outer loop; none when `minidx` holds nothing. -/
def turn (nthr sidx : Nat) : Option MergeState :=
  (state.scan tnum nums nthr).minidx.map fun minidx =>
    { idx := Function.update state.idx minidx (state.idx minidx + 1)
      minidx := some minidx
      snums := state.snums.set sidx (state.value nums minidx) }

/-- So many turns from `sidx` on. -/
def turns (nthr : Nat) : Nat → Nat → MergeState → Option MergeState
  | _, 0, state => some state
  | sidx, count + 1, state => (turn tnum nums state nthr sidx).bind (turns nthr (sidx + 1) count)

/-- What is in `idx` after the first loop. -/
def initial (tnum : Nat) (snums : List Int) : MergeState := ⟨fun i => i * tnum, none, snums⟩

end MergeState

/-- `merge` into the array `snums`. -/
def merge (nthr tnum : Nat) (nums snums : List Int) : Option MergeState :=
  MergeState.turns tnum nums nthr 0 (nthr * tnum) (.initial tnum snums)

example : (merge 2 3 [1, 4, 4, 0, 4, 9] (List.replicate 6 0)).map (·.snums) = some [0, 1, 4, 4, 4, 9] := by decide

end UnixProgramming.Apue
