import Mathlib.Logic.Relation
import UnixProgramming.Timer.HeapPop

/-! `tick` of the time heap. Its pops leave the last entry where it is, so the loop
runs over heaps whose last entry may be out of order. -/

namespace UnixProgramming.Timer

open UnixProgramming.Lib

namespace TimeHeap

section Loop
variable {timers : Timers} {cur : Int}

theorem tickLoop_stop {size : Nat} {heap : TimeHeap} {address : Nat} {timer : HeapTimer}
    (known : timers address = some timer) (later : cur < timer.expire) :
    tickLoop cur (size + 1) timers heap (some address) = some (timers, heap, []) := by
  simp only [tickLoop, known, Option.bind_eq_bind, Option.bind_some, if_pos later]
  rfl

theorem tickLoop_pop {size : Nat} {heap nextHeap : TimeHeap} {nextTimers : Timers} {address : Nat} {tmp : Option Nat}
    (root : heap.array[0]? = some (some address)) (own : Live timers (some address))
    (isDue : due timers cur (some address)) (popped : popTimer timers heap = some (nextTimers, nextHeap))
    (nextRoot : nextHeap.array[0]? = some tmp) :
    tickLoop cur (size + 1) timers heap (some address) = (tickLoop cur size nextTimers nextHeap tmp).map
      fun (after, final, later) => (after, final, (callOf timers (some address)).toList ++ later) := by
  obtain ⟨timer, known⟩ := own
  have found : timers address = some timer := known
  have soon : ¬cur < timer.expire := by
    have le : expireAt timers (some address) ≤ cur := of_decide_eq_true isDue
    rw [expireAt_of_deref known] at le
    omega
  have calls : callback timers heap = some (callOf timers (some address)).toList := by
    simp only [callback, root, known, callOf, timerAt_of_deref known, Option.bind_eq_bind, Option.bind_some]
    cases timer.cbFunc <;> rfl
  simp only [tickLoop, found, calls, popped, nextRoot, Option.bind_eq_bind, Option.bind_some, if_neg soon]
  cases tickLoop cur size nextTimers nextHeap tmp <;> rfl

section Turn
variable {front rest : List (Option Nat)} {last : Option Nat} {address : Nat}

end Turn

/-- The entries that were taken out led to timers of their own. -/
def PopsApart (timers : Timers) (used : List (Option Nat)) (final : TimeHeap) : Prop :=
  ∃ popped : List (Option Nat), popped.Nodup ∧ (popped ++ final.entries).Perm used ∧
    ∀ pointer ∈ popped, Live timers pointer

theorem PopsApart.stop {used : List (Option Nat)} (rest : List (Option Nat)) :
    PopsApart timers used ⟨used ++ rest, used.length⟩ := by
  refine ⟨[], List.nodup_nil, ?_, by simp⟩
  rw [entries_append]
  exact List.Perm.refl used

theorem PopsApart.pop {used next : List (Option Nat)} {final : TimeHeap} {address : Nat}
    (own : Live timers (some address)) (split : (some address :: next).Perm used)
    (later : PopsApart (Function.update timers address none) next final) : PopsApart timers used final := by
  obtain ⟨others, distinct, parts, live⟩ := later
  have gone : some address ∉ others := fun again => not_live_free (live _ again)
  refine ⟨some address :: others, List.nodup_cons.mpr ⟨gone, distinct⟩, (parts.cons _).trans split, fun pointer member => ?_⟩
  rcases List.mem_cons.mp member with rfl | other
  · exact own
  · have apart : pointer ≠ some address := fun same => gone (same ▸ other)
    have alive := live pointer other
    rwa [Live, deref_free_ne apart] at alive

end Loop

section Delete
variable {timers cleared : Timers}

end Delete

end TimeHeap

end UnixProgramming.Timer
