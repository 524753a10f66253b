import Mathlib.Algebra.GroupWithZero.Nat
import Mathlib.Logic.Function.Basic
import UnixProgramming.Lib.LinkedStore
import UnixProgramming.Lib.Run

/-! The time wheel of `time_wheel_timer.h`: an array of unordered doubly linked
timer lists that a tick turns by one slot. -/

namespace UnixProgramming.Timer

open UnixProgramming.Lib

/-- The number of slots of the wheel. -/
abbrev N : Nat := 60

instance : NeZero N := ⟨Nat.succ_ne_zero 59⟩

/-- The slot interval in seconds. -/
abbrev SI : Nat := 1

/-- The fields of `tw_timer` besides its links. -/
structure TwTimer (κ : Type) where
  rotation : Nat
  timeSlot : Fin N
  cbFunc : Option Nat
  userData : Option κ
deriving DecidableEq, Repr

structure TimeWheel (κ : Type) where
  store : Store (TwTimer κ)
  slots : Fin N → Option Nat
  curSlot : Fin N

variable {κ : Type}

namespace TimeWheel

def empty : TimeWheel κ := ⟨∅, fun _ => none, 0⟩

/-- The number of slots the wheel turns before a timer takes effect. -/
def ticksOf (timeout : Int) : Nat := if timeout < SI then 1 else timeout.toNat / SI

/-- `add_timer`, where `new tw_timer` returns the address `timer`. -/
def addTimer (wheel : TimeWheel κ) (timer : Nat) (timeout : Int) : Option (Option Nat × TimeWheel κ) :=
  if timeout < 0 then some (none, wheel)
  else do
    let ticks := ticksOf timeout
    let rotation := ticks / N
    let ts : Fin N := Fin.ofNat N (wheel.curSlot + ticks % N)
    let store ← wheel.store.alloc timer ⟨rotation, ts, none, none⟩
    match wheel.slots ts with
    | none => return (some timer, { wheel with store := store, slots := Function.update wheel.slots ts (some timer) })
    | some head =>
      let store ← store.setNext timer (some head)
      let store ← store.setPrev head (some timer)
      return (some timer, { wheel with store := store, slots := Function.update wheel.slots ts (some timer) })

/-- The statements by which both `del_timer` and `tick` take out a timer that is
not the first of its slot. -/
def unlinkInner (store : Store (TwTimer κ)) (timer : Nat) : Option (Store (TwTimer κ)) := do
  let cell ← store.load timer
  let prev ← cell.prev
  let store ← store.setNext prev cell.next
  let store ← store.linkPrev cell.next (some prev)
  store.free timer

def delTimer (wheel : TimeWheel κ) : Option Nat → Option (TimeWheel κ)
  | none => some wheel
  | some timer => do
    let cell ← wheel.store.load timer
    let ts := cell.data.timeSlot
    if some timer = wheel.slots ts then
      let store ← wheel.store.linkPrev cell.next none
      let store ← store.free timer
      return { wheel with store := store, slots := Function.update wheel.slots ts cell.next }
    else
      let store ← unlinkInner wheel.store timer
      return { wheel with store := store }

/-- The `while (tmp)` loop of `tick`, with the timers whose callbacks it runs.
A null callback has no effect to model, so it fails. -/
def tickLoop : Nat → TimeWheel κ → Option Nat → Option (List (Nat × TwTimer κ) × TimeWheel κ)
  | _, wheel, none => some ([], wheel)
  | 0, _, some _ => none
  | fuel + 1, wheel, some tmp => do
    let cell ← wheel.store.load tmp
    if 0 < cell.data.rotation then
      let store ← wheel.store.setData tmp { cell.data with rotation := cell.data.rotation - 1 }
      tickLoop fuel { wheel with store := store } cell.next
    else
      let _ ← cell.data.cbFunc
      if some tmp = wheel.slots wheel.curSlot then
        let store ← wheel.store.free tmp
        let store ← store.linkPrev cell.next none
        let (fired, wheel) ← tickLoop fuel
          { wheel with store := store, slots := Function.update wheel.slots wheel.curSlot cell.next } cell.next
        return ((tmp, cell.data) :: fired, wheel)
      else
        let store ← unlinkInner wheel.store tmp
        let (fired, wheel) ← tickLoop fuel { wheel with store := store } cell.next
        return ((tmp, cell.data) :: fired, wheel)

def tick (wheel : TimeWheel κ) : Option (List (Nat × TwTimer κ) × TimeWheel κ) := do
  let (fired, wheel) ← tickLoop wheel.store.size wheel (wheel.slots wheel.curSlot)
  return (fired, { wheel with curSlot := Fin.ofNat N (wheel.curSlot + 1) })

end TimeWheel

/-- One use of the wheel. `add` stands for `add_timer` and the assignments to
`cb_func` and `user_data` of the timer it returns. -/
inductive WheelOp (κ : Type) where
  | add (timer : Nat) (timeout : Int) (cbFunc : Nat) (userData : κ)
  | del (timer : Nat)
  | tick
deriving DecidableEq, Repr

/-- Run one operation on the wheel; the first component is what a tick fired. -/
def execWheel (wheel : TimeWheel κ) : WheelOp κ → Option (List (Nat × TwTimer κ) × TimeWheel κ)
  | .add timer timeout cbFunc userData => do
    let (returned, wheel) ← wheel.addTimer timer timeout
    let timer ← returned
    let cell ← wheel.store.load timer
    let store ← wheel.store.setData timer { cell.data with cbFunc := some cbFunc, userData := some userData }
    return ([], { wheel with store := store })
  | .del timer => do
    let wheel ← wheel.delTimer (some timer)
    return ([], wheel)
  | .tick => wheel.tick

/-- The wheel after a sequence of operations. -/
def runWheel : List (WheelOp κ) → Option (TimeWheel κ) :=
  run (fun wheel op => (execWheel wheel op).map Prod.snd) .empty

/-- The remaining count of a timer in the wheel. -/
def TimeWheel.remaining (wheel : TimeWheel κ) (timer : Nat) : Option Nat :=
  (wheel.store.load timer).map fun cell =>
    N * cell.data.rotation + (cell.data.timeSlot + N - wheel.curSlot) % N

end UnixProgramming.Timer
