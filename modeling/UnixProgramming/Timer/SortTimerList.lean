import UnixProgramming.Lib.LinkedStore
import UnixProgramming.Lib.Run

/-! The ascending timer list of `sigalrm_list_timer.h`: a doubly linked list of
`util_timer` nodes kept by `head` and `tail`. Every pointer operation of the
header is one store operation here, in the same order; a null or freed pointer
makes the whole operation `none`. -/

namespace UnixProgramming.Timer

open UnixProgramming.Lib

/-- The fields of `util_timer` besides its links. A callback is known by the
address of its function, and `κ` is the type of `client_data` pointers. -/
structure UtilTimer (κ : Type) where
  expire : Int
  cbFunc : Option Nat
  userData : κ
deriving DecidableEq, Repr

structure SortTimerList (κ : Type) where
  store : Store (UtilTimer κ)
  head : Option Nat
  tail : Option Nat

variable {κ : Type}

namespace SortTimerList

def empty : SortTimerList κ := ⟨∅, none, none⟩

/-- The `while (tmp)` loop of the private `add_timer`. The `!tmp` case is also
the code after the loop: the timer has the largest timeout and becomes `tail`. -/
def addTimerLoop (timer : Nat) : Nat → SortTimerList κ → Nat → Option Nat → Option (SortTimerList κ)
  | _, list, prev, none => do
    let store ← list.store.setNext prev (some timer)
    let store ← store.setPrev timer (some prev)
    let store ← store.setNext timer none
    return { list with store := store, tail := some timer }
  | 0, _, _, some _ => none
  | fuel + 1, list, prev, some tmp => do
    let timerCell ← list.store.load timer
    let tmpCell ← list.store.load tmp
    if timerCell.data.expire < tmpCell.data.expire then
      let store ← list.store.setNext prev (some timer)
      let store ← store.setNext timer (some tmp)
      let store ← store.setPrev tmp (some timer)
      let store ← store.setPrev timer (some prev)
      return { list with store := store }
    else
      addTimerLoop timer fuel list tmp tmpCell.next

/-- `add_timer(timer, lst_head)`: insert into the part of the list after `lst_head`. -/
def addTimerAfter (list : SortTimerList κ) (timer lstHead : Nat) : Option (SortTimerList κ) := do
  let cell ← list.store.load lstHead
  addTimerLoop timer list.store.size list lstHead cell.next

def addTimer (list : SortTimerList κ) : Option Nat → Option (SortTimerList κ)
  | none => some list
  | some timer =>
    match list.head with
    | none => some { list with head := some timer, tail := some timer }
    | some head => do
      let timerCell ← list.store.load timer
      let headCell ← list.store.load head
      if timerCell.data.expire < headCell.data.expire then
        let store ← list.store.setNext timer (some head)
        let store ← store.setPrev head (some timer)
        return { list with store := store, head := some timer }
      else
        list.addTimerAfter timer head

def adjustTimer (list : SortTimerList κ) : Option Nat → Option (SortTimerList κ)
  | none => some list
  | some timer => do
    let cell ← list.store.load timer
    match cell.next with
    | none => return list
    | some tmp =>
      let tmpCell ← list.store.load tmp
      if cell.data.expire < tmpCell.data.expire then
        return list
      else if some timer = list.head then
        -- `head = head->next` makes `tmp` the head the timer is inserted after
        let store ← list.store.setPrev tmp none
        let store ← store.setNext timer none
        addTimerAfter { list with store := store, head := some tmp } timer tmp
      else
        let prev ← cell.prev
        let store ← list.store.setNext prev (some tmp)
        let store ← store.setPrev tmp (some prev)
        addTimerAfter { list with store := store } timer tmp

def delTimer (list : SortTimerList κ) : Option Nat → Option (SortTimerList κ)
  | none => some list
  | some timer => do
    if some timer = list.head ∧ some timer = list.tail then
      let store ← list.store.free timer
      return ⟨store, none, none⟩
    else if some timer = list.head then
      let cell ← list.store.load timer
      let next ← cell.next
      let store ← list.store.setPrev next none
      let store ← store.free timer
      return { list with store := store, head := some next }
    else if some timer = list.tail then
      let cell ← list.store.load timer
      let prev ← cell.prev
      let store ← list.store.setNext prev none
      let store ← store.free timer
      return { list with store := store, tail := some prev }
    else
      let cell ← list.store.load timer
      let prev ← cell.prev
      let next ← cell.next
      let store ← list.store.setNext prev (some next)
      let store ← store.setPrev next (some prev)
      let store ← store.free timer
      return { list with store := store }

/-- The `while (tmp)` loop of `tick` at clock reading `cur`, with the nodes
whose callbacks it runs. A null callback has no effect to model, so it fails;
`tail` is not touched, also when the list runs empty. -/
def tickLoop (cur : Int) : Nat → SortTimerList κ → Option Nat →
    Option (List (Nat × UtilTimer κ) × SortTimerList κ)
  | _, list, none => some ([], list)
  | 0, _, some _ => none
  | fuel + 1, list, some tmp => do
    let cell ← list.store.load tmp
    if cur < cell.data.expire then
      return ([], list)
    else
      let _ ← cell.data.cbFunc
      let store ← list.store.linkPrev cell.next none
      let store ← store.free tmp
      let (fired, list) ← tickLoop cur fuel { list with store := store, head := cell.next } cell.next
      return ((tmp, cell.data) :: fired, list)

def tick (list : SortTimerList κ) (cur : Int) :
    Option (List (Nat × UtilTimer κ) × SortTimerList κ) :=
  match list.head with
  | none => some ([], list)
  | some head => tickLoop cur list.store.size list (some head)

/-- The addresses met by following `next` from `head`. -/
def forward (list : SortTimerList κ) : Option (List Nat) :=
  walk list.store Cell.next list.store.size list.head

/-- The addresses met by following `prev` from `tail`. -/
def backward (list : SortTimerList κ) : Option (List Nat) :=
  walk list.store Cell.prev list.store.size list.tail

end SortTimerList

/-- One use of the list. `add` stands for `new util_timer` with its fields set
and `add_timer`; `adjust` for an assignment to `expire` and `adjust_timer`. -/
inductive ListOp (κ : Type) where
  | add (timer : Nat) (fields : UtilTimer κ)
  | adjust (timer : Nat) (expire : Int)
  | del (timer : Nat)
  | tick (cur : Int)
deriving DecidableEq, Repr

/-- Run one operation on the list; the first component is what a tick fired. -/
def execList (list : SortTimerList κ) : ListOp κ → Option (List (Nat × UtilTimer κ) × SortTimerList κ)
  | .add timer fields => do
    let store ← list.store.alloc timer fields
    let list ← SortTimerList.addTimer { list with store := store } (some timer)
    return ([], list)
  | .adjust timer expire => do
    let cell ← list.store.load timer
    let store ← list.store.setData timer { cell.data with expire := expire }
    let list ← SortTimerList.adjustTimer { list with store := store } (some timer)
    return ([], list)
  | .del timer => do
    let list ← list.delTimer (some timer)
    return ([], list)
  | .tick cur => list.tick cur

/-- A state together with what each operation so far has fired. -/
structure Logged (σ κ : Type) where
  state : σ
  fired : List (List (Nat × UtilTimer κ))
deriving DecidableEq, Repr

def logStep {σ : Type} (exec : σ → ListOp κ → Option (List (Nat × UtilTimer κ) × σ))
    (logged : Logged σ κ) (op : ListOp κ) : Option (Logged σ κ) :=
  (exec logged.state op).map fun outcome =>
    ⟨outcome.2, logged.fired ++ [outcome.1]⟩

/-- The list under a sequence of operations, with its firing log. -/
def runList : List (ListOp κ) → Option (Logged (SortTimerList κ) κ) :=
  run (logStep execList) ⟨.empty, []⟩

end UnixProgramming.Timer
