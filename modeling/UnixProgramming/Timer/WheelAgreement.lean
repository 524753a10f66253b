import UnixProgramming.Lib.Trace
import UnixProgramming.Timer.ListRefinement
import UnixProgramming.Timer.WheelCountdown

/-! The two timer containers seen by one client. The wheel finds what is due in one
slot, the ascending list by comparing timeouts with the clock; a client that uses
either of them gets the same callbacks at the same ticks. -/

namespace UnixProgramming.Timer

open UnixProgramming.Lib

variable {κ : Type} {wheel : TimeWheel κ} {lists : Fin N → List (Nat × TwTimer κ)} {timer : Nat}

/-- What a callback is told apart by: the timer it belongs to, the function and its argument. -/
abbrev Callback (κ : Type) := Nat × Option Nat × Option κ

def wheelCallback (node : Nat × TwTimer κ) : Callback κ := (node.1, node.2.cbFunc, node.2.userData)

def listCallback (node : Nat × UtilTimer κ) : Callback κ := (node.1, node.2.cbFunc, some node.2.userData)

/-- A client of the sorted list that calls `tick` once every slot interval, with
`clock` the intervals its clock has counted. -/
structure ListClient (κ : Type) where
  list : SortTimerList κ
  clock : Int

/-- The use of the list that stands for a use of the wheel: the timeout becomes an
absolute time, no earlier than the next tick. -/
def listOp (clock : Int) : WheelOp κ → ListOp κ
  | .add timer timeout cbFunc userData =>
    .add timer ⟨clock + (max 1 (timeout.toNat / SI) : Nat), some cbFunc, userData⟩
  | .del timer => .del timer
  | .tick => .tick clock

def clockAfter (clock : Int) : WheelOp κ → Int
  | .tick => clock + 1
  | _ => clock

def execListClient (client : ListClient κ) (op : WheelOp κ) :
    Option (List (Nat × UtilTimer κ) × ListClient κ) :=
  (execList client.list (listOp client.clock op)).map fun outcome =>
    (outcome.1, ⟨outcome.2, clockAfter client.clock op⟩)

/-- The callback and argument a timer of the wheel would be fired with. -/
def TimeWheel.callback (wheel : TimeWheel κ) (timer : Nat) : Option (Option Nat × Option κ) :=
  (wheel.store.load timer).map fun cell => (cell.data.cbFunc, cell.data.userData)

/-! ## Callbacks in the wheel -/

theorem Holds.callback_iff (holds : Holds wheel lists) (timer : Nat) (call : Option Nat × Option κ) :
    wheel.callback timer = some call ↔
      ∃ ts fields, (timer, fields) ∈ lists ts ∧ call = (fields.cbFunc, fields.userData) := by
  have stored : ∀ ts fields, (timer, fields) ∈ lists ts →
      wheel.callback timer = some (fields.cbFunc, fields.userData) := by
    intro ts fields member
    obtain ⟨_, _, found⟩ := (holds.linked ts).load member
    simp only at found
    simp [TimeWheel.callback, found]
  constructor
  · intro called
    obtain ⟨cell, found, _⟩ := Option.map_eq_some_iff.mp called
    obtain ⟨ts, member⟩ := holds.allocated timer (by simp [found])
    obtain ⟨⟨address, fields⟩, present, rfl⟩ := List.mem_map.mp member
    rw [stored ts fields present] at called
    exact ⟨ts, fields, present, (Option.some.inj called).symm⟩
  · rintro ⟨ts, fields, member, rfl⟩
    exact stored ts fields member

/-- A timer of the wheel has a countdown exactly when it has a callback. -/
theorem callback_none_iff : wheel.callback timer = none ↔ wheel.remaining timer = none := by
  simp [TimeWheel.callback, TimeWheel.remaining]

/-- After an insertion the new timer has its own callback and every other timer the one it had. -/
theorem Holds.callback_add (holds : Holds wheel lists) {fields : TwTimer κ} {new : TimeWheel κ}
    (unused : wheel.store.load timer = none) (after : Holds new (inserted lists timer fields)) :
    new.callback = Function.update wheel.callback timer (some (fields.cbFunc, fields.userData)) := by
  have absent : ∀ ts other, (timer, other) ∉ lists ts := by
    intro ts other member
    obtain ⟨_, _, found⟩ := (holds.linked ts).load member
    simp [unused] at found
  funext other
  apply Option.ext
  intro call
  rw [after.callback_iff]
  by_cases same : other = timer
  · subst same
    rw [Function.update_self, Option.some.injEq]
    constructor
    · rintro ⟨ts, found, member, rfl⟩
      unfold inserted at member
      by_cases here : ts = fields.timeSlot
      · subst here
        rw [Function.update_self, List.mem_cons] at member
        rcases member with new | old
        · cases new
          rfl
        · exact (absent _ _ old).elim
      · rw [Function.update_of_ne here] at member
        exact (absent _ _ member).elim
    · rintro rfl
      exact ⟨fields.timeSlot, fields, by simp [inserted], rfl⟩
  · rw [Function.update_of_ne same, holds.callback_iff]
    refine exists_congr fun ts => exists_congr fun found => and_congr_left fun _ => ?_
    unfold inserted
    by_cases here : ts = fields.timeSlot
    · subst here
      simp [same]
    · rw [Function.update_of_ne here]

theorem Holds.callback_del (holds : Holds wheel lists) {ts : Fin N} {left right : List (Nat × TwTimer κ)}
    {fields : TwTimer κ} (split : lists ts = left ++ (timer, fields) :: right) {new : TimeWheel κ}
    (after : Holds new (Function.update lists ts (left ++ right))) {other : Nat} (different : other ≠ timer) :
    new.callback other = wheel.callback other := by
  apply Option.ext
  intro call
  rw [after.callback_iff, holds.callback_iff]
  refine exists_congr fun slot => exists_congr fun found => and_congr_left fun _ => ?_
  by_cases here : slot = ts
  · subst here
    simp [split, different]
  · rw [Function.update_of_ne here]

/-- A tick changes the callback of no timer it keeps. -/
theorem Holds.callback_tick (holds : Holds wheel lists) {new : TimeWheel κ}
    (after : Holds new (Function.update lists wheel.curSlot (staying (lists wheel.curSlot))))
    {call : Option Nat × Option κ} (called : new.callback timer = some call) :
    wheel.callback timer = some call := by
  obtain ⟨ts, fields, member, rfl⟩ := (after.callback_iff timer call).mp called
  rw [holds.callback_iff]
  by_cases here : ts = wheel.curSlot
  · subst here
    rw [Function.update_self] at member
    obtain ⟨⟨address, old⟩, present, same⟩ := List.mem_map.mp member
    cases same
    exact ⟨wheel.curSlot, old, (List.mem_filter.mp present).1, rfl⟩
  · rw [Function.update_of_ne here] at member
    exact ⟨ts, fields, member, rfl⟩

/-- The callbacks a tick runs are those of the timers whose countdown is at zero. -/
theorem Holds.mem_callbacks (holds : Holds wheel lists) (callback : Callback κ) :
    callback ∈ (firing (lists wheel.curSlot)).map wheelCallback ↔
      wheel.callback callback.1 = some callback.2 ∧ wheel.remaining callback.1 = some 0 := by
  rw [← holds.mem_firing]
  constructor
  · intro fires
    obtain ⟨⟨address, fields⟩, member, rfl⟩ := List.mem_map.mp fires
    have present := (List.mem_filter.mp member).1
    exact ⟨(holds.callback_iff address _).mpr ⟨wheel.curSlot, fields, present, rfl⟩, List.mem_map_of_mem member⟩
  · rintro ⟨called, fires⟩
    obtain ⟨⟨address, fields⟩, member, same⟩ := List.mem_map.mp fires
    have present := (List.mem_filter.mp member).1
    have own := (holds.callback_iff address _).mpr ⟨wheel.curSlot, fields, present, rfl⟩
    rw [show address = callback.1 from same, called, Option.some.injEq] at own
    exact List.mem_map.mpr ⟨(address, fields), member, Prod.ext same own.symm⟩

/-! ## Agreement -/

/-- The same timers wait in the wheel and in the list, with the same callbacks, and the
countdown of each is the distance of its timeout from the clock. -/
structure Agrees (wheel : TimeWheel κ) (clock : Int) (seq : TimerSeq κ) : Prop where
  same : ∀ timer fields, (timer, fields) ∈ seq ↔ wheel.callback timer = some (fields.cbFunc, some fields.userData) ∧
    ∃ count, wheel.remaining timer = some count ∧ fields.expire = clock + count
  equipped : ∀ timer call, wheel.callback timer = some call → call.2.isSome = true

section Agreement
variable {clock : Int} {seq : TimerSeq κ} {new : TimeWheel κ}

theorem Agrees.empty (clock : Int) : Agrees (.empty : TimeWheel κ) clock [] where
  same := by simp [TimeWheel.callback, TimeWheel.empty]
  equipped := by simp [TimeWheel.callback, TimeWheel.empty]

theorem Agrees.mem_addresses (agrees : Agrees wheel clock seq) (timer : Nat) :
    timer ∈ seq.map Prod.fst ↔ wheel.remaining timer ≠ none := by
  constructor
  · intro member
    obtain ⟨⟨address, fields⟩, present, rfl⟩ := List.mem_map.mp member
    obtain ⟨-, count, counted, -⟩ := (agrees.same address fields).mp present
    simp [counted]
  · intro live
    obtain ⟨count, counted⟩ := Option.ne_none_iff_exists'.mp live
    obtain ⟨⟨cbFunc, userData⟩, called⟩ := Option.ne_none_iff_exists'.mp (mt callback_none_iff.mp live)
    obtain ⟨argument, rfl⟩ := Option.isSome_iff_exists.mp (agrees.equipped timer _ called)
    exact List.mem_map.mpr ⟨(timer, ⟨clock + count, cbFunc, argument⟩),
      (agrees.same _ _).mpr ⟨called, count, counted, rfl⟩, rfl⟩

theorem Agrees.add (agrees : Agrees wheel clock seq) {fields : UtilTimer κ} {count : Nat}
    (unused : wheel.remaining timer = none) (due : fields.expire = clock + count)
    (called : new.callback = Function.update wheel.callback timer (some (fields.cbFunc, some fields.userData)))
    (counted : new.remaining = Function.update wheel.remaining timer (some count)) :
    Agrees new clock (stableInsert expireOf (timer, fields) seq) where
  same := by
    intro other found
    rw [mem_stableInsert, agrees.same, called, counted]
    by_cases here : other = timer
    · subst here
      simp only [Function.update_self, unused, Option.some.injEq, Prod.mk.injEq, true_and, reduceCtorEq,
        false_and, exists_false, and_false, or_false, exists_eq_left']
      constructor
      · rintro rfl
        exact ⟨⟨rfl, rfl⟩, due⟩
      · rintro ⟨⟨sameCb, sameData⟩, later⟩
        cases found
        cases fields
        simp_all
    · simp [Function.update_of_ne here, here]
  equipped := by
    intro other call found
    rw [called] at found
    by_cases here : other = timer
    · subst here
      rw [Function.update_self] at found
      cases found
      rfl
    · rw [Function.update_of_ne here] at found
      exact agrees.equipped other call found

theorem Agrees.del (agrees : Agrees wheel clock seq)
    (called : ∀ other, other ≠ timer → new.callback other = wheel.callback other)
    (counted : new.remaining = Function.update wheel.remaining timer none) :
    Agrees new clock (seq.filter fun other => other.1 ≠ timer) where
  same := by
    intro other found
    rw [List.mem_filter, agrees.same, counted]
    by_cases here : other = timer
    · simp [here]
    · simp [Function.update_of_ne here, here, called other here]
  equipped := by
    intro other call found
    by_cases here : other = timer
    · have gone : new.callback other = none := by
        rw [callback_none_iff, counted, here, Function.update_self]
      simp [gone] at found
    · rw [called other here] at found
      exact agrees.equipped other call found

theorem Agrees.tick (agrees : Agrees wheel clock seq)
    (called : ∀ timer call, new.callback timer = some call → wheel.callback timer = some call)
    (counted : new.remaining = Countdown.tick wheel.remaining) :
    Agrees new (clock + 1) (seq.filter fun node => clock < node.2.expire) where
  same := by
    intro timer fields
    simp only [List.mem_filter, agrees.same, counted, decide_eq_true_eq]
    constructor
    · rintro ⟨⟨known, count, waits, due⟩, later⟩
      obtain ⟨less, rfl⟩ : ∃ less, count = less + 1 := Nat.exists_eq_succ_of_ne_zero (by omega)
      have left : new.remaining timer = some less := by simp [counted, Countdown.tick, waits]
      have live : new.remaining timer ≠ none := by simp [left]
      obtain ⟨call, kept⟩ := Option.ne_none_iff_exists'.mp (mt callback_none_iff.mp live)
      have same := called timer call kept
      rw [known, Option.some.injEq] at same
      exact ⟨same ▸ kept, less, counted ▸ left, by omega⟩
    · rintro ⟨kept, count, waits, due⟩
      refine ⟨⟨called timer _ kept, count + 1, ?_, by omega⟩, by omega⟩
      unfold Countdown.tick at waits
      split at waits <;> simp_all
  equipped := fun timer call found => agrees.equipped timer call (called timer call found)

/-- What is due by the clock is what a tick of the wheel runs. -/
theorem Agrees.due (agrees : Agrees wheel clock seq) (holds : Holds wheel lists)
    (distinct : (seq.map Prod.fst).Nodup) :
    ((firing (lists wheel.curSlot)).map wheelCallback).Perm
      ((seq.filter fun node => node.2.expire ≤ clock).map listCallback) := by
  obtain ⟨_, _, _, _, once, _, _⟩ := holds.tick
  have onceWheel : ((firing (lists wheel.curSlot)).map wheelCallback).Nodup :=
    List.Nodup.of_map Prod.fst (by simpa [List.map_map, Function.comp_def, wheelCallback] using once)
  have onceList : ((seq.filter fun node => node.2.expire ≤ clock).map listCallback).Nodup := by
    refine List.Nodup.of_map Prod.fst ?_
    simpa [List.map_map, Function.comp_def, listCallback] using distinct.sublist (List.filter_sublist.map Prod.fst)
  apply (List.perm_ext_iff_of_nodup onceWheel onceList).mpr
  rintro ⟨timer, cbFunc, userData⟩
  rw [holds.mem_callbacks]
  constructor
  · rintro ⟨called, zero⟩
    obtain ⟨argument, same⟩ := Option.isSome_iff_exists.mp (agrees.equipped timer _ called)
    simp only at same called zero
    subst same
    refine List.mem_map.mpr ⟨(timer, ⟨clock, cbFunc, argument⟩), List.mem_filter.mpr ⟨?_, by simp⟩, rfl⟩
    exact (agrees.same timer _).mpr ⟨called, 0, zero, by simp⟩
  · intro fires
    obtain ⟨⟨address, fields⟩, member, same⟩ := List.mem_map.mp fires
    obtain ⟨present, now⟩ := List.mem_filter.mp member
    obtain ⟨called, count, waits, due⟩ := (agrees.same address fields).mp present
    cases same
    have zero : count = 0 := by
      simp only [decide_eq_true_eq] at now
      omega
    exact ⟨called, zero ▸ waits⟩

end Agreement

/-- A wheel and a list client that hold the same timers, both well formed. -/
structure Alike (countdown : Countdown) (wheel : TimeWheel κ) (client : ListClient κ) : Prop where
  counted : wheel.remaining = countdown
  holds : ∃ lists, Holds wheel lists
  represents : ∃ seq, Represents client.list seq ∧ Agrees wheel client.clock seq

/-- Every use the countdowns allow is carried out by both containers, with the same callbacks. -/
theorem Alike.exec {countdown next : Countdown} {client : ListClient κ} (alike : Alike countdown wheel client)
    (op : WheelOp κ) (taken : execCountdown countdown op = some next) :
    ∃ fired new firedList newClient, execWheel wheel op = some (fired, new) ∧
      execListClient client op = some (firedList, newClient) ∧
      (fired.map wheelCallback).Perm (firedList.map listCallback) ∧ Alike next new newClient := by
  obtain ⟨rfl, ⟨lists, holds⟩, seq, rep, agrees⟩ := alike
  cases op with
  | add timer timeout cbFunc userData =>
    simp only [execCountdown] at taken
    split_ifs at taken with valid
    cases taken
    have unused : wheel.store.load timer = none := by simpa [TimeWheel.remaining] using valid.2
    obtain ⟨new, executed, -, after, counted⟩ := holds.add valid.1 unused cbFunc userData
    have absent : timer ∉ seq.map Prod.fst := by simp [agrees.mem_addresses, valid.2]
    obtain ⟨list, added, repNew⟩ := @Represents.add _ _ _ timer
      ⟨client.clock + (max 1 (timeout.toNat / SI) : Nat), some cbFunc, userData⟩ rep absent rfl
    refine ⟨[], new, [], ⟨list, client.clock⟩, executed, ?_, .nil, counted, ⟨_, after⟩, _, repNew, ?_⟩
    · simp only [execListClient, listOp, added, clockAfter, Option.map_some]
    · exact agrees.add valid.2 (by simp) (holds.callback_add unused after) counted
  | del timer =>
    simp only [execCountdown] at taken
    split_ifs at taken with live
    cases taken
    obtain ⟨count, counted⟩ := Option.ne_none_iff_exists'.mp live
    obtain ⟨ts, fields, member, -⟩ := (holds.remaining_iff timer count).mp counted
    obtain ⟨left, right, split⟩ := List.append_of_mem member
    obtain ⟨new, deleted, sameSlot, after⟩ := holds.del split
    have present : timer ∈ seq.map Prod.fst := (agrees.mem_addresses timer).mpr live
    have removed : execSeq seq (.del timer) = some ([], seq.filter fun other => other.1 ≠ timer) := if_pos present
    obtain ⟨list, executed, repNew⟩ := rep.exec (.del timer) removed
    have left := holds.remaining_del split after sameSlot
    refine ⟨[], new, [], ⟨list, client.clock⟩, by simp [execWheel, deleted], ?_, .nil, left, ⟨_, after⟩, _, repNew, ?_⟩
    · simp [execListClient, listOp, executed, clockAfter]
    · exact agrees.del (fun other different => holds.callback_del split after different) left
  | tick =>
    cases taken
    obtain ⟨new, ticked, -, after, -, -, counted⟩ := holds.tick
    obtain ⟨list, listTicked, repNew⟩ := rep.tick client.clock
    refine ⟨_, new, _, ⟨list, client.clock + 1⟩, ticked, ?_, agrees.due holds rep.distinct, counted, ⟨_, after⟩,
      _, repNew, agrees.tick (fun timer call => holds.callback_tick after) counted⟩
    simp [execListClient, listOp, execList, listTicked, clockAfter]

/-- Over every run of insertions, deletions and ticks the wheel is meant for, the wheel and the
sorted list run the same callbacks at every operation, in whatever order within one tick. -/
theorem wheel_agrees_with_list (start : Int) (ops : List (WheelOp κ)) (countdown : Countdown)
    (valid : runCountdown ops = some countdown) :
    ∃ wheelLog wheel listLog client, trace execWheel .empty ops = some (wheelLog, wheel) ∧
      trace execListClient ⟨.empty, start⟩ ops = some (listLog, client) ∧
      List.Forall₂ (fun fired firedList => (fired.map wheelCallback).Perm (firedList.map listCallback))
        wheelLog listLog := by
  have atStart : Alike (fun _ => none) (.empty : TimeWheel κ) ⟨.empty, start⟩ :=
    ⟨rfl, ⟨_, Holds.empty⟩, [], Represents.empty, Agrees.empty start⟩
  obtain ⟨wheelLog, wheel, listLog, client, wheelRan, listRan, alike, -⟩ :=
    trace_agreement (fun _ _ _ op _ related taken => related.exec op taken) atStart valid
  exact ⟨wheelLog, wheel, listLog, client, wheelRan, listRan, alike⟩

/-- Two timers that come due in the same tick, one of them a full turn away, and a deleted one. -/
theorem wheel_agrees_with_list_same_tick :
    ∃ wheelLog wheel listLog client,
      trace execWheel .empty ([.add 1 2 0 (), .add 2 60 7 (), .tick, .add 3 1 9 (), .del 2, .tick, .tick] :
        List (WheelOp Unit)) = some (wheelLog, wheel) ∧
      trace execListClient ⟨.empty, 100⟩ ([.add 1 2 0 (), .add 2 60 7 (), .tick, .add 3 1 9 (), .del 2, .tick,
        .tick] : List (WheelOp Unit)) = some (listLog, client) ∧
      List.Forall₂ (fun fired firedList => (fired.map wheelCallback).Perm (firedList.map listCallback))
        wheelLog listLog :=
  wheel_agrees_with_list 100 _ _ rfl

end UnixProgramming.Timer
