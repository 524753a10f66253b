import Mathlib.Data.List.Nodup
import UnixProgramming.Lib.Run
import UnixProgramming.Timer.HeapBuild
import UnixProgramming.Timer.HeapTick

/-! The timers of a time heap from its construction out of an array to its destructor. The
percolations only exchange entries, so the slip in their bound spoils the order of the
timers but not whom they belong to. -/

namespace UnixProgramming.Timer.TimeHeap

open UnixProgramming.Lib

inductive HeapOp where
  | del (timer : Nat)
  | pop
  | tick (cur : Int)
deriving DecidableEq, Repr

/-- The heap in use, with the callbacks it has run. -/
structure Life where
  timers : Timers
  heap : TimeHeap
  calls : List Call

/-- `delete`, which leaves a null pointer alone. -/
def delete (timers : Timers) : Option Nat → Option Timers
  | none => some timers
  | some timer => (timers timer).map fun _ => Function.update timers timer none

/-- `~time_heap()` -/
def destroy (timers : Timers) (heap : TimeHeap) : Option Timers :=
  if heap.curSize ≤ heap.capacity then heap.entries.foldlM delete timers else none

namespace Life

def step (life : Life) : HeapOp → Option Life
  | .del timer => (delTimer life.timers (some timer)).map fun timers => { life with timers := timers }
  | .pop => (popTimer life.timers life.heap).map fun after => { life with timers := after.1, heap := after.2 }
  | .tick cur => (tick life.timers life.heap cur).map fun after =>
    { timers := after.1, heap := after.2.1, calls := life.calls ++ after.2.2 }

/-- Only a timer that is still there is given to `del_timer`. -/
def Allowed (life : Life) : HeapOp → Prop
  | .del timer => life.timers timer ≠ none
  | _ => True

instance (life : Life) : (op : HeapOp) → Decidable (life.Allowed op)
  | .del timer => inferInstanceAs (Decidable (life.timers timer ≠ none))
  | .pop => .isTrue trivial
  | .tick _ => .isTrue trivial

end Life

/-- The entries in use are the timers there are, each of them once. -/
structure Owned (timers : Timers) (heap : TimeHeap) : Prop where
  size : heap.curSize ≤ heap.capacity
  room : 0 < heap.capacity
  distinct : heap.entries.Nodup
  live : ∀ pointer ∈ heap.entries, Live timers pointer
  all : ∀ address, timers address ≠ none → some address ∈ heap.entries

section Owned
variable {timers : Timers} {heap : TimeHeap}

theorem live_some {address : Nat} : Live timers (some address) ↔ timers address ≠ none := by
  rw [Option.ne_none_iff_exists']
  exact Iff.rfl

theorem live_free_ne {address : Nat} {pointer : Option Nat} (different : pointer ≠ some address) :
    Live (Function.update timers address none) pointer ↔ Live timers pointer := by
  rw [Live, deref_free_ne different, Live]

/-- What a constructor leaves, from what is in its entries. -/
theorem Owned.of_perm {used rest initArray : List (Option Nat)} (same : used.Perm initArray)
    (room : 0 < (used ++ rest).length) (distinct : initArray.Nodup) (live : ∀ pointer ∈ initArray, Live timers pointer)
    (all : ∀ address, timers address ≠ none → some address ∈ initArray) :
    Owned timers ⟨used ++ rest, used.length⟩ where
  size := by simp [capacity]
  room := room
  distinct := by
    rw [entries_append]
    exact same.nodup_iff.mpr distinct
  live := by
    rw [entries_append]
    exact fun pointer member => live pointer (same.mem_iff.mp member)
  all := by
    rw [entries_append]
    exact fun address allocated => same.mem_iff.mpr (all address allocated)

theorem ofArray_owned {initArray : List (Option Nat)} {capacity : Nat} (fits : initArray.length ≤ capacity)
    (room : 0 < capacity) (distinct : initArray.Nodup) (live : ∀ pointer ∈ initArray, Live timers pointer)
    (all : ∀ address, timers address ≠ none → some address ∈ initArray) :
    ∃ heap, ofArray timers initArray initArray.length capacity = some (some heap) ∧ Owned timers heap := by
  rcases List.eq_nil_or_concat' initArray with rfl | ⟨front, last, rfl⟩
  · have owned := @Owned.of_perm timers [] (List.replicate capacity none) [] (.refl _) (by simpa using room) distinct live all
    exact ⟨ofCapacity capacity, rfl, owned⟩
  · have whole : (front ++ [last]).length = front.length + 1 := by simp
    rw [whole] at fits ⊢
    refine ⟨_, ofArray_concat live fits, ?_⟩
    have same := (BinaryHeap.heapify_perm (expireAt timers) front).append_right [last]
    have owned := @Owned.of_perm timers _ (List.replicate (capacity - (front.length + 1)) none) _ same
      (by simp only [List.length_append, List.length_singleton]; omega) distinct live all
    rwa [same.length_eq, whole] at owned

/-- An entry in use is the root, and a pop deletes its timer. -/
theorem Owned.pop (owned : Owned timers heap) (used : heap.curSize ≠ 0) :
    ∃ address next, heap.array[0]? = some (some address) ∧ Live timers (some address) ∧
      popTimer timers heap = some (Function.update timers address none, next) ∧
      Owned (Function.update timers address none) next ∧ next.curSize + 1 = heap.curSize := by
  obtain ⟨size, room, distinct, live, all⟩ := owned
  obtain ⟨array, curSize⟩ := heap
  have small : curSize ≤ array.length := size
  have long : (array.take curSize).length = (curSize - 1) + 1 := by
    simp only [List.length_take]
    simp only at used
    omega
  obtain ⟨front, last, split, shorter⟩ := concat_of_length long
  have whole : array = front ++ [last] ++ array.drop curSize := by rw [← split, List.take_append_drop]
  have count : curSize = front.length + 1 := by
    simp only at used
    omega
  generalize array.drop curSize = rest at whole
  subst whole count
  simp only [entries, split] at distinct live all
  have root := live_entry live (used_nonempty front last)
  obtain ⟨address, top⟩ := root.address
  rw [top] at root
  have sunken := sunk_perm (Function.update timers address none) front last
  rw [top] at sunken
  obtain ⟨absent, others⟩ := List.nodup_cons.mp (sunken.nodup_iff.mpr distinct)
  have kept : ∀ pointer ∈ sunk (Function.update timers address none) front last,
      Live (Function.update timers address none) pointer := by
    intro pointer member
    have different : pointer ≠ some address := fun same => absent (same ▸ member)
    exact (live_free_ne different).mpr (live pointer (sunken.mem_iff.mp (List.mem_cons_of_mem _ member)))
  have popped : popTimer timers ⟨front ++ [last] ++ rest, front.length + 1⟩ = some (_, ⟨_, _⟩) :=
    popTimer_live top root fun pointer member => kept pointer ((sunk_perm_set _ front last).mem_iff.mpr member)
  refine ⟨address, _, (getElem?_root front rest last).trans (congrArg some top), root, popped, ?_, rfl⟩
  have left := @Owned.of_perm (Function.update timers address none)
    (sunk (Function.update timers address none) front last) (last :: rest) _ (.refl _)
    (by simp only [List.length_append, List.length_cons]; omega) others kept ?_
  · rwa [sunk_length] at left
  · intro other allocated
    have different : other ≠ address := by
      rintro rfl
      simp at allocated
    rw [Function.update_of_ne different] at allocated
    refine (List.mem_cons.mp (sunken.mem_iff.mpr (all other allocated))).resolve_left ?_
    exact fun same => different (Option.some.inj same)

end Owned

/-! ## What a tick reports -/

/-- Each call is for the callback of a timer that was there, once, and the timer is deleted. -/
structure Reported (timers after : Timers) (calls : List Call) : Prop where
  once : (calls.map Call.timer).Nodup
  live : ∀ call ∈ calls, Live timers call.timer
  own : ∀ call ∈ calls, call ∈ callOf timers call.timer
  gone : ∀ call ∈ calls, ¬Live after call.timer
  frees : ∀ address, after address = timers address ∨ after address = none

section Report
variable {timers after : Timers} {heap : TimeHeap} {address : Nat} {cur : Int}

theorem Reported.nothing (timers : Timers) : Reported timers timers [] :=
  ⟨.nil, by simp, by simp, by simp, fun _ => .inl rfl⟩

theorem Reported.pop {later : List Call} (reported : Reported (Function.update timers address none) after later)
    (live : Live timers (some address)) : Reported timers after ((callOf timers (some address)).toList ++ later) := by
  obtain ⟨once, alive, own, gone, frees⟩ := reported
  have different : ∀ call ∈ later, call.timer ≠ some address := by
    intro call member same
    exact not_live_free (same ▸ alive call member)
  have ours : ∀ call ∈ (callOf timers (some address)).toList, call.timer = some address := by
    intro call member
    exact timer_of_mem_callOf (Option.mem_toList.mp member)
  have dead : ¬Live after (some address) := by
    intro still
    obtain same | cleared := frees address
    · rw [live_some, same, Function.update_self] at still
      exact still rfl
    · exact live_some.mp still cleared
  refine ⟨?_, ?_, ?_, ?_, fun other => ?_⟩
  · rw [List.map_append, List.nodup_append']
    refine ⟨?_, once, ?_⟩
    · cases callOf timers (some address) with
      | none => exact .nil
      | some call => exact List.nodup_singleton _
    · intro pointer first second
      obtain ⟨call, member, rfl⟩ := List.mem_map.mp first
      obtain ⟨other, present, same⟩ := List.mem_map.mp second
      exact different other present (same.trans (ours call member))
  · intro call member
    obtain first | second := List.mem_append.mp member
    · rw [ours call first]
      exact live
    · exact (live_free_ne (different call second)).mp (alive call second)
  · intro call member
    obtain first | second := List.mem_append.mp member
    · rw [ours call first]
      exact Option.mem_toList.mp first
    · have mine := own call second
      rwa [callOf, timerAt_free_ne (different call second)] at mine
  · intro call member
    obtain first | second := List.mem_append.mp member
    · rw [ours call first]
      exact dead
    · exact gone call second
  · obtain same | cleared := frees other
    · by_cases here : other = address
      · subst here
        exact .inr (same.trans (Function.update_self ..))
      · exact .inl (same.trans (Function.update_of_ne here ..))
    · exact .inr cleared

/-- The loop goes through, and deletes no timer without running its callback. -/
theorem Owned.tickLoop (owned : Owned timers heap) {tmp : Option Nat} (root : heap.array[0]? = some tmp) (cur : Int) :
    ∃ after final calls, tickLoop cur heap.curSize timers heap tmp = some (after, final, calls) ∧ Owned after final ∧
      Reported timers after calls := by
  obtain ⟨size, count⟩ : ∃ size, heap.curSize = size := ⟨_, rfl⟩
  rw [count]
  induction size generalizing timers heap tmp with
  | zero => exact ⟨timers, heap, [], by cases tmp <;> rfl, owned, .nothing timers⟩
  | succ size ih =>
    obtain ⟨address, next, top, live, popped, left, smaller⟩ := owned.pop (by omega)
    obtain rfl := Option.some.inj (root.symm.trans top)
    by_cases isDue : due timers cur (some address) = true
    · have nextRoot := getElem?_entry left.room
      obtain ⟨after, final, later, looped, kept, reported⟩ := ih left nextRoot (by omega)
      refine ⟨after, final, _, ?_, kept, reported.pop live⟩
      rw [tickLoop_pop top live isDue popped nextRoot, looped, Option.map_some]
    · obtain ⟨timer, known⟩ := live
      have later : cur < timer.expire := by
        have above : ¬expireAt timers (some address) ≤ cur := fun soon => isDue (decide_eq_true soon)
        rw [expireAt_of_deref known] at above
        omega
      exact ⟨timers, heap, [], tickLoop_stop known later, owned, .nothing timers⟩

theorem Owned.tick (owned : Owned timers heap) (cur : Int) :
    ∃ after final calls, tick timers heap cur = some (after, final, calls) ∧ Owned after final ∧
      Reported timers after calls := by
  have root := getElem?_entry owned.room
  obtain ⟨after, final, calls, looped, left, reported⟩ := owned.tickLoop root cur
  refine ⟨after, final, calls, ?_, left, reported⟩
  rw [TimeHeap.tick, root]
  exact looped

/-- Deleting the timers one by one, none of them twice. -/
theorem foldlM_delete {pointers : List (Option Nat)} (distinct : pointers.Nodup)
    (live : ∀ pointer ∈ pointers, Live timers pointer) :
    ∃ freed, pointers.foldlM delete timers = some freed ∧
      ∀ address, freed address = if some address ∈ pointers then none else timers address := by
  induction pointers generalizing timers with
  | nil => exact ⟨timers, rfl, by simp⟩
  | cons pointer rest ih =>
    obtain ⟨absent, apart⟩ := List.nodup_cons.mp distinct
    have here := live pointer List.mem_cons_self
    obtain ⟨address, rfl⟩ := here.address
    obtain ⟨fields, found⟩ := here
    have others : ∀ other ∈ rest, Live (Function.update timers address none) other := by
      intro other member
      have different : other ≠ some address := fun same => absent (same ▸ member)
      exact (live_free_ne different).mpr (live other (List.mem_cons_of_mem _ member))
    obtain ⟨freed, done, left⟩ := ih apart others
    have found : timers address = some fields := found
    refine ⟨freed, ?_, fun other => ?_⟩
    · rw [List.foldlM_cons, delete, found]
      exact done
    · rw [left]
      by_cases same : other = address
      · simp [same]
      · simp [same]

theorem Owned.destroy (owned : Owned timers heap) :
    ∃ freed, destroy timers heap = some freed ∧ ∀ address, freed address = none := by
  obtain ⟨freed, done, left⟩ := foldlM_delete owned.distinct owned.live
  refine ⟨freed, by rw [TimeHeap.destroy, if_pos owned.size, done], fun address => ?_⟩
  rw [left]
  split_ifs with held
  · rfl
  · by_contra allocated
    exact held (owned.all address allocated)

theorem Owned.del (owned : Owned timers heap) {timer : Nat} {fields : HeapTimer} (found : timers timer = some fields)
    (changed : HeapTimer) : Owned (Function.update timers timer (some changed)) heap where
  size := owned.size
  room := owned.room
  distinct := owned.distinct
  live := by
    intro pointer member
    have before := owned.live pointer member
    obtain ⟨address, rfl⟩ := before.address
    rw [live_some] at before ⊢
    by_cases same : address = timer
    · rw [same, Function.update_self]
      exact Option.some_ne_none _
    · rwa [Function.update_of_ne same]
  all := by
    intro address allocated
    refine owned.all address ?_
    by_cases same : address = timer
    · rw [same, found]
      exact Option.some_ne_none _
    · rwa [Function.update_of_ne same] at allocated

end Report

/-! ## A whole life -/

namespace Life
variable {life next final : Life} {op : HeapOp}

structure Sound (life : Life) : Prop where
  owned : Owned life.timers life.heap
  once : (life.calls.map Call.timer).Nodup
  gone : ∀ call ∈ life.calls, ¬Live life.timers call.timer

/-- The callback of the timer is cleared, or the timer is deleted. -/
def Cancelled (timer : Nat) (life : Life) : Prop := ∀ fields, life.timers timer = some fields → fields.cbFunc = none

/-- The calls have been added to, with none for the timer. -/
def Spares (timer : Nat) (life next : Life) : Prop :=
  ∃ more, next.calls = life.calls ++ more ∧ ∀ call ∈ more, call.timer ≠ some timer

theorem Spares.refl (timer : Nat) (life : Life) : Spares timer life life := ⟨[], by simp, by simp⟩

theorem Spares.trans {timer : Nat} (first : Spares timer life next) (second : Spares timer next final) :
    Spares timer life final := by
  obtain ⟨more, grown, spared⟩ := first
  obtain ⟨later, further, others⟩ := second
  refine ⟨more ++ later, by rw [further, grown, List.append_assoc], fun call member => ?_⟩
  exact (List.mem_append.mp member).elim (spared call) (others call)

/-- What one operation does to the timers, to those that have been cancelled in particular. -/
structure Advance (life next : Life) : Prop where
  sound : Sound next
  spares : ∀ timer, Cancelled timer life → Cancelled timer next ∧ Spares timer life next

/-- Timers are only deleted, and calls only come from callbacks that are set. -/
theorem Advance.of_report {after : Timers} {heap : TimeHeap} {calls : List Call} (sound : Sound life)
    (owned : Owned after heap) (reported : Reported life.timers after calls) :
    Advance life ⟨after, heap, life.calls ++ calls⟩ where
  sound := by
    have stays : ∀ pointer, Live after pointer → Live life.timers pointer := by
      intro pointer still
      obtain ⟨address, rfl⟩ := still.address
      rw [live_some] at still ⊢
      obtain same | cleared := reported.frees address
      · exact same ▸ still
      · exact absurd cleared still
    refine ⟨owned, ?_, ?_⟩
    · rw [List.map_append, List.nodup_append']
      refine ⟨sound.once, reported.once, fun pointer first second => ?_⟩
      obtain ⟨call, member, rfl⟩ := List.mem_map.mp first
      obtain ⟨other, present, same⟩ := List.mem_map.mp second
      exact sound.gone call member (same ▸ reported.live other present)
    · intro call member
      obtain first | second := List.mem_append.mp member
      · exact fun still => sound.gone call first (stays _ still)
      · exact reported.gone call second
  spares := by
    intro timer cancelled
    refine ⟨fun fields found => ?_, calls, rfl, fun call member same => ?_⟩
    · change after timer = some fields at found
      obtain kept | cleared := reported.frees timer
      · exact cancelled fields (kept ▸ found)
      · rw [cleared] at found
        cases found
    · obtain ⟨fields, known⟩ := reported.live call member
      have own := reported.own call member
      rw [same] at known own
      rw [callOf, timerAt_of_deref known, cancelled fields known] at own
      cases own

theorem Sound.step (sound : Sound life) (allowed : life.Allowed op) : ∃ next, life.step op = some next ∧ Advance life next := by
  cases op with
  | del timer =>
    obtain ⟨fields, found⟩ := Option.ne_none_iff_exists'.mp allowed
    have owned := sound.owned.del found { fields with cbFunc := none }
    refine ⟨⟨Function.update life.timers timer (some { fields with cbFunc := none }), life.heap, life.calls⟩, ?_, ?_, ?_⟩
    · simp [Life.step, delTimer, found]
    · refine ⟨owned, sound.once, fun call member still => sound.gone call member ?_⟩
      obtain ⟨address, same⟩ := still.address
      rw [same, live_some] at still ⊢
      dsimp only at still
      by_cases here : address = timer
      · rw [here, found]
        exact Option.some_ne_none _
      · rwa [Function.update_of_ne here] at still
    · intro other cancelled
      refine ⟨fun changed known => ?_, .refl ..⟩
      dsimp only at known
      by_cases here : other = timer
      · rw [here, Function.update_self] at known
        cases known
        rfl
      · rw [Function.update_of_ne here] at known
        exact cancelled changed known
  | pop =>
    by_cases used : life.heap.curSize = 0
    · refine ⟨life, by simp [Life.step, popTimer, empty, used], sound, fun timer cancelled => ⟨cancelled, .refl ..⟩⟩
    · obtain ⟨address, heap, -, -, popped, owned, -⟩ := sound.owned.pop used
      have deleted : Reported life.timers (Function.update life.timers address none) [] := by
        refine ⟨.nil, by simp, by simp, by simp, fun other => ?_⟩
        by_cases here : other = address
        · exact .inr (by rw [here, Function.update_self])
        · exact .inl (Function.update_of_ne here ..)
      have advance := Advance.of_report sound owned deleted
      rw [List.append_nil] at advance
      exact ⟨_, by rw [Life.step, popped, Option.map_some], advance⟩
  | tick cur =>
    obtain ⟨after, heap, calls, ticked, owned, reported⟩ := sound.owned.tick cur
    exact ⟨_, by rw [Life.step, ticked, Option.map_some], .of_report sound owned reported⟩

theorem Advance.trans (first : Advance life next) (second : Advance next final) : Advance life final where
  sound := second.sound
  spares := by
    intro timer cancelled
    obtain ⟨still, spared⟩ := first.spares timer cancelled
    obtain ⟨last, others⟩ := second.spares timer still
    exact ⟨last, spared.trans others⟩

theorem Sound.run {ops : List HeapOp} (sound : Sound life) (allowed : Meets Life.step Allowed life ops) :
    ∃ final, run Life.step life ops = some final ∧ Advance life final := by
  induction ops generalizing life with
  | nil => exact ⟨life, rfl, sound, fun timer cancelled => ⟨cancelled, .refl ..⟩⟩
  | cons op rest ih =>
    obtain ⟨next, taken, first⟩ := sound.step allowed.1
    obtain ⟨final, reached, later⟩ := ih first.sound (allowed.2 next taken)
    exact ⟨final, run_cons_some.mpr ⟨next, taken, reached⟩, first.trans later⟩

theorem step_del {timer : Nat} (taken : life.step (.del timer) = some next) : Cancelled timer next ∧ Spares timer life next := by
  rw [Life.step, delTimer] at taken
  cases found : life.timers timer with
  | none => simp [found] at taken
  | some fields =>
    rw [found] at taken
    obtain rfl := Option.some.inj taken
    refine ⟨fun changed known => ?_, .refl ..⟩
    dsimp only at known
    rw [Function.update_self] at known
    cases known
    rfl

/-- After `del_timer` the rest of the run has no call for the timer. -/
theorem Sound.run_del {earlier later : List HeapOp} {timer : Nat} (sound : Sound life)
    (allowed : Meets Life.step Allowed life (earlier ++ .del timer :: later))
    (reached : Lib.run Life.step life (earlier ++ .del timer :: later) = some final) :
    ∃ middle, Lib.run Life.step life earlier = some middle ∧ Spares timer middle final := by
  induction earlier generalizing life with
  | nil =>
    obtain ⟨next, taken, rest⟩ := run_cons_some.mp reached
    obtain ⟨cancelled, spared⟩ := step_del taken
    obtain ⟨other, same, advance⟩ := sound.step allowed.1
    obtain rfl := Option.some.inj (same.symm.trans taken)
    obtain ⟨last, finished, whole⟩ := advance.sound.run (allowed.2 other same)
    obtain rfl := Option.some.inj (finished.symm.trans rest)
    exact ⟨life, rfl, spared.trans (whole.spares timer cancelled).2⟩
  | cons op more ih =>
    obtain ⟨next, taken, rest⟩ := run_cons_some.mp reached
    obtain ⟨other, same, advance⟩ := sound.step allowed.1
    obtain rfl := Option.some.inj (same.symm.trans taken)
    obtain ⟨middle, there, spared⟩ := ih advance.sound (allowed.2 other same) rest
    exact ⟨middle, run_cons_some.mpr ⟨other, same, there⟩, spared⟩

end Life

/-- A time heap that takes over the timers of an array, used with everything but `add_timer`
until its destructor runs: no null pointer and no deleted timer is used on the way, no timer
has its callback run twice, or after `del_timer`, and every timer is deleted. -/
theorem timers_deleted_once {timers : Timers} {initArray : List (Option Nat)} {capacity : Nat}
    (fits : initArray.length ≤ capacity) (room : 0 < capacity) (distinct : initArray.Nodup)
    (live : ∀ pointer ∈ initArray, Live timers pointer)
    (all : ∀ address, timers address ≠ none → some address ∈ initArray) :
    ∃ heap, ofArray timers initArray initArray.length capacity = some (some heap) ∧
      ∀ ops, Meets Life.step Life.Allowed ⟨timers, heap, []⟩ ops →
        ∃ final, run Life.step ⟨timers, heap, []⟩ ops = some final ∧ (final.calls.map Call.timer).Nodup ∧
          (∀ earlier timer later, ops = earlier ++ .del timer :: later →
            ∃ middle, run Life.step ⟨timers, heap, []⟩ earlier = some middle ∧ Life.Spares timer middle final) ∧
          ∃ freed, destroy final.timers final.heap = some freed ∧ ∀ address, freed address = none := by
  obtain ⟨heap, built, owned⟩ := ofArray_owned fits room distinct live all
  refine ⟨heap, built, fun ops allowed => ?_⟩
  have start : Life.Sound ⟨timers, heap, []⟩ := ⟨owned, .nil, by simp⟩
  obtain ⟨final, reached, advance⟩ := start.run allowed
  refine ⟨final, reached, advance.sound.once, ?_, advance.sound.owned.destroy⟩
  rintro earlier timer later rfl
  exact start.run_del allowed reached

/-- Three timers in an array of four: one cancelled, one fired, one deleted, one left. -/
theorem timers_deleted_once_three :
    ∃ heap final, ofArray (timersAt [5, 2, 7]) [some 0, some 1, some 2] 3 4 = some (some heap) ∧
      run Life.step ⟨timersAt [5, 2, 7], heap, []⟩ [.del 0, .tick 2, .pop] = some final ∧
      (final.calls.map Call.timer).Nodup ∧ ∃ freed, destroy final.timers final.heap = some freed ∧
        ∀ address, freed address = none := by
  have all : ∀ address, timersAt [5, 2, 7] address ≠ none → some address ∈ [some 0, some 1, some 2] := by
    intro address allocated
    have inside : address < 3 := by
      by_contra outside
      have beyond : [5, 2, 7][address]? = (none : Option Int) := List.getElem?_eq_none (Nat.le_of_not_lt outside)
      exact allocated (by rw [timersAt, beyond, Option.map_none])
    have known : address = 0 ∨ address = 1 ∨ address = 2 := by omega
    simpa using known
  obtain ⟨heap, built, lives⟩ := @timers_deleted_once _ [some 0, some 1, some 2] 4 (by decide) (by decide) (by decide)
    (by simp [live_some, timersAt]) all
  have shape : ofArray (timersAt [5, 2, 7]) [some 0, some 1, some 2] 3 4 =
      some (some ⟨[some 1, some 0, some 2, none], 3⟩) := by decide +kernel
  obtain rfl := Option.some.inj (Option.some.inj (shape.symm.trans built))
  obtain ⟨final, reached, once, -, destroyed⟩ := lives [.del 0, .tick 2, .pop] (by decide +kernel)
  exact ⟨_, final, built, reached, once, destroyed⟩

end UnixProgramming.Timer.TimeHeap
