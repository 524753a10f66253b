import UnixProgramming.Timer.TimeWheel

/-! The wheel refines a map from timers to countdowns. A timer's countdown is
spread over its rotation and the distance of its slot from the current one; a
tick takes one from every countdown and fires those that start it at zero. -/

namespace UnixProgramming.Timer

open UnixProgramming.Lib

variable {κ : Type} {wheel : TimeWheel κ} {lists : Fin N → List (Nat × TwTimer κ)} {timer : Nat}

/-- The ticks each live timer still waits for. -/
abbrev Countdown := Nat → Option Nat

/-- A tick fires the timers whose countdown it finds at zero. -/
def Countdown.tick (countdown : Countdown) : Countdown := fun timer =>
  match countdown timer with
  | some (rest + 1) => some rest
  | _ => none

/-- One operation on the countdowns; an operation the wheel is not meant for (a
negative timeout, an address in use, a timer that is not live) is undefined. -/
def execCountdown (countdown : Countdown) : WheelOp κ → Option Countdown
  | .add timer timeout _ _ =>
    if 0 ≤ timeout ∧ countdown timer = none then
      some (Function.update countdown timer (some (max 1 (timeout.toNat / SI))))
    else none
  | .del timer => if countdown timer = none then none else some (Function.update countdown timer none)
  | .tick => some countdown.tick

def runCountdown : List (WheelOp κ) → Option Countdown := run execCountdown fun _ => none

/-- Each slot's links hold its list of timers, which know their slot. -/
structure Holds (wheel : TimeWheel κ) (lists : Fin N → List (Nat × TwTimer κ)) : Prop where
  linked : ∀ ts, Segment wheel.store none (lists ts) none
  distinct : ∀ ts, ((lists ts).map Prod.fst).Nodup
  head : ∀ ts, wheel.slots ts = first (lists ts)
  located : ∀ ts, ∀ node ∈ lists ts, node.2.timeSlot = ts
  callable : ∀ ts, ∀ node ∈ lists ts, node.2.cbFunc.isSome = true
  allocated : ∀ address, (wheel.store.load address).isSome = true → ∃ ts, address ∈ (lists ts).map Prod.fst

theorem Holds.empty : Holds (.empty : TimeWheel κ) fun _ => [] where
  linked := fun _ => trivial
  distinct := fun _ => List.nodup_nil
  head := fun _ => rfl
  located := by simp
  callable := by simp
  allocated := by simp [TimeWheel.empty]

/-- The lists of two slots share no address, since a timer knows its slot. -/
theorem Holds.apart (holds : Holds wheel lists) {ts other : Fin N} (different : other ≠ ts)
    {node : Nat × TwTimer κ} (member : node ∈ lists other) : node.1 ∉ (lists ts).map Prod.fst := by
  intro shared
  obtain ⟨twin, present, same⟩ := List.mem_map.mp shared
  obtain ⟨_, _, found⟩ := (holds.linked other).load member
  obtain ⟨_, _, again⟩ := (holds.linked ts).load present
  rw [same, found] at again
  have data : node.2 = twin.2 := by simpa using congrArg (Option.map Cell.data) again
  exact different (by rw [← holds.located other node member, data, holds.located ts twin present])

/-- Rewriting the list of one slot, with every other list framed. -/
theorem Holds.rewrite (holds : Holds wheel lists) (ts : Fin N) {nodes : List (Nat × TwTimer κ)}
    {new : TimeWheel κ} (linked : Segment new.store none nodes none)
    (distinct : (nodes.map Prod.fst).Nodup)
    (head : new.slots = Function.update wheel.slots ts (first nodes))
    (located : ∀ node ∈ nodes, node.2.timeSlot = ts)
    (callable : ∀ node ∈ nodes, node.2.cbFunc.isSome = true)
    (frame : ∀ address, address ∉ (lists ts).map Prod.fst → address ∉ nodes.map Prod.fst →
      new.store.load address = wheel.store.load address)
    (fresh : ∀ node ∈ nodes, node.1 ∈ (lists ts).map Prod.fst ∨ wheel.store.load node.1 = none)
    (gone : ∀ node ∈ lists ts, node.1 ∈ nodes.map Prod.fst ∨ new.store.load node.1 = none) :
    Holds new (Function.update lists ts nodes) where
  linked := by
    refine (Function.forall_update_iff lists fun _ nodes => Segment new.store none nodes none).mpr
      ⟨linked, fun other same => ?_⟩
    refine (holds.linked other).frame fun node member => ?_
    have elsewhere := holds.apart same member
    refine frame _ elsewhere fun added => ?_
    obtain ⟨twin, present, sameAddress⟩ := List.mem_map.mp added
    obtain ⟨_, _, found⟩ := (holds.linked other).load member
    rcases fresh twin present with old | unused
    · exact elsewhere (sameAddress ▸ old)
    · simp [← sameAddress, unused] at found
  distinct := (Function.forall_update_iff lists fun _ nodes => (nodes.map Prod.fst).Nodup).mpr
    ⟨distinct, fun other _ => holds.distinct other⟩
  head := by
    intro other
    by_cases same : other = ts
    · simp [same, head]
    · simpa [same, head] using holds.head other
  located := (Function.forall_update_iff lists fun other nodes => ∀ node ∈ nodes, node.2.timeSlot = other).mpr
    ⟨located, fun other _ => holds.located other⟩
  callable := (Function.forall_update_iff lists fun _ nodes => ∀ node ∈ nodes, node.2.cbFunc.isSome = true).mpr
    ⟨callable, fun other _ => holds.callable other⟩
  allocated := by
    intro address live
    by_cases inNew : address ∈ nodes.map Prod.fst
    · exact ⟨ts, by simpa using inNew⟩
    · have notOld : address ∉ (lists ts).map Prod.fst := by
        intro old
        obtain ⟨node, member, rfl⟩ := List.mem_map.mp old
        rcases gone node member with kept | freed
        · exact inNew kept
        · simp [freed] at live
      rw [frame address notOld inNew] at live
      obtain ⟨other, present⟩ := holds.allocated address live
      have different : other ≠ ts := fun same => notOld (same ▸ present)
      exact ⟨other, by simpa [different] using present⟩

/-- Where `add_timer` puts a timer, and with what fields once the caller has set
its callback. -/
def placed (wheel : TimeWheel κ) (timeout : Int) (cbFunc : Nat) (userData : κ) : TwTimer κ :=
  ⟨TimeWheel.ticksOf timeout / N, Fin.ofNat N (wheel.curSlot + TimeWheel.ticksOf timeout % N),
    some cbFunc, some userData⟩

/-- The wheel after an insertion: the new timer stands before the old head. -/
theorem Holds.exec_add (holds : Holds wheel lists) {timeout : Int} (valid : 0 ≤ timeout)
    (unused : wheel.store.load timer = none) (cbFunc : Nat) (userData : κ) :
    ∃ store, execWheel wheel (.add timer timeout cbFunc userData) = some ([],
        ⟨store, Function.update wheel.slots (placed wheel timeout cbFunc userData).timeSlot (some timer),
          wheel.curSlot⟩) ∧
      ∀ address, store.load address = if address = timer then
        some ⟨placed wheel timeout cbFunc userData, none,
          first (lists (placed wheel timeout cbFunc userData).timeSlot)⟩ else
        (wheel.store.load address).map fun cell =>
          if some address = first (lists (placed wheel timeout cbFunc userData).timeSlot) then
            { cell with prev := some timer } else cell := by
  have positive : ¬ timeout < 0 := by omega
  obtain ⟨ts, slot⟩ : ∃ ts, Fin.ofNat N (wheel.curSlot + TimeWheel.ticksOf timeout % N) = ts := ⟨_, rfl⟩
  simp only [execWheel, TimeWheel.addTimer, positive, if_false, Store.alloc_fresh unused,
    Option.bind_eq_bind, Option.bind_some, placed, slot]
  have linked := holds.linked ts
  have head := holds.head ts
  cases nodes : lists ts with
  | nil =>
    rw [nodes] at head
    refine ⟨_, by simp [head, Store.setData]; rfl, ?_⟩
    intro address
    by_cases same : address = timer <;> simp [same]
  | cons node rest =>
    rw [nodes] at head linked
    have found := linked.1
    have different : node.1 ≠ timer := by
      intro same
      simp [same, unused] at found
    refine ⟨_, by
      simp [head, Store.setData, Store.setNext, Store.setPrev, different, different.symm, found]; rfl, ?_⟩
    intro address
    by_cases same : address = timer
    · simp [same]
    · by_cases isHead : address = node.1
      · simp [isHead, different, found]
      · simp [same, isHead]

/-- The lists after an insertion. -/
def inserted (lists : Fin N → List (Nat × TwTimer κ)) (timer : Nat) (fields : TwTimer κ) :
    Fin N → List (Nat × TwTimer κ) :=
  Function.update lists fields.timeSlot ((timer, fields) :: lists fields.timeSlot)

theorem Holds.add (holds : Holds wheel lists) {timeout : Int} (valid : 0 ≤ timeout)
    (unused : wheel.store.load timer = none) (cbFunc : Nat) (userData : κ) :
    ∃ new, execWheel wheel (.add timer timeout cbFunc userData) = some ([], new) ∧
      new.curSlot = wheel.curSlot ∧
      Holds new (inserted lists timer (placed wheel timeout cbFunc userData)) ∧
      new.remaining = Function.update wheel.remaining timer (some (max 1 (timeout.toNat / SI))) := by
  obtain ⟨store, executed, loads⟩ := holds.exec_add valid unused cbFunc userData
  have absent : ∀ ts, timer ∉ (lists ts).map Prod.fst := by
    intro ts member
    obtain ⟨node, present, rfl⟩ := List.mem_map.mp member
    obtain ⟨_, _, found⟩ := (holds.linked ts).load present
    simp [unused] at found
  set ts := (placed wheel timeout cbFunc userData).timeSlot with slot
  have others : ∀ node ∈ lists ts, node.1 ≠ timer :=
    fun node member same => absent ts (same ▸ List.mem_map_of_mem member)
  refine ⟨_, executed, rfl, holds.rewrite ts ?_ ?_ rfl ?_ ?_ ?_ ?_ ?_, ?_⟩
  · have old : Segment wheel.store none ([] ++ lists ts) none := holds.linked ts
    refine old.insert List.nodup_nil (holds.distinct ts) ?_ (by simp) ?_
    · simp [loads]
    · intro other member
      rw [loads, if_neg (others other member)]
  · exact List.nodup_cons.mpr ⟨absent ts, holds.distinct ts⟩
  · intro node member
    rcases List.mem_cons.mp member with rfl | old
    · rfl
    · exact holds.located ts node old
  · intro node member
    rcases List.mem_cons.mp member with rfl | old
    · rfl
    · exact holds.callable ts node old
  · intro address notOld notNew
    have notTimer : address ≠ timer := by
      intro same
      exact notNew (by simp [same])
    have notHead : some address ≠ first (lists ts) :=
      (first_ne fun node member same => notOld (List.mem_map.mpr ⟨node, member, same⟩)).symm
    rw [loads, if_neg notTimer]
    simp [notHead]
  · intro node member
    rcases List.mem_cons.mp member with rfl | old
    · exact .inr unused
    · exact .inl (List.mem_map_of_mem old)
  · exact fun node member => .inl (List.mem_cons_of_mem _ (List.mem_map_of_mem member))
  · funext other
    by_cases same : other = timer
    · have count : N * (TimeWheel.ticksOf timeout / N) +
          ((wheel.curSlot + TimeWheel.ticksOf timeout % N) % N + N - wheel.curSlot) % N =
          max 1 (timeout.toNat / SI) := by
        have bound := wheel.curSlot.isLt
        unfold TimeWheel.ticksOf N SI at *
        split_ifs <;> omega
      simpa [TimeWheel.remaining, same, loads, placed, Fin.ofNat] using count
    · rw [Function.update_of_ne same, TimeWheel.remaining, TimeWheel.remaining, loads, if_neg same,
        Option.map_map]
      congr 1
      funext cell
      dsimp only [Function.comp]
      split_ifs <;> rfl

section Removal
variable {ts : Fin N} {left right : List (Nat × TwTimer κ)} {node : Nat × TwTimer κ}

theorem Holds.found (holds : Holds wheel lists) (split : lists ts = left ++ node :: right) :
    wheel.store.load node.1 = some ⟨node.2, last left, first right⟩ := by
  have linked := holds.linked ts
  rw [split] at linked
  simpa using ((segment_append left (node :: right)).mp linked).2.1

theorem Holds.head_iff (holds : Holds wheel lists) (split : lists ts = left ++ node :: right) :
    some node.1 = wheel.slots ts ↔ left = [] := by
  have distinct := holds.distinct ts
  rw [holds.head, split]
  rw [split] at distinct
  cases left with
  | nil => simp
  | cons other rest =>
    have different : node.1 ≠ other.1 := by
      intro same
      simp [same] at distinct
    simp [different]

/-- What is left when a timer has been unlinked and freed. -/
theorem Holds.without (holds : Holds wheel lists) (split : lists ts = left ++ node :: right)
    {new : TimeWheel κ} (head : new.slots = Function.update wheel.slots ts (first (left ++ right)))
    (loads : ∀ address, new.store.load address = if address = node.1 then none else
      (wheel.store.load address).map (unlinked left right none none address)) :
    Holds new (Function.update lists ts (left ++ right)) := by
  have linked := holds.linked ts
  have distinct := holds.distinct ts
  rw [split] at linked distinct
  have kept : ∀ other ∈ left ++ right, other ∈ lists ts := by
    intro other member
    rw [split]
    simp only [List.mem_append, List.mem_cons] at member ⊢
    tauto
  have apart : ∀ other ∈ left ++ right, other.1 ≠ node.1 := by
    intro other member same
    rw [List.map_append, List.map_cons, List.nodup_middle, List.nodup_cons, ← List.map_append] at distinct
    exact distinct.1 (same ▸ List.mem_map_of_mem member)
  refine holds.rewrite ts ?_ ?_ head ?_ ?_ ?_ ?_ ?_
  · refine linked.unlink distinct fun other member => ?_
    rw [loads, if_neg (apart other member)]
  · exact distinct.sublist (List.Sublist.map _ (by simp))
  · exact fun other member => holds.located ts other (kept other member)
  · exact fun other member => holds.callable ts other (kept other member)
  · intro address notOld _
    have notMember : ∀ other ∈ lists ts, other.1 ≠ address :=
      fun other member same => notOld (List.mem_map.mpr ⟨other, member, same⟩)
    rw [loads, if_neg (notMember node (by simp [split])).symm, map_unlinked_of_ne]
    · exact first_ne fun other member => notMember other (by simp [split, member])
    · exact last_ne fun other member => notMember other (by simp [split, member])
  · exact fun other member => .inl (List.mem_map_of_mem (kept other member))
  · intro other member
    rw [split] at member
    by_cases same : other = node
    · exact .inr (by rw [loads, same, if_pos rfl])
    · refine .inl (List.mem_map_of_mem ?_)
      simpa [same] using member

/-- The shared unlinking statements detach a timer that has a predecessor. -/
theorem Holds.unlinkInner (holds : Holds wheel lists) (split : lists ts = left ++ node :: right)
    (inner : left ≠ []) :
    ∃ store, TimeWheel.unlinkInner wheel.store node.1 = some store ∧
      Holds { wheel with store := store } (Function.update lists ts (left ++ right)) := by
  have linked := holds.linked ts
  have distinct := holds.distinct ts
  rw [split] at linked distinct
  obtain ⟨store, detached, loads⟩ := linked.detach distinct
  obtain ⟨prev, final⟩ := exists_last inner
  refine ⟨store, ?_, holds.without split ?_ loads⟩
  · simpa [TimeWheel.unlinkInner, Store.detach, holds.found split, final, Store.linkNext] using detached
  · have kept : first (left ++ right) = wheel.slots ts := by
      rw [holds.head, split]
      cases left with
      | nil => exact (inner rfl).elim
      | cons other rest => rfl
    simp [kept]

theorem Holds.del (holds : Holds wheel lists) (split : lists ts = left ++ node :: right) :
    ∃ new, wheel.delTimer (some node.1) = some new ∧ new.curSlot = wheel.curSlot ∧
      Holds new (Function.update lists ts (left ++ right)) := by
  have found := holds.found split
  have isHead := holds.head_iff split
  have slot : node.2.timeSlot = ts := holds.located ts node (by simp [split])
  by_cases atHead : left = []
  · subst atHead
    have linked := holds.linked ts
    have distinct := holds.distinct ts
    rw [split] at linked distinct
    obtain ⟨store, detached, loads⟩ := linked.detach distinct
    simp only [Store.detach, found, last_nil, Store.linkNext, Option.bind_eq_bind,
      Option.bind_some] at detached
    obtain ⟨relinked, cleared, freed⟩ := Option.bind_eq_some_iff.mp detached
    refine ⟨⟨store, Function.update wheel.slots ts (first right), wheel.curSlot⟩, ?_, rfl,
      holds.without split rfl loads⟩
    simp [TimeWheel.delTimer, found, slot, isHead, cleared, freed]
  · obtain ⟨store, unlinked, rest⟩ := holds.unlinkInner split atHead
    refine ⟨{ wheel with store := store }, ?_, rfl, rest⟩
    simp [TimeWheel.delTimer, found, slot, isHead, atHead, unlinked]

/-- In `tick` the head of the slot is freed before its successor's link is cleared. -/
theorem Holds.freeHead (holds : Holds wheel lists) (split : lists ts = node :: right) :
    ∃ freed store, wheel.store.free node.1 = some freed ∧ freed.linkPrev (first right) none = some store ∧
      Holds { wheel with store := store, slots := Function.update wheel.slots ts (first right) }
        (Function.update lists ts right) := by
  have found : wheel.store.load node.1 = some ⟨node.2, none, first right⟩ :=
    holds.found (show lists ts = [] ++ node :: right from split)
  have distinct := holds.distinct ts
  rw [split] at distinct
  cases right with
  | nil =>
    refine ⟨_, _, Store.free_found found, rfl, ?_⟩
    refine holds.without (show lists ts = [] ++ node :: [] from split) rfl fun address => ?_
    rw [map_unlinked_of_ne (by simp) (by simp), Store.load_drop]
  | cons next rest =>
    have different : next.1 ≠ node.1 := by
      intro same
      simp [same] at distinct
    have nextFound := holds.found (show lists ts = [node] ++ next :: rest from split)
    refine ⟨_, _, Store.free_found found, Store.setPrev_found (by rw [Store.load_drop, if_neg different, nextFound]) _, ?_⟩
    refine holds.without (show lists ts = [] ++ node :: next :: rest from split) rfl fun address => ?_
    by_cases isNext : address = next.1
    · simp [isNext, different, nextFound, unlinked]
    · rw [map_unlinked_of_ne (by simpa using Ne.symm isNext) (by simp)]
      simp [isNext]

/-- A timer with rotations left stays where it is with one less. -/
def turned (node : Nat × TwTimer κ) : Nat × TwTimer κ :=
  (node.1, { node.2 with rotation := node.2.rotation - 1 })

theorem Holds.decrement (holds : Holds wheel lists) (split : lists ts = left ++ node :: right) :
    ∃ store, wheel.store.setData node.1 (turned node).2 = some store ∧
      Holds { wheel with store := store } (Function.update lists ts (left ++ turned node :: right)) := by
  have linked := holds.linked ts
  have distinct := holds.distinct ts
  rw [split] at linked distinct
  have found := holds.found split
  have addresses : (left ++ turned node :: right).map Prod.fst = (lists ts).map Prod.fst := by
    simp [split, turned]
  refine ⟨_, Store.setData_found found _, holds.rewrite ts ?_ ?_ ?_ ?_ ?_ ?_ ?_ ?_⟩
  · refine linked.replace distinct _ fun other => ?_
    rw [Store.load_put, found]
    rfl
  · rw [addresses]
    exact holds.distinct ts
  · have kept : first (left ++ turned node :: right) = wheel.slots ts := by
      rw [holds.head, split]
      cases left <;> rfl
    simp [kept]
  · intro other member
    rcases List.mem_append.mp member with inLeft | inRest
    · exact holds.located ts other (by simp [split, inLeft])
    · rcases List.mem_cons.mp inRest with rfl | inRight
      · exact holds.located ts node (by simp [split])
      · exact holds.located ts other (by simp [split, inRight])
  · intro other member
    rcases List.mem_append.mp member with inLeft | inRest
    · exact holds.callable ts other (by simp [split, inLeft])
    · rcases List.mem_cons.mp inRest with rfl | inRight
      · exact holds.callable ts node (by simp [split])
      · exact holds.callable ts other (by simp [split, inRight])
  · intro address notOld _
    have different : address ≠ node.1 := by
      intro same
      exact notOld (by simp [split, same])
    rw [Store.load_put, if_neg different]
  · exact fun other member => .inl (addresses ▸ List.mem_map_of_mem member)
  · exact fun other member => .inl (addresses ▸ List.mem_map_of_mem member)

end Removal

/-- The timers of the current slot that a tick fires, and those it keeps. -/
def firing (nodes : List (Nat × TwTimer κ)) : List (Nat × TwTimer κ) :=
  nodes.filter fun node => node.2.rotation = 0

def staying (nodes : List (Nat × TwTimer κ)) : List (Nat × TwTimer κ) :=
  (nodes.filter fun node => 0 < node.2.rotation).map turned

/-- The loop of `tick` from the part `rest` of the current slot, when it has left
`visited` behind it. The induction is on `rest`. -/
theorem Holds.tickLoop (holds : Holds wheel lists) (visited rest : List (Nat × TwTimer κ)) (fuel : Nat)
    (split : lists wheel.curSlot = visited ++ rest) (enough : rest.length ≤ fuel) :
    ∃ new, TimeWheel.tickLoop fuel wheel (first rest) = some (firing rest, new) ∧
      new.curSlot = wheel.curSlot ∧
      Holds new (Function.update lists wheel.curSlot (visited ++ staying rest)) := by
  induction rest generalizing wheel lists visited fuel with
  | nil =>
    refine ⟨wheel, by cases fuel <;> rfl, rfl, ?_⟩
    have same : lists wheel.curSlot = visited ++ staying [] := by simpa [staying] using split
    rwa [← same, Function.update_eq_self]
  | cons node rest ih =>
    have found := holds.found split
    cases fuel with
    | zero => simp at enough
    | succ fuel =>
      by_cases waits : 0 < node.2.rotation
      · obtain ⟨store, written, turnedHolds⟩ := holds.decrement split
        obtain ⟨new, finished, sameSlot, final⟩ :=
          ih turnedHolds (visited ++ [turned node]) fuel (by simp) (by simpa using enough)
        refine ⟨new, ?_, sameSlot, ?_⟩
        · have notNow : node.2.rotation ≠ 0 := by omega
          simp only [turned] at written
          simp [TimeWheel.tickLoop, found, waits, written, finished, firing, notNow]
        · simpa [staying, waits] using final
      · have now : node.2.rotation = 0 := by omega
        obtain ⟨callback, called⟩ : ∃ callback, node.2.cbFunc = some callback :=
          Option.isSome_iff_exists.mp (holds.callable wheel.curSlot node (by simp [split]))
        have isHead := holds.head_iff split
        by_cases atHead : visited = []
        · subst atHead
          obtain ⟨freed, store, deleted, cleared, without⟩ := holds.freeHead split
          obtain ⟨new, finished, sameSlot, final⟩ :=
            ih without [] fuel (by simp) (by simpa using enough)
          refine ⟨new, ?_, sameSlot, ?_⟩
          · simp [TimeWheel.tickLoop, found, now, called, isHead, deleted, cleared, finished, firing]
          · simpa [staying, now] using final
        · obtain ⟨store, unlinked, without⟩ := holds.unlinkInner split atHead
          obtain ⟨new, finished, sameSlot, final⟩ :=
            ih without visited fuel (by simp) (by simpa using enough)
          refine ⟨new, ?_, sameSlot, ?_⟩
          · simp [TimeWheel.tickLoop, found, now, called, isHead, atHead, unlinked, finished, firing]
          · simpa [staying, now] using final

/-- The countdown of a timer, read off its place in the wheel. -/
theorem Holds.remaining_iff (holds : Holds wheel lists) (timer count : Nat) :
    wheel.remaining timer = some count ↔ ∃ ts fields, (timer, fields) ∈ lists ts ∧
      count = N * fields.rotation + (ts + N - wheel.curSlot) % N := by
  have placed : ∀ ts fields, (timer, fields) ∈ lists ts →
      wheel.remaining timer = some (N * fields.rotation + (ts + N - wheel.curSlot) % N) := by
    intro ts fields member
    obtain ⟨_, _, found⟩ := (holds.linked ts).load member
    have slot := holds.located ts _ member
    simp only at found slot
    simp [TimeWheel.remaining, found, slot]
  constructor
  · intro counted
    obtain ⟨cell, found, _⟩ := Option.map_eq_some_iff.mp counted
    obtain ⟨ts, member⟩ := holds.allocated timer (by simp [found])
    obtain ⟨⟨address, fields⟩, present, rfl⟩ := List.mem_map.mp member
    rw [placed ts fields present] at counted
    exact ⟨ts, fields, present, (Option.some.inj counted).symm⟩
  · rintro ⟨ts, fields, member, rfl⟩
    exact placed ts fields member

/-- The distance to the current slot shrinks by one when the wheel turns. -/
theorem distance_turn (ts cur : Fin N) (different : ts ≠ cur) :
    (ts + N - cur : Nat) % N = (ts + N - Fin.ofNat N (cur + 1) : Nat) % N + 1 := by
  have apart : (ts : Nat) ≠ cur := fun same => different (Fin.ext same)
  have first := ts.isLt
  have second := cur.isLt
  simp only [Fin.ofNat]
  unfold N at *
  omega

theorem distance_full (cur : Fin N) :
    (cur + N - cur : Nat) % N = 0 ∧ (cur + N - Fin.ofNat N (cur + 1) : Nat) % N = N - 1 := by
  have bound := cur.isLt
  simp only [Fin.ofNat]
  unfold N at *
  omega

/-- What a tick fires is what starts it with a countdown of zero. -/
theorem Holds.mem_firing (holds : Holds wheel lists) (timer : Nat) :
    timer ∈ (firing (lists wheel.curSlot)).map Prod.fst ↔ wheel.remaining timer = some 0 := by
  rw [holds.remaining_iff]
  constructor
  · intro fires
    obtain ⟨⟨address, fields⟩, member, rfl⟩ := List.mem_map.mp fires
    obtain ⟨present, now⟩ := List.mem_filter.mp member
    simp only [decide_eq_true_eq] at now
    exact ⟨wheel.curSlot, fields, present, by simp [now]⟩
  · rintro ⟨ts, fields, member, zero⟩
    have now : fields.rotation = 0 := by
      unfold N at zero
      omega
    have here : ts = wheel.curSlot := by
      by_contra different
      have distance := distance_turn ts wheel.curSlot different
      omega
    exact List.mem_map.mpr ⟨(timer, fields), by simp [firing, ← here, member, now], rfl⟩

/-- Turning the wheel, with the rotations of the current slot decremented, takes
one from every countdown that is left. -/
theorem Holds.remaining_turn (holds : Holds wheel lists) {new : TimeWheel κ}
    (after : Holds new (Function.update lists wheel.curSlot (staying (lists wheel.curSlot))))
    (turnedSlot : new.curSlot = Fin.ofNat N (wheel.curSlot + 1)) (timer count : Nat) :
    new.remaining timer = some count ↔ wheel.remaining timer = some (count + 1) := by
  have full := distance_full wheel.curSlot
  rw [after.remaining_iff, holds.remaining_iff, turnedSlot]
  constructor
  · rintro ⟨ts, fields, member, rfl⟩
    by_cases here : ts = wheel.curSlot
    · subst here
      rw [Function.update_self] at member
      obtain ⟨⟨address, old⟩, present, same⟩ := List.mem_map.mp member
      obtain ⟨stays, waits⟩ := List.mem_filter.mp present
      cases same
      simp only [decide_eq_true_eq] at waits
      refine ⟨wheel.curSlot, old, stays, ?_⟩
      rw [full.1, full.2]
      unfold N at *
      dsimp only
      omega
    · rw [Function.update_of_ne here] at member
      exact ⟨ts, fields, member, by rw [distance_turn ts wheel.curSlot here]; omega⟩
  · rintro ⟨ts, fields, member, counted⟩
    by_cases here : ts = wheel.curSlot
    · subst here
      rw [full.1] at counted
      have waits : 0 < fields.rotation := by
        unfold N at counted
        omega
      refine ⟨wheel.curSlot, (turned (timer, fields)).2, ?_, ?_⟩
      · rw [Function.update_self]
        exact List.mem_map.mpr ⟨(timer, fields), by simp [member, waits], rfl⟩
      · rw [full.2]
        unfold N turned at *
        dsimp only
        omega
    · refine ⟨ts, fields, by rwa [Function.update_of_ne here], ?_⟩
      rw [distance_turn ts wheel.curSlot here] at counted
      omega

theorem Holds.tick (holds : Holds wheel lists) :
    ∃ new, wheel.tick = some (firing (lists wheel.curSlot), new) ∧
      new.curSlot = Fin.ofNat N (wheel.curSlot + 1) ∧
      Holds new (Function.update lists wheel.curSlot (staying (lists wheel.curSlot))) ∧
      ((firing (lists wheel.curSlot)).map Prod.fst).Nodup ∧
      (∀ timer, timer ∈ (firing (lists wheel.curSlot)).map Prod.fst ↔ wheel.remaining timer = some 0) ∧
      new.remaining = Countdown.tick wheel.remaining := by
  have enough := (holds.linked wheel.curSlot).length_le_size (holds.distinct _)
  obtain ⟨visited, finished, sameSlot, final⟩ :=
    holds.tickLoop [] (lists wheel.curSlot) wheel.store.size rfl enough
  have after : Holds { visited with curSlot := Fin.ofNat N (wheel.curSlot + 1) } _ :=
    ⟨final.linked, final.distinct, final.head, final.located, final.callable, final.allocated⟩
  refine ⟨_, ?_, rfl, after, (holds.distinct _).sublist (List.filter_sublist.map _), holds.mem_firing, ?_⟩
  · simp [TimeWheel.tick, holds.head, finished, sameSlot]
  · funext timer
    apply Option.ext
    intro count
    rw [holds.remaining_turn after rfl]
    unfold Countdown.tick
    split <;> simp_all

/-- Taking a timer out ends its countdown and no other. -/
theorem Holds.remaining_del (holds : Holds wheel lists) {ts : Fin N} {left right : List (Nat × TwTimer κ)}
    {fields : TwTimer κ} (split : lists ts = left ++ (timer, fields) :: right) {new : TimeWheel κ}
    (after : Holds new (Function.update lists ts (left ++ right))) (sameSlot : new.curSlot = wheel.curSlot) :
    new.remaining = Function.update wheel.remaining timer none := by
  have distinct := holds.distinct ts
  rw [split, List.map_append, List.map_cons, List.nodup_middle, List.nodup_cons, ← List.map_append] at distinct
  funext other
  apply Option.ext
  intro count
  by_cases same : other = timer
  · subst same
    simp only [Function.update_self, reduceCtorEq, iff_false, after.remaining_iff, not_exists]
    rintro slot found ⟨member, -⟩
    by_cases here : slot = ts
    · subst here
      rw [Function.update_self] at member
      exact distinct.1 (List.mem_map.mpr ⟨_, member, rfl⟩)
    · rw [Function.update_of_ne here] at member
      exact holds.apart here member (by simp [split])
  · rw [Function.update_of_ne same, after.remaining_iff, holds.remaining_iff, sameSlot]
    refine exists_congr fun slot => exists_congr fun found => and_congr_left fun _ => ?_
    by_cases here : slot = ts
    · subst here
      simp [split, same]
    · rw [Function.update_of_ne here]

/-- Each operation defined on the countdowns is carried out by the wheel. -/
theorem Holds.exec (holds : Holds wheel lists) (op : WheelOp κ) {next : Countdown}
    (taken : execCountdown wheel.remaining op = some next) :
    ∃ fired new listsNew, execWheel wheel op = some (fired, new) ∧ Holds new listsNew ∧
      new.remaining = next := by
  cases op with
  | add timer timeout cbFunc userData =>
    simp only [execCountdown] at taken
    split_ifs at taken with valid
    cases taken
    have unused : wheel.store.load timer = none := by simpa [TimeWheel.remaining] using valid.2
    obtain ⟨new, executed, -, after, counted⟩ := holds.add valid.1 unused cbFunc userData
    exact ⟨[], new, _, executed, after, counted⟩
  | del timer =>
    simp only [execCountdown] at taken
    split_ifs at taken with live
    cases taken
    obtain ⟨count, counted⟩ := Option.ne_none_iff_exists'.mp live
    obtain ⟨ts, fields, member, -⟩ := (holds.remaining_iff timer count).mp counted
    obtain ⟨left, right, split⟩ := List.append_of_mem member
    obtain ⟨new, deleted, sameSlot, after⟩ := holds.del split
    exact ⟨[], new, _, by simp [execWheel, deleted], after, holds.remaining_del split after sameSlot⟩
  | tick =>
    cases taken
    obtain ⟨new, ticked, -, after, -, -, counted⟩ := holds.tick
    exact ⟨_, new, _, ticked, after, counted⟩

theorem runWheel_refines (ops : List (WheelOp κ)) {countdown : Countdown}
    (valid : runCountdown ops = some countdown) :
    ∃ wheel lists, runWheel ops = some wheel ∧ Holds wheel lists ∧ wheel.remaining = countdown := by
  have matched : ∀ (wheel : TimeWheel κ) (countdown : Countdown) (op : WheelOp κ) (next : Countdown),
      ((∃ lists, Holds wheel lists) ∧ wheel.remaining = countdown) → execCountdown countdown op = some next →
      ∃ new, (execWheel wheel op).map Prod.snd = some new ∧
        ((∃ lists, Holds new lists) ∧ new.remaining = next) := by
    rintro wheel _ op next ⟨⟨lists, holds⟩, rfl⟩ taken
    obtain ⟨fired, new, listsNew, executed, after, counted⟩ := holds.exec op taken
    exact ⟨new, by simp [executed], ⟨listsNew, after⟩, counted⟩
  obtain ⟨wheel, reached, ⟨lists, holds⟩, counted⟩ :=
    run_simulation matched ⟨⟨_, Holds.empty⟩, rfl⟩ valid
  exact ⟨wheel, lists, reached, holds, counted⟩

/-- The number of `tick` calls among some operations. -/
def ticksIn : List (WheelOp κ) → Nat
  | [] => 0
  | .tick :: rest => ticksIn rest + 1
  | _ :: rest => ticksIn rest

/-- Whether `op` puts another timer at the same address. -/
def Reuses (timer : Nat) (op : WheelOp κ) : Prop := ∃ timeout cbFunc userData, op = .add timer timeout cbFunc userData

/-- Whatever else happens in between, a countdown is at zero after exactly as many
ticks as it started with, unless its timer is deleted. -/
theorem run_countdown_zero (life : List (WheelOp κ)) {countdown final : Countdown}
    (reached : run execCountdown countdown life = some final) (once : ∀ op ∈ life, ¬ Reuses timer op) :
    final timer = some 0 ↔ .del timer ∉ life ∧ countdown timer = some (ticksIn life) := by
  induction life generalizing countdown with
  | nil =>
    cases Option.some.inj reached
    simp [ticksIn]
  | cons op rest ih =>
    obtain ⟨next, taken, remaining⟩ := run_cons_some.mp reached
    rw [ih remaining fun op member => once op (by simp [member])]
    cases op with
    | add added timeout cbFunc userData =>
      simp only [execCountdown] at taken
      split_ifs at taken
      cases taken
      have different : timer ≠ added := by
        intro same
        exact once _ List.mem_cons_self ⟨timeout, cbFunc, userData, by rw [same]⟩
      simp [ticksIn, Function.update_of_ne different]
    | del deleted =>
      simp only [execCountdown] at taken
      split_ifs at taken
      cases taken
      by_cases same : timer = deleted
      · simp [same]
      · simp [ticksIn, same]
    | tick =>
      cases taken
      have counted : countdown.tick timer = some (ticksIn rest) ↔ countdown timer = some (ticksIn rest + 1) := by
        unfold Countdown.tick
        split <;> simp_all
      simp [ticksIn, counted]

/-- The wheel after any sequence of operations holds the countdowns of the
reference map, and the next tick fires, once each, the timers whose countdown is
zero and takes one from the others. A timer added with timeout `T` fires in the
tick that comes after `max 1 (T / SI)` others, unless it is deleted before. -/
theorem timeWheel_refines_countdown (ops : List (WheelOp κ)) (countdown : Countdown)
    (valid : runCountdown ops = some countdown) :
    ∃ wheel fired next, runWheel ops = some wheel ∧ wheel.remaining = countdown ∧
      wheel.tick = some (fired, next) ∧ next.remaining = countdown.tick ∧ (fired.map Prod.fst).Nodup ∧
      (∀ timer, timer ∈ fired.map Prod.fst ↔ countdown timer = some 0) ∧
      ∀ earlier timer timeout cbFunc userData life, ops = earlier ++ .add timer timeout cbFunc userData :: life →
        (∀ op ∈ life, ¬ Reuses timer op) →
        (timer ∈ fired.map Prod.fst ↔ .del timer ∉ life ∧ ticksIn life = max 1 (timeout.toNat / SI)) := by
  obtain ⟨wheel, lists, reached, holds, rfl⟩ := runWheel_refines ops valid
  obtain ⟨next, ticked, -, -, distinct, zero, counted⟩ := holds.tick
  refine ⟨wheel, _, next, reached, rfl, ticked, counted, distinct, zero, ?_⟩
  intro earlier timer timeout cbFunc userData life split once
  subst split
  obtain ⟨before, _, rest⟩ := run_append_some.mp valid
  obtain ⟨inserted, added, lived⟩ := run_cons_some.mp rest
  simp only [execCountdown] at added
  split_ifs at added
  cases added
  rw [zero, run_countdown_zero life lived once, Function.update_self, Option.some.injEq]
  exact and_congr_right fun _ => eq_comm

/-- A timeout of two seconds runs out in the third tick, beside a deleted timer. -/
theorem timeWheel_refines_countdown_third_tick :
    ∃ wheel fired next, runWheel ([.tick, .add 1 2 0 (), .add 2 60 0 (), .del 2, .tick, .tick] :
        List (WheelOp Unit)) = some wheel ∧ wheel.tick = some (fired, next) ∧ 1 ∈ fired.map Prod.fst := by
  obtain ⟨wheel, fired, next, reached, -, ticked, -, -, -, law⟩ := timeWheel_refines_countdown
    ([.tick, .add 1 2 0 (), .add 2 60 0 (), .del 2, .tick, .tick] : List (WheelOp Unit)) _ rfl
  refine ⟨wheel, fired, next, reached, ticked, ?_⟩
  exact (law [.tick] 1 2 0 () _ rfl (by simp [Reuses])).mpr (by decide)

end UnixProgramming.Timer
