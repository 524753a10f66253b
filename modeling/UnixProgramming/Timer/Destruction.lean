import UnixProgramming.Timer.ListRefinement
import UnixProgramming.Timer.WheelSlots

/-! The destructors of the two linked containers. `free` has no value for an address that is
not allocated, so a destructor with a value deletes nothing twice, and a store without
cells behind it is one without a leak. -/

namespace UnixProgramming.Lib.Store
variable {α : Type} {store : Store α} {before : Option Nat} {nodes : List (Nat × α)}

/-- `while (tmp) { head = tmp->next; delete tmp; tmp = head; }` -/
def freeChain : Nat → Store α → Option Nat → Option (Store α)
  | _, store, none => some store
  | 0, _, some _ => none
  | fuel + 1, store, some tmp => do
    let cell ← store.load tmp
    let store ← store.free tmp
    freeChain fuel store cell.next

/-- The loop frees the cells of a segment and nothing else. -/
theorem freeChain_segment {fuel : Nat} (linked : Segment store before nodes none)
    (distinct : (nodes.map Prod.fst).Nodup) (enough : nodes.length ≤ fuel) :
    ∃ freed, store.freeChain fuel (first nodes) = some freed ∧
      ∀ address, freed.load address = if address ∈ nodes.map Prod.fst then none else store.load address := by
  induction nodes generalizing store before fuel with
  | nil => exact ⟨store, by cases fuel <;> rfl, by simp⟩
  | cons node rest ih =>
    obtain ⟨found, behind⟩ := linked
    obtain ⟨absent, distinct⟩ := List.nodup_cons.mp distinct
    have enough : rest.length + 1 ≤ fuel := enough
    obtain ⟨fuel, rfl⟩ : ∃ less, fuel = less + 1 := ⟨fuel - 1, by omega⟩
    have others : ∀ other ∈ rest, (store.drop node.1).load other.1 = store.load other.1 := by
      intro other member
      rw [load_drop, if_neg]
      intro same
      exact absent (same ▸ List.mem_map_of_mem member)
    obtain ⟨freed, done, loads⟩ := ih (behind.frame others) distinct (Nat.le_of_succ_le_succ enough)
    refine ⟨freed, ?_, fun address => ?_⟩
    · simpa [freeChain, found, free_found found] using done
    · rw [loads, load_drop, List.map_cons]
      by_cases here : address = node.1
      · simp [here]
      · simp only [here, List.mem_cons, false_or, if_false]

end UnixProgramming.Lib.Store

namespace UnixProgramming.Timer

open UnixProgramming.Lib

variable {κ : Type}

/-- `~sort_timer_list()` -/
def SortTimerList.destroy (list : SortTimerList κ) : Option (Store (UtilTimer κ)) :=
  list.store.freeChain list.store.size list.head

/-- `~time_wheel()`, slot after slot. -/
def TimeWheel.destroy (wheel : TimeWheel κ) : Option (Store (TwTimer κ)) :=
  (List.finRange N).foldlM (fun store ts => store.freeChain store.size (wheel.slots ts)) wheel.store

theorem Represents.destroy {list : SortTimerList κ} {seq : TimerSeq κ} (rep : Represents list seq) :
    ∃ freed, list.destroy = some freed ∧ ∀ address, freed.load address = none := by
  obtain ⟨freed, done, loads⟩ := Store.freeChain_segment rep.linked rep.distinct rep.length_le
  refine ⟨freed, by rw [SortTimerList.destroy, rep.head, done], fun address => ?_⟩
  rw [loads]
  split_ifs with held
  · rfl
  · by_contra allocated
    exact held (rep.allocated address (Option.isSome_iff_ne_none.mpr allocated))

/-- What is left when the slots in front have been emptied. -/
theorem Holds.destroy_slots {wheel : TimeWheel κ} {lists : Fin N → List (Nat × TwTimer κ)} (holds : Holds wheel lists)
    (slots : List (Fin N)) (distinct : slots.Nodup) {store : Store (TwTimer κ)}
    (kept : ∀ ts ∈ slots, ∀ node ∈ lists ts, store.load node.1 = wheel.store.load node.1) :
    ∃ freed, slots.foldlM (fun store ts => store.freeChain store.size (wheel.slots ts)) store = some freed ∧
      ∀ address, freed.load address =
        if ∃ ts ∈ slots, address ∈ (lists ts).map Prod.fst then none else store.load address := by
  induction slots generalizing store with
  | nil => exact ⟨store, rfl, by simp⟩
  | cons ts rest ih =>
    obtain ⟨absent, distinct⟩ := List.nodup_cons.mp distinct
    have linked : Segment store none (lists ts) none := (holds.linked ts).frame (kept ts List.mem_cons_self)
    obtain ⟨emptied, done, loads⟩ :=
      Store.freeChain_segment linked (holds.distinct ts) (linked.length_le_size (holds.distinct ts))
    have later : ∀ other ∈ rest, ∀ node ∈ lists other, emptied.load node.1 = wheel.store.load node.1 := by
      intro other member node here
      have different : other ≠ ts := fun same => absent (same ▸ member)
      rw [loads, if_neg (holds.apart different here)]
      exact kept other (List.mem_cons_of_mem _ member) node here
    obtain ⟨freed, finished, final⟩ := ih distinct later
    refine ⟨freed, ?_, fun address => ?_⟩
    · rw [List.foldlM_cons, holds.head ts, done]
      exact finished
    · rw [final, loads]
      by_cases here : address ∈ (lists ts).map Prod.fst
      · simp only [here, List.exists_mem_cons_iff, true_or, if_true, ite_self]
      · simp only [here, List.exists_mem_cons_iff, false_or, if_false]

theorem Holds.destroy {wheel : TimeWheel κ} {lists : Fin N → List (Nat × TwTimer κ)} (holds : Holds wheel lists) :
    ∃ freed, wheel.destroy = some freed ∧ ∀ address, freed.load address = none := by
  obtain ⟨freed, done, loads⟩ := holds.destroy_slots (List.finRange N) (List.nodup_finRange N) fun _ _ _ _ => rfl
  refine ⟨freed, done, fun address => ?_⟩
  rw [loads]
  split_ifs with held
  · rfl
  · by_contra allocated
    obtain ⟨ts, member⟩ := holds.allocated address (Option.isSome_iff_ne_none.mpr allocated)
    exact held ⟨ts, List.mem_finRange ts, member⟩

/-- The lives of a timer list and of a time wheel, to the end of their destructors: whatever
was done with them, no pointer that is null or deleted is used, and every timer is deleted. -/
theorem timers_all_deleted (listOps : List (ListOp κ)) (wheelOps : List (WheelOp κ)) (abstract : Logged (TimerSeq κ) κ)
    (countdown : Countdown) (listValid : runSeq listOps = some abstract)
    (wheelValid : runCountdown wheelOps = some countdown) :
    (∃ list freed, runList listOps = some list ∧ list.state.destroy = some freed ∧
        ∀ address, freed.load address = none) ∧
      ∃ wheel freed, runWheel wheelOps = some wheel ∧ wheel.destroy = some freed ∧
        ∀ address, freed.load address = none := by
  obtain ⟨list, listReached, rep, -⟩ := runList_simulates listOps listValid
  obtain ⟨wheel, lists, wheelReached, holds, -⟩ := runWheel_refines wheelOps wheelValid
  obtain ⟨listFreed, listDone, listEmpty⟩ := rep.destroy
  obtain ⟨wheelFreed, wheelDone, wheelEmpty⟩ := holds.destroy
  exact ⟨⟨list, listFreed, listReached, listDone, listEmpty⟩, wheel, wheelFreed, wheelReached, wheelDone, wheelEmpty⟩

/-- A timer that has fired, one deleted and others left to the destructors. -/
theorem timers_all_deleted_mixed :
    (∃ list freed, runList ([.add 1 ⟨5, some 0, ()⟩, .add 2 ⟨3, some 0, ()⟩, .add 3 ⟨9, some 0, ()⟩, .del 1, .tick 4] :
        List (ListOp Unit)) = some list ∧ list.state.destroy = some freed ∧ ∀ address, freed.load address = none) ∧
      ∃ wheel freed, runWheel ([.add 1 2 0 (), .add 2 60 0 (), .del 2, .add 4 2 0 (), .tick] : List (WheelOp Unit)) =
        some wheel ∧ wheel.destroy = some freed ∧ ∀ address, freed.load address = none := by
  have countdown : (runCountdown ([.add 1 2 0 (), .add 2 60 0 (), .del 2, .add 4 2 0 (), .tick] :
      List (WheelOp Unit))).isSome := by decide
  obtain ⟨_, wheelValid⟩ := Option.isSome_iff_exists.mp countdown
  exact timers_all_deleted _ _ ⟨[(3, ⟨9, some 0, ()⟩)], [[], [], [], [], [(2, ⟨3, some 0, ()⟩)]]⟩ _ (by decide) wheelValid

end UnixProgramming.Timer
