import UnixProgramming.Timer.WheelCountdown

/-! The lists in the slots of the time wheel, over whole runs. A ledger beside the wheel keeps the
timers that were added and neither deleted nor fired. -/

namespace UnixProgramming.Timer

open UnixProgramming.Lib

variable {κ : Type}

/-- The timers of a slot, as they are met along `next`. -/
def TimeWheel.chain (wheel : TimeWheel κ) (ts : Fin N) : Option (List (Nat × TwTimer κ)) :=
  wheel.store.follow wheel.store.size (wheel.slots ts)

/-- A wheel and the timers added to it and neither deleted nor fired. -/
structure Watch (κ : Type) where
  wheel : TimeWheel κ
  alive : Nat → Bool

namespace Watch

def start : Watch κ := ⟨.empty, fun _ => false⟩

/-- An operation on the wheel, entered in the ledger. -/
def step (watch : Watch κ) (op : WheelOp κ) : Option (Watch κ) :=
  (execWheel watch.wheel op).map fun (fired, wheel) =>
    ⟨wheel, fun timer =>
      match op with
      | .add added _ _ _ => timer = added || watch.alive timer
      | .del deleted => timer ≠ deleted && watch.alive timer
      | .tick => watch.alive timer && !(fired.map Prod.fst).contains timer⟩

/-- What the wheel is used for: timeouts are not negative, `new` returns an address that is not in
use, and only live timers are deleted. -/
def Valid (watch : Watch κ) : WheelOp κ → Prop
  | .add timer timeout _ _ => 0 ≤ timeout ∧ watch.alive timer = false
  | .del timer => watch.alive timer = true
  | .tick => True

/-- The wheel holds lists of exactly the live timers. -/
structure Good (watch : Watch κ) (lists : Fin N → List (Nat × TwTimer κ)) : Prop where
  holds : Holds watch.wheel lists
  alive : ∀ timer, watch.alive timer = true ↔ ∃ ts, timer ∈ (lists ts).map Prod.fst

variable {watch : Watch κ} {lists : Fin N → List (Nat × TwTimer κ)} {timer : Nat}

theorem Good.start : Good (start : Watch κ) fun _ => [] where
  holds := .empty
  alive := by simp [Watch.start]

theorem Good.unused (good : watch.Good lists) (fresh : watch.alive timer = false) :
    watch.wheel.store.load timer = none := by
  by_contra used
  obtain ⟨ts, member⟩ := good.holds.allocated timer (Option.isSome_iff_ne_none.mpr used)
  rw [(good.alive timer).mpr ⟨ts, member⟩] at fresh
  cases fresh

/-- The slot of a live timer. -/
theorem Good.found (good : watch.Good lists) (live : watch.alive timer = true) :
    ∃ ts left fields right, lists ts = left ++ (timer, fields) :: right := by
  obtain ⟨ts, member⟩ := (good.alive timer).mp live
  obtain ⟨⟨address, fields⟩, present, rfl⟩ := List.mem_map.mp member
  obtain ⟨left, right, split⟩ := List.append_of_mem present
  exact ⟨ts, left, fields, right, split⟩

theorem Good.chain (good : watch.Good lists) (ts : Fin N) : watch.wheel.chain ts = some (lists ts) := by
  have linked := good.holds.linked ts
  rw [TimeWheel.chain, good.holds.head]
  exact linked.follow (linked.length_le_size (good.holds.distinct ts))

/-- The lists without one timer. -/
def without (lists : Fin N → List (Nat × TwTimer κ)) (timer : Nat) : Fin N → List (Nat × TwTimer κ) :=
  fun ts => (lists ts).filter fun node => node.1 ≠ timer

/-- The lists when the current slot has been visited. -/
def visited (lists : Fin N → List (Nat × TwTimer κ)) (curSlot : Fin N) : Fin N → List (Nat × TwTimer κ) :=
  Function.update lists curSlot (staying (lists curSlot))

theorem Good.add (good : watch.Good lists) {timeout : Int} (valid : 0 ≤ timeout) (fresh : watch.alive timer = false)
    (cbFunc : Nat) (userData : κ) :
    ∃ next, watch.step (.add timer timeout cbFunc userData) = some next ∧
      next.Good (inserted lists timer (placed watch.wheel timeout cbFunc userData)) := by
  obtain ⟨new, executed, -, holds, -⟩ := good.holds.add valid (good.unused fresh) cbFunc userData
  refine ⟨_, by rw [step, executed]; rfl, holds, fun other => ?_⟩
  simp only [Bool.or_eq_true, decide_eq_true_eq, good.alive, inserted]
  generalize placed watch.wheel timeout cbFunc userData = fields
  constructor
  · rintro (rfl | ⟨ts, member⟩)
    · exact ⟨fields.timeSlot, by simp⟩
    · refine ⟨ts, ?_⟩
      by_cases here : ts = fields.timeSlot
      · subst here
        rw [Function.update_self, List.map_cons]
        exact List.mem_cons_of_mem _ member
      · rwa [Function.update_of_ne here]
  · rintro ⟨ts, member⟩
    by_cases here : ts = fields.timeSlot
    · subst here
      rw [Function.update_self, List.map_cons] at member
      exact (List.mem_cons.mp member).imp_right fun old => ⟨_, old⟩
    · rw [Function.update_of_ne here] at member
      exact .inr ⟨ts, member⟩

theorem filter_ne_self {nodes : List (Nat × TwTimer κ)} (absent : timer ∉ nodes.map Prod.fst) :
    (nodes.filter fun node => node.1 ≠ timer) = nodes := by
  refine List.filter_eq_self.mpr fun node member => ?_
  have different : node.1 ≠ timer := fun same => absent (List.mem_map.mpr ⟨node, member, same⟩)
  simpa using different

/-- In lists without repetition a timer is taken out by a filter. -/
theorem Good.without_eq (good : watch.Good lists) {ts : Fin N} {left right : List (Nat × TwTimer κ)}
    {fields : TwTimer κ} (split : lists ts = left ++ (timer, fields) :: right) :
    Function.update lists ts (left ++ right) = without lists timer := by
  funext other
  by_cases here : other = ts
  · subst here
    have distinct := good.holds.distinct other
    rw [split, List.map_append, List.map_cons, List.nodup_middle, List.nodup_cons, ← List.map_append] at distinct
    have kept := filter_ne_self distinct.1
    rw [Function.update_self, without, split, List.filter_append, List.filter_cons_of_neg (by simp),
      ← List.filter_append, kept]
  · have absent : timer ∉ (lists other).map Prod.fst := by
      intro member
      obtain ⟨node, present, rfl⟩ := List.mem_map.mp member
      exact good.holds.apart here present (by simp [split])
    rw [Function.update_of_ne here, without, filter_ne_self absent]

theorem mem_without {ts : Fin N} {other : Nat} :
    other ∈ (without lists timer ts).map Prod.fst ↔ other ≠ timer ∧ other ∈ (lists ts).map Prod.fst := by
  simp only [without, List.mem_map, List.mem_filter, decide_eq_true_eq]
  constructor
  · rintro ⟨node, ⟨member, different⟩, rfl⟩
    exact ⟨different, node, member, rfl⟩
  · rintro ⟨different, node, member, rfl⟩
    exact ⟨node, ⟨member, different⟩, rfl⟩

theorem Good.del (good : watch.Good lists) (live : watch.alive timer = true) :
    ∃ next, watch.step (.del timer) = some next ∧ next.Good (without lists timer) := by
  obtain ⟨ts, left, fields, right, split⟩ := good.found live
  obtain ⟨new, deleted, -, holds⟩ := good.holds.del split
  rw [good.without_eq split] at holds
  refine ⟨_, by simp only [step, execWheel, deleted]; rfl, holds, fun other => ?_⟩
  simp [good.alive, mem_without]

/-- The timers that stay are those of the slot that do not fire. -/
theorem Good.mem_staying (good : watch.Good lists) {ts : Fin N} {other : Nat} :
    other ∈ (staying (lists ts)).map Prod.fst ↔
      other ∈ (lists ts).map Prod.fst ∧ other ∉ (firing (lists ts)).map Prod.fst := by
  have addresses : (staying (lists ts)).map Prod.fst =
      ((lists ts).filter fun node => 0 < node.2.rotation).map Prod.fst := by
    rw [staying, List.map_map]
    rfl
  rw [addresses]
  constructor
  · intro member
    obtain ⟨node, present, rfl⟩ := List.mem_map.mp member
    obtain ⟨here, waits⟩ := List.mem_filter.mp present
    refine ⟨List.mem_map_of_mem here, fun fires => ?_⟩
    obtain ⟨twin, fired, same⟩ := List.mem_map.mp fires
    obtain ⟨there, now⟩ := List.mem_filter.mp fired
    obtain rfl := List.inj_on_of_nodup_map (good.holds.distinct ts) there here same
    simp only [decide_eq_true_eq] at waits now
    omega
  · rintro ⟨member, quiet⟩
    obtain ⟨node, here, rfl⟩ := List.mem_map.mp member
    refine List.mem_map_of_mem (List.mem_filter.mpr ⟨here, decide_eq_true ?_⟩)
    by_contra now
    exact quiet (List.mem_map_of_mem (List.mem_filter.mpr ⟨here, decide_eq_true (by omega)⟩))

theorem Good.tick (good : watch.Good lists) :
    ∃ next, watch.step .tick = some next ∧ next.Good (visited lists watch.wheel.curSlot) := by
  obtain ⟨new, ticked, -, holds, -⟩ := good.holds.tick
  refine ⟨_, by simp only [step, execWheel, ticked]; rfl, holds, fun other => ?_⟩
  simp only [Bool.and_eq_true, Bool.not_eq_true', List.contains_eq_mem, decide_eq_false_iff_not, good.alive]
  generalize watch.wheel.curSlot = cur
  constructor
  · rintro ⟨⟨ts, member⟩, quiet⟩
    refine ⟨ts, ?_⟩
    by_cases here : ts = cur
    · subst here
      rw [visited, Function.update_self]
      exact good.mem_staying.mpr ⟨member, quiet⟩
    · rwa [visited, Function.update_of_ne here]
  · rintro ⟨ts, member⟩
    by_cases here : ts = cur
    · subst here
      rw [visited, Function.update_self] at member
      obtain ⟨old, quiet⟩ := good.mem_staying.mp member
      exact ⟨⟨ts, old⟩, quiet⟩
    · rw [visited, Function.update_of_ne here] at member
      refine ⟨⟨ts, member⟩, fun fires => ?_⟩
      obtain ⟨node, present, rfl⟩ := List.mem_map.mp member
      obtain ⟨twin, fired, same⟩ := List.mem_map.mp fires
      exact good.holds.apart here present (List.mem_map.mpr ⟨twin, List.mem_of_mem_filter fired, same⟩)

/-- The wheel holds some lists of exactly the live timers. -/
def Sound (watch : Watch κ) : Prop := ∃ lists, watch.Good lists

theorem Sound.start : Sound (start : Watch κ) := ⟨_, .start⟩

/-- A valid operation is carried out and leaves a good wheel. -/
theorem Sound.step (sound : watch.Sound) {op : WheelOp κ} (valid : watch.Valid op) :
    ∃ next, watch.step op = some next ∧ next.Sound := by
  obtain ⟨lists, good⟩ := sound
  cases op with
  | add timer timeout cbFunc userData =>
    obtain ⟨next, taken, after⟩ := good.add valid.1 valid.2 cbFunc userData
    exact ⟨next, taken, _, after⟩
  | del timer =>
    obtain ⟨next, taken, after⟩ := good.del valid
    exact ⟨next, taken, _, after⟩
  | tick =>
    obtain ⟨next, taken, after⟩ := good.tick
    exact ⟨next, taken, _, after⟩

/-- What is well formed about the slots of a wheel: the current one exists, each one's chain along `next` ends, its head has
no predecessor and every other timer's `prev` is the one before it, each timer knows its slot, and a
timer that is live is in exactly one slot. -/
structure WellFormed (watch : Watch κ) (lists : Fin N → List (Nat × TwTimer κ)) : Prop where
  current : (watch.wheel.curSlot : Nat) < N
  chains : ∀ ts, watch.wheel.chain ts = some (lists ts)
  linked : ∀ ts, Segment watch.wheel.store none (lists ts) none
  located : ∀ ts, ∀ node ∈ lists ts, node.2.timeSlot = ts
  once : ∀ ts, ((lists ts).map Prod.fst).Nodup
  live : ∀ timer, watch.alive timer = true → ∃! ts, timer ∈ (lists ts).map Prod.fst
  dead : ∀ timer ts, watch.alive timer = false → timer ∉ (lists ts).map Prod.fst

theorem Good.wellFormed (good : watch.Good lists) : watch.WellFormed lists where
  current := watch.wheel.curSlot.isLt
  chains := good.chain
  linked := good.holds.linked
  located := good.holds.located
  once := good.holds.distinct
  live := by
    intro timer live
    obtain ⟨ts, member⟩ := (good.alive timer).mp live
    refine ⟨ts, member, fun other also => ?_⟩
    by_contra different
    obtain ⟨node, present, rfl⟩ := List.mem_map.mp also
    exact good.holds.apart different present member
  dead := by
    intro timer ts dead member
    rw [(good.alive timer).mpr ⟨ts, member⟩] at dead
    cases dead

/-- The slots stay well formed over every run of valid operations, none of which goes wrong. From
the state a run reaches, `del_timer` of a live timer takes out that timer and nothing else, and
`tick` takes the timers with no rotations left out of the current slot, in the order of the others
and with nothing but their rotations changed. -/
theorem wheel_slots_wellFormed (ops : List (WheelOp κ)) (valid : Meets step Valid start ops) :
    ∃ final lists, run step start ops = some final ∧ final.WellFormed lists ∧
      (∀ timer, final.alive timer = true → ∃ next, final.step (.del timer) = some next ∧
        next.WellFormed (without lists timer)) ∧
      ∃ next, final.step .tick = some next ∧
        next.WellFormed (visited lists final.wheel.curSlot) := by
  obtain ⟨final, reached, lists, good⟩ :=
    run_total_of_meets (fun watch op sound valid => Sound.step sound valid) Sound.start valid
  refine ⟨final, lists, reached, good.wellFormed, fun timer live => ?_, ?_⟩
  · obtain ⟨next, taken, after⟩ := good.del live
    exact ⟨next, taken, after.wellFormed⟩
  · obtain ⟨next, taken, after⟩ := good.tick
    exact ⟨next, taken, after.wellFormed⟩

/-- Two timers in one slot, the second in front of the first, and a tick of another slot. -/
theorem wheel_slots_wellFormed_two :
    ∃ final lists, run step (start : Watch Unit) [.add 1 2 0 (), .add 2 62 0 (), .tick] = some final ∧
      final.WellFormed lists ∧ ∃ next, final.step .tick = some next := by
  have valid : Meets step Valid (start : Watch Unit) [.add 1 2 0 (), .add 2 62 0 (), .tick] := by
    refine ⟨by simp [Valid, start], fun next taken => ⟨?_, fun later after => ⟨trivial, fun _ _ => trivial⟩⟩⟩
    cases taken
    exact ⟨by decide, rfl⟩
  obtain ⟨final, lists, reached, wellFormed, -, next, ticked, -⟩ := wheel_slots_wellFormed _ valid
  exact ⟨final, lists, reached, wellFormed, next, ticked⟩

end Watch
end UnixProgramming.Timer
