import Mathlib.Algebra.GroupWithZero.Nat
import Mathlib.Data.List.Basic
import Mathlib.Data.Fin.Basic

/-! The cyclic order of `n` slots and rotating selection in it. A rotation takes the
first eligible slot at or after its counter and moves the counter behind it; between two
turns of one slot every other slot that stays eligible has exactly one turn. -/

namespace UnixProgramming.Lib.Cyclic
variable {n : Nat}

def next (slot : Fin n) : Fin n := ⟨(slot.val + 1) % n, Nat.mod_lt _ slot.pos⟩

/-- How many steps lead from one slot to another. -/
def distance (origin slot : Fin n) : Nat := if origin ≤ slot then slot - origin else slot + n - origin

theorem next_val (slot : Fin n) : (next slot).val = if slot.val + 1 = n then 0 else slot.val + 1 := by
  have inside := slot.isLt
  simp only [next]
  split_ifs with last
  · rw [last, Nat.mod_self]
  · exact Nat.mod_eq_of_lt (by omega)

@[simp] theorem distance_self (slot : Fin n) : distance slot slot = 0 := by simp [distance]

theorem distance_lt (origin slot : Fin n) : distance origin slot < n := by
  have bound := origin.isLt
  have inside := slot.isLt
  unfold distance
  split_ifs with order
  · omega
  · rw [Fin.le_def] at order
    omega

theorem eq_of_distance_eq {origin slot other : Fin n} (same : distance origin slot = distance origin other) :
    slot = other := by
  have bound := origin.isLt
  have first := slot.isLt
  have second := other.isLt
  unfold distance at same
  simp only [Fin.le_def] at same
  apply Fin.ext
  split_ifs at same <;> omega

theorem distance_next {origin slot : Fin n} (inner : next slot ≠ origin) :
    distance origin (next slot) = distance origin slot + 1 := by
  have bound := origin.isLt
  have inside := slot.isLt
  have apart : (next slot).val ≠ origin.val := fun same => inner (Fin.ext same)
  unfold distance
  simp only [Fin.le_def]
  rw [next_val] at apart ⊢
  split_ifs at apart ⊢ <;> omega

theorem distance_of_next_eq {origin slot : Fin n} (last : next slot = origin) : distance origin slot + 1 = n := by
  subst last
  have inside := slot.isLt
  unfold distance
  simp only [Fin.le_def, next_val]
  split_ifs <;> omega

theorem next_injective : Function.Injective (next : Fin n → Fin n) := by
  intro slot other same
  have first := slot.isLt
  have second := other.isLt
  have values := congrArg Fin.val same
  rw [next_val, next_val] at values
  apply Fin.ext
  split_ifs at values <;> omega

/-- On the way from `origin` to the slot before `turn`, distances add up. -/
theorem distance_next_add {turn counter slot : Fin n} (way : distance counter slot ≤ distance counter turn) :
    distance (next turn) slot = distance (next turn) counter + distance counter slot := by
  have first := turn.isLt
  have second := counter.isLt
  have third := slot.isLt
  unfold distance at way ⊢
  simp only [Fin.le_def, next_val] at way ⊢
  split_ifs at way ⊢ <;> omega

theorem distance_le_turn {turn counter slot : Fin n}
    (later : distance (next turn) counter ≤ distance (next turn) slot) :
    distance counter slot ≤ distance counter turn := by
  have first := turn.isLt
  have second := counter.isLt
  have third := slot.isLt
  unfold distance at later ⊢
  simp only [Fin.le_def, next_val] at later ⊢
  split_ifs at later ⊢ <;> omega

/-- The first eligible slot at or after the counter. -/
def First (eligible : Fin n → Prop) (counter slot : Fin n) : Prop :=
  eligible slot ∧ ∀ other, eligible other → distance counter slot ≤ distance counter other

/-! ## Turns -/

/-- A selection: who was eligible and who was selected. -/
structure Turn (n : Nat) where
  eligible : Fin n → Prop
  slot : Fin n

/-- Each turn starts where the one before it ended. -/
def Rotation : Fin n → List (Turn n) → Prop
  | _, [] => True
  | counter, turn :: rest => First turn.eligible counter turn.slot ∧ Rotation (next turn.slot) rest

/-- The counter after some turns. -/
def counterAfter : Fin n → List (Turn n) → Fin n
  | counter, [] => counter
  | _, turn :: rest => counterAfter (next turn.slot) rest

theorem rotation_append {counter : Fin n} {first second : List (Turn n)} :
    Rotation counter (first ++ second) ↔
      Rotation counter first ∧ Rotation (counterAfter counter first) second := by
  induction first generalizing counter with
  | nil => simp [Rotation, counterAfter]
  | cons turn rest ih => simp [Rotation, counterAfter, ih, and_assoc]

theorem counterAfter_append (counter : Fin n) (first second : List (Turn n)) :
    counterAfter counter (first ++ second) = counterAfter (counterAfter counter first) second := by
  induction first generalizing counter with
  | nil => rfl
  | cons turn rest ih => exact ih (next turn.slot)

/-- A selection of another slot moves the counter towards the turn of `turn`, at most
behind a slot that is eligible. -/
theorem First.advance {eligible : Fin n → Prop} {counter chosen turn : Fin n}
    (first : First eligible counter chosen) (waiting : eligible turn) (other : chosen ≠ turn) :
    distance (next turn) (next chosen) = distance (next turn) counter + distance counter chosen + 1 := by
  rw [distance_next (fun same => other (next_injective same)), distance_next_add (first.2 turn waiting)]

/-- Until the slot `turn` is selected, a slot that stays eligible is selected once if the
counter has not passed it and never otherwise. -/
theorem Rotation.count {counter turn slot : Fin n} {between : List (Turn n)} {last : Turn n}
    (rotation : Rotation counter (between ++ [last])) (ends : last.slot = turn)
    (others : ∀ entry ∈ between, entry.slot ≠ turn) (distinct : slot ≠ turn)
    (waiting : ∀ entry ∈ between ++ [last], entry.eligible turn)
    (eligible : ∀ entry ∈ between ++ [last], entry.eligible slot) :
    between.countP (fun entry => entry.slot = slot) =
      if distance (next turn) counter ≤ distance (next turn) slot then 1 else 0 := by
  induction between generalizing counter with
  | nil =>
    -- the counter has passed the slot, which would have been selected in place of `turn`
    obtain ⟨⟨-, least⟩, -⟩ := rotation
    rw [if_neg, List.countP_nil]
    intro ahead
    have before := least slot (eligible last (by simp))
    rw [ends] at before
    have within := distance_le_turn ahead
    exact distinct (eq_of_distance_eq (Nat.le_antisymm within before))
  | cons entry rest ih =>
    obtain ⟨first, later⟩ := rotation
    obtain ⟨other, others⟩ := List.forall_mem_cons.mp others
    have remaining := ih later others (fun entry member => waiting entry (List.mem_cons_of_mem _ member))
      (fun entry member => eligible entry (List.mem_cons_of_mem _ member))
    have moved := first.advance (waiting entry (by simp)) other
    have least := first.2 slot (eligible entry (by simp))
    have way := distance_next_add (first.2 turn (waiting entry (by simp)))
    rw [List.countP_cons, remaining, moved]
    by_cases ahead : distance (next turn) counter ≤ distance (next turn) slot
    · have position := distance_next_add (distance_le_turn ahead)
      by_cases same : entry.slot = slot
      · rw [same] at way ⊢
        rw [if_neg (by omega), if_pos (by simp), if_pos ahead]
      · have apart : distance counter entry.slot ≠ distance counter slot := fun equal => same (eq_of_distance_eq equal)
        rw [if_pos (by omega), if_neg (by simpa using same), if_pos ahead]
    · have apart : entry.slot ≠ slot := by
        rintro same
        rw [same] at way
        omega
      rw [if_neg (by omega), if_neg (by simpa using apart), if_neg ahead]

/-- Between two turns of one slot every other slot that stays eligible has exactly one turn. -/
theorem Rotation.fair {turn slot : Fin n} {between : List (Turn n)} {last : Turn n}
    (rotation : Rotation (next turn) (between ++ [last])) (ends : last.slot = turn)
    (others : ∀ entry ∈ between, entry.slot ≠ turn) (distinct : slot ≠ turn)
    (waiting : ∀ entry ∈ between ++ [last], entry.eligible turn)
    (eligible : ∀ entry ∈ between ++ [last], entry.eligible slot) :
    between.countP (fun entry => entry.slot = slot) = 1 := by
  rw [rotation.count ends others distinct waiting eligible, if_pos (by simp)]

end UnixProgramming.Lib.Cyclic
