import UnixProgramming.Lib.StableInsert
import UnixProgramming.Timer.SortTimerList

/-! `sort_timer_list` refines a sequence kept by stable insertion. The reference
sequence below says what the list is for; the representation relation ties the
links, `head` and `tail` of the pointer list to it. -/

namespace UnixProgramming.Timer

open UnixProgramming.Lib

variable {κ : Type}

/-- The timers in visiting order, each with its address. -/
abbrev TimerSeq (κ : Type) := List (Nat × UtilTimer κ)

def expireOf (node : Nat × UtilTimer κ) : Int := node.2.expire

/-- The reference for one operation: a stable insertion, a removal followed by a
stable insertion, a removal, and a tick that fires whatever is due. It is `none`
where the operation is not one the list is meant for: a timer that is already
there or has no callback, an absent timer, or a timeout that is lowered. -/
def execSeq (seq : TimerSeq κ) : ListOp κ → Option (List (Nat × UtilTimer κ) × TimerSeq κ)
  | .add timer fields =>
    if timer ∉ seq.map Prod.fst ∧ fields.cbFunc.isSome then
      some ([], stableInsert expireOf (timer, fields) seq)
    else none
  | .adjust timer expire =>
    match seq.find? fun node => node.1 = timer with
    | none => none
    | some node =>
      if node.2.expire ≤ expire then
        some ([], stableInsert expireOf (timer, { node.2 with expire := expire })
          (seq.filter fun other => other.1 ≠ timer))
      else none
  | .del timer =>
    if timer ∈ seq.map Prod.fst then some ([], seq.filter fun other => other.1 ≠ timer) else none
  | .tick cur =>
    some (seq.filter fun node => node.2.expire ≤ cur, seq.filter fun node => cur < node.2.expire)

/-- The reference sequence under a sequence of operations, with its firing log. -/
def runSeq : List (ListOp κ) → Option (Logged (TimerSeq κ) κ) :=
  run (logStep execSeq) ⟨[], []⟩

/-- The pointer list holds exactly the nodes of the sequence, in its order.
`tail` is only meaningful while there is a node. -/
structure Represents (list : SortTimerList κ) (seq : TimerSeq κ) : Prop where
  linked : Segment list.store none seq none
  distinct : (seq.map Prod.fst).Nodup
  head : list.head = first seq
  tail : seq ≠ [] → list.tail = last seq
  sorted : Ascending expireOf seq
  callable : ∀ node ∈ seq, node.2.cbFunc.isSome = true
  allocated : ∀ address, (list.store.load address).isSome = true → address ∈ seq.map Prod.fst

theorem Represents.empty : Represents (.empty : SortTimerList κ) [] where
  linked := trivial
  distinct := List.nodup_nil
  head := rfl
  tail := fun nonempty => (nonempty rfl).elim
  sorted := List.Pairwise.nil
  callable := by simp
  allocated := by simp [SortTimerList.empty]

variable {list : SortTimerList κ} {seq : TimerSeq κ}

theorem Represents.length_le (rep : Represents list seq) : seq.length ≤ list.store.size :=
  rep.linked.length_le_size rep.distinct

theorem Represents.forward (rep : Represents list seq) : list.forward = some (seq.map Prod.fst) := by
  rw [SortTimerList.forward, rep.head]
  exact walk_next rep.linked _ rep.length_le

theorem Represents.backward (rep : Represents list seq) (nonempty : seq ≠ []) :
    list.backward = some (seq.map Prod.fst).reverse := by
  rw [SortTimerList.backward, rep.tail nonempty]
  exact walk_prev rep.linked _ rep.length_le

/-! ## Insertion -/

/-- What an insertion has to give back: the links of `result`, its ends, and no
cell allocated or freed. -/
structure Inserted (old new : SortTimerList κ) (result : TimerSeq κ) : Prop where
  linked : Segment new.store none result none
  head : new.head = first result
  tail : new.tail = last result
  domain : ∀ address, (new.store.load address).isSome = (old.store.load address).isSome

section Insertion
variable {timer : Nat} {fields : UtilTimer κ} {prev next : Option Nat}

/-- The code after the loop: the timer goes behind the last node. -/
theorem addTimerLoop_last (left : TimerSeq κ) (current : Nat × UtilTimer κ) (fuel : Nat)
    (linked : Segment list.store none (left ++ [current]) none)
    (distinct : ((left ++ [current]).map Prod.fst).Nodup)
    (apart : ∀ node ∈ left ++ [current], node.1 ≠ timer)
    (found : list.store.load timer = some ⟨fields, prev, next⟩)
    (head : list.head = first (left ++ [current])) :
    ∃ result, SortTimerList.addTimerLoop timer fuel list current.1 none = some result ∧
      Inserted list result (left ++ [current] ++ [(timer, fields)]) := by
  obtain ⟨before, after, currentFound⟩ := linked.load (List.mem_append_right left List.mem_cons_self)
  have currentApart : current.1 ≠ timer := apart current (by simp)
  refine ⟨_, by
    cases fuel <;> simp [SortTimerList.addTimerLoop, Store.setNext, Store.setPrev, found,
      currentFound, currentApart.symm] <;> rfl, ?_⟩
  refine ⟨?_, by simp [head], by simp, ?_⟩
  · have joined : Segment list.store none ((left ++ [current]) ++ []) none := by simpa using linked
    refine joined.insert distinct (by simp) (by simp) ?_ (by simp)
    intro other member
    have different := apart other member
    by_cases same : other.1 = current.1
    · simp [same, currentFound, currentApart]
    · simp [same, different]
  · intro address
    rw [Store.isSome_load_put (by simp), Store.isSome_load_put (by simp [currentApart.symm, found]),
      Store.isSome_load_put (by simp [currentFound])]

/-- The branch that leaves the loop: the timer goes between `prev` and `tmp`. -/
theorem addTimerLoop_between (left right : TimerSeq κ) (current tmp : Nat × UtilTimer κ) (fuel : Nat)
    (linked : Segment list.store none ((left ++ [current]) ++ tmp :: right) none)
    (distinct : (((left ++ [current]) ++ tmp :: right).map Prod.fst).Nodup)
    (apart : ∀ node ∈ (left ++ [current]) ++ tmp :: right, node.1 ≠ timer)
    (found : list.store.load timer = some ⟨fields, prev, next⟩)
    (head : list.head = first ((left ++ [current]) ++ tmp :: right))
    (tail : list.tail = last ((left ++ [current]) ++ tmp :: right))
    (smaller : fields.expire < tmp.2.expire) :
    ∃ result, SortTimerList.addTimerLoop timer (fuel + 1) list current.1 (some tmp.1) = some result ∧
      Inserted list result ((left ++ [current]) ++ (timer, fields) :: tmp :: right) := by
  obtain ⟨_, _, currentFound⟩ := linked.load
    (List.mem_append_left _ (List.mem_append_right left List.mem_cons_self))
  obtain ⟨_, _, tmpFound⟩ := linked.load (List.mem_append_right _ List.mem_cons_self)
  have currentApart : current.1 ≠ timer := apart current (by simp)
  have tmpApart : tmp.1 ≠ timer := apart tmp (by simp)
  rw [List.map_append, List.nodup_append] at distinct
  obtain ⟨leftDistinct, rightDistinct, disjoint⟩ := distinct
  have neighbours : current.1 ≠ tmp.1 := disjoint current.1 (by simp) tmp.1 (by simp)
  refine ⟨_, by
    simp [SortTimerList.addTimerLoop, Store.setNext, Store.setPrev, found, tmpFound, smaller,
      currentFound, currentApart.symm, tmpApart, tmpApart.symm, neighbours.symm]; rfl, ?_⟩
  refine ⟨linked.insert leftDistinct rightDistinct (by simp) ?_ ?_, by simp [head], by simp [tail], ?_⟩
  · intro other member
    have different := apart other (List.mem_append_left _ member)
    have before : other.1 ≠ tmp.1 :=
      disjoint other.1 (List.mem_map_of_mem member) tmp.1 (by simp)
    by_cases same : other.1 = current.1
    · simp [same, currentFound, currentApart, neighbours]
    · simp [same, different, before]
  · intro other member
    have different := apart other (List.mem_append_right _ member)
    have after : other.1 ≠ current.1 :=
      (disjoint current.1 (by simp) other.1 (List.mem_map_of_mem member)).symm
    by_cases same : other.1 = tmp.1
    · simp [same, tmpFound, tmpApart]
    · simp [same, different, after]
  · intro address
    rw [Store.isSome_load_put (by simp [tmpApart.symm]),
      Store.isSome_load_put (by simp [tmpApart, neighbours.symm, tmpFound]),
      Store.isSome_load_put (by simp [currentApart.symm, found]),
      Store.isSome_load_put (by simp [currentFound])]

/-- The loop passes every node that is not later than the timer. The induction is
on the nodes after `current`, which is the loop's `prev`. -/
theorem addTimerLoop_inserted (left right : TimerSeq κ) (current : Nat × UtilTimer κ) (fuel : Nat)
    (linked : Segment list.store none ((left ++ [current]) ++ right) none)
    (distinct : (((left ++ [current]) ++ right).map Prod.fst).Nodup)
    (apart : ∀ node ∈ (left ++ [current]) ++ right, node.1 ≠ timer)
    (found : list.store.load timer = some ⟨fields, prev, next⟩)
    (head : list.head = first ((left ++ [current]) ++ right))
    (tail : list.tail = last ((left ++ [current]) ++ right)) (enough : right.length ≤ fuel) :
    ∃ result, SortTimerList.addTimerLoop timer fuel list current.1 (first right) = some result ∧
      Inserted list result ((left ++ [current]) ++ stableInsert expireOf (timer, fields) right) := by
  induction right generalizing left current fuel with
  | nil =>
    rw [List.append_nil] at linked distinct apart head
    exact addTimerLoop_last left current fuel linked distinct apart found head
  | cons tmp rest ih =>
    cases fuel with
    | zero => simp at enough
    | succ fuel =>
      rcases lt_or_ge fields.expire tmp.2.expire with smaller | later
      · rw [stableInsert_of_lt (show expireOf (timer, fields) < expireOf tmp from smaller)]
        exact addTimerLoop_between left rest current tmp fuel linked distinct apart found head tail smaller
      · rw [stableInsert_of_le (show expireOf tmp ≤ expireOf (timer, fields) from later)]
        rw [List.append_cons] at linked distinct apart head tail ⊢
        obtain ⟨result, finished, inserted⟩ :=
          ih (left ++ [current]) tmp fuel linked distinct apart head tail (by simpa using enough)
        refine ⟨result, ?_, inserted⟩
        rw [← finished]
        have upToTmp := ((segment_append _ _).mp linked).1
        have tmpFound := ((segment_append _ _).mp upToTmp).2.1
        simp [SortTimerList.addTimerLoop, found, tmpFound, later.not_gt]

theorem addTimerAfter_inserted (left right : TimerSeq κ) (current : Nat × UtilTimer κ)
    (linked : Segment list.store none ((left ++ [current]) ++ right) none)
    (distinct : (((left ++ [current]) ++ right).map Prod.fst).Nodup)
    (apart : ∀ node ∈ (left ++ [current]) ++ right, node.1 ≠ timer)
    (found : list.store.load timer = some ⟨fields, prev, next⟩)
    (head : list.head = first ((left ++ [current]) ++ right))
    (tail : list.tail = last ((left ++ [current]) ++ right)) :
    ∃ result, list.addTimerAfter timer current.1 = some result ∧
      Inserted list result ((left ++ [current]) ++ stableInsert expireOf (timer, fields) right) := by
  have bound := linked.length_le_size distinct
  have enough : right.length ≤ list.store.size := by
    simp only [List.length_append] at bound
    omega
  obtain ⟨result, finished, inserted⟩ := addTimerLoop_inserted left right current list.store.size
    linked distinct apart found head tail enough
  refine ⟨result, ?_, inserted⟩
  have upToCurrent := ((segment_append _ _).mp linked).1
  have currentFound := ((segment_append _ _).mp upToCurrent).2.1
  simp only [SortTimerList.addTimerAfter, currentFound, first_nil, Option.none_or, Option.or_none]
  exact finished

/-- `add_timer` of a node with null links, into a list whose `tail` may dangle
while the list is empty. -/
theorem addTimer_inserted (list : SortTimerList κ) (fields : UtilTimer κ)
    (linked : Segment list.store none seq none)
    (distinct : (seq.map Prod.fst).Nodup) (apart : ∀ node ∈ seq, node.1 ≠ timer)
    (found : list.store.load timer = some ⟨fields, none, none⟩)
    (head : list.head = first seq) (tail : seq ≠ [] → list.tail = last seq) :
    ∃ result, list.addTimer (some timer) = some result ∧
      Inserted list result (stableInsert expireOf (timer, fields) seq) := by
  cases seq with
  | nil =>
    refine ⟨_, by simp [SortTimerList.addTimer, head]; rfl, ?_⟩
    exact ⟨⟨found, trivial⟩, rfl, rfl, fun _ => rfl⟩
  | cons front rest =>
    have frontApart : front.1 ≠ timer := apart front (by simp)
    rcases lt_or_ge fields.expire front.2.expire with smaller | later
    · rw [stableInsert_of_lt (show expireOf (timer, fields) < expireOf front from smaller)]
      refine ⟨_, by
        simp [SortTimerList.addTimer, head, found, linked.1, smaller, Store.setNext, Store.setPrev,
          frontApart]; rfl, ?_⟩
      refine ⟨?_, rfl, by simp [tail], ?_⟩
      · have joined : Segment list.store none ([] ++ front :: rest) none := linked
        refine joined.insert List.nodup_nil distinct (by simp [frontApart.symm]) (by simp) ?_
        intro other member
        have different := apart other member
        by_cases same : other.1 = front.1
        · simp [same, linked.1]
        · simp [same, different]
      · intro address
        rw [Store.isSome_load_put (by simp [frontApart, linked.1]),
          Store.isSome_load_put (by simp [found])]
    · rw [stableInsert_of_le (show expireOf front ≤ expireOf (timer, fields) from later)]
      obtain ⟨result, finished, inserted⟩ :=
        addTimerAfter_inserted [] rest front linked distinct apart found head (tail (by simp))
      refine ⟨result, ?_, inserted⟩
      simpa [SortTimerList.addTimer, head, found, linked.1, later.not_gt] using finished

end Insertion

end UnixProgramming.Timer
