import Mathlib.Data.List.AList
import Mathlib.Data.List.Induction

/-! Doubly linked lists in a store of allocated cells. A pointer is an address
or null; reading through null or through a freed address has no value, so a
computation over the store that returns `some` has used no such pointer. -/

namespace UnixProgramming.Lib
variable {α : Type}

structure Cell (α : Type) where
  data : α
  prev : Option Nat
  next : Option Nat
deriving DecidableEq, Repr

/-- The allocated cells by address. -/
abbrev Store (α : Type) := AList (fun _ : Nat => Cell α)

namespace Store

def load (store : Store α) (address : Nat) : Option (Cell α) := store.lookup address

def put (store : Store α) (address : Nat) (cell : Cell α) : Store α := store.insert address cell

def drop (store : Store α) (address : Nat) : Store α := store.erase address

/-- A fresh cell with both links null. -/
def alloc (store : Store α) (address : Nat) (data : α) : Option (Store α) :=
  match store.load address with
  | none => some (store.put address ⟨data, none, none⟩)
  | some _ => none

def setPrev (store : Store α) (address : Nat) (target : Option Nat) : Option (Store α) :=
  (store.load address).map fun cell => store.put address { cell with prev := target }

def setNext (store : Store α) (address : Nat) (target : Option Nat) : Option (Store α) :=
  (store.load address).map fun cell => store.put address { cell with next := target }

/-- Set the `prev` of a cell unless the pointer to it is null. -/
def linkPrev (store : Store α) : Option Nat → Option Nat → Option (Store α)
  | none, _ => some store
  | some address, target => store.setPrev address target

/-- Set the `next` of a cell unless the pointer to it is null. -/
def linkNext (store : Store α) : Option Nat → Option Nat → Option (Store α)
  | none, _ => some store
  | some address, target => store.setNext address target

def setData (store : Store α) (address : Nat) (data : α) : Option (Store α) :=
  (store.load address).map fun cell => store.put address { cell with data := data }

def free (store : Store α) (address : Nat) : Option (Store α) :=
  (store.load address).map fun _ => store.drop address

/-- Make the neighbours of a cell point at each other and free it. -/
def detach (store : Store α) (address : Nat) : Option (Store α) := do
  let cell ← store.load address
  let store ← store.linkNext cell.prev cell.next
  let store ← store.linkPrev cell.next cell.prev
  store.free address

def size (store : Store α) : Nat := store.keys.length

@[simp] theorem load_empty (address : Nat) : load (∅ : Store α) address = none := rfl

@[simp] theorem load_put (store : Store α) (address other : Nat) (cell : Cell α) :
    (store.put address cell).load other = if other = address then some cell else store.load other := by
  by_cases same : other = address
  · subst other
    simp [load, put]
  · simp [load, put, same, AList.lookup_insert_ne same]

@[simp] theorem load_drop (store : Store α) (address other : Nat) :
    (store.drop address).load other = if other = address then none else store.load other := by
  by_cases same : other = address
  · subst other
    simp [load, drop]
  · simp [load, drop, same, AList.lookup_erase_ne same]

/-- Writing to an allocated cell allocates nothing. -/
theorem isSome_load_put {store : Store α} {address : Nat} (live : (store.load address).isSome = true)
    (cell : Cell α) (other : Nat) :
    ((store.put address cell).load other).isSome = (store.load other).isSome := by
  rw [load_put]
  split_ifs with same
  · simp [same, live]
  · rfl

section Found
variable {store : Store α} {address : Nat} {cell : Cell α}

theorem alloc_fresh (fresh : store.load address = none) (data : α) :
    store.alloc address data = some (store.put address ⟨data, none, none⟩) := by
  simp [alloc, fresh]

variable (found : store.load address = some cell)
include found

theorem setPrev_found (target : Option Nat) :
    store.setPrev address target = some (store.put address { cell with prev := target }) := by
  simp [setPrev, found]

theorem setData_found (data : α) :
    store.setData address data = some (store.put address { cell with data := data }) := by
  simp [setData, found]

theorem free_found : store.free address = some (store.drop address) := by
  simp [free, found]

end Found

/-- Distinct allocated addresses are at most as many as the allocated cells. -/
theorem length_le_size {store : Store α} {addresses : List Nat} (distinct : addresses.Nodup)
    (allocated : ∀ address ∈ addresses, (store.load address).isSome = true) :
    addresses.length ≤ store.size := by
  apply distinct.length_le_of_subset
  intro address member
  exact AList.mem_keys.mp (AList.lookup_isSome.mp (allocated address member))

end Store

/-- The address of the first node of a sequence of addressed values. -/
def first (nodes : List (Nat × α)) : Option Nat := nodes.head?.map Prod.fst

def last (nodes : List (Nat × α)) : Option Nat := nodes.getLast?.map Prod.fst

@[simp] theorem first_nil : first ([] : List (Nat × α)) = none := rfl

@[simp] theorem first_cons (node : Nat × α) (rest : List (Nat × α)) :
    first (node :: rest) = some node.1 := rfl

@[simp] theorem last_nil : last ([] : List (Nat × α)) = none := rfl

@[simp] theorem last_append (left right : List (Nat × α)) :
    last (left ++ right) = (last right).or (last left) := by
  simp [last, List.getLast?_append, Option.map_or]

@[simp] theorem last_cons (node : Nat × α) (rest : List (Nat × α)) :
    last (node :: rest) = some ((last rest).getD node.1) := by
  cases rest using List.reverseRecOn with
  | nil => rfl
  | append_singleton front final => simp [last, List.getLast?_cons]

@[simp] theorem first_append (left right : List (Nat × α)) :
    first (left ++ right) = (first left).or (first right) := by
  cases left <;> simp

theorem first_ne {nodes : List (Nat × α)} {address : Nat} (apart : ∀ node ∈ nodes, node.1 ≠ address) :
    first nodes ≠ some address := by
  intro same
  obtain ⟨node, head, rfl⟩ := Option.map_eq_some_iff.mp same
  exact apart node (List.mem_of_head? head) rfl

theorem last_ne {nodes : List (Nat × α)} {address : Nat} (apart : ∀ node ∈ nodes, node.1 ≠ address) :
    last nodes ≠ some address := by
  intro same
  obtain ⟨node, final, rfl⟩ := Option.map_eq_some_iff.mp same
  exact apart node (List.mem_of_getLast? final) rfl

theorem exists_last {nodes : List (Nat × α)} (nonempty : nodes ≠ []) :
    ∃ address, last nodes = some address := by
  cases nodes with
  | nil => exact (nonempty rfl).elim
  | cons node rest => exact ⟨_, last_cons node rest⟩

/-- The cells of `nodes` hold the given values and are linked in that order,
from the neighbour `before` to the neighbour `after`. -/
def Segment (store : Store α) (before : Option Nat) : List (Nat × α) → Option Nat → Prop
  | [], _ => True
  | node :: rest, after =>
    store.load node.1 = some ⟨node.2, before, (first rest).or after⟩ ∧
      Segment store (some node.1) rest after

variable {store changed : Store α} {before after : Option Nat} {nodes : List (Nat × α)}

theorem segment_append (left right : List (Nat × α)) :
    Segment store before (left ++ right) after ↔
      Segment store before left ((first right).or after) ∧
        Segment store ((last left).or before) right after := by
  induction left generalizing before with
  | nil => simp [Segment]
  | cons node rest ih =>
    simp only [List.cons_append, Segment, ih, first_append, last_cons, Option.or_assoc,
      Option.some_or, Option.or_some, and_assoc]

/-- A segment depends only on its own cells. -/
theorem Segment.frame (linked : Segment store before nodes after)
    (same : ∀ node ∈ nodes, changed.load node.1 = store.load node.1) :
    Segment changed before nodes after := by
  induction nodes generalizing before with
  | nil => trivial
  | cons node rest ih =>
    refine ⟨(same node (by simp)).trans linked.1, ih linked.2 ?_⟩
    intro other member
    exact same other (by simp [member])

theorem Segment.load (linked : Segment store before nodes after) (member : node ∈ nodes) :
    ∃ prev next, store.load node.1 = some ⟨node.2, prev, next⟩ := by
  induction nodes generalizing before with
  | nil => simp at member
  | cons head rest ih =>
    rcases List.mem_cons.mp member with same | inRest
    · subst node
      exact ⟨_, _, linked.1⟩
    · exact ih linked.2 inRest

theorem Segment.length_le_size (linked : Segment store before nodes after)
    (distinct : (nodes.map Prod.fst).Nodup) : nodes.length ≤ store.size := by
  have allocated : ∀ address ∈ nodes.map Prod.fst, (store.load address).isSome = true := by
    intro address member
    obtain ⟨node, present, rfl⟩ := List.mem_map.mp member
    obtain ⟨prev, next, found⟩ := linked.load present
    simp [found]
  simpa using Store.length_le_size distinct allocated

/-- The nodes met along `next` from a pointer on; none when the way leaves the store or is longer
than the first argument. -/
def Store.follow : Nat → Store α → Option Nat → Option (List (Nat × α))
  | _, _, none => some []
  | 0, _, some _ => none
  | fuel + 1, store, some address =>
    (store.load address).bind fun cell =>
      (Store.follow fuel store cell.next).map ((address, cell.data) :: ·)

/-- Following `next` from the first node of a segment gives its nodes. -/
theorem Segment.follow {fuel : Nat} (linked : Segment store before nodes none) (enough : nodes.length ≤ fuel) :
    store.follow fuel (first nodes) = some nodes := by
  induction nodes generalizing before fuel with
  | nil => cases fuel <;> rfl
  | cons node rest ih =>
    cases fuel with
    | zero => simp at enough
    | succ fuel =>
      have later := ih linked.2 (by simpa using enough)
      simp [Store.follow, linked.1, later]

/-- Redirecting the last cell's `next` moves the segment's right neighbour. -/
theorem Segment.relink_last (linked : Segment store before nodes after)
    (distinct : (nodes.map Prod.fst).Nodup) (target : Option Nat)
    (relinked : ∀ node ∈ nodes, changed.load node.1 = (store.load node.1).map fun cell =>
      if some node.1 = last nodes then { cell with next := target } else cell) :
    Segment changed before nodes target := by
  cases nodes using List.reverseRecOn with
  | nil => trivial
  | append_singleton front node =>
    obtain ⟨frontLinked, nodeLinked⟩ := (segment_append front [node]).mp linked
    rw [List.map_append, List.nodup_append] at distinct
    refine (segment_append front [node]).mpr ⟨?_, ?_, trivial⟩
    · apply frontLinked.frame
      intro other member
      have different : other.1 ≠ node.1 :=
        distinct.2.2 other.1 (List.mem_map_of_mem member) node.1 (by simp)
      simp [relinked other (by simp [member]), different]
    · simp [relinked node (by simp), nodeLinked.1]

/-- Redirecting the first cell's `prev` moves the segment's left neighbour. -/
theorem Segment.relink_first (linked : Segment store before nodes after)
    (distinct : (nodes.map Prod.fst).Nodup) (target : Option Nat)
    (relinked : ∀ node ∈ nodes, changed.load node.1 = (store.load node.1).map fun cell =>
      if some node.1 = first nodes then { cell with prev := target } else cell) :
    Segment changed target nodes after := by
  cases nodes with
  | nil => trivial
  | cons node rest =>
    rw [List.map_cons, List.nodup_cons] at distinct
    refine ⟨by simp [relinked node (by simp), linked.1], linked.2.frame ?_⟩
    intro other member
    have different : other.1 ≠ node.1 := by
      intro same
      exact distinct.1 (same ▸ List.mem_map_of_mem member)
    simp [relinked other (by simp [member]), different]

/-- Rewriting one cell's value leaves the links alone. -/
theorem Segment.replace {left right : List (Nat × α)} {node : Nat × α}
    (linked : Segment store before (left ++ node :: right) after)
    (distinct : ((left ++ node :: right).map Prod.fst).Nodup) (data : α)
    (replaced : ∀ other, changed.load other = if other = node.1 then
      (store.load node.1).map fun cell => { cell with data := data } else store.load other) :
    Segment changed before (left ++ (node.1, data) :: right) after := by
  rw [List.map_append, List.map_cons, List.nodup_middle, List.nodup_cons] at distinct
  have elsewhere : ∀ other ∈ left ++ right, changed.load other.1 = store.load other.1 := by
    intro other member
    have different : other.1 ≠ node.1 := by
      intro same
      apply distinct.1
      rw [← same, ← List.map_append]
      exact List.mem_map_of_mem member
    rw [replaced, if_neg different]
  obtain ⟨leftLinked, found, rightLinked⟩ := (segment_append left (node :: right)).mp linked
  refine (segment_append left ((node.1, data) :: right)).mpr ⟨?_, ?_, ?_⟩
  · exact leftLinked.frame fun other member => elsewhere other (List.mem_append_left _ member)
  · simp [replaced, found]
  · exact rightLinked.frame fun other member => elsewhere other (List.mem_append_right _ member)

section Splice
variable {left right : List (Nat × α)} {node : Nat × α}

/-- Both neighbours point at the new cell and the new cell points at both. -/
theorem Segment.insert (linked : Segment store before (left ++ right) after)
    (leftDistinct : (left.map Prod.fst).Nodup) (rightDistinct : (right.map Prod.fst).Nodup)
    (inserted : changed.load node.1 = some ⟨node.2, (last left).or before, (first right).or after⟩)
    (leftLinks : ∀ other ∈ left, changed.load other.1 = (store.load other.1).map fun cell =>
      if some other.1 = last left then { cell with next := some node.1 } else cell)
    (rightLinks : ∀ other ∈ right, changed.load other.1 = (store.load other.1).map fun cell =>
      if some other.1 = first right then { cell with prev := some node.1 } else cell) :
    Segment changed before (left ++ node :: right) after := by
  obtain ⟨leftLinked, rightLinked⟩ := (segment_append left right).mp linked
  refine (segment_append left (node :: right)).mpr ⟨?_, inserted, ?_⟩
  · exact leftLinked.relink_last leftDistinct _ leftLinks
  · exact rightLinked.relink_first rightDistinct _ rightLinks

/-- Both neighbours point past the removed cell. -/
theorem Segment.remove (linked : Segment store before (left ++ node :: right) after)
    (leftDistinct : (left.map Prod.fst).Nodup) (rightDistinct : (right.map Prod.fst).Nodup)
    (leftLinks : ∀ other ∈ left, changed.load other.1 = (store.load other.1).map fun cell =>
      if some other.1 = last left then { cell with next := (first right).or after } else cell)
    (rightLinks : ∀ other ∈ right, changed.load other.1 = (store.load other.1).map fun cell =>
      if some other.1 = first right then { cell with prev := (last left).or before } else cell) :
    Segment changed before (left ++ right) after := by
  obtain ⟨leftLinked, _, rightLinked⟩ := (segment_append left (node :: right)).mp linked
  refine (segment_append left right).mpr ⟨?_, ?_⟩
  · exact leftLinked.relink_last leftDistinct _ leftLinks
  · exact rightLinked.relink_first rightDistinct _ rightLinks

/-- The cell after unlinking what stands between `left` and `right`. -/
def unlinked (left right : List (Nat × α)) (before after : Option Nat) (address : Nat)
    (cell : Cell α) : Cell α where
  data := cell.data
  prev := if some address = first right then (last left).or before else cell.prev
  next := if some address = last left then (first right).or after else cell.next

/-- Only the two neighbours change. -/
theorem map_unlinked_of_ne {address : Nat} (notFirst : first right ≠ some address)
    (notLast : last left ≠ some address) (cell : Option (Cell α)) :
    cell.map (unlinked left right before after address) = cell := by
  cases cell with
  | none => rfl
  | some cell => simp [unlinked, notFirst.symm, notLast.symm]

theorem Segment.unlink (linked : Segment store before (left ++ node :: right) after)
    (distinct : ((left ++ node :: right).map Prod.fst).Nodup)
    (loads : ∀ other ∈ left ++ right, changed.load other.1 =
      (store.load other.1).map (unlinked left right before after other.1)) :
    Segment changed before (left ++ right) after := by
  have shorter : ((left ++ right).map Prod.fst).Nodup :=
    distinct.sublist (List.Sublist.map _ (by simp))
  rw [List.map_append, List.nodup_append] at shorter
  obtain ⟨leftDistinct, rightDistinct, disjoint⟩ := shorter
  refine linked.remove leftDistinct rightDistinct ?_ ?_
  · intro other member
    have notFirst : first right ≠ some other.1 := first_ne fun node present =>
      (disjoint other.1 (List.mem_map_of_mem member) node.1 (List.mem_map_of_mem present)).symm
    rw [loads other (List.mem_append_left _ member)]
    congr 1
    funext cell
    simp only [unlinked, if_neg notFirst.symm]
    split_ifs <;> rfl
  · intro other member
    have notLast : last left ≠ some other.1 := last_ne fun node present =>
      disjoint node.1 (List.mem_map_of_mem present) other.1 (List.mem_map_of_mem member)
    rw [loads other (List.mem_append_right _ member)]
    congr 1
    funext cell
    simp only [unlinked, if_neg notLast.symm]
    split_ifs <;> rfl

/-- Detaching a node of a list changes its two neighbours and nothing else. -/
theorem Segment.detach (linked : Segment store none (left ++ node :: right) none)
    (distinct : ((left ++ node :: right).map Prod.fst).Nodup) :
    ∃ changed, store.detach node.1 = some changed ∧ ∀ address, changed.load address =
      if address = node.1 then none else
        (store.load address).map (unlinked left right none none address) := by
  obtain ⟨leftLinked, found, rightLinked⟩ := (segment_append left (node :: right)).mp linked
  rw [List.map_append, List.map_cons, List.nodup_middle, List.nodup_cons, List.nodup_append] at distinct
  obtain ⟨apart, -, -, disjoint⟩ := distinct
  cases left using List.reverseRecOn with
  | nil =>
    cases right with
    | nil =>
      refine ⟨_, by simp [Store.detach, found, Store.linkNext, Store.linkPrev, Store.free]; rfl, ?_⟩
      intro address
      rw [map_unlinked_of_ne (by simp) (by simp), Store.load_drop]
    | cons next rest =>
      have nextFound := rightLinked.1
      have nextApart : node.1 ≠ next.1 := fun same => apart (by simp [same])
      refine ⟨_, by
        simp [Store.detach, found, Store.linkNext, Store.linkPrev, Store.free, Store.setPrev, nextFound,
          nextApart]; rfl, ?_⟩
      intro address
      by_cases isNext : address = next.1
      · simp [isNext, nextApart.symm, nextFound, unlinked]
      · rw [map_unlinked_of_ne (by simpa using Ne.symm isNext) (by simp)]
        simp [isNext]
  | append_singleton front prev =>
    have prevApart : node.1 ≠ prev.1 := fun same => apart (by simp [same])
    have prevFound := ((segment_append front [prev]).mp leftLinked).2.1
    cases right with
    | nil =>
      refine ⟨_, by
        simp [Store.detach, found, Store.linkNext, Store.linkPrev, Store.free, Store.setNext, prevFound,
          prevApart]; rfl, ?_⟩
      intro address
      by_cases isPrev : address = prev.1
      · simp [isPrev, prevApart.symm, prevFound, unlinked]
      · rw [map_unlinked_of_ne (by simp) (by simpa using Ne.symm isPrev)]
        simp [isPrev]
    | cons next rest =>
      have nextFound := rightLinked.1
      have nextApart : node.1 ≠ next.1 := fun same => apart (by simp [same])
      have neighbours : prev.1 ≠ next.1 := disjoint _ (by simp) _ (by simp)
      refine ⟨_, by
        simp [Store.detach, found, Store.linkNext, Store.linkPrev, Store.free, Store.setNext,
          Store.setPrev, prevFound, nextFound, nextApart, prevApart, neighbours.symm]; rfl, ?_⟩
      intro address
      by_cases isPrev : address = prev.1
      · simp [isPrev, prevApart.symm, prevFound, unlinked, neighbours]
      · by_cases isNext : address = next.1
        · simp [isNext, nextApart.symm, nextFound, unlinked, neighbours.symm]
        · rw [map_unlinked_of_ne (by simpa using Ne.symm isNext) (by simpa using Ne.symm isPrev)]
          simp [isNext, isPrev]

end Splice

/-- Follow one kind of link until null; `none` on a freed address or when the
bound on the number of cells is used up. -/
def walk (store : Store α) (link : Cell α → Option Nat) : Nat → Option Nat → Option (List Nat)
  | _, none => some []
  | 0, some _ => none
  | fuel + 1, some address => do
    let cell ← store.load address
    let rest ← walk store link fuel (link cell)
    return address :: rest

theorem walk_next (linked : Segment store before nodes none) (fuel : Nat)
    (enough : nodes.length ≤ fuel) :
    walk store Cell.next fuel (first nodes) = some (nodes.map Prod.fst) := by
  induction nodes generalizing before fuel with
  | nil => cases fuel <;> rfl
  | cons node rest ih =>
    cases fuel with
    | zero => simp at enough
    | succ fuel =>
      have tail := ih linked.2 fuel (by simpa using enough)
      simp [walk, linked.1, tail]

theorem walk_prev (linked : Segment store none nodes after) (fuel : Nat)
    (enough : nodes.length ≤ fuel) :
    walk store Cell.prev fuel (last nodes) = some (nodes.map Prod.fst).reverse := by
  induction nodes using List.reverseRecOn generalizing after fuel with
  | nil => cases fuel <;> rfl
  | append_singleton front node ih =>
    cases fuel with
    | zero => simp at enough
    | succ fuel =>
      obtain ⟨frontLinked, nodeLinked⟩ := (segment_append front [node]).mp linked
      have tail := ih frontLinked fuel (by simpa using enough)
      simp only [Segment, Option.or_none] at nodeLinked
      simp [walk, nodeLinked.1, tail]

end UnixProgramming.Lib
