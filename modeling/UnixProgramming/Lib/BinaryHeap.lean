import Mathlib.Logic.Equiv.Basic
import Mathlib.Order.Lattice
import Mathlib.Data.List.Basic
import Mathlib.Data.List.Perm.Basic

/-! Binary heaps laid out in a list, the least key at the root. The children of
index `i` are `i * 2 + 1` and `i * 2 + 2`. Items are moved by a hole: a sift
copies entries into the hole until the hole is where the item belongs, so the
entry at the hole is never read. -/

namespace UnixProgramming.Lib.BinaryHeap

variable {α κ : Type} [Inhabited α] [LinearOrder κ]

/-- The entry at an index, with a default past the end. -/
def entry (items : List α) (index : Nat) : α := items.getD index default

theorem entry_set (items : List α) (hole : Nat) (item : α) (index : Nat) (inside : hole < items.length) :
    entry (items.set hole item) index = if index = hole then item else entry items index := by
  by_cases same : index = hole
  · subst same
    simp [entry, inside]
  · have different : hole ≠ index := Ne.symm same
    simp [entry, same, List.getElem?_set_ne different]

theorem entry_set_self (items : List α) (hole : Nat) (item : α) (inside : hole < items.length) :
    entry (items.set hole item) hole = item := by
  rw [entry_set items hole item hole inside, if_pos rfl]

theorem entry_set_ne (items : List α) {hole index : Nat} (item : α) (different : index ≠ hole) :
    entry (items.set hole item) index = entry items index := by
  simp [entry, List.getElem?_set_ne (Ne.symm different)]

theorem entry_eq_getElem (items : List α) {index : Nat} (inside : index < items.length) :
    entry items index = items[index] := by
  simp [entry, inside]

theorem entry_append (front rest : List α) {index : Nat} (inside : index < front.length) :
    entry (front ++ rest) index = entry front index := by
  simp [entry, List.getElem?_append_left inside]

theorem entry_append_length (front rest : List α) (item : α) :
    entry (front ++ item :: rest) front.length = item := by
  simp [entry]

theorem set_entry (items : List α) (index : Nat) : items.set index (entry items index) = items := by
  by_cases inside : index < items.length
  · rw [entry_eq_getElem items inside, List.set_getElem_self]
  · exact List.set_eq_of_length_le (by omega)

/-- Moving an entry into the hole and the item to where it was only permutes. -/
theorem set_move_perm (items : List α) {hole source : Nat} (item : α) (inside : hole < items.length)
    (known : source < items.length) (different : source ≠ hole) :
    ((items.set hole (entry items source)).set source item).Perm (items.set hole item) := by
  have swapped := @List.set_set_perm _ (items.set hole item) hole source (by simpa using inside)
    (by simpa using known)
  rw [List.getElem_set_self, List.getElem_set_ne (Ne.symm different), List.set_set] at swapped
  rw [entry_eq_getElem items known]
  exact swapped

section Order
variable (key : α → κ)

/-- Every entry below `bound` whose parent is at `start` or later is not less than that parent. -/
def OrderedFrom (start bound : Nat) (items : List α) : Prop :=
  ∀ index, 0 < index → index < bound → start ≤ (index - 1) / 2 →
    key (entry items ((index - 1) / 2)) ≤ key (entry items index)

/-- The heap order of the first `bound` entries. -/
abbrev Ordered (bound : Nat) (items : List α) : Prop := OrderedFrom key 0 bound items

variable {key}

theorem OrderedFrom.mono {start bound smaller : Nat} {items : List α} (ordered : OrderedFrom key start bound items)
    (le : smaller ≤ bound) : OrderedFrom key start smaller items :=
  fun index positive inside late => ordered index positive (by omega) late

theorem Ordered.parent {bound : Nat} {items : List α} (ordered : Ordered key bound items) {index : Nat}
    (positive : 0 < index) (inside : index < bound) :
    key (entry items ((index - 1) / 2)) ≤ key (entry items index) :=
  ordered index positive inside (Nat.zero_le _)

/-- The root is the least entry. -/
theorem Ordered.root_le {bound : Nat} {items : List α} (ordered : Ordered key bound items) (index : Nat)
    (inside : index < bound) : key (entry items 0) ≤ key (entry items index) := by
  induction index using Nat.strongRecOn with
  | ind index ih =>
    cases index with
    | zero => exact le_rfl
    | succ previous =>
      have above := ih ((previous + 1 - 1) / 2) (by omega) (by omega)
      exact above.trans (ordered.parent (by omega) inside)

theorem orderedFrom_congr {start bound : Nat} {items other : List α}
    (same : ∀ index, index < bound → entry items index = entry other index) :
    OrderedFrom key start bound items ↔ OrderedFrom key start bound other := by
  refine forall_congr' fun index => forall_congr' fun positive => forall_congr' fun inside => ?_
  rw [same index inside, same ((index - 1) / 2) (by omega)]

theorem ordered_append_iff (front rest : List α) :
    Ordered key front.length (front ++ rest) ↔ Ordered key front.length front :=
  orderedFrom_congr fun _ inside => entry_append front rest inside

/-- One more entry keeps the order exactly when it is not less than its parent. -/
theorem ordered_concat_iff (front : List α) (item : α) :
    Ordered key (front.length + 1) (front ++ [item]) ↔
      Ordered key front.length front ∧
        (0 < front.length → key (entry front ((front.length - 1) / 2)) ≤ key item) := by
  have old : Ordered key front.length (front ++ [item]) ↔ Ordered key front.length front :=
    ordered_append_iff front [item]
  have new : entry (front ++ [item]) front.length = item := entry_append_length front [] item
  constructor
  · intro ordered
    refine ⟨old.mp (ordered.mono (Nat.le_succ _)), fun positive => ?_⟩
    have last := ordered.parent positive (Nat.lt_succ_self _)
    rwa [new, entry_append front [item] (by omega)] at last
  · rintro ⟨ordered, last⟩ index positive inside late
    rcases Nat.lt_succ_iff_lt_or_eq.mp inside with before | rfl
    · exact old.mpr ordered index positive before late
    · rw [new, entry_append front [item] (by omega)]
      exact last positive

end Order

section SiftDown
variable (key : α → κ)

/-- The child with the smaller key, the left one where they are equal or the
right one is not below `bound`. -/
def smallerChild (bound : Nat) (items : List α) (hole : Nat) : Nat :=
  if hole * 2 + 2 < bound ∧ key (entry items (hole * 2 + 2)) < key (entry items (hole * 2 + 1)) then hole * 2 + 2
  else hole * 2 + 1

theorem smallerChild_cases (bound : Nat) (items : List α) (hole : Nat) :
    smallerChild key bound items hole = hole * 2 + 1 ∨
      smallerChild key bound items hole = hole * 2 + 2 ∧ hole * 2 + 2 < bound := by
  unfold smallerChild
  split
  · rename_i right
    exact Or.inr ⟨rfl, right.1⟩
  · exact Or.inl rfl

theorem smallerChild_bounds {bound : Nat} (items : List α) {hole : Nat} (inside : hole * 2 + 1 < bound) :
    hole < smallerChild key bound items hole ∧ smallerChild key bound items hole < bound ∧
      (smallerChild key bound items hole - 1) / 2 = hole := by
  rcases smallerChild_cases key bound items hole with left | ⟨right, below⟩ <;> omega

/-- Move the smaller child into the hole while its key is below the item's, then
put the item into the hole. -/
def siftDown (bound : Nat) (item : α) (items : List α) (hole : Nat) : List α :=
  if _inside : hole * 2 + 1 < bound then
    let child := smallerChild key bound items hole
    if key (entry items child) < key item then siftDown bound item (items.set hole (entry items child)) child
    else items.set hole item
  else items.set hole item
termination_by bound - hole
decreasing_by
  have := smallerChild_bounds key items _inside
  omega

variable {key}

theorem smallerChild_le {bound : Nat} (items : List α) {hole index : Nat} (positive : 0 < index)
    (inside : index < bound) (child : (index - 1) / 2 = hole) :
    key (entry items (smallerChild key bound items hole)) ≤ key (entry items index) := by
  have sides : index = hole * 2 + 1 ∨ index = hole * 2 + 2 := by omega
  unfold smallerChild
  split
  · rename_i right
    rcases sides with rfl | rfl
    · exact le_of_lt right.2
    · exact le_rfl
  · rename_i left
    rcases sides with rfl | rfl
    · exact le_rfl
    · exact not_lt.mp fun less => left ⟨inside, less⟩

/-- The order around a hole into which `item` is to go: every pair away from the
hole is in order, and the parent of the hole is not above the item or a child. -/
structure HoleOrdered (key : α → κ) (start bound : Nat) (item : α) (items : List α) (hole : Nat) : Prop where
  away : ∀ index, 0 < index → index < bound → start ≤ (index - 1) / 2 → (index - 1) / 2 ≠ hole → index ≠ hole →
    key (entry items ((index - 1) / 2)) ≤ key (entry items index)
  item : 0 < hole → start ≤ (hole - 1) / 2 → key (entry items ((hole - 1) / 2)) ≤ key item
  child : 0 < hole → start ≤ (hole - 1) / 2 → ∀ index, 0 < index → index < bound → (index - 1) / 2 = hole →
    key (entry items ((hole - 1) / 2)) ≤ key (entry items index)

/-- The item fits when no child of the hole is less. -/
theorem HoleOrdered.fill {start bound : Nat} {item : α} {items : List α} {hole : Nat}
    (around : HoleOrdered key start bound item items hole) (inside : hole < items.length)
    (fits : ∀ index, 0 < index → index < bound → (index - 1) / 2 = hole → key item ≤ key (entry items index)) :
    OrderedFrom key start bound (items.set hole item) := by
  intro index positive below late
  by_cases parent : (index - 1) / 2 = hole
  · rw [parent, entry_set_self items hole item inside, entry_set_ne items item (by omega)]
    exact fits index positive below parent
  · rw [entry_set_ne items item parent]
    by_cases same : index = hole
    · subst same
      rw [entry_set_self items index item inside]
      exact around.item positive late
    · rw [entry_set_ne items item same]
      exact around.away index positive below late parent same

/-- Moving the smaller child up moves the hole down. -/
theorem HoleOrdered.descend {start bound : Nat} {item : α} {items : List α} {hole : Nat}
    (around : HoleOrdered key start bound item items hole) (inside : hole * 2 + 1 < bound)
    (known : bound ≤ items.length)
    (less : key (entry items (smallerChild key bound items hole)) < key item) :
    HoleOrdered key start bound item (items.set hole (entry items (smallerChild key bound items hole)))
      (smallerChild key bound items hole) := by
  obtain ⟨deeper, below, parent⟩ := smallerChild_bounds key items inside
  have least := fun index positive below => @smallerChild_le _ _ _ _ key bound items hole index positive below
  generalize smallerChild key bound items hole = child at *
  have moved := entry_set_self items hole (entry items child) (by omega)
  refine ⟨fun index positive bounded late notParent notChild => ?_, fun _ _ => ?_, fun _ late index positive bounded under => ?_⟩
  · by_cases above : (index - 1) / 2 = hole
    · rw [above, moved, entry_set_ne items _ (by omega)]
      exact least index positive bounded above
    · rw [entry_set_ne items _ above]
      by_cases same : index = hole
      · subst same
        rw [moved]
        exact around.child positive late child (by omega) below parent
      · rw [entry_set_ne items _ same]
        exact around.away index positive bounded late above same
  · rw [parent, moved]
    exact le_of_lt less
  · rw [parent, moved, entry_set_ne items _ (by omega)]
    have edge := around.away index positive bounded (by omega) (by omega) (by omega)
    rwa [under] at edge

theorem siftDown_orderedFrom {start bound : Nat} {item : α} {items : List α} {hole : Nat}
    (known : bound ≤ items.length) (inside : hole < items.length)
    (around : HoleOrdered key start bound item items hole) :
    OrderedFrom key start bound (siftDown key bound item items hole) := by
  fun_induction siftDown key bound item items hole with
  | case1 items hole branching child less ih =>
    have bounds := smallerChild_bounds key items branching
    exact ih (by simpa using known) (by simp; omega) (around.descend branching known less)
  | case2 items hole branching child notLess =>
    refine around.fill inside fun index positive below under => ?_
    exact (not_lt.mp notLess).trans (smallerChild_le items positive below under)
  | case3 items hole leaf =>
    exact around.fill inside fun index positive below under => absurd below (by omega)

theorem siftDown_perm {bound : Nat} {item : α} {items : List α} {hole : Nat} (known : bound ≤ items.length)
    (inside : hole < items.length) : (siftDown key bound item items hole).Perm (items.set hole item) := by
  fun_induction siftDown key bound item items hole with
  | case1 items hole branching child less ih =>
    have bounds := smallerChild_bounds key items branching
    have later := ih (by simpa using known) (by simp; omega)
    exact later.trans (set_move_perm items item inside (by omega) (by omega))
  | case2 items hole branching child notLess => exact List.Perm.refl _
  | case3 items hole leaf => exact List.Perm.refl _

@[simp] theorem siftDown_length (bound : Nat) (item : α) (items : List α) (hole : Nat) :
    (siftDown key bound item items hole).length = items.length := by
  fun_induction siftDown key bound item items hole with
  | case1 items hole branching child less ih => rw [ih, List.length_set]
  | case2 items hole branching child notLess => exact List.length_set
  | case3 items hole leaf => exact List.length_set

theorem smallerChild_append {bound : Nat} {front : List α} {hole : Nat} (rest : List α)
    (known : bound ≤ front.length) :
    smallerChild key bound (front ++ rest) hole = smallerChild key bound front hole := by
  unfold smallerChild
  by_cases right : hole * 2 + 2 < bound
  · rw [entry_append front rest (show hole * 2 + 2 < front.length by omega),
      entry_append front rest (show hole * 2 + 1 < front.length by omega)]
  · rw [if_neg fun both => right both.1, if_neg fun both => right both.1]

/-- Entries past the bound take no part. -/
theorem siftDown_append {bound : Nat} {item : α} {front : List α} {hole : Nat} (rest : List α)
    (known : bound ≤ front.length) (inside : hole < front.length) :
    siftDown key bound item (front ++ rest) hole = siftDown key bound item front hole ++ rest := by
  fun_induction siftDown key bound item front hole with
  | case1 front hole branching child less ih =>
    have bounds := smallerChild_bounds key front branching
    have same : entry (front ++ rest) child = entry front child := entry_append front rest (by omega)
    rw [siftDown, dif_pos branching]
    simp only [smallerChild_append rest known]
    rw [same, if_pos less, List.set_append_left _ _ inside]
    exact ih (by simpa using known) (by simp; omega)
  | case2 front hole branching child notLess =>
    have bounds := smallerChild_bounds key front branching
    have same : entry (front ++ rest) child = entry front child := entry_append front rest (by omega)
    rw [siftDown, dif_pos branching]
    simp only [smallerChild_append rest known]
    rw [same, if_neg notLess, List.set_append_left _ _ inside]
  | case3 front hole leaf => rw [siftDown, dif_neg leaf, List.set_append_left _ _ inside]

theorem siftDown_leaf {bound : Nat} {item : α} {items : List α} {hole : Nat} (leaf : bound ≤ hole * 2 + 1) :
    siftDown key bound item items hole = items.set hole item := by
  rw [siftDown, dif_neg (by omega)]

end SiftDown

section Subtree

/-- The places of the subtree with this root. -/
inductive Subtree (root : Nat) : Nat → Prop where
  | self : Subtree root root
  | child {index : Nat} (positive : 0 < index) (parent : Subtree root ((index - 1) / 2)) : Subtree root index

theorem Subtree.le {root index : Nat} (within : Subtree root index) : root ≤ index := by
  induction within with
  | self => exact Nat.le_refl root
  | child positive _ ih => omega

theorem Subtree.trans {root node index : Nat} (upper : Subtree root node) (lower : Subtree node index) :
    Subtree root index := by
  induction lower with
  | self => exact upper
  | child positive _ ih => exact .child positive ih

theorem Subtree.of_parent {root index : Nat} (positive : 0 < index) (under : (index - 1) / 2 = root) :
    Subtree root index := .child positive (under ▸ .self)

theorem Subtree.parent {root index : Nat} (within : Subtree root index) (apart : index ≠ root) :
    Subtree root ((index - 1) / 2) := by
  cases within with
  | self => exact absurd rfl apart
  | child _ parent => exact parent

theorem Subtree.outside {root node index : Nat} (outside : ¬ Subtree root node) (under : (index - 1) / 2 = node)
    (apart : index ≠ root) : ¬ Subtree root index := fun within => outside (under ▸ within.parent apart)

variable (key : α → κ)

/-- No child of the node below `bound` is less. -/
def NodeOrdered (bound : Nat) (items : List α) (node : Nat) : Prop :=
  ∀ index, 0 < index → index < bound → (index - 1) / 2 = node → key (entry items node) ≤ key (entry items index)

variable {key} {bound : Nat} {item : α} {items other : List α} {hole node : Nat}

theorem NodeOrdered.congr (ordered : NodeOrdered key bound items node) (same : entry other node = entry items node)
    (children : ∀ index, 0 < index → (index - 1) / 2 = node → entry other index = entry items index) :
    NodeOrdered key bound other node := by
  intro index positive below under
  rw [same, children index positive under]
  exact ordered index positive below under

/-- A write above the node changes neither it nor its children. -/
theorem NodeOrdered.set_above (ordered : NodeOrdered key bound items node) (above : hole < node) (item : α) :
    NodeOrdered key bound (items.set hole item) node :=
  ordered.congr (entry_set_ne items item (by omega)) fun _ _ _ => entry_set_ne items item (by omega)

theorem nodeOrdered_set_self (inside : hole < items.length)
    (fits : ∀ index, 0 < index → index < bound → (index - 1) / 2 = hole → key item ≤ key (entry items index)) :
    NodeOrdered key bound (items.set hole item) hole := by
  intro index positive below under
  rw [entry_set_self items hole item inside, entry_set_ne items item (by omega)]
  exact fits index positive below under

/-- Entries outside of the subtree stay. -/
theorem entry_siftDown_ne {index : Nat} (outside : ¬ Subtree hole index) :
    entry (siftDown key bound item items hole) index = entry items index := by
  fun_induction siftDown key bound item items hole with
  | case1 items hole branching child less ih =>
    have bounds := smallerChild_bounds key items branching
    have apart : index ≠ hole := fun same => outside (same ▸ .self)
    rw [ih fun within => outside ((Subtree.of_parent (by omega) bounds.2.2).trans within),
      entry_set_ne items _ apart]
  | case2 items hole branching child notLess => exact entry_set_ne items item fun same => outside (same ▸ .self)
  | case3 items hole leaf => exact entry_set_ne items item fun same => outside (same ▸ .self)

/-- The root of the subtree gets the item or the smaller child. -/
theorem entry_siftDown_hole (inside : hole < items.length) :
    entry (siftDown key bound item items hole) hole = item ∨
      hole * 2 + 1 < bound ∧
        entry (siftDown key bound item items hole) hole = entry items (smallerChild key bound items hole) := by
  rw [siftDown]
  split
  · next branching =>
    have bounds := smallerChild_bounds key items branching
    dsimp only
    split
    · refine .inr ⟨branching, ?_⟩
      rw [entry_siftDown_ne fun within => absurd within.le (by omega), entry_set_self items hole _ inside]
    · exact .inl (entry_set_self items hole item inside)
  · exact .inl (entry_set_self items hole item inside)

/-- What is not above the item and the children of the hole is not above what the hole gets. -/
theorem le_entry_siftDown_hole {least : κ} (inside : hole < items.length) (put : least ≤ key item)
    (children : ∀ index, 0 < index → index < bound → (index - 1) / 2 = hole → least ≤ key (entry items index)) :
    least ≤ key (entry (siftDown key bound item items hole) hole) := by
  obtain same | ⟨branching, raised⟩ := @entry_siftDown_hole _ _ _ _ key bound item items hole inside
  · rwa [same]
  · have bounds := smallerChild_bounds key items branching
    rw [raised]
    exact children _ (by omega) bounds.2.1 bounds.2.2

/-- An item that fits brings the subtree into order. -/
theorem nodeOrdered_set (inside : hole < items.length)
    (below : ∀ node, Subtree hole node → node ≠ hole → NodeOrdered key bound items node)
    (fits : ∀ index, 0 < index → index < bound → (index - 1) / 2 = hole → key item ≤ key (entry items index)) :
    ∀ node, Subtree hole node → NodeOrdered key bound (items.set hole item) node := by
  intro node within
  by_cases here : node = hole
  · rw [here]
    exact nodeOrdered_set_self inside fits
  · exact (below node within here).set_above (Nat.lt_of_le_of_ne within.le (Ne.symm here)) item

/-- With every other node of the subtree in order, a sift brings its root into order as well. -/
theorem siftDown_nodeOrdered (known : bound ≤ items.length) (inside : hole < items.length)
    (below : ∀ node, Subtree hole node → node ≠ hole → NodeOrdered key bound items node) :
    ∀ node, Subtree hole node → NodeOrdered key bound (siftDown key bound item items hole) node := by
  fun_induction siftDown key bound item items hole with
  | case1 items hole branching child less ih =>
    obtain ⟨deeper, small, under⟩ : hole < child ∧ child < bound ∧ (child - 1) / 2 = hole :=
      smallerChild_bounds key items branching
    have childWithin : Subtree hole child := .of_parent (by omega) under
    have subtree := ih (by simpa using known) (by simp; omega) fun node within apart =>
      (below node (childWithin.trans within) (by have := within.le; omega)).set_above
        (Nat.lt_of_lt_of_le deeper within.le) _
    have kept {index : Nat} (outside : ¬ Subtree child index) (apart : index ≠ hole) :
        entry (siftDown key bound item (items.set hole (entry items child)) child) index = entry items index := by
      rw [entry_siftDown_ne outside, entry_set_ne items _ apart]
    intro node within
    by_cases deep : Subtree child node
    · exact subtree node deep
    by_cases here : node = hole
    · subst here
      have raised : entry (siftDown key bound item (items.set node (entry items child)) child) node =
          entry items child := by
        rw [entry_siftDown_ne deep, entry_set_self items node _ inside]
      intro index positive bounded parent
      rw [raised]
      by_cases same : index = child
      · -- the place of the child now has the item or a grandchild
        rw [same]
        refine le_entry_siftDown_hole (by simp; omega) (le_of_lt less) fun grand above small last => ?_
        rw [entry_set_ne items _ (by omega)]
        exact below child childWithin (by omega) grand above small last
      · rw [kept (Subtree.outside deep parent same) (by omega)]
        exact smallerChild_le items positive bounded parent
    · have past : hole < node := Nat.lt_of_le_of_ne within.le (Ne.symm here)
      refine (below node within here).congr (kept deep here) fun index positive parent => ?_
      exact kept (Subtree.outside deep parent fun same => here (by rw [← parent, same, under])) (by omega)
  | case2 items hole branching child notLess =>
    refine nodeOrdered_set inside below fun index positive small under => ?_
    exact (not_lt.mp notLess).trans (smallerChild_le items positive small under)
  | case3 items hole leaf =>
    exact nodeOrdered_set inside below fun index positive small under => absurd small (by omega)

/-- The move of an entry into the hole, place by place. -/
theorem getElem?_set_move (items : List α) {source : Nat} (item : α) (inside : hole < items.length)
    (known : source < items.length) (different : source ≠ hole) (index : Nat) :
    ((items.set hole (entry items source)).set source item)[index]? =
      (items.set hole item)[Equiv.swap hole source index]? := by
  by_cases atHole : index = hole
  · rw [atHole, Equiv.swap_apply_left, List.getElem?_set_ne different, List.getElem?_set_self inside,
      List.getElem?_set_ne (Ne.symm different), entry_eq_getElem items known, List.getElem?_eq_getElem known]
  · by_cases atSource : index = source
    · rw [atSource, Equiv.swap_apply_right, List.getElem?_set_self (by simpa using known),
        List.getElem?_set_self inside]
    · rw [Equiv.swap_apply_of_ne_of_ne atHole atSource, List.getElem?_set_ne (Ne.symm atSource),
        List.getElem?_set_ne (Ne.symm atHole), List.getElem?_set_ne (Ne.symm atHole)]

/-- A sift takes entries to other places of the subtree, below the bound. -/
theorem siftDown_places (known : bound ≤ items.length) (inside : hole < items.length) :
    ∃ places : Equiv.Perm Nat, (∀ index, places index ≠ index → Subtree hole index ∧ index < bound) ∧
      ∀ index, (siftDown key bound item items hole)[index]? = (items.set hole item)[places index]? := by
  fun_induction siftDown key bound item items hole with
  | case1 items hole branching child less ih =>
    obtain ⟨deeper, small, under⟩ : hole < child ∧ child < bound ∧ (child - 1) / 2 = hole :=
      smallerChild_bounds key items branching
    have childWithin : Subtree hole child := .of_parent (by omega) under
    obtain ⟨places, confined, sifted⟩ := ih (by simpa using known) (by simp; omega)
    refine ⟨places.trans (Equiv.swap hole child), fun index moved => ?_, fun index => ?_⟩
    · by_cases fixed : places index = index
      · rw [Equiv.trans_apply, fixed] at moved
        rcases Equiv.eq_or_eq_of_swap_apply_ne_self moved with atHole | atChild
        · exact atHole ▸ ⟨.self, by omega⟩
        · exact atChild ▸ ⟨childWithin, small⟩
      · obtain ⟨within, below⟩ := confined index fixed
        exact ⟨childWithin.trans within, below⟩
    · rw [sifted, getElem?_set_move items item inside (by omega) (by omega), Equiv.trans_apply]
  | case2 items hole branching child notLess => exact ⟨Equiv.refl Nat, fun index moved => absurd rfl moved, fun _ => rfl⟩
  | case3 items hole leaf => exact ⟨Equiv.refl Nat, fun index moved => absurd rfl moved, fun _ => rfl⟩

end Subtree

section SiftUp
variable (key : α → κ)

/-- Move the parent into the hole while its key is above the item's, then put
the item into the hole. -/
def siftUp (item : α) (items : List α) (hole : Nat) : List α :=
  if _inner : 0 < hole then
    if key (entry items ((hole - 1) / 2)) ≤ key item then items.set hole item
    else siftUp item (items.set hole (entry items ((hole - 1) / 2))) ((hole - 1) / 2)
  else items.set hole item
termination_by hole

variable {key}

/-- A smaller item in the hole keeps the order when the parent is not above it. -/
theorem Ordered.lower {bound : Nat} {item : α} {items : List α} {hole : Nat} (ordered : Ordered key bound items)
    (known : hole < items.length) (inside : hole < bound) (smaller : key item ≤ key (entry items hole))
    (fits : 0 < hole → key (entry items ((hole - 1) / 2)) ≤ key item) :
    Ordered key bound (items.set hole item) := by
  refine HoleOrdered.fill ⟨fun index positive below late _ _ => ordered index positive below late,
    fun positive _ => fits positive, fun positive _ index above below under => ?_⟩ known
    fun index positive below under => ?_
  · have edge := ordered.parent above below
    rw [under] at edge
    exact (ordered.parent positive inside).trans edge
  · have edge := ordered.parent positive below
    rw [under] at edge
    exact smaller.trans edge

theorem key_entry_set_le {item : α} {items : List α} {hole : Nat} (inside : hole < items.length)
    (smaller : key item ≤ key (entry items hole)) (index : Nat) :
    key (entry (items.set hole item) index) ≤ key (entry items index) := by
  rw [entry_set items hole item index inside]
  split
  · rename_i same
    rwa [same]
  · exact le_rfl

/-- Sifting up an item that is not above the entry it displaces keeps the order,
and no index ends with a greater key. -/
theorem siftUp_ordered {bound : Nat} {item : α} {items : List α} {hole : Nat} (known : bound ≤ items.length)
    (inside : hole < bound) (ordered : Ordered key bound items) (smaller : key item ≤ key (entry items hole)) :
    Ordered key bound (siftUp key item items hole) ∧
      ∀ index, key (entry (siftUp key item items hole) index) ≤ key (entry items index) := by
  fun_induction siftUp key item items hole with
  | case1 items hole inner stop =>
    exact ⟨ordered.lower (by omega) inside smaller fun _ => stop,
      key_entry_set_le (by omega) smaller⟩
  | case2 items hole inner move ih =>
    have above := ordered.parent inner inside
    have kept := ordered.lower (by omega) inside above fun _ => le_rfl
    have here := entry_set_ne items (entry items ((hole - 1) / 2)) (show (hole - 1) / 2 ≠ hole by omega)
    obtain ⟨final, below⟩ := ih (by simpa using known) (by omega) kept (by rw [here]; exact le_of_not_ge move)
    exact ⟨final, fun index => (below index).trans (key_entry_set_le (by omega) above index)⟩
  | case3 items hole root =>
    exact ⟨ordered.lower (by omega) inside smaller fun inner => absurd inner root,
      key_entry_set_le (by omega) smaller⟩

theorem siftUp_perm {item : α} {items : List α} {hole : Nat} (inside : hole < items.length) :
    (siftUp key item items hole).Perm (items.set hole item) := by
  fun_induction siftUp key item items hole with
  | case1 items hole inner stop => exact List.Perm.refl _
  | case2 items hole inner move ih =>
    exact (ih (by simp; omega)).trans (set_move_perm items item inside (by omega) (by omega))
  | case3 items hole root => exact List.Perm.refl _

/-- Only the hole and its ancestors change. -/
theorem entry_siftUp {item : α} {items : List α} {hole index : Nat} (different : index ≠ hole)
    (late : 0 < hole → (hole - 1) / 2 < index) :
    entry (siftUp key item items hole) index = entry items index := by
  fun_induction siftUp key item items hole with
  | case1 items hole inner stop => exact entry_set_ne items item different
  | case2 items hole inner move ih =>
    have passed := late inner
    rw [ih (by omega) (by omega), entry_set_ne items _ different]
  | case3 items hole root => exact entry_set_ne items item different

theorem siftUp_append {item : α} {front : List α} {hole : Nat} (rest : List α) (inside : hole < front.length) :
    siftUp key item (front ++ rest) hole = siftUp key item front hole ++ rest := by
  fun_induction siftUp key item front hole with
  | case1 front hole inner stop =>
    rw [siftUp, dif_pos inner, entry_append front rest (by omega), if_pos stop, List.set_append_left _ _ inside]
  | case2 front hole inner move ih =>
    rw [siftUp, dif_pos inner, entry_append front rest (by omega), if_neg move, List.set_append_left _ _ inside]
    exact ih (by simp; omega)
  | case3 front hole root => rw [siftUp, dif_neg root, List.set_append_left _ _ inside]

end SiftUp

section Heapify
variable (key : α → κ)

/-- Sift the entries at `count - 1` down to `0`. -/
def build (bound : Nat) : Nat → List α → List α
  | 0, items => items
  | count + 1, items => build bound count (siftDown key bound (entry items count) items count)

/-- The textbook bottom-up construction of a heap. -/
def heapify (items : List α) : List α := build key items.length (items.length / 2) items

variable {key}

theorem build_orderedFrom {bound count : Nat} {items : List α} (known : bound ≤ items.length)
    (small : count ≤ items.length) (ordered : OrderedFrom key count bound items) :
    Ordered key bound (build key bound count items) := by
  induction count generalizing items with
  | zero => exact ordered
  | succ count ih =>
    apply ih (by simpa using known) (by simp; omega)
    apply siftDown_orderedFrom known small
    refine ⟨fun index positive below late notParent _ => ?_, fun positive late => ?_, fun positive late => ?_⟩
    · exact ordered index positive below (by omega)
    · omega
    · omega

theorem build_perm {bound count : Nat} {items : List α} (known : bound ≤ items.length)
    (small : count ≤ items.length) : (build key bound count items).Perm items := by
  induction count generalizing items with
  | zero => exact List.Perm.refl _
  | succ count ih =>
    have sifted : (siftDown key bound (entry items count) items count).Perm items :=
      (siftDown_perm known small).trans (by rw [set_entry])
    exact (ih (by simpa using known) (by simp; omega)).trans sifted

theorem build_append {bound count : Nat} {front : List α} (rest : List α) (known : bound ≤ front.length)
    (small : count ≤ front.length) :
    build key bound count (front ++ rest) = build key bound count front ++ rest := by
  induction count generalizing front with
  | zero => rfl
  | succ count ih =>
    rw [build, build, entry_append front rest small, siftDown_append rest known small]
    exact ih (by simpa using known) (by simp; omega)

theorem build_leaf {bound count : Nat} {items : List α} (leaf : bound ≤ count * 2 + 1) :
    build key bound (count + 1) items = build key bound count items := by
  rw [build, siftDown_leaf leaf, set_entry]

variable (key)

theorem heapify_ordered (items : List α) : Ordered key items.length (heapify key items) := by
  refine build_orderedFrom (Nat.le_refl _) (by omega) fun index positive below late => ?_
  omega

theorem heapify_perm (items : List α) : (heapify key items).Perm items := build_perm (Nat.le_refl _) (by omega)

end Heapify

end UnixProgramming.Lib.BinaryHeap
