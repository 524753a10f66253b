import UnixProgramming.Timer.SortedSequence

/-! Each operation of `sort_timer_list` simulates the reference sequence, and so
does every sequence of operations from the empty list. -/

namespace UnixProgramming.Timer

open UnixProgramming.Lib

variable {κ : Type} {list : SortTimerList κ} {seq : TimerSeq κ} {timer : Nat} {fields : UtilTimer κ}

theorem Represents.apart (rep : Represents list (left ++ (timer, fields) :: right)) :
    ∀ node ∈ left ++ right, node.1 ≠ timer := by
  intro node member same
  have distinct := rep.distinct
  rw [List.map_append, List.map_cons, List.nodup_middle, List.nodup_cons] at distinct
  apply distinct.1
  rw [← List.map_append]
  exact List.mem_map.mpr ⟨node, member, same⟩

/-- In the reference sequence, removing one address leaves the rest in order. -/
theorem Represents.filter_eq (rep : Represents list (left ++ (timer, fields) :: right)) :
    (left ++ (timer, fields) :: right).filter (fun other => other.1 ≠ timer) = left ++ right := by
  have kept : (left ++ right).filter (fun other => other.1 ≠ timer) = left ++ right := by
    apply List.filter_eq_self.mpr
    intro node member
    simpa using rep.apart node member
  simpa [List.filter_append] using kept

theorem Represents.split_of_mem (member : timer ∈ seq.map Prod.fst) :
    ∃ left fields right, seq = left ++ (timer, fields) :: right := by
  obtain ⟨⟨address, fields⟩, present, rfl⟩ := List.mem_map.mp member
  obtain ⟨left, right, same⟩ := List.append_of_mem present
  exact ⟨left, fields, right, same⟩

/-! ## add -/

/-- An insertion into the links of `seq` represents the stable insertion, when
the inserted node is the only other allocated cell. -/
theorem Inserted.represents {new : SortTimerList κ}
    (inserted : Inserted list new (stableInsert expireOf (timer, fields) seq))
    (distinct : (seq.map Prod.fst).Nodup) (apart : ∀ node ∈ seq, node.1 ≠ timer)
    (sorted : Ascending expireOf seq) (callable : ∀ node ∈ seq, node.2.cbFunc.isSome = true)
    (callback : fields.cbFunc.isSome = true)
    (allocated : ∀ address, (list.store.load address).isSome = true →
      address = timer ∨ address ∈ seq.map Prod.fst) :
    Represents new (stableInsert expireOf (timer, fields) seq) where
  linked := inserted.linked
  distinct := by
    have reordered := (stableInsert_perm expireOf (timer, fields) seq).map Prod.fst
    refine reordered.nodup_iff.mpr (List.nodup_cons.mpr ⟨?_, distinct⟩)
    intro member
    obtain ⟨node, present, same⟩ := List.mem_map.mp member
    exact apart node present same
  head := inserted.head
  tail := fun _ => inserted.tail
  sorted := stableInsert_ascending _ sorted
  callable := by
    intro node member
    rcases mem_stableInsert.mp member with same | old
    · exact same ▸ callback
    · exact callable node old
  allocated := by
    intro address live
    rw [inserted.domain] at live
    rw [List.mem_map]
    rcases allocated address live with same | old
    · exact ⟨(timer, fields), mem_stableInsert.mpr (.inl rfl), same.symm⟩
    · obtain ⟨node, present, same⟩ := List.mem_map.mp old
      exact ⟨node, mem_stableInsert.mpr (.inr present), same⟩

theorem Represents.add (rep : Represents list seq) (absent : timer ∉ seq.map Prod.fst)
    (callback : fields.cbFunc.isSome = true) :
    ∃ result, execList list (.add timer fields) = some ([], result) ∧
      Represents result (stableInsert expireOf (timer, fields) seq) := by
  have fresh : list.store.load timer = none := by
    by_contra live
    exact absent (rep.allocated timer (Option.isSome_iff_ne_none.mpr live))
  have apart : ∀ node ∈ seq, node.1 ≠ timer := by
    intro node member same
    exact absent (same ▸ List.mem_map_of_mem member)
  have linked : Segment (list.store.put timer ⟨fields, none, none⟩) none seq none :=
    rep.linked.frame fun node member => by simp [apart node member]
  obtain ⟨result, finished, inserted⟩ := addTimer_inserted
    { list with store := list.store.put timer ⟨fields, none, none⟩ } fields linked rep.distinct apart (by simp) rep.head rep.tail
  refine ⟨result, by simp [execList, Store.alloc_fresh fresh, finished], ?_⟩
  refine inserted.represents rep.distinct apart rep.sorted rep.callable callback ?_
  intro address live
  by_cases same : address = timer
  · exact .inl same
  · exact .inr (rep.allocated address (by simpa [same] using live))

/-! ## del -/

section Removal
variable {left right : TimerSeq κ}

/-- The node of a split sequence, with its neighbours as links. -/
theorem Represents.found (rep : Represents list (left ++ (timer, fields) :: right)) :
    list.store.load timer = some ⟨fields, last left, first right⟩ := by
  simpa using ((segment_append left ((timer, fields) :: right)).mp rep.linked).2.1

theorem Represents.without {new : SortTimerList κ}
    (rep : Represents list (left ++ (timer, fields) :: right))
    (head : new.head = first (left ++ right)) (tail : left ++ right ≠ [] → new.tail = last (left ++ right))
    (loads : ∀ address, new.store.load address = if address = timer then none else
      (list.store.load address).map (unlinked left right none none address)) :
    Represents new (left ++ right) where
  linked := by
    apply rep.linked.unlink rep.distinct
    intro other member
    rw [loads, if_neg (rep.apart other member)]
  distinct := rep.distinct.sublist (List.Sublist.map _ (by simp))
  head := head
  tail := tail
  sorted := rep.sorted.sublist (by simp)
  callable := fun node member => rep.callable node (by
    rcases List.mem_append.mp member with inLeft | inRight
    · exact List.mem_append_left _ inLeft
    · exact List.mem_append_right _ (List.mem_cons_of_mem _ inRight))
  allocated := by
    intro address live
    rw [loads] at live
    split_ifs at live with same
    · simp at live
    · have old := rep.allocated address (by simpa using live)
      simpa [same] using old

theorem Represents.head_iff (rep : Represents list (left ++ (timer, fields) :: right)) :
    some timer = list.head ↔ left = [] := by
  rw [rep.head]
  cases left with
  | nil => simp
  | cons node rest =>
    have different := rep.apart node (by simp)
    simp [different.symm]

theorem Represents.tail_iff (rep : Represents list (left ++ (timer, fields) :: right)) :
    some timer = list.tail ↔ right = [] := by
  rw [rep.tail (by simp)]
  constructor
  · intro same
    by_contra nonempty
    obtain ⟨address, final⟩ := exists_last nonempty
    have different : last right ≠ some timer :=
      last_ne fun node member => rep.apart node (List.mem_append_right left member)
    simp [final] at same different
    exact different same.symm
  · intro empty
    simp [empty]

/-- The four cases of `del_timer` differ only in which neighbours exist. -/
theorem Represents.del (rep : Represents list (left ++ (timer, fields) :: right)) :
    ∃ result, list.delTimer (some timer) = some result ∧ Represents result (left ++ right) := by
  have found := rep.found
  have isHead := rep.head_iff
  have isTail := rep.tail_iff
  obtain ⟨store, detached, loads⟩ := rep.linked.detach rep.distinct
  simp only [Store.detach, found, Option.bind_eq_bind, Option.bind_some] at detached
  cases left using List.reverseRecOn with
  | nil =>
    cases right with
    | nil =>
      simp only [last_nil, first_nil, Store.linkNext, Store.linkPrev, Option.bind_some] at detached
      exact ⟨⟨store, none, none⟩, by simp [SortTimerList.delTimer, isHead, isTail, detached],
        rep.without rfl (by simp) loads⟩
    | cons next rest =>
      simp only [last_nil, first_cons, Store.linkNext, Store.linkPrev, Option.bind_some] at detached
      obtain ⟨relinked, cleared, freed⟩ := Option.bind_eq_some_iff.mp detached
      refine ⟨⟨store, some next.1, list.tail⟩, ?_, rep.without rfl (fun _ => ?_) loads⟩
      · simp [SortTimerList.delTimer, isHead, isTail, found, cleared, freed]
      · simpa using rep.tail (by simp)
  | append_singleton front prev =>
    have headKept : list.head = first (front ++ [prev] ++ right) := by simp [rep.head]
    cases right with
    | nil =>
      simp only [last_append, last_cons, last_nil, Option.getD_none, Option.some_or, first_nil,
        Store.linkNext, Store.linkPrev, Option.bind_some] at detached
      obtain ⟨relinked, cleared, freed⟩ := Option.bind_eq_some_iff.mp detached
      refine ⟨⟨store, list.head, some prev.1⟩, ?_, rep.without headKept (fun _ => by simp) loads⟩
      simp [SortTimerList.delTimer, isHead, isTail, found, cleared, freed]
    | cons next rest =>
      simp only [last_append, last_cons, last_nil, Option.getD_none, Option.some_or, first_cons,
        Store.linkNext, Store.linkPrev] at detached
      obtain ⟨relinked, forward, rest⟩ := Option.bind_eq_some_iff.mp detached
      obtain ⟨bridged, backward, freed⟩ := Option.bind_eq_some_iff.mp rest
      refine ⟨⟨store, list.head, list.tail⟩, ?_, rep.without headKept (fun _ => ?_) loads⟩
      · simp [SortTimerList.delTimer, isHead, isTail, found, forward, backward, freed]
      · simpa using rep.tail (by simp)

/-! ## adjust -/

section Adjust
variable {expire : Int}

theorem Represents.left_le (rep : Represents list (left ++ (timer, fields) :: right))
    (later : fields.expire ≤ expire) :
    ∀ node ∈ left, expireOf node ≤ expireOf (timer, { fields with expire := expire }) := by
  intro node member
  have sorted := (List.pairwise_append.mp rep.sorted).2.2 node member (timer, fields) (by simp)
  exact Int.le_trans sorted later

/-- Putting the node back by a stable insertion, after its timeout was changed
and both neighbours were linked to each other or were left as they are. -/
theorem Represents.reinserted (old : SortTimerList κ) {new : SortTimerList κ}
    (rep : Represents list (left ++ (timer, fields) :: right))
    (inserted : Inserted old new
      (stableInsert expireOf (timer, { fields with expire := expire }) (left ++ right)))
    (domain : ∀ address, (old.store.load address).isSome = (list.store.load address).isSome) :
    Represents new
      (stableInsert expireOf (timer, { fields with expire := expire }) (left ++ right)) := by
  have kept : (left ++ right).Sublist (left ++ (timer, fields) :: right) := by simp
  refine inserted.represents (rep.distinct.sublist (kept.map _)) rep.apart (rep.sorted.sublist kept)
    (fun node member => rep.callable node (kept.subset member))
    (rep.callable (timer, fields) (by simp)) ?_
  intro address live
  have old := rep.allocated address (domain address ▸ live)
  simp only [List.map_append, List.map_cons, List.mem_append, List.mem_cons] at old ⊢
  tauto

/-- A timer that is still earlier than its successor keeps its place. -/
theorem Represents.adjust_stay (rep : Represents list (left ++ (timer, fields) :: right))
    (later : fields.expire ≤ expire) (stays : ∀ tmp ∈ right.head?, expire < tmp.2.expire) :
    ∃ result, execList list (.adjust timer expire) = some ([], result) ∧
      Represents result
        (stableInsert expireOf (timer, { fields with expire := expire }) (left ++ right)) := by
  have place : stableInsert expireOf (timer, { fields with expire := expire }) (left ++ right) =
      left ++ (timer, { fields with expire := expire }) :: right := by
    rw [stableInsert_append (rep.left_le later)]
    cases right with
    | nil => rfl
    | cons tmp rest =>
      have smaller : expireOf (timer, { fields with expire := expire }) < expireOf tmp := stays tmp rfl
      rw [stableInsert_of_lt smaller]
  let raised : SortTimerList κ := ⟨list.store.put timer
    ⟨{ fields with expire := expire }, last left, first right⟩, list.head, list.tail⟩
  have linked : Segment raised.store none
      (left ++ (timer, { fields with expire := expire }) :: right) none := by
    apply rep.linked.replace rep.distinct
    intro other
    simp [raised, rep.found]
  refine ⟨raised, ?_, rep.reinserted raised (place ▸ ⟨linked, ?_, ?_, fun _ => rfl⟩) ?_⟩
  · cases right with
    | nil => simp [execList, rep.found, Store.setData, SortTimerList.adjustTimer, raised]
    | cons tmp rest =>
      have tmpApart := rep.apart tmp (by simp)
      obtain ⟨_, _, tmpFound⟩ := rep.linked.load
        (List.mem_append_right left (List.mem_cons_of_mem _ List.mem_cons_self))
      simp [execList, rep.found, Store.setData, SortTimerList.adjustTimer, raised, tmpApart, tmpFound,
        stays tmp rfl]
  · simp [raised, rep.head]
  · simp [raised, rep.tail]
  · intro address
    by_cases same : address = timer
    · simp [raised, same, rep.found]
    · simp [raised, same]

/-- The second half of a move: the timer has been taken out and is inserted
behind its old successor. -/
theorem Represents.reinsert {tmp : Nat × UtilTimer κ} {rest : TimerSeq κ}
    (taken : SortTimerList κ) (prev next : Option Nat)
    (rep : Represents list (left ++ (timer, fields) :: tmp :: rest))
    (later : fields.expire ≤ expire) (moves : tmp.2.expire ≤ expire)
    (head : taken.head = first (left ++ tmp :: rest)) (tail : taken.tail = list.tail)
    (loads : ∀ address, taken.store.load address = if address = timer then
      some ⟨{ fields with expire := expire }, prev, next⟩ else
      (list.store.load address).map (unlinked left (tmp :: rest) none none address)) :
    ∃ result, taken.addTimerAfter timer tmp.1 = some result ∧ Represents result
      (stableInsert expireOf (timer, { fields with expire := expire }) (left ++ tmp :: rest)) := by
  have linked : Segment taken.store none (left ++ tmp :: rest) none := by
    apply rep.linked.unlink rep.distinct
    intro other member
    rw [loads, if_neg (rep.apart other member)]
  have distinct : ((left ++ tmp :: rest).map Prod.fst).Nodup :=
    rep.distinct.sublist (List.Sublist.map _ (by simp))
  have apart := rep.apart
  have tailKept : taken.tail = last (left ++ tmp :: rest) := by simp [tail, rep.tail]
  have notLater : expireOf tmp ≤ expireOf (timer, { fields with expire := expire }) := moves
  have place : stableInsert expireOf (timer, { fields with expire := expire }) (left ++ tmp :: rest) =
      (left ++ [tmp]) ++ stableInsert expireOf (timer, { fields with expire := expire }) rest := by
    rw [stableInsert_append (rep.left_le later), stableInsert_of_le notLater, ← List.append_cons]
  have found : taken.store.load timer = some ⟨{ fields with expire := expire }, prev, next⟩ := by
    rw [loads, if_pos rfl]
  rw [List.append_cons] at linked distinct apart head tailKept
  obtain ⟨result, finished, inserted⟩ :=
    addTimerAfter_inserted left rest tmp linked distinct apart found head tailKept
  refine ⟨result, finished, rep.reinserted taken (place ▸ inserted) ?_⟩
  intro address
  rw [loads]
  by_cases same : address = timer
  · simp [same, rep.found]
  · simp [same]

/-- A timer that is no longer earlier than its successor is moved behind it. -/
theorem Represents.adjust_move {tmp : Nat × UtilTimer κ} {rest : TimerSeq κ}
    (rep : Represents list (left ++ (timer, fields) :: tmp :: rest))
    (later : fields.expire ≤ expire) (moves : tmp.2.expire ≤ expire) :
    ∃ result, execList list (.adjust timer expire) = some ([], result) ∧ Represents result
      (stableInsert expireOf (timer, { fields with expire := expire }) (left ++ tmp :: rest)) := by
  have tmpApart : tmp.1 ≠ timer := rep.apart tmp (by simp)
  obtain ⟨tmpPrev, tmpNext, tmpFound⟩ := rep.linked.load
    (List.mem_append_right left (List.mem_cons_of_mem _ List.mem_cons_self))
  have isHead := rep.head_iff
  have found := rep.found
  cases left using List.reverseRecOn with
  | nil =>
    let taken : SortTimerList κ := ⟨((list.store.put timer
      ⟨{ fields with expire := expire }, none, some tmp.1⟩).put tmp.1 ⟨tmp.2, none, tmpNext⟩).put timer
      ⟨{ fields with expire := expire }, none, none⟩, some tmp.1, list.tail⟩
    obtain ⟨result, finished, kept⟩ := rep.reinsert taken none none later moves rfl rfl (by
      intro address
      by_cases isTmp : address = tmp.1
      · simp [taken, isTmp, tmpApart, tmpFound, unlinked]
      · rw [map_unlinked_of_ne (by simpa using Ne.symm isTmp) (by simp)]
        by_cases isTimer : address = timer
        · simp [taken, isTimer]
        · simp [taken, isTimer, isTmp])
    have unfolded : execList list (.adjust timer expire) =
        (taken.addTimerAfter timer tmp.1).bind fun list => some ([], list) := by
      simp [execList, found, Store.setData, SortTimerList.adjustTimer, tmpApart, tmpApart.symm,
        tmpFound, moves.not_gt, isHead, Store.setPrev, Store.setNext, taken]
    exact ⟨result, by rw [unfolded, finished]; rfl, kept⟩
  | append_singleton front prev =>
    have prevApart : prev.1 ≠ timer := rep.apart prev (by simp)
    obtain ⟨prevPrev, prevNext, prevFound⟩ := rep.linked.load
      (List.mem_append_left _ (List.mem_append_right front List.mem_cons_self))
    have neighbours : prev.1 ≠ tmp.1 := by
      have distinct := rep.distinct
      simp only [List.map_append, List.nodup_append] at distinct
      exact distinct.2.2 prev.1 (by simp) tmp.1 (by simp)
    let taken : SortTimerList κ := ⟨((list.store.put timer
      ⟨{ fields with expire := expire }, some prev.1, some tmp.1⟩).put prev.1
      ⟨prev.2, prevPrev, some tmp.1⟩).put tmp.1 ⟨tmp.2, some prev.1, tmpNext⟩, list.head, list.tail⟩
    obtain ⟨result, finished, kept⟩ := rep.reinsert taken (some prev.1) (some tmp.1) later moves
      (by simp [taken, rep.head]) rfl (by
        intro address
        by_cases isTmp : address = tmp.1
        · simp [taken, isTmp, tmpApart, tmpFound, unlinked, neighbours.symm]
        · by_cases isPrev : address = prev.1
          · simp [taken, isPrev, prevApart, prevFound, unlinked, neighbours]
          · rw [map_unlinked_of_ne (by simpa using Ne.symm isTmp) (by simpa using Ne.symm isPrev)]
            by_cases isTimer : address = timer
            · simp [taken, isTimer, tmpApart.symm, prevApart.symm]
            · simp [taken, isTimer, isTmp, isPrev])
    have unfolded : execList list (.adjust timer expire) =
        (taken.addTimerAfter timer tmp.1).bind fun list => some ([], list) := by
      simp [execList, found, Store.setData, SortTimerList.adjustTimer, tmpApart, prevApart,
        tmpFound, prevFound, neighbours.symm, moves.not_gt, isHead, Store.setPrev, Store.setNext, taken]
    exact ⟨result, by rw [unfolded, finished]; rfl, kept⟩

theorem Represents.adjust (rep : Represents list (left ++ (timer, fields) :: right))
    (later : fields.expire ≤ expire) :
    ∃ result, execList list (.adjust timer expire) = some ([], result) ∧ Represents result
      (stableInsert expireOf (timer, { fields with expire := expire }) (left ++ right)) := by
  cases right with
  | nil => exact rep.adjust_stay later (by simp)
  | cons tmp rest =>
    rcases lt_or_ge expire tmp.2.expire with stays | moves
    · exact rep.adjust_stay later (by simpa using stays)
    · exact rep.adjust_move later moves

end Adjust

end Removal

/-! ## tick -/

/-- The body of the loop of `tick` after its callback: the head goes. -/
theorem Represents.pop {rest : TimerSeq κ} (rep : Represents list ((timer, fields) :: rest)) :
    ∃ unlinked freed, list.store.linkPrev (first rest) none = some unlinked ∧
      unlinked.free timer = some freed ∧ Represents ⟨freed, first rest, list.tail⟩ rest := by
  have split : Represents list ([] ++ (timer, fields) :: rest) := rep
  obtain ⟨store, detached, loads⟩ := split.linked.detach split.distinct
  simp only [Store.detach, split.found, last_nil, Store.linkNext, Option.bind_eq_bind,
    Option.bind_some] at detached
  obtain ⟨unlinked, relinked, freed⟩ := Option.bind_eq_some_iff.mp detached
  refine ⟨unlinked, store, relinked, freed, split.without rfl ?_ loads⟩
  intro nonempty
  obtain ⟨address, final⟩ := exists_last nonempty
  rw [List.nil_append] at final
  simp [rep.tail, final]

/-- The loop stops at the first timer that is not due; the order makes every
later timer not due either. The induction is on the represented sequence. -/
theorem Represents.tickLoop (rep : Represents list seq) (cur : Int) (fuel : Nat)
    (enough : seq.length ≤ fuel) :
    ∃ result, SortTimerList.tickLoop cur fuel list (first seq) =
        some (seq.filter fun node => node.2.expire ≤ cur, result) ∧
      Represents result (seq.filter fun node => cur < node.2.expire) := by
  induction seq generalizing list fuel with
  | nil => exact ⟨list, by cases fuel <;> rfl, rep⟩
  | cons node rest ih =>
    obtain ⟨timer, fields⟩ := node
    have found := rep.linked.1
    cases fuel with
    | zero => simp at enough
    | succ fuel =>
      by_cases waits : cur < fields.expire
      · have notDue : ∀ node ∈ (timer, fields) :: rest, cur < node.2.expire := by
          intro node member
          rcases List.mem_cons.mp member with same | later
          · exact same ▸ waits
          · exact Int.lt_of_lt_of_le waits ((List.pairwise_cons.mp rep.sorted).1 node later)
        have kept : ((timer, fields) :: rest).filter (fun node => cur < node.2.expire) =
            (timer, fields) :: rest := by
          apply List.filter_eq_self.mpr
          simpa using notDue
        have nothing : ((timer, fields) :: rest).filter (fun node => node.2.expire ≤ cur) = [] := by
          apply List.filter_eq_nil_iff.mpr
          simpa using notDue
        rw [kept, nothing]
        refine ⟨list, ?_, rep⟩
        simp [SortTimerList.tickLoop, found, waits]
      · obtain ⟨unlinked, freed, cleared, deleted, popped⟩ := rep.pop
        obtain ⟨result, finished, final⟩ := ih popped fuel (by simpa using enough)
        obtain ⟨callback, called⟩ : ∃ callback, fields.cbFunc = some callback :=
          Option.isSome_iff_exists.mp (rep.callable _ List.mem_cons_self)
        have due : fields.expire ≤ cur := Int.not_lt.mp waits
        refine ⟨result, ?_, by simpa [waits] using final⟩
        simp [SortTimerList.tickLoop, found, waits, called, cleared, deleted, finished, due]

theorem Represents.tick (rep : Represents list seq) (cur : Int) :
    ∃ result, list.tick cur = some (seq.filter fun node => node.2.expire ≤ cur, result) ∧
      Represents result (seq.filter fun node => cur < node.2.expire) := by
  obtain ⟨result, finished, final⟩ := rep.tickLoop cur list.store.size rep.length_le
  cases seq with
  | nil => exact ⟨list, by simp [SortTimerList.tick, rep.head], rep⟩
  | cons node rest =>
    refine ⟨result, ?_, final⟩
    simpa only [SortTimerList.tick, rep.head, first_cons] using finished

/-! ## The refinement -/

/-- The logs agree and the list represents the sequence. -/
def ListSimulates (concrete : Logged (SortTimerList κ) κ) (abstract : Logged (TimerSeq κ) κ) : Prop :=
  Represents concrete.state abstract.state ∧ concrete.fired = abstract.fired

theorem Represents.exec (rep : Represents list seq) (op : ListOp κ)
    {fired : List (Nat × UtilTimer κ)} {next : TimerSeq κ} (taken : execSeq seq op = some (fired, next)) :
    ∃ result, execList list op = some (fired, result) ∧ Represents result next := by
  cases op with
  | add timer fields =>
    simp only [execSeq] at taken
    split_ifs at taken with valid
    cases taken
    exact rep.add valid.1 valid.2
  | adjust timer expire =>
    simp only [execSeq] at taken
    split at taken
    · cases taken
    · rename_i node found
      split_ifs at taken with later
      cases taken
      have same : node.1 = timer := by simpa using List.find?_some found
      obtain ⟨left, right, rfl⟩ := List.append_of_mem (List.mem_of_find?_eq_some found)
      obtain ⟨address, fields⟩ := node
      subst same
      rw [rep.filter_eq]
      exact rep.adjust later
  | del timer =>
    simp only [execSeq] at taken
    split_ifs at taken with present
    cases taken
    obtain ⟨left, fields, right, rfl⟩ := Represents.split_of_mem present
    obtain ⟨result, finished, final⟩ := rep.del
    rw [rep.filter_eq]
    exact ⟨result, by simp [execList, finished], final⟩
  | tick cur =>
    cases taken
    exact rep.tick cur

theorem runList_simulates (ops : List (ListOp κ)) {abstract : Logged (TimerSeq κ) κ}
    (valid : runSeq ops = some abstract) :
    ∃ concrete, runList ops = some concrete ∧ ListSimulates concrete abstract := by
  refine run_simulation ?_ ⟨Represents.empty, rfl⟩ valid
  intro concrete abstract op next ⟨rep, sameLog⟩ taken
  obtain ⟨⟨fired, seq⟩, executed, rfl⟩ := Option.map_eq_some_iff.mp taken
  obtain ⟨result, finished, final⟩ := rep.exec op executed
  refine ⟨⟨result, concrete.fired ++ [fired]⟩, ?_, final, by simp [sameLog]⟩
  simp [logStep, finished]

/-- Whether `timer` has been added and not yet deleted or fired, read off a
history of operations and of what each of them fired. -/
def outstanding (timer : Nat) : Bool → List (ListOp κ × List (Nat × UtilTimer κ)) → Bool
  | present, [] => present
  | present, (.add added _, _) :: rest => outstanding timer (present || added == timer) rest
  | present, (.adjust _ _, _) :: rest => outstanding timer present rest
  | present, (.del deleted, _) :: rest => outstanding timer (present && deleted != timer) rest
  | present, (.tick _, fired) :: rest =>
    outstanding timer (present && !(fired.map Prod.fst).contains timer) rest

/-- What the links of the list say about the visiting order `seq`. -/
structure VisitedAs (list : SortTimerList κ) (seq : TimerSeq κ) : Prop where
  forward : list.forward = some (seq.map Prod.fst)
  once : (seq.map Prod.fst).Nodup
  values : ∀ node ∈ seq, ∃ cell, list.store.load node.1 = some cell ∧ cell.data = node.2
  ascending : seq.Pairwise fun left right => left.2.expire ≤ right.2.expire
  backward : seq ≠ [] → list.backward = some (seq.map Prod.fst).reverse
  headPrev : seq ≠ [] → ∃ cell, list.head.bind list.store.load = some cell ∧ cell.prev = none
  tailNext : seq ≠ [] → ∃ cell, list.tail.bind list.store.load = some cell ∧ cell.next = none

theorem Represents.visited (rep : Represents list seq) : VisitedAs list seq where
  forward := rep.forward
  once := rep.distinct
  values := by
    intro node member
    obtain ⟨prev, next, found⟩ := rep.linked.load member
    exact ⟨_, found, rfl⟩
  ascending := rep.sorted
  backward := rep.backward
  headPrev := by
    intro nonempty
    cases seq with
    | nil => exact (nonempty rfl).elim
    | cons node rest => exact ⟨_, by simp [rep.head, rep.linked.1]; rfl, rfl⟩
  tailNext := by
    intro nonempty
    cases seq using List.reverseRecOn with
    | nil => exact (nonempty rfl).elim
    | append_singleton front node =>
      have found := ((segment_append front [node]).mp rep.linked).2.1
      exact ⟨_, by simp [rep.tail, found]; rfl, rfl⟩

theorem mem_addresses_insert (node : Nat × UtilTimer κ) (seq : TimerSeq κ) :
    timer ∈ (stableInsert expireOf node seq).map Prod.fst ↔ node.1 = timer ∨ timer ∈ seq.map Prod.fst := by
  rw [((stableInsert_perm expireOf node seq).map Prod.fst).mem_iff, List.map_cons, List.mem_cons, eq_comm]

theorem mem_addresses_filter_ne (removed : Nat) (seq : TimerSeq κ) :
    timer ∈ (seq.filter fun other => other.1 ≠ removed).map Prod.fst ↔ timer ∈ seq.map Prod.fst ∧ timer ≠ removed := by
  simp only [List.mem_map, List.mem_filter, decide_eq_true_eq]
  constructor
  · rintro ⟨other, ⟨member, different⟩, rfl⟩
    exact ⟨⟨other, member, rfl⟩, different⟩
  · rintro ⟨⟨other, member, rfl⟩, different⟩
    exact ⟨other, ⟨member, different⟩, rfl⟩

/-- After a tick a timer is left exactly when it was there and did not fire. -/
theorem Represents.mem_tick (rep : Represents list seq) (cur : Int) :
    timer ∈ (seq.filter fun node => cur < node.2.expire).map Prod.fst ↔
      timer ∈ seq.map Prod.fst ∧
        timer ∉ (seq.filter fun node => node.2.expire ≤ cur).map Prod.fst := by
  simp only [List.mem_map, List.mem_filter, decide_eq_true_eq]
  constructor
  · rintro ⟨node, ⟨member, waits⟩, rfl⟩
    refine ⟨⟨node, member, rfl⟩, ?_⟩
    rintro ⟨other, ⟨present, due⟩, same⟩
    have unique := List.inj_on_of_nodup_map rep.distinct present member same
    subst unique
    exact absurd due (Int.not_le.mpr waits)
  · rintro ⟨⟨node, member, rfl⟩, silent⟩
    refine ⟨node, ⟨member, ?_⟩, rfl⟩
    by_contra due
    exact silent ⟨node, ⟨member, Int.not_lt.mp due⟩, rfl⟩

theorem Represents.outstanding_exec (rep : Represents list seq) (op : ListOp κ)
    {fired : List (Nat × UtilTimer κ)} {next : TimerSeq κ} (taken : execSeq seq op = some (fired, next))
    (rest : List (ListOp κ × List (Nat × UtilTimer κ))) :
    outstanding timer (decide (timer ∈ seq.map Prod.fst)) ((op, fired) :: rest) =
      outstanding timer (decide (timer ∈ next.map Prod.fst)) rest := by
  cases op with
  | add added fields =>
    simp only [execSeq] at taken
    split_ifs at taken
    cases taken
    rw [outstanding]
    congr 1
    apply Bool.eq_iff_iff.mpr
    simp [mem_addresses_insert, or_comm]
  | adjust adjusted expire =>
    simp only [execSeq] at taken
    split at taken
    · cases taken
    · rename_i node found
      split_ifs at taken
      cases taken
      have present : adjusted ∈ seq.map Prod.fst :=
        List.mem_map.mpr ⟨node, List.mem_of_find?_eq_some found, by simpa using List.find?_some found⟩
      rw [outstanding]
      congr 1
      apply Bool.eq_iff_iff.mpr
      rw [decide_eq_true_eq, decide_eq_true_eq, mem_addresses_insert, mem_addresses_filter_ne]
      by_cases same : adjusted = timer
      · simp only [same, true_or, iff_true]
        exact same ▸ present
      · simp only [same, false_or, ne_eq, Ne.symm same, not_false_eq_true, and_true]
  | del deleted =>
    simp only [execSeq] at taken
    split_ifs at taken
    cases taken
    rw [outstanding]
    congr 1
    apply Bool.eq_iff_iff.mpr
    rw [Bool.and_eq_true, decide_eq_true_eq, decide_eq_true_eq, bne_iff_ne, mem_addresses_filter_ne, ne_comm]
  | tick cur =>
    cases taken
    rw [outstanding]
    congr 1
    apply Bool.eq_iff_iff.mpr
    rw [decide_eq_true_eq, rep.mem_tick cur]
    simp only [Bool.and_eq_true, decide_eq_true_eq, Bool.not_eq_true', List.contains_eq_mem,
      decide_eq_false_iff_not]

/-- From any represented state, the reference run keeps exactly the outstanding
timers, and logs one entry for each operation. -/
theorem Represents.outstanding_run (rep : Represents list seq) (ops : List (ListOp κ))
    {log : List (List (Nat × UtilTimer κ))} {final : Logged (TimerSeq κ) κ}
    (reached : run (logStep execSeq) ⟨seq, log⟩ ops = some final) :
    ∃ fired, final.fired = log ++ fired ∧ fired.length = ops.length ∧
      ∀ timer, timer ∈ final.state.map Prod.fst ↔
        outstanding timer (decide (timer ∈ seq.map Prod.fst)) (ops.zip fired) = true := by
  induction ops generalizing list seq log with
  | nil =>
    cases Option.some.inj reached
    exact ⟨[], by simp, rfl, fun timer => by simp [outstanding]⟩
  | cons op rest ih =>
    obtain ⟨next, taken, remaining⟩ := run_cons_some.mp reached
    obtain ⟨⟨firedNow, seqNext⟩, executed, rfl⟩ := Option.map_eq_some_iff.mp taken
    obtain ⟨listNext, _, repNext⟩ := rep.exec op executed
    obtain ⟨fired, logged, sameLength, members⟩ := ih repNext remaining
    refine ⟨firedNow :: fired, by simp [logged], by simp [sameLength], ?_⟩
    intro timer
    rw [List.zip_cons_cons, rep.outstanding_exec op executed]
    exact members timer

/-- Every sequence of list operations visits what the reference sequence holds:
the timers added and not yet deleted or fired, once each, in ascending order of
their timeouts and, among equal timeouts, in the order of stable insertion. -/
theorem sortTimerList_refines_sequence (ops : List (ListOp κ)) (abstract : Logged (TimerSeq κ) κ)
    (valid : runSeq ops = some abstract) :
    ∃ list, runList ops = some ⟨list, abstract.fired⟩ ∧ VisitedAs list abstract.state ∧
      ∀ timer, timer ∈ abstract.state.map Prod.fst ↔
        outstanding timer false (ops.zip abstract.fired) = true := by
  obtain ⟨⟨list, log⟩, finished, rep, sameLog⟩ := runList_simulates ops valid
  obtain ⟨fired, logged, _, members⟩ := (Represents.empty : Represents (.empty : SortTimerList κ) []).outstanding_run ops valid
  refine ⟨list, by rw [finished, ← sameLog], rep.visited, ?_⟩
  intro timer
  rw [members timer, logged]
  rfl

/-- Two equal timeouts, a raised one, a deletion, and a tick that fires. -/
theorem sortTimerList_refines_sequence_mixed :
    ∃ list, runList ([.add 1 ⟨5, some 0, ()⟩, .add 2 ⟨3, some 0, ()⟩, .add 3 ⟨5, some 0, ()⟩,
        .adjust 2 5, .del 1, .add 4 ⟨2, some 0, ()⟩, .tick 2] : List (ListOp Unit)) =
        some ⟨list, [[], [], [], [], [], [], [(4, ⟨2, some 0, ()⟩)]]⟩ ∧
      VisitedAs list [(3, ⟨5, some 0, ()⟩), (2, ⟨5, some 0, ()⟩)] := by
  obtain ⟨list, finished, visited, _⟩ := sortTimerList_refines_sequence
    ([.add 1 ⟨5, some 0, ()⟩, .add 2 ⟨3, some 0, ()⟩, .add 3 ⟨5, some 0, ()⟩,
        .adjust 2 5, .del 1, .add 4 ⟨2, some 0, ()⟩, .tick 2] : List (ListOp Unit))
    ⟨[(3, ⟨5, some 0, ()⟩), (2, ⟨5, some 0, ()⟩)],
      [[], [], [], [], [], [], [(4, ⟨2, some 0, ()⟩)]]⟩ (by decide)
  exact ⟨list, finished, visited⟩

end UnixProgramming.Timer
