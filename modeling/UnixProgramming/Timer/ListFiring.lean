import UnixProgramming.Timer.ListRefinement

/-! When the timers of `sort_timer_list` fire, over whole runs. A timer's life
starts with its insertion; the address of a freed node may be used again, so a
life also ends where the same address is added anew. -/

namespace UnixProgramming.Timer

open UnixProgramming.Lib

variable {κ : Type} {list : SortTimerList κ} {seq : TimerSeq κ} {timer : Nat}

/-- The nodes met by following `next` from `head`, with their fields. -/
def SortTimerList.contents (list : SortTimerList κ) : Option (List (Nat × UtilTimer κ)) := do
  let addresses ← list.forward
  addresses.mapM fun address => (list.store.load address).map fun cell => (address, cell.data)

theorem Segment.mapM_load {α : Type} {store : Store α} {before after : Option Nat}
    {nodes : List (Nat × α)} (linked : Segment store before nodes after) :
    (nodes.map Prod.fst).mapM (fun address =>
      (store.load address).map fun cell => (address, cell.data)) = some nodes := by
  induction nodes generalizing before with
  | nil => rfl
  | cons node rest ih => simp [List.mapM_cons, linked.1, ih linked.2]

theorem Represents.contents (rep : Represents list seq) : list.contents = some seq := by
  simp [SortTimerList.contents, rep.forward, Segment.mapM_load rep.linked]

/-- How one operation changes the timeout a timer waits for. It waits no longer
once it is deleted or a tick reads a clock that has reached its timeout. -/
def waitStep (timer : Nat) : Option Int → ListOp κ → Option Int
  | none, _ => none
  | some expire, .add _ _ => some expire
  | some expire, .adjust adjusted raised => some (if adjusted = timer then raised else expire)
  | some expire, .del deleted => if deleted = timer then none else some expire
  | some expire, .tick cur => if expire ≤ cur then none else some expire

/-- The timeout a timer still waits for after some operations. -/
def waitingFor (timer : Nat) (expire : Int) (ops : List (ListOp κ)) : Option Int :=
  ops.foldl (waitStep timer) (some expire)

/-- The timeout of a timer in the reference sequence. -/
def timeoutIn (timer : Nat) (seq : TimerSeq κ) : Option Int :=
  (seq.find? fun node => node.1 = timer).map fun node => node.2.expire

theorem timeoutIn_eq_some (distinct : (seq.map Prod.fst).Nodup) (timer : Nat) (expire : Int) :
    timeoutIn timer seq = some expire ↔ ∃ fields, (timer, fields) ∈ seq ∧ fields.expire = expire := by
  constructor
  · intro found
    obtain ⟨node, selected, rfl⟩ := Option.map_eq_some_iff.mp found
    have same : node.1 = timer := by simpa using List.find?_some selected
    exact ⟨node.2, same ▸ List.mem_of_find?_eq_some selected, rfl⟩
  · rintro ⟨fields, member, rfl⟩
    cases selected : seq.find? fun node => node.1 = timer with
    | none =>
      have absent := List.find?_eq_none.mp selected (timer, fields) member
      simp at absent
    | some node =>
      have same : node.1 = timer := by simpa using List.find?_some selected
      have unique := List.inj_on_of_nodup_map distinct (List.mem_of_find?_eq_some selected) member same
      simp [timeoutIn, selected, unique]

/-- Whether `op` starts another life at the timer's address. -/
def Readds (timer : Nat) (op : ListOp κ) : Prop := ∃ fields, op = .add timer fields

section WaitStep
variable {timer other : Nat} {wait : Option Int}

theorem waitStep_add (fields : UtilTimer κ) : waitStep timer wait (.add other fields) = wait := by
  cases wait <;> rfl

theorem waitStep_adjust_ne (apart : other ≠ timer) (raised : Int) :
    waitStep timer wait (.adjust other raised : ListOp κ) = wait := by
  cases wait <;> simp [waitStep, apart]

theorem waitStep_del_self : waitStep timer wait (.del timer : ListOp κ) = none := by
  cases wait <;> simp [waitStep]

theorem waitStep_del_ne (apart : other ≠ timer) : waitStep timer wait (.del other : ListOp κ) = wait := by
  cases wait <;> simp [waitStep, apart]

theorem waitStep_tick (cur expire : Int) :
    waitStep timer wait (.tick cur : ListOp κ) = some expire ↔ wait = some expire ∧ cur < expire := by
  cases wait with
  | none => simp [waitStep]
  | some old =>
    simp only [waitStep, Option.ite_none_left_eq_some, Option.some.injEq]
    constructor
    · rintro ⟨notDue, rfl⟩
      exact ⟨rfl, Int.not_le.mp notDue⟩
    · rintro ⟨rfl, notDue⟩
      exact ⟨Int.not_le.mpr notDue, rfl⟩

end WaitStep

/-- One operation changes the timeout of a timer in the sequence as `waitStep` says. -/
theorem Represents.timeout_exec (rep : Represents list seq) (op : ListOp κ)
    {fired : List (Nat × UtilTimer κ)} {next : TimerSeq κ} (taken : execSeq seq op = some (fired, next))
    (other : ¬ Readds timer op) : timeoutIn timer next = waitStep timer (timeoutIn timer seq) op := by
  obtain ⟨listNext, _, repNext⟩ := rep.exec op taken
  have before := timeoutIn_eq_some rep.distinct timer
  have after := timeoutIn_eq_some repNext.distinct timer
  refine Option.ext fun expire => ?_
  cases op with
  | add added fields =>
    simp only [execSeq] at taken
    split_ifs at taken
    cases taken
    have different : added ≠ timer := fun same => other ⟨fields, same ▸ rfl⟩
    rw [after, waitStep_add, before]
    simp [mem_stableInsert, different.symm]
  | adjust adjusted raised =>
    simp only [execSeq] at taken
    split at taken
    · cases taken
    rename_i node found
    split_ifs at taken
    cases taken
    have present : node ∈ seq := List.mem_of_find?_eq_some found
    have sameAddress : node.1 = adjusted := by simpa using List.find?_some found
    rw [after]
    by_cases same : adjusted = timer
    · have waited : timeoutIn timer seq = some node.2.expire :=
        (before _).mpr ⟨node.2, by rw [← same, ← sameAddress]; exact present, rfl⟩
      simp [waited, waitStep, same, mem_stableInsert]
    · rw [waitStep_adjust_ne same, before]
      simp [mem_stableInsert, Ne.symm same]
  | del deleted =>
    simp only [execSeq] at taken
    split_ifs at taken
    cases taken
    rw [after]
    by_cases same : deleted = timer
    · rw [same, waitStep_del_self]
      simp
    · rw [waitStep_del_ne same, before]
      simp [Ne.symm same]
  | tick cur =>
    cases taken
    rw [after, waitStep_tick, before]
    simp only [List.mem_filter, decide_eq_true_eq]
    constructor
    · rintro ⟨fields, ⟨member, notDue⟩, rfl⟩
      exact ⟨⟨fields, member, rfl⟩, notDue⟩
    · rintro ⟨⟨fields, member, rfl⟩, notDue⟩
      exact ⟨fields, ⟨member, notDue⟩, rfl⟩

/-- Over a life without a second insertion at its address, the sequence holds the
timer exactly while it waits, with the timeout it waits for. -/
theorem Represents.timeout_run (rep : Represents list seq) (life : List (ListOp κ))
    {log : List (List (Nat × UtilTimer κ))} {final : Logged (TimerSeq κ) κ}
    (reached : run (logStep execSeq) ⟨seq, log⟩ life = some final)
    (once : ∀ op ∈ life, ¬ Readds timer op) :
    timeoutIn timer final.state = life.foldl (waitStep timer) (timeoutIn timer seq) := by
  induction life generalizing list seq log with
  | nil =>
    cases Option.some.inj reached
    rfl
  | cons op rest ih =>
    obtain ⟨next, taken, remaining⟩ := run_cons_some.mp reached
    obtain ⟨⟨fired, seqNext⟩, executed, rfl⟩ := Option.map_eq_some_iff.mp taken
    obtain ⟨listNext, _, repNext⟩ := rep.exec op executed
    rw [ih repNext remaining (fun op member => once op (by simp [member])),
      rep.timeout_exec op executed (once op (by simp)), List.foldl_cons]

/-- How often a timer occurs among some nodes. -/
def occurrences (timer : Nat) (nodes : List (Nat × UtilTimer κ)) : Nat :=
  (nodes.map Prod.fst).count timer

theorem occurrences_append (timer : Nat) (left right : List (Nat × UtilTimer κ)) :
    occurrences timer (left ++ right) = occurrences timer left + occurrences timer right := by
  simp [occurrences, List.count_append]

/-- What an operation fires of a timer it takes out of the sequence. -/
theorem occurrences_exec (op : ListOp κ) {fired : List (Nat × UtilTimer κ)} {next : TimerSeq κ}
    (taken : execSeq seq op = some (fired, next)) (other : ¬ Readds timer op) :
    occurrences timer fired + occurrences timer next ≤ occurrences timer seq := by
  cases op with
  | add added fields =>
    simp only [execSeq] at taken
    split_ifs at taken
    cases taken
    have different : added ≠ timer := fun same => other ⟨fields, same ▸ rfl⟩
    have reordered := (stableInsert_perm expireOf (added, fields) seq).map Prod.fst
    simp [occurrences, reordered.count_eq, different]
  | adjust adjusted raised =>
    simp only [execSeq] at taken
    split at taken
    · cases taken
    rename_i node found
    split_ifs at taken
    cases taken
    have reordered := (stableInsert_perm expireOf (adjusted, { node.2 with expire := raised })
      (seq.filter fun other => other.1 ≠ adjusted)).map Prod.fst
    simp only [occurrences, List.map_nil, List.count_nil, Nat.zero_add, reordered.count_eq,
      List.map_cons, List.count_cons, beq_iff_eq]
    by_cases same : adjusted = timer
    · have gone : ((seq.filter fun other => other.1 ≠ adjusted).map Prod.fst).count timer = 0 := by
        rw [List.count_eq_zero]
        simp [same]
      have present : timer ∈ seq.map Prod.fst := List.mem_map.mpr
        ⟨node, List.mem_of_find?_eq_some found, same ▸ (by simpa using List.find?_some found)⟩
      rw [gone, if_pos same]
      exact List.count_pos_iff.mpr present
    · rw [if_neg same]
      exact (List.filter_sublist.map Prod.fst).count_le timer
  | del deleted =>
    simp only [execSeq] at taken
    split_ifs at taken
    cases taken
    simpa [occurrences] using (List.filter_sublist.map Prod.fst).count_le timer
  | tick cur =>
    cases taken
    have parts := (List.filter_append_perm (fun node : Nat × UtilTimer κ => decide (node.2.expire ≤ cur)) seq).map Prod.fst
    have notDue : (fun node : Nat × UtilTimer κ => !decide (node.2.expire ≤ cur)) =
        fun node => decide (cur < node.2.expire) := by
      funext node
      rw [← decide_not, decide_eq_decide, Int.not_le]
    rw [← occurrences_append, occurrences, occurrences, ← notDue, parts.count_eq]

/-- Over a life without a second insertion at its address, a timer fires at most
as often as it is in the sequence at the start. -/
theorem occurrences_run (life : List (ListOp κ)) {log : List (List (Nat × UtilTimer κ))}
    {final : Logged (TimerSeq κ) κ} (reached : run (logStep execSeq) ⟨seq, log⟩ life = some final)
    (once : ∀ op ∈ life, ¬ Readds timer op) :
    ∃ fired, final.fired = log ++ fired ∧
      occurrences timer fired.flatten + occurrences timer final.state ≤ occurrences timer seq := by
  induction life generalizing seq log with
  | nil =>
    cases Option.some.inj reached
    exact ⟨[], by simp, by simp [occurrences]⟩
  | cons op rest ih =>
    obtain ⟨next, taken, remaining⟩ := run_cons_some.mp reached
    obtain ⟨⟨firedNow, seqNext⟩, executed, rfl⟩ := Option.map_eq_some_iff.mp taken
    have now := occurrences_exec op executed (once op (by simp))
    obtain ⟨fired, logged, later⟩ := ih remaining (fun op member => once op (by simp [member]))
    refine ⟨firedNow :: fired, by simp [logged], ?_⟩
    rw [List.flatten_cons, occurrences_append]
    simp only at now later
    omega

/-- The state in which a timer's life begins. -/
theorem runSeq_life {earlier life : List (ListOp κ)} {fields : UtilTimer κ}
    {final : Logged (TimerSeq κ) κ} (valid : runSeq (earlier ++ .add timer fields :: life) = some final) :
    ∃ (list : SortTimerList κ) (seq : TimerSeq κ) (log : List (List (Nat × UtilTimer κ))),
      Represents list seq ∧ (timer, fields) ∈ seq ∧ log.length = earlier.length + 1 ∧
      run (logStep execSeq) ⟨seq, log⟩ life = some final := by
  obtain ⟨⟨seq, log⟩, reached, remaining⟩ := run_append_some.mp valid
  obtain ⟨⟨list, _⟩, _, rep, _⟩ := runList_simulates earlier reached
  obtain ⟨fired, logged, sameLength, _⟩ :=
    (Represents.empty : Represents (.empty : SortTimerList κ) []).outstanding_run earlier reached
  obtain ⟨next, taken, rest⟩ := run_cons_some.mp remaining
  obtain ⟨⟨firedNow, seqNext⟩, executed, rfl⟩ := Option.map_eq_some_iff.mp taken
  obtain ⟨listNext, _, repNext⟩ := rep.exec _ executed
  refine ⟨listNext, seqNext, _, repNext, ?_, ?_, rest⟩
  · simp only [execSeq] at executed
    split_ifs at executed
    cases executed
    exact mem_stableInsert.mpr (.inl rfl)
  · have sameLog : log = fired := by simpa using logged
    simp [sameLog, sameLength]

/-- A tick after any run: what it fires and leaves, and for every timer inserted
in the run (the last time at its address), that it fires now exactly when it
still waits for a timeout the clock has reached, and at most once in all. -/
structure TickLaw (ops : List (ListOp κ)) (cur : Int) (before after : SortTimerList κ)
    (log : List (List (Nat × UtilTimer κ))) (now : List (Nat × UtilTimer κ)) : Prop where
  contents : ∃ seq, before.contents = some seq ∧
    now = seq.filter (fun node => node.2.expire ≤ cur) ∧
    after.contents = some (seq.filter fun node => cur < node.2.expire)
  ordered : now.Pairwise fun left right => left.2.expire ≤ right.2.expire
  fires : ∀ earlier timer fields life, ops = earlier ++ .add timer fields :: life →
    (∀ op ∈ life, ¬ Readds timer op) →
    (timer ∈ now.map Prod.fst ↔
      ∃ expire, waitingFor timer fields.expire life = some expire ∧ expire ≤ cur)
  atMostOnce : ∀ earlier timer fields life, ops = earlier ++ .add timer fields :: life →
    (∀ op ∈ life, ¬ Readds timer op) →
    occurrences timer ((log ++ [now]).drop (earlier.length + 1)).flatten ≤ 1

/-- Every tick of every run obeys the firing law. -/
theorem tick_fires_exactly_due (ops : List (ListOp κ)) (cur : Int) (abstract : Logged (TimerSeq κ) κ)
    (valid : runSeq ops = some abstract) :
    ∃ before after log now, runList ops = some ⟨before, log⟩ ∧
      runList (ops ++ [.tick cur]) = some ⟨after, log ++ [now]⟩ ∧
      TickLaw ops cur before after log now := by
  obtain ⟨⟨before, log⟩, finished, rep, rfl⟩ := runList_simulates ops valid
  obtain ⟨after, ticked, repAfter⟩ := rep.tick cur
  refine ⟨before, after, abstract.fired, _, finished, ?_, ⟨abstract.state, rep.contents, rfl, repAfter.contents⟩,
    ?_, ?_, ?_⟩
  · refine run_append_some.mpr ⟨_, finished, ?_⟩
    simp [run_cons, logStep, execList, ticked]
  · exact rep.sorted.sublist List.filter_sublist
  · rintro earlier timer fields life rfl once
    obtain ⟨list, seq, start, repStart, member, _, reached⟩ := runSeq_life valid
    have waits := repStart.timeout_run life reached once
    rw [(timeoutIn_eq_some repStart.distinct timer fields.expire).mpr ⟨fields, member, rfl⟩] at waits
    rw [waitingFor, ← waits]
    simp only [timeoutIn_eq_some rep.distinct, List.mem_map, List.mem_filter, decide_eq_true_eq]
    constructor
    · rintro ⟨⟨address, found⟩, ⟨present, due⟩, rfl⟩
      exact ⟨found.expire, ⟨found, present, rfl⟩, due⟩
    · rintro ⟨expire, ⟨found, present, rfl⟩, due⟩
      exact ⟨(timer, found), ⟨present, due⟩, rfl⟩
  · rintro earlier timer fields life rfl once
    obtain ⟨list, seq, start, repStart, member, length, reached⟩ := runSeq_life valid
    obtain ⟨fired, logged, bound⟩ := occurrences_run life reached once
    have single : occurrences timer seq = 1 :=
      List.count_eq_one_of_mem repStart.distinct (List.mem_map.mpr ⟨_, member, rfl⟩)
    have now : occurrences timer (abstract.state.filter fun node => node.2.expire ≤ cur) +
        occurrences timer (abstract.state.filter fun node => cur < node.2.expire) ≤
        occurrences timer abstract.state :=
      occurrences_exec (.tick cur) rfl (by simp [Readds])
    have rest : ((abstract.fired ++ [abstract.state.filter fun node => node.2.expire ≤ cur]).drop
        (earlier.length + 1)).flatten =
        fired.flatten ++ abstract.state.filter fun node => node.2.expire ≤ cur := by
      simp [logged, ← length]
    rw [rest, occurrences_append]
    omega

/-- A timer that is raised twice survives an early tick and fires in the next one. -/
theorem tick_fires_exactly_due_raised :
    ∃ before after log now,
      runList ([.add 1 ⟨5, some 0, ()⟩, .add 2 ⟨9, some 0, ()⟩, .adjust 1 9, .tick 8, .adjust 1 12] :
        List (ListOp Unit)) = some ⟨before, log⟩ ∧
      runList ([.add 1 ⟨5, some 0, ()⟩, .add 2 ⟨9, some 0, ()⟩, .adjust 1 9, .tick 8, .adjust 1 12] ++
        [.tick 12] : List (ListOp Unit)) = some ⟨after, log ++ [now]⟩ ∧
      1 ∈ now.map Prod.fst := by
  obtain ⟨before, after, log, now, first, second, law⟩ := tick_fires_exactly_due
    ([.add 1 ⟨5, some 0, ()⟩, .add 2 ⟨9, some 0, ()⟩, .adjust 1 9, .tick 8, .adjust 1 12] :
      List (ListOp Unit)) 12 ⟨[(2, ⟨9, some 0, ()⟩), (1, ⟨12, some 0, ()⟩)], [[], [], [], [], []]⟩
    (by decide)
  refine ⟨before, after, log, now, first, second, ?_⟩
  exact (law.fires [] 1 ⟨5, some 0, ()⟩ _ rfl (by simp [Readds])).mpr ⟨12, by decide, by decide⟩

end UnixProgramming.Timer
