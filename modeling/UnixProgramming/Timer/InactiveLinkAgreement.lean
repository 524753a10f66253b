import UnixProgramming.Timer.InactiveLink
import UnixProgramming.Timer.ListFiring

/-! Connections and timers agree in every state the main loop reaches. The slots
of `users` keep stale timer pointers after a timeout; they are never used since
every event in a batch belongs to an open connection. -/

namespace UnixProgramming.Timer.InactiveLink

open UnixProgramming.Lib

/-- The timers of the list belong to the open connections, one to one. -/
structure Agrees (server : Server) (seq : TimerSeq Nat) : Prop where
  rep : Represents server.timerLst seq
  owned : ∀ node ∈ seq, server.isOpen node.2.userData = true
  slot : ∀ node ∈ seq, server.users node.2.userData = ⟨node.2.userData, some node.1⟩
  expiry : ∀ node ∈ seq, node.2.expire = server.lastActive node.2.userData + 3 * timeslot
  covered : ∀ fd, server.isOpen fd = true → ∃ node ∈ seq, node.2.userData = fd
  recent : ∀ fd, server.isOpen fd = true → server.lastActive fd ≤ server.clock
  pending : ∀ ready, server.batch = some ready →
    (clientFds ready).Nodup ∧ ∀ fd ∈ clientFds ready, server.isOpen fd = true

theorem Agrees.start (users : Nat → ClientData) (clock : Int) : Agrees (.start users clock) [] where
  rep := .empty
  owned := by simp
  slot := by simp
  expiry := by simp
  covered := by simp [Server.start]
  recent := by simp [Server.start]
  pending := by simp [Server.start]

variable {server : Server} {seq : TimerSeq Nat}

/-- A connection has only one timer, since its slot names the timer's address. -/
theorem Agrees.unique (agrees : Agrees server seq) {node other : Nat × UtilTimer Nat}
    (member : node ∈ seq) (present : other ∈ seq) (same : node.2.userData = other.2.userData) :
    node = other := by
  have slots : (⟨node.2.userData, some node.1⟩ : ClientData) = ⟨other.2.userData, some other.1⟩ := by
    rw [← agrees.slot node member, ← agrees.slot other present, same]
  have address : node.1 = other.1 := by simpa using congrArg ClientData.timer slots
  exact List.inj_on_of_nodup_map agrees.rep.distinct member present address

theorem mem_of_mem_split {α : Type} {left right : List α} {item other : α}
    (present : other ∈ left ++ right) : other ∈ left ++ item :: right := by
  rcases List.mem_append.mp present with inLeft | inRight
  · exact List.mem_append_left _ inLeft
  · exact List.mem_append_right _ (List.mem_cons_of_mem _ inRight)

/-- The other timers belong to other connections. -/
theorem Agrees.others {left right : TimerSeq Nat} {node : Nat × UtilTimer Nat}
    (agrees : Agrees server (left ++ node :: right)) :
    ∀ other ∈ left ++ right, other.2.userData ≠ node.2.userData := by
  intro other present same
  have equal := agrees.unique (mem_of_mem_split present) (by simp) same
  exact agrees.rep.apart other present (congrArg Prod.fst equal)

theorem Agrees.add (agrees : Agrees server seq) {connfd timer : Nat} {cur : Int}
    (closed : server.isOpen connfd = false) (fresh : server.timerLst.store.load timer = none)
    (later : server.clock ≤ cur) :
    ∃ next seqNext, server.handleAccept connfd timer cur = some next ∧ Agrees next seqNext := by
  have absent : timer ∉ seq.map Prod.fst := by
    intro member
    obtain ⟨node, present, rfl⟩ := List.mem_map.mp member
    obtain ⟨prev, next, found⟩ := agrees.rep.linked.load present
    simp [found] at fresh
  have others : ∀ node ∈ seq, node.2.userData ≠ connfd := by
    intro node member same
    have opened := agrees.owned node member
    rw [same, closed] at opened
    cases opened
  obtain ⟨timerLst, executed, rep⟩ := agrees.rep.add absent
    (show (⟨cur + 3 * timeslot, some cbFuncAddress, connfd⟩ : UtilTimer Nat).cbFunc.isSome = true from rfl)
  refine ⟨_, _, by simp [Server.handleAccept, executed]; rfl, ⟨rep, ?_, ?_, ?_, ?_, ?_, ?_⟩⟩
  · intro node member
    rcases mem_stableInsert.mp member with rfl | old
    · simp
    · simp [others node old, agrees.owned node old]
  · intro node member
    rcases mem_stableInsert.mp member with rfl | old
    · simp
    · simp [others node old, agrees.slot node old]
  · intro node member
    rcases mem_stableInsert.mp member with rfl | old
    · simp
    · simp [others node old, agrees.expiry node old]
  · intro fd opened
    by_cases same : fd = connfd
    · exact ⟨_, mem_stableInsert.mpr (.inl rfl), same.symm⟩
    · obtain ⟨node, present, owner⟩ := agrees.covered fd (by simpa [same] using opened)
      exact ⟨node, mem_stableInsert.mpr (.inr present), owner⟩
  · intro fd opened
    by_cases same : fd = connfd
    · simp [same]
    · have old := agrees.recent fd (by simpa [same] using opened)
      simpa [same] using old.trans later
  · intro ready current
    obtain ⟨distinct, opened⟩ := agrees.pending ready current
    refine ⟨distinct, fun fd member => ?_⟩
    by_cases same : fd = connfd
    · simp [same]
    · simpa [same] using opened fd member

/-- The timer of an open connection, found through its slot, is in the list. -/
theorem Agrees.timer_of_open (agrees : Agrees server seq) {sockfd : Nat}
    (opened : server.isOpen sockfd = true) :
    ∃ node ∈ seq, node.2.userData = sockfd ∧ server.users sockfd = ⟨sockfd, some node.1⟩ := by
  obtain ⟨node, member, rfl⟩ := agrees.covered sockfd opened
  exact ⟨node, member, rfl, agrees.slot node member⟩

theorem Agrees.close (agrees : Agrees server seq) {sockfd : Nat}
    (opened : server.isOpen sockfd = true)
    (last : ∀ ready, server.batch = some ready → sockfd ∉ clientFds ready) :
    ∃ next seqNext, server.closeClient sockfd = some next ∧ Agrees next seqNext := by
  obtain ⟨node, member, owner, slot⟩ := agrees.timer_of_open opened
  obtain ⟨timer, fields⟩ := node
  obtain ⟨left, right, rfl⟩ := List.append_of_mem member
  obtain ⟨timerLst, deleted, rep⟩ := agrees.rep.del
  have kept : ∀ other ∈ left ++ right, other ∈ left ++ (timer, fields) :: right :=
    fun other present => mem_of_mem_split present
  have others : ∀ other ∈ left ++ right, other.2.userData ≠ sockfd :=
    fun other present => owner ▸ agrees.others other present
  refine ⟨_, left ++ right, by
    simp [Server.closeClient, Server.cbFunc, slot, execList, deleted]; rfl, ⟨rep, ?_, ?_, ?_, ?_, ?_, ?_⟩⟩
  · intro other present
    simpa [others other present] using agrees.owned other (kept other present)
  · exact fun other present => agrees.slot other (kept other present)
  · exact fun other present => agrees.expiry other (kept other present)
  · intro fd stillOpen
    have different : fd ≠ sockfd := by
      intro same
      simp [same] at stillOpen
    obtain ⟨other, present, sameFd⟩ := agrees.covered fd (by simpa [different] using stillOpen)
    refine ⟨other, ?_, sameFd⟩
    have notIt : other ≠ (timer, fields) := by
      intro same
      exact different (by rw [← sameFd, same]; exact owner)
    simpa [notIt] using present
  · intro fd stillOpen
    have different : fd ≠ sockfd := by
      intro same
      simp [same] at stillOpen
    exact agrees.recent fd (by simpa [different] using stillOpen)
  · intro ready current
    obtain ⟨distinct, allOpen⟩ := agrees.pending ready current
    refine ⟨distinct, fun fd present => ?_⟩
    have different : fd ≠ sockfd := fun same => last ready current (same ▸ present)
    simpa [different] using allOpen fd present

theorem Agrees.data (agrees : Agrees server seq) {sockfd : Nat} {cur : Int}
    (opened : server.isOpen sockfd = true) (later : server.clock ≤ cur) :
    ∃ next seqNext, server.handleRecv sockfd (.data cur) = some next ∧ Agrees next seqNext := by
  obtain ⟨node, member, owner, slot⟩ := agrees.timer_of_open opened
  obtain ⟨timer, fields⟩ := node
  have raised : fields.expire ≤ cur + 3 * timeslot := by
    have expiry := agrees.expiry _ member
    have recent := agrees.recent sockfd opened
    rw [owner] at expiry
    simp only at expiry
    omega
  obtain ⟨left, right, rfl⟩ := List.append_of_mem member
  obtain ⟨timerLst, adjusted, rep⟩ := agrees.rep.adjust raised
  have kept : ∀ other ∈ left ++ right, other ∈ left ++ (timer, fields) :: right :=
    fun other present => mem_of_mem_split present
  have others : ∀ other ∈ left ++ right, other.2.userData ≠ sockfd :=
    fun other present => owner ▸ agrees.others other present
  refine ⟨_, _, by simp [Server.handleRecv, slot, adjusted]; rfl, ⟨rep, ?_, ?_, ?_, ?_, ?_, ?_⟩⟩
  · intro other present
    rcases mem_stableInsert.mp present with rfl | old
    · exact agrees.owned (timer, fields) member
    · exact agrees.owned other (kept other old)
  · intro other present
    rcases mem_stableInsert.mp present with rfl | old
    · exact agrees.slot (timer, fields) member
    · exact agrees.slot other (kept other old)
  · intro other present
    rcases mem_stableInsert.mp present with rfl | old
    · simp [show fields.userData = sockfd from owner]
    · simpa [others other old] using agrees.expiry other (kept other old)
  · intro fd stillOpen
    obtain ⟨other, present, rfl⟩ := agrees.covered fd stillOpen
    by_cases same : other = (timer, fields)
    · exact ⟨_, mem_stableInsert.mpr (.inl rfl), by rw [same]⟩
    · exact ⟨other, mem_stableInsert.mpr (.inr (by simpa [same] using present)), rfl⟩
  · intro fd stillOpen
    by_cases same : fd = sockfd
    · simp [same]
    · simpa [same] using (agrees.recent fd stillOpen).trans later
  · exact agrees.pending

/-- Running the callbacks of a tick closes the descriptors in the fired slots. -/
theorem foldl_cbFunc (fired : List (Nat × UtilTimer Nat)) (server : Server) :
    fired.foldl (fun server node => server.cbFunc node.2.userData) server =
      { server with isOpen := fun fd => server.isOpen fd && fired.all fun node => (server.users node.2.userData).sockfd != fd } := by
  induction fired generalizing server with
  | nil => simp
  | cons node rest ih =>
    rw [List.foldl_cons, ih]
    simp only [Server.cbFunc, Server.mk.injEq, true_and, and_true]
    funext fd
    by_cases same : (server.users node.2.userData).sockfd = fd
    · simp [same]
    · have other : ((server.users node.2.userData).sockfd != fd) = true := bne_iff_ne.mpr same
      simp [Function.update_of_ne (Ne.symm same), other]

/-- A descriptor is among those a tick closes exactly when its connection has been
inactive for three time slots. -/
theorem Agrees.survives (agrees : Agrees server seq) (cur : Int) {fd : Nat}
    (opened : server.isOpen fd = true) :
    ((seq.filter fun node => node.2.expire ≤ cur).all
        fun node => (server.users node.2.userData).sockfd != fd) = true ↔
      ¬ server.lastActive fd ≤ cur - 3 * timeslot := by
  obtain ⟨node, member, rfl⟩ := agrees.covered fd opened
  have expiry := agrees.expiry node member
  constructor
  · intro spared inactive
    have due : node.2.expire ≤ cur := by omega
    have other := List.all_eq_true.mp spared node (by simp [member, due])
    simp [agrees.slot node member] at other
  · intro active
    refine List.all_eq_true.mpr fun other fired => ?_
    obtain ⟨present, due⟩ := List.mem_filter.mp fired
    have different : other.2.userData ≠ node.2.userData := by
      intro same
      have equal := agrees.unique present member same
      simp only [equal, decide_eq_true_eq] at due
      omega
    simpa [agrees.slot other present] using different

/-- A tick keeps the agreement and closes exactly the connections that have been
inactive for three time slots. -/
theorem Agrees.tick (agrees : Agrees server seq) {cur : Int} (later : server.clock ≤ cur)
    (idle : server.batch = none) :
    ∃ next seqNext, server.timerHandler cur = some next ∧ Agrees next seqNext ∧
      ∀ fd, next.isOpen fd = true ↔
        server.isOpen fd = true ∧ ¬ server.lastActive fd ≤ cur - 3 * timeslot := by
  obtain ⟨timerLst, ticked, rep⟩ := agrees.rep.tick cur
  refine ⟨_, _, by simp only [Server.timerHandler, ticked, foldl_cbFunc, Option.bind_eq_bind, Option.bind_some]; rfl,
    ⟨rep, ?_, ?_, ?_, ?_, ?_, ?_⟩, ?_⟩
  · intro node member
    obtain ⟨present, active⟩ := List.mem_filter.mp member
    have expiry := agrees.expiry node present
    have opened := agrees.owned node present
    simp only [decide_eq_true_eq] at active
    simp only [opened, Bool.true_and]
    exact (agrees.survives cur opened).mpr (by omega)
  · exact fun node member => agrees.slot node (List.mem_of_mem_filter member)
  · exact fun node member => agrees.expiry node (List.mem_of_mem_filter member)
  · intro fd stillOpen
    obtain ⟨opened, spared⟩ := Bool.and_eq_true_iff.mp stillOpen
    obtain ⟨node, present, rfl⟩ := agrees.covered fd opened
    have active := (agrees.survives cur opened).mp spared
    have expiry := agrees.expiry node present
    exact ⟨node, by simpa [present] using (by omega : cur < node.2.expire), rfl⟩
  · intro fd stillOpen
    obtain ⟨opened, -⟩ := Bool.and_eq_true_iff.mp stillOpen
    exact (agrees.recent fd opened).trans later
  · intro ready current
    simp [idle] at current
  · intro fd
    constructor
    · intro stillOpen
      obtain ⟨opened, spared⟩ := Bool.and_eq_true_iff.mp stillOpen
      exact ⟨opened, (agrees.survives cur opened).mp spared⟩
    · rintro ⟨opened, active⟩
      exact Bool.and_eq_true_iff.mpr ⟨opened, (agrees.survives cur opened).mpr active⟩

/-- The agreement does not depend on the flags, and taking an event off the batch
keeps it. -/
theorem Agrees.flags (agrees : Agrees server seq) (batch : Option (List Ready)) (timeout stop : Bool)
    (pending : ∀ ready, batch = some ready →
      (clientFds ready).Nodup ∧ ∀ fd ∈ clientFds ready, server.isOpen fd = true) :
    Agrees { server with batch := batch, timeout := timeout, stopServer := stop } seq :=
  ⟨agrees.rep, agrees.owned, agrees.slot, agrees.expiry, agrees.covered, agrees.recent, pending⟩

theorem foldl_handleSignal (signals : List Signal) (server : Server) :
    ∃ timeout stop, signals.foldl Server.handleSignal server =
      { server with timeout := timeout, stopServer := stop } := by
  induction signals generalizing server with
  | nil => exact ⟨server.timeout, server.stopServer, rfl⟩
  | cons signal rest ih =>
    obtain ⟨timeout, stop, folded⟩ := ih (server.handleSignal signal)
    refine ⟨timeout, stop, ?_⟩
    rw [List.foldl_cons, folded]
    cases signal <;> rfl

/-- What is left of a batch after one event. -/
theorem Agrees.tail (agrees : Agrees server seq) {event : Ready} {rest : List Ready}
    (current : server.batch = some (event :: rest)) :
    Agrees { server with batch := some rest } seq := by
  obtain ⟨distinct, opened⟩ := agrees.pending _ current
  refine agrees.flags (some rest) server.timeout server.stopServer fun ready same => ?_
  obtain rfl := Option.some.inj same
  cases event with
  | listen => exact ⟨distinct, opened⟩
  | pipe epollin => exact ⟨distinct, opened⟩
  | client sockfd epollin =>
    simp only [clientFds, List.nodup_cons, List.mem_cons, forall_eq_or_imp] at distinct opened
    exact ⟨distinct.2, opened.2⟩

theorem Agrees.recv (agrees : Agrees server seq) {sockfd : Nat} {rest : List Ready}
    (current : server.batch = some (.client sockfd true :: rest)) (received : Received)
    (later : ∀ cur, received = .data cur → server.clock ≤ cur) :
    ∃ next seqNext, Server.handleRecv { server with batch := some rest } sockfd received = some next ∧
      Agrees next seqNext := by
  obtain ⟨distinct, opened⟩ := agrees.pending _ current
  have rested := agrees.tail current
  have last : ∀ ready, some rest = some ready → sockfd ∉ clientFds ready := by
    intro ready same
    obtain rfl := Option.some.inj same
    exact (List.nodup_cons.mp distinct).1
  have live : server.isOpen sockfd = true := opened sockfd (by simp [clientFds])
  cases received with
  | failed => exact rested.close live last
  | again => exact ⟨_, _, rfl, rested⟩
  | closed => exact rested.close live last
  | data cur => exact rested.data live (later cur rfl)

/-- An allowed step never uses a dangling timer and keeps the agreement. -/
theorem Agrees.step (agrees : Agrees server seq) (label : Step) (allowed : Allowed server label) :
    ∃ next seqNext, server.step label = some next ∧ Agrees next seqNext := by
  cases label with
  | epollWait ready =>
    obtain ⟨idle, running, distinct, opened⟩ := allowed
    refine ⟨_, seq, by simp only [Server.step, idle, running, and_self, if_true]; rfl, ?_⟩
    refine agrees.flags (some ready) _ _ fun current same => ?_
    obtain rfl := Option.some.inj same
    exact ⟨distinct, opened⟩
  | accept connfd timer cur =>
    obtain ⟨⟨rest, current⟩, -, closed, fresh, later⟩ := allowed
    obtain ⟨next, seqNext, accepted, kept⟩ := (agrees.tail current).add closed fresh later
    exact ⟨next, seqNext, by simp only [Server.step, current, accepted], kept⟩
  | recvSignals signals =>
    obtain ⟨rest, current⟩ := allowed
    obtain ⟨timeout, stop, folded⟩ := foldl_handleSignal signals { server with batch := some rest }
    refine ⟨_, seq, by simp only [Server.step, current, folded]; rfl, ?_⟩
    exact (agrees.tail current).flags _ _ _ (agrees.tail current).pending
  | recv received =>
    obtain ⟨⟨sockfd, rest, current⟩, later⟩ := allowed
    obtain ⟨next, seqNext, handled, kept⟩ := agrees.recv current received later
    exact ⟨next, seqNext, by simp only [Server.step, current, handled], kept⟩
  | ignore =>
    rcases allowed with ⟨sockfd, rest, current⟩ | ⟨rest, current⟩
    · exact ⟨_, seq, by simp only [Server.step, current], agrees.tail current⟩
    · exact ⟨_, seq, by simp only [Server.step, current], agrees.tail current⟩
  | endBatch cur =>
    obtain ⟨current, later⟩ := allowed
    have idle := agrees.flags none false server.stopServer (by simp)
    by_cases alarm : server.timeout = true
    · obtain ⟨next, seqNext, ticked, kept, -⟩ := idle.tick later rfl
      exact ⟨next, seqNext, by simp only [Server.step, current, alarm, if_true, ticked], kept⟩
    · refine ⟨_, seq, by simp only [Server.step, current, alarm]; rfl, ?_⟩
      exact agrees.flags none _ _ (by simp)

/-- Each open connection has exactly one timer in the list, reached through its
slot of `users`, and each timer an open connection, reached through `user_data`;
it runs out three time slots after the connection's last activity. -/
structure Corresponds (server : Server) (timers : List (Nat × UtilTimer Nat)) : Prop where
  once : (timers.map fun node => node.2.userData).Nodup
  connections : ∀ fd, server.isOpen fd = true ↔ ∃ node ∈ timers, node.2.userData = fd
  timer : ∀ node ∈ timers, server.users node.2.userData = ⟨node.2.userData, some node.1⟩
  expire : ∀ node ∈ timers, node.2.expire = server.lastActive node.2.userData + 3 * timeslot

theorem Agrees.corresponds (agrees : Agrees server seq) : Corresponds server seq where
  once := by
    refine List.Nodup.map_on ?_ (List.Nodup.of_map _ agrees.rep.distinct)
    exact fun node member other present same => agrees.unique member present same
  connections := by
    refine fun fd => ⟨agrees.covered fd, ?_⟩
    rintro ⟨node, member, rfl⟩
    exact agrees.owned node member
  timer := agrees.slot
  expire := agrees.expiry

/-- Over every run of the main loop: the run never gets stuck on a bad pointer;
timers and connections correspond in every state, in particular at each return to
`epoll_wait`; the timer that a client event will adjust or delete is in the list; and
a tick closes exactly the connections inactive for three time slots. -/
theorem timers_agree_with_connections (users : Nat → ClientData) (clock : Int) (labels : List Step)
    (allowed : Meets Server.step Allowed (.start users clock) labels) :
    ∃ server timers, run Server.step (.start users clock) labels = some server ∧
      server.timerLst.contents = some timers ∧ Corresponds server timers ∧
      (∀ sockfd epollin rest, server.batch = some (.client sockfd epollin :: rest) →
        ∃ node ∈ timers, (server.users sockfd).timer = some node.1 ∧ node.2.userData = sockfd) ∧
      ∀ cur, server.batch = some [] → server.timeout = true → server.clock ≤ cur →
        ∃ next, server.step (.endBatch cur) = some next ∧
          ∀ fd, next.isOpen fd = true ↔
            server.isOpen fd = true ∧ ¬ server.lastActive fd ≤ cur - 3 * timeslot := by
  have progress : ∀ server label, (∃ seq, Agrees server seq) → Allowed server label →
      ∃ next, server.step label = some next ∧ ∃ seq, Agrees next seq := by
    rintro server label ⟨seq, agrees⟩ permitted
    obtain ⟨next, seqNext, taken, kept⟩ := agrees.step label permitted
    exact ⟨next, taken, seqNext, kept⟩
  obtain ⟨server, reached, seq, agrees⟩ := run_total_of_meets progress ⟨[], .start users clock⟩ allowed
  refine ⟨server, seq, reached, agrees.rep.contents, agrees.corresponds, ?_, ?_⟩
  · intro sockfd epollin rest current
    obtain ⟨-, opened⟩ := agrees.pending _ current
    obtain ⟨node, member, owner, slot⟩ := agrees.timer_of_open (opened sockfd (by simp [clientFds]))
    exact ⟨node, member, by rw [slot], owner⟩
  · intro cur current alarm later
    obtain ⟨next, -, ticked, -, closes⟩ :=
      (agrees.flags none false server.stopServer (by simp)).tick later rfl
    exact ⟨next, by simp only [Server.step, current, alarm, if_true, ticked], closes⟩

/-- Descriptor 7 is accepted at time 0 and heard from at time 4, then an alarm is
pending when the batch ends. -/
theorem timers_agree_after_activity :
    ∃ server timers, run Server.step (.start (fun _ => ⟨0, none⟩) 0)
        [.epollWait [.listen], .accept 7 100 0, .endBatch 1, .epollWait [.client 7 true, .pipe true],
          .recv (.data 4), .recvSignals [.sigalrm]] = some server ∧
      server.timerLst.contents = some timers ∧ Corresponds server timers := by
  obtain ⟨server, timers, reached, listed, agrees, -, -⟩ :=
    timers_agree_with_connections (fun _ => ⟨0, none⟩) 0
      [.epollWait [.listen], .accept 7 100 0, .endBatch 1, .epollWait [.client 7 true, .pipe true],
        .recv (.data 4), .recvSignals [.sigalrm]] (by
      refine .cons ⟨rfl, rfl, by simp [clientFds], by simp [clientFds]⟩ rfl ?_
      refine .cons ⟨⟨_, rfl⟩, by decide, rfl, rfl, by decide⟩ rfl ?_
      refine .cons ⟨rfl, by decide⟩ rfl ?_
      refine .cons ⟨rfl, rfl, by simp [clientFds], by simp [clientFds]⟩ rfl ?_
      refine .cons ⟨⟨_, _, rfl⟩, by rintro cur ⟨⟩; decide⟩ rfl ?_
      exact .cons ⟨_, rfl⟩ rfl trivial)
  exact ⟨server, timers, reached, listed, agrees⟩

end UnixProgramming.Timer.InactiveLink
