import UnixProgramming.IoMultiplexing.ChatServer

/-! The table of the chat server: it lists the listening socket and the admitted clients, each
once, and a pass over it comes by every entry that `poll` reported on, also when entries are
removed on the way. -/

namespace UnixProgramming.IoMultiplexing.ChatServer

open UnixProgramming.Lib

variable {server next : ChatServer}

/-- The rows from a place on. -/
def rows (server : ChatServer) (start : Int) : List (Int × BitVec 16) :=
  window server.row start (server.userCounter + 1 - start).toNat

/-- The rows the pass has still to come by. -/
def remaining (server : ChatServer) : List (Int × BitVec 16) :=
  match server.stage with
  | .scanning index => server.rows index
  | _ => []

/-- What the pass has to dispatch: the rows `poll` reported on, and clients admitted since,
for which nothing is reported. -/
def due (server : ChatServer) : List (Int × BitVec 16) := server.snapshot ++ server.joined.map fun fd => (fd, 0)

structure Tabled (server : ChatServer) : Prop where
  lower : 0 ≤ server.userCounter
  upper : server.userCounter ≤ userLimit
  listener : (server.row 0).1 = server.listenfd
  quiet : (server.row 0).2 &&& ~~~(pollin ||| pollerr) = 0
  distinct : ((server.rows 0).map (·.1)).Nodup
  clients : ∀ fd, fd ∈ server.clients ↔ fd ∈ (server.rows 1).map (·.1)
  opened : ∀ fd ∈ (server.rows 0).map (·.1), fd ∈ server.opened
  inside : ∀ index, server.stage = .scanning index → 0 ≤ index ∧ index ≤ server.userCounter
  /-- Nobody has joined when the pass is at the listening socket. -/
  opening : server.stage = .scanning 0 → server.dispatched = [] ∧ server.joined = []
  once : (server.due.map (·.1)).Nodup
  pass : (server.dispatched ++ server.remaining).Perm server.due

theorem mem_rows {start : Int} {entry : Int × BitVec 16} :
    entry ∈ server.rows start ↔ ∃ place, start ≤ place ∧ place ≤ server.userCounter ∧ server.row place = entry := by
  unfold rows
  rw [mem_window]
  constructor
  · rintro ⟨place, above, below, same⟩
    exact ⟨place, above, by omega, same⟩
  · rintro ⟨place, above, below, same⟩
    exact ⟨place, above, by omega, same⟩

theorem rows_cons {start : Int} (inside : start ≤ server.userCounter) :
    server.rows start = server.row start :: server.rows (start + 1) := by
  have count : (server.userCounter + 1 - start).toNat = (server.userCounter + 1 - (start + 1)).toNat + 1 := by omega
  rw [rows, rows, count, window_cons]

theorem rows_congr (rows : ∀ place, next.row place = server.row place)
    (count : next.userCounter = server.userCounter) (start : Int) : next.rows start = server.rows start := by
  rw [ChatServer.rows, ChatServer.rows, funext rows, count]

/-- The next stage is at a given index, or at `poll` behind the table. -/
theorem remaining_advance (server : ChatServer) (index : Int) :
    (server.advance index).remaining = server.rows index := by
  unfold advance remaining
  dsimp only
  split_ifs with inside
  · rfl
  · have none : (server.userCounter + 1 - index).toNat = 0 := by omega
    simp [rows, none]

theorem scanning_advance {index place : Int} (same : (server.advance index).stage = .scanning place) :
    place = index ∧ index ≤ server.userCounter := by
  unfold advance at same
  dsimp only at same
  split_ifs at same with inside
  cases same
  exact ⟨rfl, by omega⟩

theorem Tabled.create (listenfd : Int) (users : Int → ClientData) (fds : Int → PollFd) :
    Tabled (create listenfd users fds) where
  lower := Int.le_refl 0
  upper := by simp [ChatServer.create, userLimit]
  listener := by simp [row, ChatServer.create]
  quiet := by simp [row, ChatServer.create]
  distinct := by simp [rows, window, ChatServer.create]
  clients := by simp [rows, window, ChatServer.create]
  opened := by simp [rows, window, row, ChatServer.create]
  inside := fun index same => by simp [ChatServer.create] at same
  opening := fun same => by simp [ChatServer.create] at same
  once := by simp [due, ChatServer.create]
  pass := by simp [due, remaining, ChatServer.create]

/-- A descriptor has one place in the table. -/
theorem Tabled.place (tabled : server.Tabled) {place other : Int} (above : 0 ≤ place)
    (below : place ≤ server.userCounter) (otherAbove : 0 ≤ other) (otherBelow : other ≤ server.userCounter)
    (same : (server.row place).1 = (server.row other).1) : place = other := by
  have distinct := tabled.distinct
  rw [rows, map_window] at distinct
  exact place_unique distinct above (by omega) otherAbove (by omega) same

/-- Nothing is received from the listening socket or sent to it, and its entry stays. -/
theorem Tabled.branch_zero (tabled : server.Tabled) :
    server.branch (server.fds 0) ∈ [Branch.accept, .error, .idle] := by
  have listener : (server.fds 0).fd = server.listenfd := tabled.listener
  have hangup : has (server.fds 0).revents pollrdhup = false := has_of_within tabled.quiet (by decide)
  have writable : has (server.fds 0).revents pollout = false := has_of_within tabled.quiet (by decide)
  unfold branch
  simp only [listener, hangup, writable]
  split_ifs <;> simp_all

/-- The other branches are for clients. -/
theorem Tabled.client (tabled : server.Tabled) {index : Int}
    (branch : server.branch (server.fds index) ∉ [Branch.accept, .error, .idle]) : index ≠ 0 := by
  rintro rfl
  exact branch tabled.branch_zero

/-! ## Changes that leave the rows alone -/

structure SameTable (server moved : ChatServer) : Prop where
  row : ∀ place, moved.row place = server.row place
  userCounter : moved.userCounter = server.userCounter
  listenfd : moved.listenfd = server.listenfd
  opened : server.opened ⊆ moved.opened
  clients : moved.clients = server.clients
  snapshot : moved.snapshot = server.snapshot
  dispatched : moved.dispatched = server.dispatched
  joined : moved.joined = server.joined

theorem SameTable.refl (server : ChatServer) : SameTable server server :=
  ⟨fun _ => rfl, rfl, rfl, Finset.Subset.refl _, rfl, rfl, rfl, rfl⟩

theorem SameTable.trans {third : ChatServer} (first : SameTable server next) (second : SameTable next third) :
    SameTable server third where
  row := fun place => (second.row place).trans (first.row place)
  userCounter := second.userCounter.trans first.userCounter
  listenfd := second.listenfd.trans first.listenfd
  opened := first.opened.trans second.opened
  clients := second.clients.trans first.clients
  snapshot := second.snapshot.trans first.snapshot
  dispatched := second.dispatched.trans first.dispatched
  joined := second.joined.trans first.joined

theorem SameTable.rows (same : SameTable server next) (start : Int) : next.rows start = server.rows start :=
  rows_congr same.row same.userCounter start

theorem SameTable.due (same : SameTable server next) : next.due = server.due := by
  rw [ChatServer.due, ChatServer.due, same.snapshot, same.joined]

theorem sameTable_fill (server : ChatServer) (fd : Int) (received : List UInt8) :
    SameTable server (server.fill fd received) :=
  ⟨fun _ => rfl, rfl, rfl, Finset.Subset.refl _, rfl, rfl, rfl, rfl⟩

theorem sameTable_offer (server : ChatServer) (connfd : Int) (text : List UInt8) (place : Int) :
    SameTable server (server.offer connfd text place) := by
  unfold offer
  dsimp only
  split_ifs
  · exact .refl server
  · refine ⟨fun other => ?_, rfl, rfl, Finset.Subset.refl _, rfl, rfl, rfl, rfl⟩
    by_cases here : other = place
    · simp [row, here]
    · simp [row, here]

theorem sameTable_broadcast (server : ChatServer) (connfd : Int) (text : List UInt8) :
    SameTable server (server.broadcast connfd text) := by
  unfold broadcast
  generalize window id 1 server.userCounter.toNat = places
  induction places generalizing server with
  | nil => exact .refl server
  | cons place rest ih => exact (sameTable_offer server connfd text place).trans (ih _)

theorem sameTable_onSend (server : ChatServer) (index : Int) : SameTable server (server.onSend index) := by
  unfold onSend
  dsimp only
  split_ifs
  · exact .refl server
  · refine ⟨fun other => ?_, rfl, rfl, Finset.Subset.refl _, rfl, rfl, rfl, rfl⟩
    by_cases here : other = index
    · simp [row, here]
    · simp [row, here]

/-! ## The steps -/

/-- The pass goes on to the next entry. -/
theorem Tabled.goOn (tabled : server.Tabled) {index : Int} (scanning : server.stage = .scanning index)
    {moved : ChatServer} (same : SameTable (server.mark index) moved) : (moved.advance (index + 1)).Tabled := by
  obtain ⟨lower, upper, listener, quiet, distinct, clients, opened, inside, -, once, pass⟩ := tabled
  obtain ⟨above, below⟩ := inside index scanning
  have rows : ∀ start, moved.rows start = server.rows start := same.rows
  have row : moved.row 0 = server.row 0 := same.row 0
  have due : moved.due = server.due := same.due
  refine ⟨?_, ?_, ?_, ?_, ?_, fun fd => ?_, fun fd member => ?_, fun place here => ?_, fun here => ?_, ?_, ?_⟩
  · exact same.userCounter ▸ lower
  · exact same.userCounter ▸ upper
  · exact (congrArg Prod.fst row).trans (listener.trans same.listenfd.symm)
  · exact row ▸ quiet
  · exact rows 0 ▸ distinct
  · have kept : moved.clients = server.clients := same.clients
    exact kept ▸ rows 1 ▸ clients fd
  · exact same.opened (opened fd (rows 0 ▸ member))
  · obtain ⟨rfl, within⟩ := scanning_advance here
    exact ⟨by omega, within⟩
  · obtain ⟨zero, -⟩ := scanning_advance here
    omega
  · exact due ▸ once
  · rw [remaining_advance, rows]
    have reported : moved.dispatched = server.dispatched ++ [server.row index] := same.dispatched
    have left : server.remaining = server.row index :: server.rows (index + 1) := by
      rw [remaining, scanning]
      exact rows_cons below
    show (moved.dispatched ++ server.rows (index + 1)).Perm moved.due
    rwa [due, reported, List.append_assoc, List.singleton_append, ← left]

theorem row_remove (server : ChatServer) (index : Int) :
    (server.remove index).row = Function.update server.row index (server.row server.userCounter) := by
  funext place
  by_cases here : place = index
  · simp [row, remove, here]
  · simp [row, remove, here]

theorem rows_remove {index start : Int} (behind : start ≤ index) (inside : index ≤ server.userCounter) :
    (server.row index :: (server.remove index).rows start).Perm (server.rows start) := by
  obtain ⟨offset, rfl⟩ : ∃ offset : Nat, index = start + offset := ⟨(index - start).toNat, by omega⟩
  obtain ⟨count, last⟩ : ∃ count : Nat, server.userCounter = start + count :=
    ⟨(server.userCounter - start).toNat, by omega⟩
  have before : (server.userCounter + 1 - start).toNat = count + 1 := by omega
  have after : ((server.remove (start + offset)).userCounter + 1 - start).toNat = count := by
    show (server.userCounter - 1 + 1 - start).toNat = count
    omega
  rw [rows, rows, before, after, row_remove, last]
  exact window_remove server.row start (by omega)

/-- A client is removed and the pass stays where it is. -/
theorem Tabled.drop (tabled : server.Tabled) {index : Int} (scanning : server.stage = .scanning index)
    (client : index ≠ 0) {moved : ChatServer} (same : SameTable (server.mark index) moved) :
    ((moved.remove index).advance index).Tabled := by
  obtain ⟨lower, upper, listener, quiet, distinct, clients, opened, inside, -, once, pass⟩ := tabled
  obtain ⟨above, below⟩ := inside index scanning
  have count : moved.userCounter = server.userCounter := same.userCounter
  have row : ∀ place, moved.row place = server.row place := same.row
  have split : ∀ start, start ≤ index →
      (server.row index :: (moved.remove index).rows start).Perm (server.rows start) := by
    intro start behind
    rw [← row, ← show moved.rows start = server.rows start from same.rows start]
    exact rows_remove behind (count ▸ below)
  have apart := ((split 0 above).map (·.1)).nodup_iff.mpr distinct
  rw [List.map_cons, List.nodup_cons] at apart
  have listenerRow : (moved.remove index).row 0 = server.row 0 := by
    rw [row_remove, Function.update_of_ne client.symm, row]
  have fd : (moved.fds index).fd = (server.row index).1 := congrArg Prod.fst (row index)
  refine ⟨?_, ?_, ?_, ?_, apart.2, fun other => ?_, fun other member => ?_, fun place here => ?_, fun here => ?_, ?_, ?_⟩
  · show 0 ≤ moved.userCounter - 1
    omega
  · show moved.userCounter - 1 ≤ userLimit
    omega
  · exact (congrArg Prod.fst listenerRow).trans (listener.trans same.listenfd.symm)
  · exact listenerRow ▸ quiet
  · have kept : moved.clients = server.clients := same.clients
    have members := ((split 1 (by omega)).map (·.1)).mem_iff (a := other)
    rw [List.map_cons, List.mem_cons, ← clients other, ← kept] at members
    show other ∈ moved.clients.erase _ ↔ other ∈ ((moved.remove index).rows 1).map (·.1)
    rw [Finset.mem_erase, ← members, fd]
    constructor
    · rintro ⟨distinct, here | later⟩
      · exact absurd here distinct
      · exact later
    · intro later
      refine ⟨?_, .inr later⟩
      rintro rfl
      apply apart.1
      obtain ⟨entry, member, named⟩ := List.mem_map.mp later
      obtain ⟨place, first, last, found⟩ := mem_rows.mp member
      exact List.mem_map.mpr ⟨entry, mem_rows.mpr ⟨place, by omega, last, found⟩, named⟩
  · show other ∈ moved.opened.erase _
    rw [Finset.mem_erase, fd]
    refine ⟨?_, same.opened (opened other ?_)⟩
    · rintro rfl
      exact apart.1 member
    · exact ((split 0 above).map (·.1)).mem_iff.mp (List.mem_cons_of_mem _ member)
  · obtain ⟨rfl, within⟩ := scanning_advance here
    exact ⟨above, within⟩
  · obtain ⟨zero, -⟩ := scanning_advance here
    exact absurd zero.symm client
  · exact (show (moved.remove index).due = server.due from same.due) ▸ once
  · rw [remaining_advance]
    have reported : moved.dispatched = server.dispatched ++ [server.row index] := same.dispatched
    have due : moved.due = server.due := same.due
    have left : server.remaining = server.rows index := by rw [remaining, scanning]
    show (moved.dispatched ++ (moved.remove index).rows index).Perm moved.due
    rw [due, reported, List.append_assoc, List.singleton_append]
    exact ((split index (Int.le_refl _)).append_left _).trans (left ▸ pass)

theorem row_admits (server : ChatServer) (connfd : Int) :
    (server.admits connfd).row = Function.update server.row (server.userCounter + 1) (connfd, 0) := by
  funext place
  by_cases here : place = server.userCounter + 1
  · simp [row, admits, here]
  · simp [row, admits, here]

theorem rows_admits (server : ChatServer) (connfd : Int) {start : Int} (behind : start ≤ server.userCounter + 1) :
    (server.admits connfd).rows start = server.rows start ++ [(connfd, 0)] := by
  obtain ⟨count, last⟩ : ∃ count : Nat, server.userCounter + 1 = start + count :=
    ⟨(server.userCounter + 1 - start).toNat, by omega⟩
  have before : (server.userCounter + 1 - start).toNat = count := by omega
  have after : ((server.admits connfd).userCounter + 1 - start).toNat = count + 1 := by
    show (server.userCounter + 1 + 1 - start).toNat = count + 1
    omega
  rw [rows, rows, before, after, window_succ, row_admits, last, Function.update_self]
  congr 1
  exact window_congr fun place _ below => Function.update_of_ne (by omega) _ _

theorem nodup_append_new {known : List (Int × BitVec 16)} {connfd : Int} (distinct : (known.map (·.1)).Nodup)
    (new : connfd ∉ known.map (·.1)) : ((known ++ [(connfd, (0 : BitVec 16))]).map (·.1)).Nodup := by
  simpa [List.concat_eq_append] using distinct.concat new

/-- A client is admitted while the pass is at the listening socket. -/
theorem Tabled.welcome (tabled : server.Tabled) (scanning : server.stage = .scanning 0)
    (room : server.userCounter < userLimit) {connfd : Int} (fresh : connfd ∉ server.opened) :
    (((server.mark 0).admits connfd).advance 1).Tabled := by
  obtain ⟨empty, nobody⟩ := tabled.opening scanning
  obtain ⟨lower, upper, listener, quiet, distinct, clients, opened, -, -, once, pass⟩ := tabled
  have rows : ∀ start, start ≤ server.userCounter + 1 →
      ((server.mark 0).admits connfd).rows start = server.rows start ++ [(connfd, 0)] :=
    fun start behind => rows_admits (server.mark 0) connfd behind
  have first : ((server.mark 0).admits connfd).row 0 = server.row 0 := by
    rw [row_admits]
    exact Function.update_of_ne (show (0 : Int) ≠ server.userCounter + 1 by omega) _ _
  have whole : (server.rows 0).Perm server.due := by
    simpa [empty, remaining, scanning] using pass
  have unknown : connfd ∉ server.due.map (·.1) := fun member =>
    fresh (opened connfd ((whole.map (·.1)).mem_iff.mpr member))
  have due : ((server.mark 0).admits connfd).due = server.due ++ [(connfd, 0)] := by
    simp [ChatServer.due, admits, mark]
  refine ⟨?_, ?_, ?_, ?_, ?_, fun fd => ?_, fun fd member => ?_, fun place here => ?_, fun here => ?_, ?_, ?_⟩
  · show 0 ≤ server.userCounter + 1
    omega
  · show server.userCounter + 1 ≤ userLimit
    omega
  · exact (congrArg Prod.fst first).trans listener
  · exact first ▸ quiet
  · show ((((server.mark 0).admits connfd).rows 0).map (·.1)).Nodup
    rw [rows 0 (by omega)]
    exact nodup_append_new distinct fun member => fresh (opened connfd member)
  · show fd ∈ insert connfd server.clients ↔ fd ∈ (((server.mark 0).admits connfd).rows 1).map (·.1)
    rw [rows 1 (by omega), List.map_append, List.mem_append, ← clients fd]
    simp [or_comm]
  · show fd ∈ insert connfd server.opened
    replace member : fd ∈ (((server.mark 0).admits connfd).rows 0).map (·.1) := member
    rw [rows 0 (by omega), List.map_append, List.mem_append] at member
    rcases member with old | new
    · exact Finset.mem_insert_of_mem (opened fd old)
    · exact Finset.mem_insert.mpr (.inl (List.mem_singleton.mp new))
  · obtain ⟨rfl, within⟩ := scanning_advance here
    exact ⟨by omega, within⟩
  · obtain ⟨zero, -⟩ := scanning_advance here
    omega
  · show (((server.mark 0).admits connfd).due.map (·.1)).Nodup
    rw [due]
    exact nodup_append_new once unknown
  · rw [remaining_advance]
    show (server.dispatched ++ [server.row 0] ++ ((server.mark 0).admits connfd).rows 1).Perm
      ((server.mark 0).admits connfd).due
    have left : server.rows 0 = server.row 0 :: server.rows 1 := rows_cons lower
    rw [due, rows 1 (by omega), empty, List.nil_append, List.singleton_append, ← List.cons_append, ← left]
    exact whole.append_right _

theorem Tabled.accept (tabled : server.Tabled) (scanning : server.stage = .scanning 0) {connfd : Int}
    (fresh : connfd ∉ server.opened) : (((server.mark 0).onAccept connfd).advance 1).Tabled := by
  unfold onAccept
  split_ifs with full
  · exact tabled.goOn scanning ⟨fun _ => rfl, rfl, rfl, Finset.subset_insert _ _, rfl, rfl, rfl, rfl⟩
  · exact tabled.welcome scanning (Int.not_le.mp full) fresh

theorem Tabled.poll (tabled : server.Tabled) {revents : List (BitVec 16)}
    (reported : revents.headD 0 &&& ~~~(pollin ||| pollerr) = 0) : ((server.onPoll revents).advance 0).Tabled := by
  obtain ⟨lower, upper, listener, quiet, distinct, clients, opened, -, -, -, -⟩ := tabled
  have fds : ∀ place, ((server.onPoll revents).row place).1 = (server.row place).1 := by
    intro place
    unfold row onPoll
    dsimp only
    split_ifs <;> rfl
  have names : ∀ start, ((server.onPoll revents).rows start).map (·.1) = (server.rows start).map (·.1) := by
    intro start
    simp only [rows, window, List.map_map]
    exact List.map_congr_left fun offset _ => fds _
  have due : (server.onPoll revents).due = (server.onPoll revents).rows 0 := by
    have count : (server.userCounter + 1 - 0).toNat = server.userCounter.toNat + 1 := by omega
    simp only [ChatServer.due, onPoll, rows, count, window, List.map_map, List.map_nil, List.append_nil]
    rfl
  refine ⟨lower, upper, (fds 0).trans listener, ?_, ?_, fun fd => ?_, fun fd member => ?_, fun place here => ?_,
    fun _ => ⟨rfl, rfl⟩, ?_, ?_⟩
  · have first : ((server.onPoll revents).row 0).2 = revents.headD 0 := by
      simp [row, onPoll, lower, List.headD_eq_head?_getD, List.head?_eq_getElem?]
    exact first ▸ reported
  · exact (names 0).symm ▸ distinct
  · exact (clients fd).trans ((names 1).symm ▸ Iff.rfl)
  · exact opened fd (names 0 ▸ member)
  · obtain ⟨rfl, within⟩ := scanning_advance here
    exact ⟨Int.le_refl 0, within⟩
  · show ((server.onPoll revents).due.map (·.1)).Nodup
    rw [due, names 0]
    exact distinct
  · rw [remaining_advance]
    show ([] ++ (server.onPoll revents).rows 0).Perm (server.onPoll revents).due
    rw [due, List.nil_append]

theorem Tabled.step (tabled : server.Tabled) {label : ChatLabel} (taken : server.step label = some next) :
    next.Tabled := by
  cases step_change taken with
  | poll revents polling count quiet done => exact done ▸ tabled.poll quiet
  | leave polling done =>
    subst done
    obtain ⟨lower, upper, listener, quiet, distinct, clients, opened, -, -, once, pass⟩ := tabled
    rw [remaining, polling] at pass
    exact ⟨lower, upper, listener, quiet, distinct, clients, opened, by simp, by simp, once, pass⟩
  | accept index connfd scanning branch fresh done =>
    have own : (server.row index).1 = server.listenfd := by
      by_contra other
      have notListener : (server.fds index).fd ≠ server.listenfd := other
      unfold ChatServer.branch at branch
      simp only [notListener, false_and, if_false] at branch
      split_ifs at branch
    obtain ⟨above, below⟩ := tabled.inside index scanning
    obtain rfl := tabled.place above below (Int.le_refl 0) tabled.lower (own.trans tabled.listener.symm)
    exact done ▸ tabled.accept scanning fresh
  | hangup index scanning branch done => exact done ▸ tabled.drop scanning (tabled.client (by simp [branch])) (.refl _)
  | data index received scanning branch nonempty fits done =>
    exact done ▸ tabled.goOn scanning ((sameTable_fill _ _ _).trans (sameTable_broadcast _ _ _))
  | clear index result other scanning branch done => exact done ▸ tabled.goOn scanning (sameTable_fill _ _ _)
  | fail index scanning branch done =>
    exact done ▸ tabled.drop scanning (tabled.client (by simp [branch])) (sameTable_fill _ _ _)
  | send index scanning branch done => exact done ▸ tabled.goOn scanning (sameTable_onSend _ _)
  | pass index label scanning hangup done => exact done ▸ tabled.goOn scanning (.refl _)

theorem step_listenfd {label : ChatLabel} (taken : server.step label = some next) :
    next.listenfd = server.listenfd := by
  cases step_change taken with
  | accept index connfd scanning branch fresh done =>
    subst done
    unfold onAccept
    split_ifs <;> rfl
  | data index received scanning branch nonempty fits done =>
    exact done ▸ (sameTable_broadcast _ _ _).listenfd
  | send index scanning branch done => exact done ▸ (sameTable_onSend _ _).listenfd
  | poll _ _ _ _ done | leave _ done | hangup _ _ _ done | clear _ _ _ _ _ done | fail _ _ _ done | pass _ _ _ _ done =>
    subst done
    rfl

/-- A reported row is dispatched once, and no other row with its descriptor is. -/
theorem filter_eq_singleton {rows : List (Int × BitVec 16)} (distinct : (rows.map (·.1)).Nodup)
    {row : Int × BitVec 16} (member : row ∈ rows) : rows.filter (fun other => other.1 = row.1) = [row] := by
  induction rows with
  | nil => cases member
  | cons first rest ih =>
    rw [List.map_cons, List.nodup_cons] at distinct
    rcases List.mem_cons.mp member with rfl | later
    · have others : rest.filter (fun other => other.1 = row.1) = [] := by
        apply List.filter_eq_nil_iff.mpr
        intro other found same
        exact distinct.1 (List.mem_map.mpr ⟨other, found, by simpa using same⟩)
      rw [List.filter_cons_of_pos (by simp), others]
    · have apart : first.1 ≠ row.1 := fun same => distinct.1 (List.mem_map.mpr ⟨row, later, same.symm⟩)
      rw [List.filter_cons_of_neg (by simpa using apart), ih distinct.2 later]

/-- The table in every run: it holds the listening socket and the admitted clients, each
once, and when a pass has ended, every row that `poll` reported has been dispatched exactly
once, with what `poll` reported. -/
theorem table_exact (listenfd : Int) (users : Int → ClientData) (fds : Int → PollFd) (labels : List ChatLabel)
    (reached : run ChatServer.step (create listenfd users fds) labels = some server) :
    0 ≤ server.userCounter ∧ server.userCounter ≤ userLimit ∧ (server.fds 0).fd = listenfd ∧
      (∀ place other, 1 ≤ place → place ≤ server.userCounter → 1 ≤ other → other ≤ server.userCounter →
        (server.fds place).fd = (server.fds other).fd → place = other) ∧
      (∀ fd, fd ∈ server.clients ↔ ∃ place, 1 ≤ place ∧ place ≤ server.userCounter ∧ (server.fds place).fd = fd) ∧
      (server.stage = .polling → ∀ row ∈ server.snapshot,
        server.dispatched.filter (fun other => other.1 = row.1) = [row]) := by
  have tabled : server.Tabled :=
    run_invariant (fun _ _ _ kept taken => kept.step taken) (Tabled.create listenfd users fds) reached
  have same : server.listenfd = listenfd :=
    run_invariant (fun _ _ _ kept taken => (step_listenfd taken).trans kept) rfl reached
  refine ⟨tabled.lower, tabled.upper, tabled.listener.trans same, fun place other above below otherAbove otherBelow same => ?_,
    fun fd => ?_, fun polling row member => ?_⟩
  · exact tabled.place (by omega) below (by omega) otherBelow same
  · rw [tabled.clients fd, List.mem_map]
    constructor
    · rintro ⟨entry, member, same⟩
      obtain ⟨place, above, below, found⟩ := mem_rows.mp member
      exact ⟨place, above, below, by rw [← same, ← found]; rfl⟩
    · rintro ⟨place, above, below, same⟩
      exact ⟨server.row place, mem_rows.mpr ⟨place, above, below, rfl⟩, same⟩
  · have pass := tabled.pass
    rw [remaining, polling, List.append_nil] at pass
    have distinct := (pass.map (·.1)).nodup_iff.mpr tabled.once
    exact filter_eq_singleton distinct (pass.mem_iff.mpr (List.mem_append_left _ member))

/-- A server whose memory holds zeros. -/
def zeroed : ChatServer := create 3 (fun _ => ⟨.null, []⟩) fun _ => ⟨0, 0, 0⟩

/-- Clients connect, each in a pass of its own in which the others have nothing to report. -/
def connects : Nat → List Int → List ChatLabel
  | _, [] => []
  | known, fd :: rest =>
    .poll (pollin :: List.replicate known 0) :: .accept (some fd) :: List.replicate (known + 1) .dispatch ++
      connects (known + 1) rest

/-- Two of three clients leave in one pass in which a fourth one is admitted. -/
theorem table_exact_two_leave :
    ∃ server, run step zeroed (connects 0 [5, 6, 7] ++
        [.poll [pollin, pollrdhup, pollrdhup, pollin], .accept (some 8), .dispatch, .dispatch, .dispatch,
          .recv (.data [97])]) = some server ∧
      server.clients = {7, 8} ∧
      server.dispatched.filter (fun other => other.1 = 7) = [(7, pollin)] := by
  have computed : (run step zeroed (connects 0 [5, 6, 7] ++
      [.poll [pollin, pollrdhup, pollrdhup, pollin], .accept (some 8), .dispatch, .dispatch, .dispatch,
        .recv (.data [97])])).map (fun server => (server.clients, server.snapshot, server.stage)) =
      some ({7, 8}, [(3, pollin), (5, pollrdhup), (6, pollrdhup), (7, pollin)], .polling) := by decide +kernel
  obtain ⟨server, reached, same⟩ := Option.map_eq_some_iff.mp computed
  simp only [Prod.mk.injEq] at same
  obtain ⟨clients, snapshot, polling⟩ := same
  obtain ⟨-, -, -, -, -, once⟩ := table_exact 3 (fun _ => ⟨.null, []⟩) (fun _ => ⟨0, 0, 0⟩) _ reached
  exact ⟨server, reached, clients, once polling (7, pollin) (by simp [snapshot])⟩

end UnixProgramming.IoMultiplexing.ChatServer
