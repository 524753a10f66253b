import UnixProgramming.IoMultiplexing.ChatTable

/-! Messages of the chat server. A message waits in the buffer of its sender, to which the
recipients' `write_buf` points, so it is sent as it was received only where the buffer is not
touched meanwhile. The masks the entries ask for never lose a bit. -/

namespace UnixProgramming.IoMultiplexing.ChatServer

open UnixProgramming.Lib

variable {server next : ChatServer}

/-! ## Environment -/

/-- `poll` reports of an entry what it asks for, and errors. -/
def Requested (server : ChatServer) : ChatLabel → Prop
  | .poll revents => ∀ place < server.userCounter.toNat + 1,
      revents.getD place 0 &&& ~~~((server.fds place).events ||| (pollerr ||| pollhup ||| pollnval)) = 0
  | _ => True

/-- The index of the entry being dispatched. -/
def current (server : ChatServer) : Option Int :=
  match server.stage with
  | .scanning index => some index
  | _ => none

/-- No other client that waits to be writable is to be sent what is in the buffer of `fd`. -/
def Unawaited (server : ChatServer) (fd : Int) : Prop :=
  ∀ entry ∈ server.entries, entry.fd ≠ fd → has entry.events pollout = true →
    (server.users entry.fd).writeBuf ≠ .buf fd

/-- Messages are strings, and a buffer is cleared, or overwritten when its client leaves, only
while nobody waits for its content. -/
def Careful (server : ChatServer) : ChatLabel → Prop
  | .recv (.data received) => 0 ∉ received ∨ server.userCounter ≤ 1
  | .recv _ => ∀ index ∈ server.current, server.Unawaited (server.fds index).fd
  | .dispatch => ∀ index ∈ server.current, server.branch (server.fds index) = .hangup →
      index ≠ server.userCounter → server.Unawaited (server.fds index).fd
  | _ => True

/-- Data come only while the sender is alone. -/
def Alone (server : ChatServer) : ChatLabel → Prop
  | .recv (.data _) => server.userCounter ≤ 1
  | _ => True

/-! ## Entries -/

theorem mem_entries {entry : PollFd} :
    entry ∈ server.entries ↔ ∃ place, 1 ≤ place ∧ place ≤ server.userCounter ∧ server.fds place = entry := by
  unfold entries
  rw [mem_window]
  constructor
  · rintro ⟨place, above, below, same⟩
    exact ⟨place, above, by omega, same⟩
  · rintro ⟨place, above, below, same⟩
    exact ⟨place, above, by omega, same⟩

/-- A descriptor has one place in the table. -/
def Placed (server : ChatServer) : Prop :=
  ∀ place other, 0 ≤ place → place ≤ server.userCounter → 0 ≤ other → other ≤ server.userCounter →
    (server.fds place).fd = (server.fds other).fd → place = other

theorem Tabled.placed (tabled : server.Tabled) : server.Placed :=
  fun _ _ above below otherAbove otherBelow same => tabled.place above below otherAbove otherBelow same

/-- The entries left behind a removed one. -/
theorem Placed.mem_entries_remove (placed : server.Placed) {index : Int} (above : 0 ≤ index)
    (below : index ≤ server.userCounter) {entry : PollFd} (member : entry ∈ (server.remove index).entries) :
    entry ∈ server.entries ∧ entry.fd ≠ (server.fds index).fd := by
  obtain ⟨place, first, last, rfl⟩ := mem_entries.mp member
  replace last : place ≤ server.userCounter - 1 := last
  by_cases here : place = index
  · have moved : (server.remove index).fds place = server.fds server.userCounter := by simp [remove, here]
    rw [moved]
    refine ⟨mem_entries.mpr ⟨_, by omega, Int.le_refl _, rfl⟩, fun same => ?_⟩
    have equal := placed _ _ (by omega) (Int.le_refl _) above below same
    omega
  · have kept : (server.remove index).fds place = server.fds place := by simp [remove, here]
    rw [kept]
    refine ⟨mem_entries.mpr ⟨place, first, by omega, rfl⟩, fun same => here ?_⟩
    exact placed _ _ (by omega) (by omega) above below same

/-! ## The loop over the other clients -/

section Broadcast
variable (connfd : Int) (text : List UInt8)

theorem offer_fd (server : ChatServer) (place other : Int) :
    ((server.offer connfd text place).fds other).fd = (server.fds other).fd :=
  congrArg Prod.fst ((sameTable_offer server connfd text place).row other)

/-- What the loop does to the records: those named get a pointer to the sender's buffer. -/
theorem foldl_offer_users (places : List Int) (server : ChatServer) (fd : Int) :
    (places.foldl (offer connfd text) server).users fd =
        (if fd ≠ connfd ∧ fd ∈ places.map (fun place => (server.fds place).fd) then
          { server.users fd with writeBuf := .buf connfd } else server.users fd) ∧
      (places.foldl (offer connfd text) server).message fd =
        if fd ≠ connfd ∧ fd ∈ places.map (fun place => (server.fds place).fd) then some ⟨connfd, text⟩
        else server.message fd := by
  induction places generalizing server with
  | nil => simp
  | cons place rest ih =>
    obtain ⟨users, message⟩ := ih (server.offer connfd text place)
    simp only [offer_fd] at users message
    rw [List.foldl_cons, users, message]
    by_cases own : (server.fds place).fd = connfd
    · have skipped : server.offer connfd text place = server := by simp [offer, own]
      rw [skipped]
      have same : fd ≠ connfd → (fd ∈ (place :: rest).map (fun place => (server.fds place).fd) ↔
          fd ∈ rest.map (fun place => (server.fds place).fd)) := by
        intro other
        rw [List.map_cons, List.mem_cons, own]
        exact or_iff_right other
      by_cases other : fd = connfd
      · simp [other]
      · simp only [same other, and_self]
    · have offered : server.offer connfd text place = { server with
          fds := Function.update server.fds place
            { server.fds place with events := (server.fds place).events ||| ~~~pollin ||| pollout }
          users := Function.update server.users (server.fds place).fd
            { server.users (server.fds place).fd with writeBuf := .buf connfd }
          message := Function.update server.message (server.fds place).fd (some ⟨connfd, text⟩) } := if_neg own
      rw [offered, List.map_cons]
      by_cases here : fd = (server.fds place).fd
      · simp [here, own]
      · simp only [Function.update_of_ne here, List.mem_cons, here, false_or, and_self]

/-- An entry keeps what it asks for, and all but the sender's ask for `POLLOUT`. -/
theorem foldl_offer_fds (places : List Int) (server : ChatServer) (other : Int) :
    (((places.foldl (offer connfd text) server).fds other).revents = (server.fds other).revents) ∧
      (has (server.fds other).events pollout = true →
        has ((places.foldl (offer connfd text) server).fds other).events pollout = true) ∧
      ((server.fds other).fd = connfd → (places.foldl (offer connfd text) server).fds other = server.fds other) := by
  induction places generalizing server with
  | nil => exact ⟨rfl, id, fun _ => rfl⟩
  | cons place rest ih =>
    obtain ⟨revents, asks, own⟩ := ih (server.offer connfd text place)
    rw [List.foldl_cons]
    have one : ((server.offer connfd text place).fds other).revents = (server.fds other).revents ∧
        (has (server.fds other).events pollout = true →
          has ((server.offer connfd text place).fds other).events pollout = true) ∧
        ((server.fds other).fd = connfd → (server.offer connfd text place).fds other = server.fds other) := by
      unfold offer
      dsimp only
      split_ifs with sender
      · exact ⟨rfl, id, fun _ => rfl⟩
      · by_cases here : other = place
        · subst here
          refine ⟨by simp, fun _ => ?_, fun same => absurd same sender⟩
          dsimp only
          rw [Function.update_self, has_or]
          exact Bool.or_eq_true_iff.mpr (.inr (by decide))
        · simp [here]
    refine ⟨revents.trans one.1, fun asked => asks (one.2.1 asked), fun same => ?_⟩
    rw [own ((offer_fd connfd text server place other).trans same), one.2.2 same]

theorem broadcast_fds (server : ChatServer) (other : Int) :
    (((server.broadcast connfd text).fds other).revents = (server.fds other).revents) ∧
      (has (server.fds other).events pollout = true →
        has ((server.broadcast connfd text).fds other).events pollout = true) ∧
      ((server.fds other).fd = connfd → (server.broadcast connfd text).fds other = server.fds other) :=
  foldl_offer_fds connfd text _ server other

theorem broadcast_own (server : ChatServer) :
    (server.broadcast connfd text).users connfd = server.users connfd ∧
      (server.broadcast connfd text).message connfd = server.message connfd := by
  obtain ⟨users, message⟩ := foldl_offer_users connfd text (window id 1 server.userCounter.toNat) server connfd
  exact ⟨users.trans (if_neg (by simp)), message.trans (if_neg (by simp))⟩

theorem broadcast_other (server : ChatServer) {entry : PollFd} (member : entry ∈ server.entries)
    (other : entry.fd ≠ connfd) :
    ((server.broadcast connfd text).users entry.fd).writeBuf = .buf connfd ∧
      (server.broadcast connfd text).message entry.fd = some ⟨connfd, text⟩ := by
  obtain ⟨users, message⟩ := foldl_offer_users connfd text (window id 1 server.userCounter.toNat) server entry.fd
  have named : entry.fd ∈ (window id 1 server.userCounter.toNat).map (fun place => (server.fds place).fd) := by
    rw [map_window]
    obtain ⟨place, above, below, rfl⟩ := mem_window.mp member
    exact mem_window.mpr ⟨place, above, below, rfl⟩
  rw [if_pos ⟨other, named⟩] at users message
  exact ⟨congrArg ClientData.writeBuf users, message⟩

theorem broadcast_buf (server : ChatServer) (fd : Int) :
    ((server.broadcast connfd text).users fd).buf = (server.users fd).buf := by
  obtain ⟨users, -⟩ := foldl_offer_users connfd text (window id 1 server.userCounter.toNat) server fd
  refine (congrArg ClientData.buf users).trans ?_
  split_ifs <;> rfl

theorem broadcast_sent (server : ChatServer) : (server.broadcast connfd text).sent = server.sent := by
  unfold broadcast
  generalize window id 1 server.userCounter.toNat = places
  induction places generalizing server with
  | nil => rfl
  | cons place rest ih =>
    rw [List.foldl_cons, ih]
    unfold offer
    dsimp only
    split_ifs <;> rfl

end Broadcast

/-! ## Who is reported writable has asked for it -/

def Asked (server : ChatServer) : Prop :=
  ∀ index ∈ server.current, ∀ place, index ≤ place → place ≤ server.userCounter →
    has (server.fds place).revents pollout = true → has (server.fds place).events pollout = true

theorem mem_current {index : Int} (scanning : server.stage = .scanning index) : index ∈ server.current := by
  simp [current, scanning]

theorem mem_current_advance {index place : Int} (member : place ∈ (server.advance index).current) : place = index := by
  unfold current advance at member
  dsimp only at member
  split at member
  · next same =>
    split_ifs at same
    cases same
    exact (Option.some.inj member).symm
  · cases member

theorem Asked.goOn (asked : server.Asked) {index : Int} (scanning : server.stage = .scanning index)
    {moved : ChatServer} (count : moved.userCounter = server.userCounter)
    (revents : ∀ place, (moved.fds place).revents = (server.fds place).revents)
    (events : ∀ place, has (server.fds place).events pollout = true → has (moved.fds place).events pollout = true) :
    (moved.advance (index + 1)).Asked := by
  intro at_ member place behind inside reported
  obtain rfl := mem_current_advance member
  replace inside : place ≤ server.userCounter := count ▸ inside
  have reportedBefore : has (server.fds place).revents pollout = true := revents place ▸ reported
  exact events place (asked index (mem_current scanning) place (by omega) inside reportedBefore)

theorem Asked.drop (asked : server.Asked) {index : Int} (scanning : server.stage = .scanning index)
    {moved : ChatServer} (count : moved.userCounter = server.userCounter) (fds : moved.fds = server.fds) :
    ((moved.remove index).advance index).Asked := by
  intro at_ member place behind inside reported
  obtain rfl := mem_current_advance member
  replace inside : place ≤ moved.userCounter - 1 := inside
  have before := asked at_ (mem_current scanning)
  by_cases here : place = at_
  · have last : ((moved.remove at_).advance at_).fds place = server.fds server.userCounter := by
      simp [advance, remove, here, fds, count]
    rw [last] at reported ⊢
    exact before _ (by omega) (Int.le_refl _) reported
  · have kept : ((moved.remove at_).advance at_).fds place = server.fds place := by
      simp [advance, remove, here, fds]
    rw [kept] at reported ⊢
    exact before place behind (by omega) reported

theorem fds_polled (server : ChatServer) (revents : List (BitVec 16)) {place : Int} (behind : 0 ≤ place)
    (inside : place ≤ server.userCounter) :
    ((server.onPoll revents).advance 0).fds place = { server.fds place with revents := revents.getD place.toNat 0 } :=
  if_pos ⟨behind, inside⟩

theorem fds_admitted (server : ChatServer) (index connfd : Int) :
    (((server.mark index).admits connfd).advance (index + 1)).fds (server.userCounter + 1) =
      ⟨connfd, pollin ||| pollrdhup ||| pollerr, 0⟩ := by
  simp [advance, admits, mark]

theorem fds_admits_ne (server : ChatServer) (index connfd : Int) {place : Int}
    (old : place ≠ server.userCounter + 1) :
    (((server.mark index).admits connfd).advance (index + 1)).fds place = server.fds place := by
  simp [advance, admits, mark, old]

theorem Asked.step (asked : server.Asked) (tabled : server.Tabled) {label : ChatLabel}
    (requested : server.Requested label) (taken : server.step label = some next) : next.Asked := by
  cases step_change taken with
  | poll revents polling count quiet done =>
    subst done
    intro index member place behind inside reported
    obtain rfl := mem_current_advance member
    have lower := tabled.lower
    replace inside : place ≤ server.userCounter := inside
    rw [fds_polled server revents behind inside] at reported ⊢
    have within := requested place.toNat (by omega)
    rw [Int.toNat_of_nonneg behind] at within
    exact has_of_requested within (by decide) reported
  | leave polling done =>
    subst done
    intro index member
    cases member
  | accept index connfd scanning branch fresh done =>
    subst done
    unfold onAccept
    split_ifs with full
    · exact asked.goOn scanning rfl (fun _ => rfl) fun _ => id
    · intro at_ member place behind inside reported
      obtain rfl := mem_current_advance member
      replace inside : place ≤ server.userCounter + 1 := inside
      by_cases new : place = server.userCounter + 1
      · rw [new, fds_admitted] at reported
        simp [has] at reported
      · rw [fds_admits_ne server index connfd new] at reported ⊢
        exact asked index (mem_current scanning) place (by omega) (by omega) reported
  | hangup index scanning branch done => exact done ▸ asked.drop scanning rfl rfl
  | data index received scanning branch nonempty fits done =>
    subst done
    have offered := broadcast_fds (server.fds index).fd received
      ((server.mark index).fill (server.fds index).fd received)
    exact asked.goOn scanning (sameTable_broadcast _ _ _).userCounter (fun place => (offered place).1)
      fun place => (offered place).2.1
  | clear index result other scanning branch done => exact done ▸ asked.goOn scanning rfl (fun _ => rfl) fun _ => id
  | fail index scanning branch done => exact done ▸ asked.drop scanning rfl rfl
  | send index scanning branch done =>
    subst done
    refine asked.goOn scanning (sameTable_onSend _ _).userCounter
      (fun place => congrArg Prod.snd ((sameTable_onSend (server.mark index) index).row place)) fun place asks => ?_
    unfold onSend
    dsimp only
    split_ifs
    · exact asks
    · by_cases here : place = index
      · subst here
        dsimp only
        rw [Function.update_self, has_or, has_or]
        simpa [mark] using .inl (.inl asks)
      · simpa [mark, here] using asks
  | pass index label scanning hangup done => exact done ▸ asked.goOn scanning rfl (fun _ => rfl) fun _ => id

/-! ## Messages stay what they were -/

/-- Nothing waits for the client, or what waits is the message as it was received. -/
def Ready (server : ChatServer) (fd : Int) : Prop :=
  (server.users fd).writeBuf = .null ∨
    ∃ message, server.message fd = some message ∧ message.sender ≠ fd ∧
      (server.users fd).writeBuf = .buf message.sender ∧ server.text (.buf message.sender) = message.text

structure Intact (server : ChatServer) : Prop where
  waiting : ∀ entry ∈ server.entries, has entry.events pollout = true → server.Ready entry.fd
  sent : ∀ sent ∈ server.sent, ∃ message, sent.message = some message ∧ message.sender ≠ sent.recipient ∧
    sent.text = message.text

theorem Ready.keep {fd : Int} (ready : server.Ready fd) (users : (next.users fd).writeBuf = (server.users fd).writeBuf)
    (message : next.message fd = server.message fd)
    (content : ∀ sender, sender ≠ fd → (server.users fd).writeBuf = .buf sender →
      (next.users sender).buf = (server.users sender).buf) : next.Ready fd := by
  rcases ready with nothing | ⟨waiting, same, other, pointer, text⟩
  · exact .inl (users.trans nothing)
  · refine .inr ⟨waiting, message.trans same, other, users.trans pointer, ?_⟩
    rw [← text]
    simp only [ChatServer.text, content waiting.sender other pointer]

/-- A client that nobody waits for leaves, or the one at the end of the table. -/
theorem Intact.remove (intact : server.Intact) (placed : server.Placed) {index : Int} (above : 0 ≤ index)
    (below : index ≤ server.userCounter)
    (careful : index ≠ server.userCounter → server.Unawaited (server.fds index).fd) :
    (server.remove index).Intact := by
  refine ⟨fun entry member asks => ?_, intact.sent⟩
  obtain ⟨old, other⟩ := placed.mem_entries_remove above below member
  refine (intact.waiting entry old asks).keep ?_ rfl fun sender _ pointer => ?_
  · simp [ChatServer.remove, other]
  · by_cases last : index = server.userCounter
    · simp [ChatServer.remove, last]
    · have apart : sender ≠ (server.fds index).fd := by
        rintro rfl
        exact careful last entry old other asks pointer
      simp [ChatServer.remove, apart]

theorem Intact.clear (intact : server.Intact) {fd : Int} (unawaited : server.Unawaited fd) (received : List UInt8) :
    (server.fill fd received).Intact := by
  refine ⟨fun entry member asks => ?_, intact.sent⟩
  refine (intact.waiting entry member asks).keep ?_ rfl fun sender foreign pointer => ?_
  · by_cases own : entry.fd = fd
    · simp [fill, own]
    · simp [fill, own]
  · have apart : sender ≠ fd := by
      rintro rfl
      exact unawaited entry member foreign.symm asks pointer
    simp [fill, apart]

theorem takeWhile_filled {received : List UInt8} (plain : 0 ∉ received) (count : Nat) :
    (received ++ List.replicate count 0).takeWhile (· ≠ 0) = received := by
  have nonzero : ∀ byte ∈ received, decide (byte ≠ 0) = true := by
    intro byte member
    simpa using fun zero : byte = 0 => plain (zero ▸ member)
  rw [List.takeWhile_append_of_pos nonzero]
  cases count with
  | zero => simp
  | succ more => simp [List.replicate_succ]

/-- All clients but the sender get the message, in place of what they waited for. -/
theorem Intact.broadcast (intact : server.Intact) {connfd : Int} {received : List UInt8}
    (plain : 0 ∉ received ∨ ∀ entry ∈ server.entries, entry.fd = connfd) :
    ((server.fill connfd received).broadcast connfd received).Intact := by
  have same := sameTable_broadcast (server.fill connfd received) connfd received
  refine ⟨fun entry member asks => ?_, by rw [broadcast_sent]; exact intact.sent⟩
  obtain ⟨place, above, below, rfl⟩ := mem_entries.mp member
  have name : (((server.fill connfd received).broadcast connfd received).fds place).fd = (server.fds place).fd :=
    congrArg Prod.fst (same.row place)
  have old : server.fds place ∈ server.entries := mem_entries.mpr ⟨place, above, same.userCounter ▸ below, rfl⟩
  rw [name]
  by_cases own : (server.fds place).fd = connfd
  · -- the sender itself waits for a message of somebody else
    have entry := (broadcast_fds connfd received (server.fill connfd received) place).2.2 own
    obtain ⟨users, message⟩ := broadcast_own connfd received (server.fill connfd received)
    rw [entry] at asks
    refine (intact.waiting _ old asks).keep ?_ ?_ fun sender foreign _ => ?_
    · rw [own, users]
      simp [fill]
    · rw [own, message]
      rfl
    · rw [broadcast_buf]
      simp [fill, own ▸ foreign]
  · obtain ⟨pointer, message⟩ := broadcast_other connfd received (server.fill connfd received) old own
    refine .inr ⟨⟨connfd, received⟩, message, Ne.symm own, pointer, ?_⟩
    have text : 0 ∉ received := plain.resolve_right fun alone => own (alone _ old)
    simp only [ChatServer.text, broadcast_buf]
    simpa [fill] using takeWhile_filled text (bufferSize - received.length)

theorem pollout_of_send {entry : PollFd} (branch : server.branch entry = .send) : has entry.revents pollout = true := by
  unfold ChatServer.branch at branch
  split_ifs at branch with _ _ _ _ writable
  exact writable

theorem Intact.send (intact : server.Intact) (placed : server.Placed) {index : Int} (above : 1 ≤ index)
    (below : index ≤ server.userCounter) (asks : has (server.fds index).events pollout = true) :
    (server.onSend index).Intact := by
  have here : server.fds index ∈ server.entries := mem_entries.mpr ⟨index, above, below, rfl⟩
  have ready := intact.waiting _ here asks
  unfold onSend
  dsimp only
  split_ifs with nothing
  · exact intact
  obtain ⟨message, same, other, pointer, text⟩ := ready.resolve_left nothing
  refine ⟨fun entry member waits => ?_, fun sent member => ?_⟩
  · obtain ⟨place, first, last, rfl⟩ := mem_entries.mp member
    dsimp only at last waits ⊢
    by_cases own : place = index
    · subst own
      left
      simp
    · simp only [Function.update_of_ne own] at waits ⊢
      have apart : (server.fds place).fd ≠ (server.fds index).fd := fun equal =>
        own (placed _ _ (by omega) last (by omega) below equal)
      refine (intact.waiting _ (mem_entries.mpr ⟨place, first, last, rfl⟩) waits).keep ?_ ?_ fun sender _ _ => ?_
      · simp [apart]
      · simp [apart]
      · by_cases sends : sender = (server.fds index).fd
        · simp [sends]
        · simp [sends]
  · rcases List.mem_append.mp member with old | new
    · exact intact.sent sent old
    · cases List.mem_singleton.mp new
      exact ⟨message, same, other, by rw [← text, pointer]⟩

/-- A client that comes is asked for what it has to say first. -/
theorem Intact.accept (intact : server.Intact) (tabled : server.Tabled) (index : Int) {connfd : Int}
    (fresh : connfd ∉ server.opened) : (((server.mark index).onAccept connfd).advance (index + 1)).Intact := by
  unfold onAccept
  split_ifs with full
  · exact ⟨intact.waiting, intact.sent⟩
  · refine ⟨fun entry member asks => ?_, intact.sent⟩
    obtain ⟨place, above, below, rfl⟩ := mem_entries.mp member
    replace below : place ≤ server.userCounter + 1 := below
    by_cases new : place = server.userCounter + 1
    · rw [new, fds_admitted] at asks
      simp [has, pollin, pollrdhup, pollerr, pollout] at asks
    · rw [fds_admits_ne server index connfd new] at asks ⊢
      have old : place ≤ server.userCounter := by omega
      have known : (server.fds place).fd ∈ server.opened := tabled.opened _
        (List.mem_map.mpr ⟨_, mem_rows.mpr ⟨place, by omega, old, rfl⟩, rfl⟩)
      have apart : (server.fds place).fd ≠ connfd := fun equal => fresh (equal ▸ known)
      refine (intact.waiting _ (mem_entries.mpr ⟨place, above, old, rfl⟩) asks).keep rfl ?_ fun _ _ _ => rfl
      simp [advance, admits, mark, apart]

theorem Intact.step (intact : server.Intact) (tabled : server.Tabled) (asked : server.Asked) {label : ChatLabel}
    (careful : server.Careful label) (taken : server.step label = some next) : next.Intact := by
  cases step_change taken with
  | poll revents polling count quiet done =>
    subst done
    refine ⟨fun entry member asks => ?_, intact.sent⟩
    obtain ⟨place, above, below, rfl⟩ := mem_entries.mp member
    rw [fds_polled server revents (by omega) below] at asks ⊢
    exact intact.waiting (server.fds place) (mem_entries.mpr ⟨place, above, below, rfl⟩) asks
  | leave polling done => exact done ▸ ⟨intact.waiting, intact.sent⟩
  | accept index connfd scanning branch fresh done =>
    exact done ▸ intact.accept tabled index fresh
  | hangup index scanning branch done =>
    subst done
    obtain ⟨above, below⟩ := tabled.inside index scanning
    have removed := intact.remove tabled.placed above below (careful index (mem_current scanning) branch)
    exact ⟨removed.waiting, removed.sent⟩
  | data index received scanning branch nonempty fits done =>
    subst done
    obtain ⟨above, below⟩ := tabled.inside index scanning
    have client : index ≠ 0 := tabled.client (by simp [branch])
    have plain : 0 ∉ received ∨ ∀ entry ∈ (server.mark index).entries, entry.fd = (server.fds index).fd := by
      refine careful.imp_right fun alone entry member => ?_
      obtain ⟨place, first, last, rfl⟩ := mem_entries.mp member
      replace last : place ≤ server.userCounter := last
      rw [show place = index by omega]
      rfl
    have marked : (server.mark index).Intact := ⟨intact.waiting, intact.sent⟩
    have offered := marked.broadcast plain
    exact ⟨offered.waiting, offered.sent⟩
  | clear index result other scanning branch done =>
    subst done
    have cleared : (server.fill (server.fds index).fd []).Intact := by
      refine intact.clear ?_ []
      cases result with
      | data received => exact absurd rfl (other received)
      | closed | again | failed => exact careful index (mem_current scanning)
    exact ⟨cleared.waiting, cleared.sent⟩
  | fail index scanning branch done =>
    subst done
    obtain ⟨above, below⟩ := tabled.inside index scanning
    have unawaited : server.Unawaited (server.fds index).fd := careful index (mem_current scanning)
    have cleared : (server.fill (server.fds index).fd []).Intact := intact.clear unawaited []
    have placed : (server.fill (server.fds index).fd []).Placed := tabled.placed
    have still : (server.fill (server.fds index).fd []).Unawaited (server.fds index).fd := by
      intro entry member other asks
      simpa [fill, other] using unawaited entry member other asks
    have removed := cleared.remove placed above below fun _ => still
    exact ⟨removed.waiting, removed.sent⟩
  | send index scanning branch done =>
    subst done
    obtain ⟨above, below⟩ := tabled.inside index scanning
    have client : index ≠ 0 := tabled.client (by simp [branch])
    have asks := asked index (mem_current scanning) index (Int.le_refl _) below (pollout_of_send branch)
    have marked : (server.mark index).Intact := ⟨intact.waiting, intact.sent⟩
    have answered := marked.send tabled.placed (by omega) below asks
    exact ⟨answered.waiting, answered.sent⟩
  | pass index label scanning hangup done => exact done ▸ ⟨intact.waiting, intact.sent⟩

theorem Intact.create (listenfd : Int) (users : Int → ClientData) (fds : Int → PollFd) :
    (create listenfd users fds).Intact := by
  refine ⟨fun entry member _ => ?_, fun sent member => by cases member⟩
  obtain ⟨place, above, below, -⟩ := mem_entries.mp member
  replace below : place ≤ 0 := below
  omega

/-- In a run in which messages are strings and no buffer is cleared or overwritten while
somebody waits for its content, what is sent to a client is what was received from another
one when `write_buf` was last set. -/
theorem messages_intact (listenfd : Int) (users : Int → ClientData) (fds : Int → PollFd) (labels : List ChatLabel)
    (meets : Meets ChatServer.step (fun server label => server.Requested label ∧ server.Careful label)
      (create listenfd users fds) labels)
    (reached : run ChatServer.step (create listenfd users fds) labels = some server) :
    ∀ sent ∈ server.sent, ∃ message, sent.message = some message ∧ message.sender ≠ sent.recipient ∧
      sent.text = message.text := by
  have start : (create listenfd users fds).Tabled ∧ (create listenfd users fds).Asked ∧
      (create listenfd users fds).Intact :=
    ⟨.create _ _ _, fun _ member => (by cases member), .create _ _ _⟩
  let invariant (state : ChatServer) : Prop := state.Tabled ∧ state.Asked ∧ state.Intact
  have kept : invariant server := by
    refine run_invariant_of_meets (fun state label next held guard taken => ?_) start meets reached
    obtain ⟨tabled, asked, intact⟩ := held
    exact ⟨tabled.step taken, asked.step tabled guard.1 taken, intact.step tabled asked guard.2 taken⟩
  exact kept.2.2.sent

instance (server : ChatServer) : DecidablePred server.Requested
  | .poll _ => inferInstanceAs (Decidable (∀ place < _, _))
  | .pollFailure | .accept _ | .recv _ | .dispatch => .isTrue trivial

instance (server : ChatServer) (fd : Int) : Decidable (server.Unawaited fd) :=
  inferInstanceAs (Decidable (∀ entry ∈ server.entries, entry.fd ≠ fd → _ → _))

instance (server : ChatServer) : DecidablePred server.Careful
  | .recv (.data _) => inferInstanceAs (Decidable (_ ∨ _))
  | .recv .closed | .recv .again | .recv .failed => inferInstanceAs (Decidable (∀ index ∈ server.current, _))
  | .dispatch => inferInstanceAs (Decidable (∀ index ∈ server.current, _ → _ → _))
  | .poll _ | .pollFailure | .accept _ => .isTrue trivial

/-- A message of 5 is written to 6 and 7. -/
def speaks : List ChatLabel :=
  connects 0 [5, 6, 7] ++ [.poll [0, pollin, 0, 0], .dispatch, .recv (.data [97]), .dispatch, .dispatch]

theorem messages_intact_both :
    ∃ server, run step zeroed (speaks ++ [.poll [0, 0, pollout, pollout], .dispatch, .dispatch, .dispatch, .dispatch]) =
        some server ∧
      server.sent = [⟨6, [97], some ⟨5, [97]⟩⟩, ⟨7, [97], some ⟨5, [97]⟩⟩] ∧
      ∀ sent ∈ server.sent, ∃ message, sent.message = some message ∧ message.sender ≠ sent.recipient ∧
        sent.text = message.text := by
  have computed : (run step zeroed (speaks ++
      [.poll [0, 0, pollout, pollout], .dispatch, .dispatch, .dispatch, .dispatch])).map (·.sent) =
      some [⟨6, [97], some ⟨5, [97]⟩⟩, ⟨7, [97], some ⟨5, [97]⟩⟩] := by decide +kernel
  obtain ⟨server, reached, sent⟩ := Option.map_eq_some_iff.mp computed
  exact ⟨server, reached, sent, messages_intact 3 (fun _ => ⟨.null, []⟩) (fun _ => ⟨0, 0, 0⟩) _ (by decide +kernel)
    reached⟩

/-- 5 leaves before 7 is written: its record is overwritten with that of 7, and 7 is sent an
empty text in place of the message. -/
theorem message_lost :
    ∃ server, Meets step Requested zeroed
        (speaks ++ [.poll [0, pollrdhup, 0, pollout], .dispatch, .dispatch, .dispatch, .dispatch]) ∧
      run step zeroed (speaks ++ [.poll [0, pollrdhup, 0, pollout], .dispatch, .dispatch, .dispatch, .dispatch]) =
        some server ∧
      ∃ sent ∈ server.sent, sent = ⟨7, [], some ⟨5, [97]⟩⟩ ∧ ¬ ∃ message, sent.message = some message ∧
        message.sender ≠ sent.recipient ∧ sent.text = message.text := by
  have computed : (run step zeroed (speaks ++
      [.poll [0, pollrdhup, 0, pollout], .dispatch, .dispatch, .dispatch, .dispatch])).map (·.sent) =
      some [⟨7, [], some ⟨5, [97]⟩⟩] := by decide +kernel
  obtain ⟨server, reached, sent⟩ := Option.map_eq_some_iff.mp computed
  refine ⟨server, by decide +kernel, reached, _, sent ▸ List.mem_singleton_self _, rfl, ?_⟩
  rintro ⟨message, same, -, text⟩
  cases same
  cases text

/-! ## Reading and writing in turn -/

/-- The entry of a client asks to read, or to write while a message waits for it. -/
def Alternates (server : ChatServer) : Prop :=
  ∀ entry ∈ server.entries,
    (has entry.events pollout = (server.message entry.fd).isSome ∧
      has entry.events pollin = (server.message entry.fd).isNone) ∧
    entry.events &&& ~~~(pollin ||| pollout ||| pollrdhup ||| pollerr) = 0

/-- No client waits for a message, and all ask for what they asked for at first. -/
def Quiet (server : ChatServer) : Prop :=
  ∀ entry ∈ server.entries, entry.events = pollin ||| pollrdhup ||| pollerr ∧ server.message entry.fd = none

theorem Quiet.alternates (quiet : server.Quiet) : server.Alternates := by
  intro entry member
  obtain ⟨events, message⟩ := quiet entry member
  rw [events, message]
  decide

theorem Quiet.remove (quiet : server.Quiet) (placed : server.Placed) {index : Int} (above : 0 ≤ index)
    (below : index ≤ server.userCounter) : (server.remove index).Quiet :=
  fun entry member => quiet entry (placed.mem_entries_remove above below member).1

theorem Quiet.accept (quiet : server.Quiet) (index connfd : Int) :
    (((server.mark index).onAccept connfd).advance (index + 1)).Quiet := by
  unfold onAccept
  split_ifs with full
  · exact quiet
  · intro entry member
    obtain ⟨place, above, below, rfl⟩ := mem_entries.mp member
    replace below : place ≤ server.userCounter + 1 := below
    by_cases new : place = server.userCounter + 1
    · simp [advance, admits, mark, new]
    · rw [fds_admits_ne server index connfd new]
      have old : place ≤ server.userCounter := by omega
      obtain ⟨events, message⟩ := quiet _ (mem_entries.mpr ⟨place, above, old, rfl⟩)
      refine ⟨events, ?_⟩
      by_cases own : (server.fds place).fd = connfd
      · simp [advance, admits, own]
      · simpa [advance, admits, mark, own] using message

/-- The sender is the only entry, and the loop passes over it. -/
theorem Quiet.broadcast (quiet : server.Quiet) (alone : server.userCounter ≤ 1) {index : Int} (above : 0 < index)
    (below : index ≤ server.userCounter) (received : List UInt8) :
    ((((server.mark index).fill (server.fds index).fd received).broadcast (server.fds index).fd received).advance
      (index + 1)).Quiet := by
  have same := sameTable_broadcast ((server.mark index).fill (server.fds index).fd received) (server.fds index).fd
    received
  intro entry member
  obtain ⟨place, first, last, rfl⟩ := mem_entries.mp member
  replace last : place ≤ server.userCounter := same.userCounter ▸ last
  obtain rfl : place = index := by omega
  obtain ⟨events, message⟩ := quiet _ (mem_entries.mpr ⟨place, first, last, rfl⟩)
  have kept := (broadcast_fds (server.fds place).fd received
    ((server.mark place).fill (server.fds place).fd received) place).2.2 rfl
  have own := (broadcast_own (server.fds place).fd received
    ((server.mark place).fill (server.fds place).fd received)).2
  exact ⟨(congrArg PollFd.events kept).trans events, (congrArg _ (congrArg PollFd.fd kept)).trans (own.trans message)⟩

theorem Quiet.step (quiet : server.Quiet) (tabled : server.Tabled) (asked : server.Asked) {label : ChatLabel}
    (alone : server.Alone label) (taken : server.step label = some next) : next.Quiet := by
  cases step_change taken with
  | poll revents polling count reported done =>
    subst done
    intro entry member
    obtain ⟨place, above, below, rfl⟩ := mem_entries.mp member
    rw [fds_polled server revents (by omega) below]
    exact quiet (server.fds place) (mem_entries.mpr ⟨place, above, below, rfl⟩)
  | leave polling done => exact done ▸ quiet
  | accept index connfd scanning branch fresh done =>
    exact done ▸ quiet.accept index connfd
  | hangup index scanning branch done =>
    obtain ⟨above, below⟩ := tabled.inside index scanning
    exact done ▸ quiet.remove tabled.placed above below
  | data index received scanning branch nonempty fits done =>
    obtain ⟨above, below⟩ := tabled.inside index scanning
    have client : index ≠ 0 := tabled.client (by simp [branch])
    exact done ▸ quiet.broadcast alone (by omega) below received
  | clear index result other scanning branch done => exact done ▸ quiet
  | fail index scanning branch done =>
    obtain ⟨above, below⟩ := tabled.inside index scanning
    exact done ▸ quiet.remove tabled.placed above below
  | send index scanning branch done =>
    obtain ⟨above, below⟩ := tabled.inside index scanning
    have client : index ≠ 0 := tabled.client (by simp [branch])
    have asks := asked index (mem_current scanning) index (Int.le_refl _) below (pollout_of_send branch)
    obtain ⟨events, -⟩ := quiet _ (mem_entries.mpr ⟨index, by omega, below, rfl⟩)
    rw [events] at asks
    simp [has, pollin, pollrdhup, pollerr, pollout] at asks
  | pass index label scanning hangup done => exact done ▸ quiet

theorem Quiet.create (listenfd : Int) (users : Int → ClientData) (fds : Int → PollFd) :
    (create listenfd users fds).Quiet := by
  intro entry member
  obtain ⟨place, above, below, -⟩ := mem_entries.mp member
  replace below : place ≤ 0 := below
  omega

/-- In a run in which nobody sends while there is somebody to send to, each client between two
calls of `poll` asks for exactly one of `POLLIN` and `POLLOUT`, and for nothing unknown. -/
theorem masks_alternate (listenfd : Int) (users : Int → ClientData) (fds : Int → PollFd) (labels : List ChatLabel)
    (meets : Meets ChatServer.step (fun server label => server.Requested label ∧ server.Alone label)
      (create listenfd users fds) labels)
    (reached : run ChatServer.step (create listenfd users fds) labels = some server) : server.Alternates := by
  have start : (create listenfd users fds).Tabled ∧ (create listenfd users fds).Asked ∧
      (create listenfd users fds).Quiet :=
    ⟨.create _ _ _, fun _ member => (by cases member), .create _ _ _⟩
  let invariant (state : ChatServer) : Prop := state.Tabled ∧ state.Asked ∧ state.Quiet
  have kept : invariant server := by
    refine run_invariant_of_meets (fun state label next held guard taken => ?_) start meets reached
    obtain ⟨tabled, asked, quiet⟩ := held
    exact ⟨tabled.step taken, asked.step tabled guard.1 taken, quiet.step tabled asked guard.2 taken⟩
  exact kept.2.2.alternates

instance (server : ChatServer) : DecidablePred server.Alone
  | .recv (.data _) => inferInstanceAs (Decidable (_ ≤ _))
  | .poll _ | .pollFailure | .accept _ | .recv .closed | .recv .again | .recv .failed | .dispatch => .isTrue trivial

instance (server : ChatServer) : Decidable server.Alternates :=
  inferInstanceAs (Decidable (∀ entry ∈ server.entries, _))

/-- A client speaks before the second one comes. -/
theorem masks_alternate_two :
    ∃ server, run step zeroed (connects 0 [5] ++ [.poll [0, pollin], .dispatch, .recv (.data [97])] ++ connects 1 [6]) =
        some server ∧ server.userCounter = 2 ∧ server.Alternates := by
  have computed : (run step zeroed (connects 0 [5] ++ [.poll [0, pollin], .dispatch, .recv (.data [97])] ++
      connects 1 [6])).map (·.userCounter) = some 2 := by decide +kernel
  obtain ⟨server, reached, count⟩ := Option.map_eq_some_iff.mp computed
  exact ⟨server, reached, count, masks_alternate 3 (fun _ => ⟨.null, []⟩) (fun _ => ⟨0, 0, 0⟩) _ (by decide +kernel)
    reached⟩

/-- 5 has spoken: the entries of 6 and 7 ask for everything there is. -/
theorem masks_full :
    ∃ server, Meets step Requested zeroed speaks ∧ run step zeroed speaks = some server ∧ server.stage = .polling ∧
      (server.fds 2).events = 0xffff#16 ∧ ¬ server.Alternates := by
  have computed : (run step zeroed speaks).map (fun server =>
      (server.stage, (server.fds 2).events, decide server.Alternates)) = some (.polling, 0xffff#16, false) := by
    decide +kernel
  obtain ⟨server, reached, same⟩ := Option.map_eq_some_iff.mp computed
  simp only [Prod.mk.injEq, decide_eq_false_iff_not] at same
  exact ⟨server, by decide +kernel, reached, same⟩

end UnixProgramming.IoMultiplexing.ChatServer
