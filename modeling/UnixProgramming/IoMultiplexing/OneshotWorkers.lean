import Mathlib.Data.List.Nodup
import UnixProgramming.IoMultiplexing.Oneshot

/-! With every argument read in time, a descriptor is armed, or reported, or with one
thread, and nothing a client sends stays behind. An argument that is overwritten leaves a
client to nobody. -/

namespace UnixProgramming.IoMultiplexing

open UnixProgramming.Lib

/-- The descriptor a thread will use, when the argument stays as it is. -/
def Worker.target (slot : Nat) : Worker → Option Nat
  | starting => some slot
  | reading sockfd => some sockfd
  | resetting sockfd => some sockfd
  | finished => none

namespace OneshotServer

def armedAt (server : OneshotServer) (fd : Nat) : Nat :=
  match server.files fd with
  | some client => (server.armed client).toNat
  | none => 0

/-- The threads that use a descriptor. -/
def held (server : OneshotServer) (fd : Nat) : Nat :=
  server.workers.countP fun worker => worker.target server.slot = some fd

/-- Where the right to read a descriptor is: with the kernel, in an event, or with a thread. -/
def rights (server : OneshotServer) (fd : Nat) : Nat :=
  server.armedAt fd + server.pending.count (.client fd) + server.held fd

end OneshotServer

open OneshotServer

/-- Changing one thread changes what is counted by that thread. -/
theorem countP_set_add (counts : Worker → Bool) {workers : List Worker} {index : Nat} {old : Worker} (new : Worker)
    (found : workers[index]? = some old) :
    (workers.set index new).countP counts + (counts old).toNat = workers.countP counts + (counts new).toNat := by
  induction workers generalizing index with
  | nil => simp at found
  | cons head rest ih =>
    cases index with
    | zero =>
      obtain rfl : head = old := by simpa using found
      rw [List.set_cons_zero, List.countP_cons, List.countP_cons]
      cases counts head <;> cases counts new <;> simp
    | succ index =>
      have later := ih (by simpa using found)
      rw [List.set_cons_succ, List.countP_cons, List.countP_cons]
      omega

/-- Every descriptor that is open is in one hand, and its client is accounted for. -/
structure Exclusive (server : OneshotServer) : Prop where
  rights : ∀ fd, server.rights fd = (server.files fd).isSome.toNat
  single : server.workers.count .starting ≤ 1
  owned : ∀ fd other client, server.files fd = some client → server.files other = some client → fd = other
  known : ∀ fd client, server.files fd = some client → client ∈ server.accepted
  announced : ∀ fd client, server.files fd = some client → server.armed client = true →
    (server.sockets client).ready = true → (server.sockets client).edge = true
  conserved : ∀ client, server.received client ++ (server.sockets client).incoming = (server.sockets client).sent
  closed : ∀ client ∈ server.accepted, (∀ fd, server.files fd ≠ some client) →
    (server.sockets client).incoming = [] ∧ (server.sockets client).ended = true

theorem Exclusive.start : Exclusive .start where
  rights := fun fd => rfl
  single := Nat.zero_le 1
  owned := by simp [OneshotServer.start]
  known := by simp [OneshotServer.start]
  announced := by simp [OneshotServer.start]
  conserved := fun client => rfl
  closed := by simp [OneshotServer.start]

variable {server next : OneshotServer} {client fd sockfd connfd index : Nat} {pending : List OneshotSource}

theorem OneshotServer.reported_iff (server : OneshotServer) (events : List OneshotSource) (client : Nat) :
    server.reported events client = true ↔ ∃ fd, .client fd ∈ events ∧ server.files fd = some client := by
  simp only [reported, List.any_eq_true]
  constructor
  · rintro ⟨event, member, same⟩
    cases event with
    | listen => cases same
    | client fd => exact ⟨fd, member, by simpa using same⟩
  · rintro ⟨fd, member, same⟩
    exact ⟨.client fd, member, by simp [same]⟩

theorem held_setWorker {old : Worker} (new : Worker) (found : server.workers[index]? = some old) (fd : Nat) :
    (server.setWorker index new).held fd + (decide (old.target server.slot = some fd)).toNat =
      server.held fd + (decide (new.target server.slot = some fd)).toNat :=
  countP_set_add _ new found

theorem Exclusive.single_setWorker (exclusive : Exclusive server) {old new : Worker}
    (found : server.workers[index]? = some old) (later : new ≠ .starting) :
    (server.setWorker index new).workers.count .starting ≤ 1 := by
  have counted := countP_set_add (· == .starting) new found
  have none : (new == Worker.starting) = false := by simpa using later
  have before := exclusive.single
  rw [none] at counted
  simp only [List.count, setWorker, Bool.toNat_false] at counted before ⊢
  omega

/-- A thread that has a descriptor has the only right to it. -/
theorem Exclusive.of_worker (exclusive : Exclusive server) {worker : Worker}
    (found : server.workers[index]? = some worker) (uses : worker.target server.slot = some sockfd) :
    server.armedAt sockfd = 0 ∧ server.pending.count (.client sockfd) = 0 ∧ server.held sockfd = 1 ∧
      ∃ client, server.files sockfd = some client := by
  have positive : 0 < server.held sockfd :=
    List.countP_pos_iff.mpr ⟨worker, List.mem_of_getElem? found, by simpa using uses⟩
  have rights := exclusive.rights sockfd
  unfold OneshotServer.rights at rights
  cases files : server.files sockfd with
  | none =>
    rw [files] at rights
    simp only [Option.isSome_none, Bool.toNat_false] at rights
    omega
  | some client =>
    rw [files] at rights
    simp only [Option.isSome_some, Bool.toNat_true] at rights
    exact ⟨by omega, by omega, by omega, client, rfl⟩

section Steps

/-- What a client does to its socket. -/
theorem Exclusive.stir (exclusive : Exclusive server) {socket : Socket}
    (still : (server.sockets client).ended = false) (edge : socket.edge = true)
    (conserved : server.received client ++ socket.incoming = socket.sent) :
    Exclusive (server.setSocket client socket) where
  rights := exclusive.rights
  single := exclusive.single
  owned := exclusive.owned
  known := exclusive.known
  announced := by
    intro fd other files armed ready
    by_cases same : other = client
    · subst same
      simpa [setSocket] using edge
    · simp only [setSocket, Function.update_of_ne same] at ready ⊢
      exact exclusive.announced fd other files armed ready
  conserved := by
    intro other
    by_cases same : other = client
    · subst same
      simpa [setSocket] using conserved
    · simpa only [setSocket, Function.update_of_ne same] using exclusive.conserved other
  closed := by
    intro other accepted gone
    have finished := exclusive.closed other accepted gone
    have different : other ≠ client := by
      rintro rfl
      rw [still] at finished
      cases finished.2
    simpa only [setSocket, Function.update_of_ne different] using finished

/-- An event that is reported uses up the right of the kernel. -/
theorem Exclusive.fetch (exclusive : Exclusive server) {events : List OneshotSource} (waits : server.pending = [])
    (distinct : events.Nodup) (fetchable : ∀ event ∈ events, server.Fetchable event) :
    Exclusive { server with
      pending := events
      sockets := fun client => { server.sockets client with
        edge := fetched (server.sockets client).edge (server.reported events client) }
      armed := fun client => server.armed client && !server.reported events client } where
  rights := by
    intro fd
    have before := exclusive.rights fd
    simp only [OneshotServer.rights, armedAt, held, waits, List.count_nil] at before ⊢
    rw [← before]
    cases files : server.files fd with
    | none =>
      have absent : .client fd ∉ events := by
        intro member
        obtain ⟨client, known, -⟩ := fetchable _ member
        rw [files] at known
        cases known
      simp [List.count_eq_zero_of_not_mem absent]
    | some client =>
      have reports : server.reported events client = true ↔ .client fd ∈ events := by
        rw [server.reported_iff]
        constructor
        · rintro ⟨other, member, known⟩
          exact exclusive.owned other fd client known files ▸ member
        · exact fun member => ⟨fd, member, files⟩
      by_cases member : .client fd ∈ events
      · obtain ⟨other, known, armed, -⟩ := fetchable _ member
        obtain rfl : client = other := by simpa [files] using known
        have once : events.count (.client fd) = 1 := by rw [distinct.count, if_pos member]
        simp [reports.mpr member, armed, once]
      · have quiet : server.reported events client = false := by simpa [member] using mt reports.mp member
        simp [quiet, List.count_eq_zero_of_not_mem member]
  single := exclusive.single
  owned := exclusive.owned
  known := exclusive.known
  announced := by
    intro fd client files armed ready
    simp only [Bool.and_eq_true, Bool.not_eq_true'] at armed
    have edge := exclusive.announced fd client files armed.1 ready
    simp [fetched, armed.2, edge]
  conserved := exclusive.conserved
  closed := exclusive.closed

theorem Exclusive.skip (exclusive : Exclusive server) (stage : server.pending = .listen :: pending) :
    Exclusive { server with pending := pending } where
  rights := by
    intro fd
    rw [← exclusive.rights fd]
    simp [OneshotServer.rights, armedAt, held, stage]
  single := exclusive.single
  owned := exclusive.owned
  known := exclusive.known
  announced := exclusive.announced
  conserved := exclusive.conserved
  closed := exclusive.closed

/-- `addfd` on a new connection: it is armed, and what has come before is announced. -/
theorem Exclusive.accept (exclusive : Exclusive server) (stage : server.pending = .listen :: pending)
    (free : server.files connfd = none) (new : client ∉ server.accepted) :
    Exclusive { server.setSocket client (server.sockets client).watch with
      pending := pending
      files := Function.update server.files connfd (some client)
      armed := Function.update server.armed client true
      accepted := client :: server.accepted } where
  rights := by
    intro fd
    have before := exclusive.rights fd
    simp only [OneshotServer.rights, armedAt, held, setSocket, stage] at before ⊢
    by_cases here : fd = connfd
    · subst here
      rw [free] at before
      simp_all
    · rw [Function.update_of_ne here, ← before]
      cases files : server.files fd with
      | none => simp
      | some other =>
        have different : other ≠ client := by
          rintro rfl
          exact new (exclusive.known fd other files)
        simp [Function.update_of_ne different]
  single := exclusive.single
  owned := by
    intro fd other owner first second
    dsimp only at first second
    rw [Function.update_apply] at first second
    split_ifs at first second with one two two
    · rw [one, two]
    · cases first
      exact (new (exclusive.known other client second)).elim
    · cases second
      exact (new (exclusive.known fd client first)).elim
    · exact exclusive.owned fd other owner first second
  known := by
    intro fd owner files
    dsimp only at files ⊢
    rw [Function.update_apply] at files
    split_ifs at files
    · cases files
      exact List.mem_cons_self
    · exact List.mem_cons_of_mem _ (exclusive.known fd owner files)
  announced := by
    intro fd owner files armed ready
    dsimp only [setSocket] at files armed ready ⊢
    by_cases same : owner = client
    · subst same
      simpa using ready
    · rw [Function.update_of_ne same] at armed ready ⊢
      rw [Function.update_apply] at files
      split_ifs at files
      · cases files
        exact (same rfl).elim
      · exact exclusive.announced fd owner files armed ready
  conserved := by
    intro owner
    dsimp only [setSocket]
    by_cases same : owner = client
    · subst same
      simpa using exclusive.conserved owner
    · simpa only [Function.update_of_ne same] using exclusive.conserved owner
  closed := by
    intro owner accepted gone
    dsimp only [setSocket] at accepted gone ⊢
    by_cases same : owner = client
    · subst same
      exact (gone connfd (Function.update_self _ _ _)).elim
    · rw [Function.update_of_ne same]
      refine exclusive.closed owner (by simpa [same] using accepted) fun fd files => ?_
      refine gone fd ?_
      rw [Function.update_of_ne, files]
      rintro rfl
      rw [free] at files
      cases files

/-- The right of the event goes to the thread that is created for it. -/
theorem Exclusive.spawn (exclusive : Exclusive server) (stage : server.pending = .client sockfd :: pending)
    (read : .starting ∉ server.workers) :
    Exclusive { server with
      pending := pending
      slot := sockfd
      workers := server.workers ++ [.starting] } where
  rights := by
    intro fd
    rw [← exclusive.rights fd]
    have same : server.workers.countP (fun worker => decide (worker.target sockfd = some fd)) =
        server.workers.countP fun worker => decide (worker.target server.slot = some fd) := by
      apply List.countP_congr
      intro worker member
      cases worker with
      | starting => exact (read member).elim
      | reading sockfd => exact Iff.rfl
      | resetting sockfd => exact Iff.rfl
      | finished => exact Iff.rfl
    have added : [Worker.starting].countP (fun worker => decide (worker.target sockfd = some fd)) =
        [OneshotSource.client sockfd].count (.client fd) := by
      by_cases here : sockfd = fd
      · simp [here, Worker.target]
      · simp [here, Worker.target]
    have shrunk : server.pending.count (.client fd) =
        [OneshotSource.client sockfd].count (.client fd) + pending.count (.client fd) := by
      rw [stage, ← List.count_append, List.singleton_append]
    simp only [OneshotServer.rights, armedAt, held, List.countP_append, same, added, shrunk]
    omega
  single := by simp [List.count_eq_zero_of_not_mem read]
  owned := exclusive.owned
  known := exclusive.known
  announced := exclusive.announced
  conserved := exclusive.conserved
  closed := exclusive.closed

/-- A thread goes on with the descriptor it has. -/
theorem Exclusive.proceed (exclusive : Exclusive server) {old new : Worker}
    (found : server.workers[index]? = some old) (same : new.target server.slot = old.target server.slot)
    (later : new ≠ .starting) : Exclusive (server.setWorker index new) where
  rights := by
    intro fd
    have counted := held_setWorker new found fd
    rw [same] at counted
    refine Eq.trans ?_ (exclusive.rights fd)
    rw [OneshotServer.rights, OneshotServer.rights, show (server.setWorker index new).armedAt fd = server.armedAt fd from rfl,
      show (server.setWorker index new).pending = server.pending from rfl]
    omega
  single := exclusive.single_setWorker found later
  owned := exclusive.owned
  known := exclusive.known
  announced := exclusive.announced
  conserved := exclusive.conserved
  closed := exclusive.closed

/-- A thread that is done takes its right with it. -/
theorem held_finish {old : Worker} (found : server.workers[index]? = some old)
    (uses : old.target server.slot = some sockfd) (fd : Nat) :
    (server.setWorker index .finished).held fd + (if fd = sockfd then 1 else 0) = server.held fd := by
  have counted := held_setWorker .finished found fd
  rw [uses] at counted
  by_cases here : fd = sockfd
  · simpa [here, Worker.target] using counted
  · simpa [here, Ne.symm here, Worker.target] using counted

/-- At the end of the stream the thread closes the descriptor and is done. -/
theorem Exclusive.close (exclusive : Exclusive server) (found : server.workers[index]? = some (.reading sockfd))
    (files : server.files sockfd = some client) (empty : (server.sockets client).incoming = [])
    (ended : (server.sockets client).ended = true) :
    Exclusive { server.setWorker index .finished with files := Function.update server.files sockfd none } where
  rights := by
    intro fd
    obtain ⟨-, notPending, alone, -⟩ := exclusive.of_worker found rfl
    have left := held_finish found rfl fd
    have before := exclusive.rights fd
    simp only [OneshotServer.rights, armedAt, held, setWorker] at before left alone ⊢
    by_cases here : fd = sockfd
    · subst here
      rw [Function.update_self]
      simp only [if_true] at left
      simp only [Option.isSome_none, Bool.toNat_false]
      omega
    · rw [Function.update_of_ne here, ← before]
      simp only [here, if_false] at left
      omega
  single := @Exclusive.single_setWorker _ _ exclusive _ .finished found (by simp)
  owned := by
    intro fd other owner first second
    dsimp only at first second
    rw [Function.update_apply] at first second
    split_ifs at first second
    exact exclusive.owned fd other owner first second
  known := by
    intro fd owner open'
    dsimp only at open'
    rw [Function.update_apply] at open'
    split_ifs at open'
    exact exclusive.known fd owner open'
  announced := by
    intro fd owner open'
    dsimp only at open'
    rw [Function.update_apply] at open'
    split_ifs at open'
    exact exclusive.announced fd owner open'
  conserved := exclusive.conserved
  closed := by
    intro owner accepted gone
    by_cases same : owner = client
    · subst same
      exact ⟨empty, ended⟩
    · refine exclusive.closed owner accepted fun fd open' => gone fd ?_
      dsimp only
      rw [Function.update_of_ne, open']
      rintro rfl
      rw [files, Option.some.injEq] at open'
      exact same open'.symm

/-- A thread takes bytes from the front of what waits. -/
theorem Exclusive.read (exclusive : Exclusive server) {bytes : List UInt8}
    (taken : bytes ++ ((server.sockets client).take bytes.length).incoming = (server.sockets client).incoming) :
    Exclusive { server.setSocket client ((server.sockets client).take bytes.length) with
      received := Function.update server.received client (server.received client ++ bytes) } where
  rights := exclusive.rights
  single := exclusive.single
  owned := exclusive.owned
  known := exclusive.known
  announced := by
    intro fd owner files armed ready
    dsimp only [setSocket] at ready ⊢
    by_cases same : owner = client
    · subst same
      rw [Function.update_self] at ready ⊢
      refine exclusive.announced fd owner files armed ?_
      by_contra quiet
      obtain ⟨empty, still⟩ := Socket.ready_eq_false.mp (by simpa using quiet)
      have none : ((server.sockets owner).take bytes.length).ready = false := by
        rw [Socket.ready_eq_false, Socket.take_ended]
        exact ⟨by simp [Socket.take, empty], still⟩
      rw [none] at ready
      cases ready
    · rw [Function.update_of_ne same] at ready ⊢
      exact exclusive.announced fd owner files armed ready
  conserved := by
    intro owner
    dsimp only [setSocket]
    by_cases same : owner = client
    · subst same
      rw [Function.update_self, Function.update_self, List.append_assoc, taken, Socket.take_sent]
      exact exclusive.conserved owner
    · simpa only [Function.update_of_ne same] using exclusive.conserved owner
  closed := by
    intro owner accepted gone
    dsimp only [setSocket]
    have finished := exclusive.closed owner accepted gone
    by_cases same : owner = client
    · subst same
      rw [Function.update_self, Socket.take_ended]
      exact ⟨by simp [Socket.take, finished.1], finished.2⟩
    · rwa [Function.update_of_ne same]

/-- The right goes back to the kernel, which announces what has come in between. -/
theorem Exclusive.reset (exclusive : Exclusive server) (found : server.workers[index]? = some (.resetting sockfd))
    (files : server.files sockfd = some client) :
    Exclusive { (server.setWorker index .finished).setSocket client (server.sockets client).watch with
      armed := Function.update server.armed client true } where
  rights := by
    intro fd
    obtain ⟨unarmed, -, -, -⟩ := exclusive.of_worker found rfl
    have left := held_finish found rfl fd
    have armed : armedAt { (server.setWorker index .finished).setSocket client (server.sockets client).watch with
        armed := Function.update server.armed client true } fd = if fd = sockfd then 1 else server.armedAt fd := by
      simp only [armedAt, setWorker, setSocket]
      by_cases here : fd = sockfd
      · simp [here, files]
      · cases open' : server.files fd with
        | none => simp [here]
        | some owner =>
          have different : owner ≠ client := by
            rintro rfl
            exact here (exclusive.owned fd sockfd owner open' files)
          simp [here, Function.update_of_ne different]
    refine Eq.trans ?_ (exclusive.rights fd)
    rw [OneshotServer.rights, armed, OneshotServer.rights, ← left]
    by_cases here : fd = sockfd
    · subst here
      rw [unarmed, if_pos rfl]
      change 1 + server.pending.count (.client fd) + (server.setWorker index .finished).held fd = _
      omega
    · rw [if_neg here, if_neg here]
      rfl
  single := @Exclusive.single_setWorker _ _ exclusive _ .finished found (by simp)
  owned := exclusive.owned
  known := exclusive.known
  announced := by
    intro fd owner open' armed ready
    dsimp only [setSocket] at armed ready ⊢
    by_cases same : owner = client
    · subst same
      simpa using ready
    · rw [Function.update_of_ne same] at armed ready ⊢
      exact exclusive.announced fd owner open' armed ready
  conserved := by
    intro owner
    dsimp only [setSocket, setWorker]
    by_cases same : owner = client
    · subst same
      simpa using exclusive.conserved owner
    · simpa only [Function.update_of_ne same] using exclusive.conserved owner
  closed := by
    intro owner accepted gone
    have finished := exclusive.closed owner accepted gone
    have different : owner ≠ client := by
      rintro rfl
      exact gone sockfd files
    dsimp only [setSocket]
    rwa [Function.update_of_ne different]

theorem Exclusive.recv (exclusive : Exclusive server) {count : Nat} {fails : Bool}
    (taken : server.step (.recv index count fails) = some next) : Exclusive next := by
  simp only [step] at taken
  split at taken
  · next sockfd found =>
    split at taken
    · cases taken
      exact exclusive
    · next client files =>
      split_ifs at taken with failed
      · cases taken
        exact exclusive
      · cases taken
        have room : 0 < min (max 1 count) (bufferSize - 1) := by
          unfold bufferSize
          omega
        cases received : (server.sockets client).recv (min (max 1 count) (bufferSize - 1)) with
        | none => exact exclusive.proceed found rfl (by simp)
        | some bytes =>
          cases bytes with
          | nil =>
            obtain ⟨empty, ended⟩ := (Socket.recv_nil room).mp received
            exact exclusive.close found files empty ended
          | cons byte bytes => exact exclusive.read (Socket.recv_prefix received)
  · cases taken

/-- Every step keeps the rights, as long as no argument is overwritten. -/
theorem Exclusive.step (exclusive : Exclusive server) {label : OneshotLabel} (prompt : server.Prompt label)
    (taken : server.step label = some next) : Exclusive next := by
  cases label with
  | send client bytes =>
    simp only [OneshotServer.step] at taken
    split_ifs at taken with ended
    cases taken
    refine exclusive.stir (by simpa using ended) rfl ?_
    rw [Socket.send, ← List.append_assoc, exclusive.conserved]
  | close client =>
    simp only [OneshotServer.step] at taken
    split_ifs at taken with ended
    cases taken
    exact exclusive.stir (by simpa using ended) rfl (exclusive.conserved client)
  | fetch events =>
    simp only [OneshotServer.step] at taken
    split_ifs at taken with ready
    cases taken
    exact exclusive.fetch ready.1 ready.2.1 ready.2.2
  | accept result =>
    simp only [OneshotServer.step] at taken
    split at taken
    · next pending stage =>
      split at taken
      · cases taken
        exact exclusive.skip stage
      · next connfd client =>
        split_ifs at taken with valid
        cases taken
        exact exclusive.accept stage valid.1 valid.2
    · cases taken
  | spawn created =>
    simp only [OneshotServer.step] at taken
    split at taken
    · next sockfd pending stage =>
      cases taken
      obtain ⟨rfl, read⟩ := prompt
      exact exclusive.spawn stage read
    · cases taken
  | begin index =>
    simp only [OneshotServer.step] at taken
    split at taken
    · next found =>
      cases taken
      exact exclusive.proceed found rfl (by simp)
    · cases taken
  | recv index count fails => exact exclusive.recv taken
  | reset index =>
    simp only [OneshotServer.step] at taken
    split at taken
    · next sockfd found =>
      split at taken
      · next missing =>
        obtain ⟨-, -, -, client, files⟩ := exclusive.of_worker found rfl
        rw [missing] at files
        cases files
      · next client files =>
        cases taken
        exact exclusive.reset found files
    · cases taken

end Steps

theorem Exclusive.of_reached {labels : List OneshotLabel} (prompt : Meets OneshotServer.step Prompt .start labels)
    (reached : run OneshotServer.step .start labels = some server) : Exclusive server :=
  run_invariant_of_meets (fun _ _ _ exclusive held taken => exclusive.step held taken) .start prompt reached

/-- Nobody has the right to read the descriptor, and nobody will get it. -/
structure Abandoned (fd client : Nat) (bytes : List UInt8) (server : OneshotServer) : Prop where
  files : server.files fd = some client
  only : ∀ other, server.files other = some client → other = fd
  unarmed : server.armed client = false
  unreported : .client fd ∉ server.pending
  argument : server.slot ≠ fd
  free : ∀ worker ∈ server.workers, worker.sockfd ≠ some fd
  known : client ∈ server.accepted
  received : server.received client = bytes

section Abandoned
variable {bytes : List UInt8}

theorem Abandoned.setSocket (abandoned : Abandoned fd client bytes server) (other : Nat) (socket : Socket) :
    Abandoned fd client bytes (server.setSocket other socket) :=
  ⟨abandoned.files, abandoned.only, abandoned.unarmed, abandoned.unreported, abandoned.argument, abandoned.free,
    abandoned.known, abandoned.received⟩

theorem Abandoned.setWorker (abandoned : Abandoned fd client bytes server) (index : Nat) {worker : Worker}
    (other : worker.sockfd ≠ some fd) : Abandoned fd client bytes (server.setWorker index worker) where
  files := abandoned.files
  only := abandoned.only
  unarmed := abandoned.unarmed
  unreported := abandoned.unreported
  argument := abandoned.argument
  free := by
    intro present member
    rcases List.mem_or_eq_of_mem_set member with old | rfl
    · exact abandoned.free present old
    · exact other
  known := abandoned.known
  received := abandoned.received

/-- No step gives the right to an abandoned descriptor back. -/
theorem Abandoned.step (abandoned : Abandoned fd client bytes server) {label : OneshotLabel}
    (taken : server.step label = some next) : Abandoned fd client bytes next := by
  cases label with
  | send other more =>
    simp only [OneshotServer.step] at taken
    split_ifs at taken
    cases taken
    exact abandoned.setSocket other _
  | close other =>
    simp only [OneshotServer.step] at taken
    split_ifs at taken
    cases taken
    exact abandoned.setSocket other _
  | fetch events =>
    simp only [OneshotServer.step] at taken
    split_ifs at taken with ready
    cases taken
    refine ⟨abandoned.files, abandoned.only, by simp [abandoned.unarmed], fun member => ?_, abandoned.argument,
      abandoned.free, abandoned.known, abandoned.received⟩
    obtain ⟨other, files, armed, -⟩ := ready.2.2 _ member
    obtain rfl : client = other := by simpa [abandoned.files] using files
    rw [abandoned.unarmed] at armed
    cases armed
  | accept result =>
    simp only [OneshotServer.step] at taken
    split at taken
    · next pending stage =>
      have unreported : .client fd ∉ pending := by
        intro member
        exact abandoned.unreported (by simp [stage, member])
      split at taken
      · cases taken
        exact ⟨abandoned.files, abandoned.only, abandoned.unarmed, unreported, abandoned.argument, abandoned.free,
          abandoned.known, abandoned.received⟩
      · next connfd other =>
        split_ifs at taken with valid
        cases taken
        have apart : fd ≠ connfd := by
          rintro rfl
          rw [abandoned.files] at valid
          cases valid.1
        have different : client ≠ other := by
          rintro rfl
          exact valid.2 abandoned.known
        refine ⟨by simp [apart, abandoned.files], fun otherFd files => ?_, by simp [different, abandoned.unarmed],
          unreported, abandoned.argument, abandoned.free, List.mem_cons_of_mem _ abandoned.known, abandoned.received⟩
        dsimp only at files
        rw [Function.update_apply] at files
        split_ifs at files
        · cases files
          exact (different rfl).elim
        · exact abandoned.only otherFd files
    · cases taken
  | spawn created =>
    simp only [OneshotServer.step] at taken
    split at taken
    · next sockfd pending stage =>
      cases taken
      have unreported := abandoned.unreported
      rw [stage, List.mem_cons, not_or] at unreported
      refine ⟨abandoned.files, abandoned.only, abandoned.unarmed, unreported.2, fun same => unreported.1 (same ▸ rfl),
        fun worker member => ?_, abandoned.known, abandoned.received⟩
      cases created with
      | false => exact abandoned.free worker member
      | true =>
        rcases List.mem_append.mp member with old | new
        · exact abandoned.free worker old
        · rw [List.mem_singleton.mp new]
          simp [Worker.sockfd]
    · cases taken
  | begin index =>
    simp only [OneshotServer.step] at taken
    split at taken
    · cases taken
      exact abandoned.setWorker index (by simpa [Worker.sockfd] using abandoned.argument)
    · cases taken
  | recv index count fails =>
    simp only [OneshotServer.step] at taken
    split at taken
    · next sockfd found =>
      have apart : sockfd ≠ fd := by
        rintro rfl
        exact abandoned.free _ (List.mem_of_getElem? found) rfl
      split at taken
      · cases taken
        exact abandoned
      · next other files =>
        have different : client ≠ other := by
          rintro rfl
          exact apart (abandoned.only sockfd files)
        split_ifs at taken
        · cases taken
          exact abandoned
        · cases taken
          cases (server.sockets other).recv (min (max 1 count) (bufferSize - 1)) with
          | none => exact abandoned.setWorker index (by simpa [Worker.sockfd] using apart)
          | some bytes =>
            cases bytes with
            | nil =>
              obtain ⟨-, only, unarmed, unreported, argument, free, known, received⟩ :=
                @Abandoned.setWorker _ _ _ _ abandoned index .finished (by simp [Worker.sockfd])
              refine ⟨by simpa [worked, Ne.symm apart] using abandoned.files, fun otherFd open' => ?_, unarmed, unreported,
                argument, free, known, received⟩
              dsimp only [worked] at open'
              rw [Function.update_apply] at open'
              split_ifs at open'
              exact abandoned.only otherFd open'
            | cons byte bytes =>
              exact ⟨abandoned.files, abandoned.only, abandoned.unarmed, abandoned.unreported, abandoned.argument,
                abandoned.free, abandoned.known, by simp [worked, different, abandoned.received]⟩
    · cases taken
  | reset index =>
    simp only [OneshotServer.step] at taken
    split at taken
    · next sockfd found =>
      have apart : sockfd ≠ fd := by
        rintro rfl
        exact abandoned.free _ (List.mem_of_getElem? found) rfl
      have finished : Abandoned fd client bytes (server.setWorker index .finished) :=
        abandoned.setWorker index (by simp [Worker.sockfd])
      split at taken
      · cases taken
        exact finished
      · next other files =>
        cases taken
        have different : client ≠ other := by
          rintro rfl
          exact apart (abandoned.only sockfd files)
        obtain ⟨here, only, unarmed, unreported, argument, free, known, received⟩ :=
          finished.setSocket other (server.sockets other).watch
        exact ⟨here, only, by simp [different, abandoned.unarmed], unreported, argument, free, known, received⟩
    · cases taken

end Abandoned

end UnixProgramming.IoMultiplexing
