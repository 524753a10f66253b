import UnixProgramming.Csapp.EchoPool

/-! The pool of the echo server: what is in `read_set` and what is in `clientfd` agree, and
`check_clients` stops early only when it has read from all clients that are ready. -/

namespace UnixProgramming.Csapp

open UnixProgramming.Lib

namespace Pool
variable {p : Pool} {listenfd : Int} {opened : Finset Int}

/-- The parts of the pool agree with each other and with the open descriptors. -/
structure Consistent (p : Pool) (listenfd : Int) (opened : Finset Int) : Prop where
  members : ∀ fd, fd ∈ p.readSet ↔ fd = listenfd ∨ ∃ i, i < fdSetsize ∧ p.clientfd i = fd ∧ 0 ≤ fd
  distinct : ∀ i j, i < fdSetsize → j < fdSetsize → 0 ≤ p.clientfd i → p.clientfd i = p.clientfd j → i = j
  clients : ∀ i, i < fdSetsize → 0 ≤ p.clientfd i → p.clientfd i ≠ listenfd ∧ p.clientfd i ∈ opened
  unused : ∀ i, i < fdSetsize → p.maxi < i → p.clientfd i = -1
  bounded : ∀ fd ∈ p.readSet, fd ≤ p.maxfd
  listener : listenfd ∈ opened
  slots : p.maxi < fdSetsize

theorem Consistent.initPool (p : Pool) (listenfd : Int) : (p.initPool listenfd).Consistent listenfd {listenfd} := by
  have free : ∀ i, i < fdSetsize → (p.initPool listenfd).clientfd i = -1 := fun i small => if_pos small
  refine ⟨fun fd => ?_, fun i j small _ known => ?_, fun i small known => ?_, fun i small _ => free i small, ?_,
    Finset.mem_singleton_self _, ?_⟩
  · constructor
    · exact fun member => .inl (Finset.mem_singleton.mp member)
    · rintro (rfl | ⟨i, small, rfl, known⟩)
      · exact Finset.mem_singleton_self _
      · rw [free i small] at known
        omega
  · rw [free i small] at known
    omega
  · rw [free i small] at known
    omega
  · exact fun fd member => le_of_eq (Finset.mem_singleton.mp member)
  · show (-1 : Int) < fdSetsize
    omega

theorem Consistent.readyClient (consistent : p.Consistent listenfd opened) {fd : Int} (member : fd ∈ p.readSet)
    (other : fd ≠ listenfd) : ∃ i, i < fdSetsize ∧ p.clientfd i = fd ∧ 0 ≤ fd :=
  ((consistent.members fd).mp member).resolve_left other

theorem freeSlot_free {i : Nat} (found : p.freeSlot = some i) : i < fdSetsize ∧ p.clientfd i < 0 := by
  unfold freeSlot at found
  have member := List.mem_of_find?_eq_some found
  have free := List.find?_some found
  exact ⟨List.mem_range.mp member, by simpa using free⟩

/-- A slot that is in use afterwards was in use before, or is the new client's. -/
theorem slot_addClient {connfd : Int} {i : Nat} (known : 0 ≤ (p.addClient connfd).clientfd i) :
    (0 ≤ p.clientfd i ∧ (p.addClient connfd).clientfd i = p.clientfd i ∧
        (p.addClient connfd).clientrio i = p.clientrio i) ∨
      ((p.addClient connfd).clientfd i = connfd ∧
        (p.addClient connfd).clientrio i = (p.clientrio i).rioReadinitb connfd) := by
  unfold addClient at known ⊢
  split at known
  · next found => exact .inl ⟨known, rfl, rfl⟩
  · next free found =>
    dsimp only at known ⊢
    by_cases here : i = free
    · subst here
      exact .inr ⟨Function.update_self _ _ _, Function.update_self _ _ _⟩
    · rw [Function.update_of_ne here] at known
      exact .inl ⟨known, Function.update_of_ne here _ _, Function.update_of_ne here _ _⟩

@[simp] theorem readySet_addClient (p : Pool) (connfd : Int) : (p.addClient connfd).readySet = p.readySet := by
  unfold addClient
  split <;> rfl

@[simp] theorem nready_addClient (p : Pool) (connfd : Int) : (p.addClient connfd).nready = p.nready - 1 := by
  unfold addClient
  split <;> rfl

theorem mem_readSet_addClient (connfd : Int) {fd : Int} (member : fd ∈ p.readSet) :
    fd ∈ (p.addClient connfd).readSet := by
  unfold addClient
  split
  · exact member
  · exact Finset.mem_insert_of_mem member

theorem Consistent.addClient (consistent : p.Consistent listenfd opened) {connfd : Int} (positive : 0 < connfd)
    (fresh : connfd ∉ opened) : (p.addClient connfd).Consistent listenfd (insert connfd opened) := by
  obtain ⟨members, distinct, clients, unused, bounded, listener, slots⟩ := consistent
  unfold Pool.addClient
  split
  · -- no free slot: the client is turned away
    exact ⟨members, distinct, fun i small known => ⟨(clients i small known).1,
      Finset.mem_insert_of_mem (clients i small known).2⟩, unused, bounded, Finset.mem_insert_of_mem listener, slots⟩
  next free found =>
  obtain ⟨inside, empty⟩ := freeSlot_free found
  have apart : connfd ≠ listenfd := fun same => fresh (same ▸ listener)
  have unknown : ∀ i, i < fdSetsize → p.clientfd i ≠ connfd := fun i small same =>
    fresh (same ▸ (clients i small (by omega)).2)
  refine ⟨fun fd => ?_, fun i j smallI smallJ known same => ?_, fun i small known => ?_, fun i small above => ?_,
    fun fd member => ?_, Finset.mem_insert_of_mem listener, ?_⟩
  · dsimp only
    rw [Finset.mem_insert, members fd]
    constructor
    · rintro (rfl | rfl | ⟨i, small, rfl, known⟩)
      · exact .inr ⟨free, inside, Function.update_self _ _ _, by omega⟩
      · exact .inl rfl
      · refine .inr ⟨i, small, Function.update_of_ne ?_ _ _, known⟩
        rintro rfl
        omega
    · rintro (rfl | ⟨i, small, rfl, known⟩)
      · exact .inr (.inl rfl)
      · by_cases here : i = free
        · exact .inl (by rw [here, Function.update_self])
        · rw [Function.update_of_ne here] at known ⊢
          exact .inr (.inr ⟨i, small, rfl, known⟩)
  · dsimp only at known same
    by_cases hereI : i = free
    · by_cases hereJ : j = free
      · rw [hereI, hereJ]
      · rw [hereI, Function.update_self, Function.update_of_ne hereJ] at same
        exact absurd same.symm (unknown j smallJ)
    · rw [Function.update_of_ne hereI] at known same
      by_cases hereJ : j = free
      · rw [hereJ, Function.update_self] at same
        exact absurd same (unknown i smallI)
      · rw [Function.update_of_ne hereJ] at same
        exact distinct i j smallI smallJ known same
  · by_cases here : i = free
    · rw [here]
      dsimp only
      rw [Function.update_self]
      exact ⟨apart, Finset.mem_insert_self _ _⟩
    · dsimp only at known ⊢
      rw [Function.update_of_ne here] at known ⊢
      exact ⟨(clients i small known).1, Finset.mem_insert_of_mem (clients i small known).2⟩
  · dsimp only at above ⊢
    rw [Function.update_of_ne (by split_ifs at above <;> omega)]
    exact unused i small (by split_ifs at above <;> omega)
  · dsimp only at member ⊢
    rcases Finset.mem_insert.mp member with rfl | old
    · split_ifs <;> omega
    · have before := bounded fd old
      split_ifs <;> omega
  · dsimp only
    split_ifs <;> omega

/-- The client in a slot is closed. -/
theorem Consistent.remove (consistent : p.Consistent listenfd opened) {i : Nat} (small : i < fdSetsize)
    (known : 0 ≤ p.clientfd i) (nready : Int) :
    Consistent { p with
      nready := nready
      readSet := p.readSet.erase (p.clientfd i)
      clientfd := Function.update p.clientfd i (-1) } listenfd (opened.erase (p.clientfd i)) := by
  obtain ⟨members, distinct, clients, unused, bounded, listener, slots⟩ := consistent
  have kept : ∀ j, 0 ≤ Function.update p.clientfd i (-1) j →
      j ≠ i ∧ Function.update p.clientfd i (-1) j = p.clientfd j := by
    intro j valid
    by_cases here : j = i
    · rw [here, Function.update_self] at valid
      omega
    · exact ⟨here, Function.update_of_ne here _ _⟩
  refine ⟨fun fd => ?_, fun j k smallJ smallK valid same => ?_, fun j smallJ valid => ?_, fun j smallJ above => ?_,
    fun fd member => bounded fd (Finset.mem_of_mem_erase member), ?_, slots⟩
  · dsimp only
    rw [Finset.mem_erase, members fd]
    constructor
    · rintro ⟨other, rfl | ⟨j, smallJ, rfl, valid⟩⟩
      · exact .inl rfl
      · have apart : j ≠ i := by
          rintro rfl
          exact other rfl
        exact .inr ⟨j, smallJ, Function.update_of_ne apart _ _, valid⟩
    · rintro (rfl | ⟨j, smallJ, rfl, valid⟩)
      · exact ⟨(clients i small known).1.symm, .inl rfl⟩
      · obtain ⟨apart, same⟩ := kept j valid
        rw [same] at valid ⊢
        exact ⟨fun equal => apart (distinct j i smallJ small valid equal), .inr ⟨j, smallJ, rfl, valid⟩⟩
  · obtain ⟨-, sameJ⟩ := kept j valid
    dsimp only at same valid
    rw [sameJ] at same valid
    obtain ⟨-, sameK⟩ := kept k (by rw [← same]; exact valid)
    exact distinct j k smallJ smallK valid (same.trans sameK)
  · obtain ⟨apart, same⟩ := kept j valid
    dsimp only at valid ⊢
    rw [same] at valid ⊢
    obtain ⟨other, open_⟩ := clients j smallJ valid
    exact ⟨other, Finset.mem_erase.mpr ⟨fun equal => apart (distinct j i smallJ small valid equal), open_⟩⟩
  · by_cases here : j = i
    · rw [here]
      exact Function.update_self _ _ _
    · exact (Function.update_of_ne here _ _).trans (unused j smallJ above)
  · exact Finset.mem_erase.mpr ⟨(clients i small known).1.symm, listener⟩

end Pool

namespace EchoServer
variable {server next : EchoServer}

/-- The clients the round has to read from. -/
def due (server : EchoServer) : Finset Int := server.pool.readySet.erase server.listenfd

/-- The pass has come to an index: it has read from clients that are due, each once, and the
others are still to come, `nready` of them. -/
structure Passing (server : EchoServer) (i : Nat) : Prop where
  once : server.served.Nodup
  ready : ∀ fd ∈ server.served, fd ∈ server.due
  known : ∀ fd ∈ server.due, 0 ≤ fd
  count : server.pool.nready = (server.due \ server.served.toFinset).card
  ahead : ∀ fd ∈ server.due, fd ∉ server.served → ∃ j, i ≤ j ∧ j < fdSetsize ∧ server.pool.clientfd j = fd
  behind : ∀ j, i ≤ j → j < fdSetsize → server.pool.clientfd j ∉ server.served

/-- What is known of the round at each stage. -/
def Round (server : EchoServer) : Prop :=
  match server.stage with
  | .selecting => server.served.Nodup ∧ ∀ fd, fd ∈ server.served ↔ fd ∈ server.due
  | .accepting => server.served = [] ∧ server.listenfd ∈ server.pool.readySet ∧
      server.pool.nready = server.pool.readySet.card ∧ server.pool.readySet ⊆ server.pool.readSet
  | .checking i => server.Passing i
  | .blocked => True

structure Pooled (server : EchoServer) : Prop where
  consistent : server.pool.Consistent server.listenfd server.opened
  positive : ∀ i, i < fdSetsize → 0 ≤ server.pool.clientfd i → 0 < server.pool.clientfd i
  round : server.Round

/-- A pass begins with all ready clients ahead of it. -/
theorem Passing.begin (consistent : server.pool.Consistent server.listenfd server.opened) (none : server.served = [])
    (count : server.pool.nready = server.due.card) (known : ∀ fd ∈ server.due, fd ∈ server.pool.readSet) :
    server.Passing 0 := by
  have client : ∀ fd ∈ server.due, ∃ i, i < fdSetsize ∧ server.pool.clientfd i = fd ∧ 0 ≤ fd := fun fd member =>
    consistent.readyClient (known fd member) (Finset.ne_of_mem_erase member)
  refine ⟨by simp [none], by simp [none], fun fd member => ?_, by simp [none, count], fun fd member _ => ?_,
    by simp [none]⟩
  · obtain ⟨-, -, -, valid⟩ := client fd member
    exact valid
  · obtain ⟨i, small, same, -⟩ := client fd member
    exact ⟨i, Nat.zero_le i, small, same⟩

/-- The pass leaves out a slot whose client is not ready. -/
theorem Passing.skip {i : Nat} (passing : server.Passing i) (other : server.pool.clientfd i ∉ server.due) :
    server.Passing (i + 1) := by
  obtain ⟨once, ready, known, count, ahead, behind⟩ := passing
  refine ⟨once, ready, known, count, fun fd member unserved => ?_, fun j above => behind j (by omega)⟩
  obtain ⟨j, above, small, same⟩ := ahead fd member unserved
  refine ⟨j, ?_, small, same⟩
  have apart : j ≠ i := by
    rintro rfl
    exact other (same ▸ member)
  omega

/-- The pass has read from the client in a slot. -/
theorem Passing.read {i : Nat} (passing : server.Passing i) (small : i < fdSetsize)
    (member : server.pool.clientfd i ∈ server.due) (listenfd : next.listenfd = server.listenfd)
    (readySet : next.pool.readySet = server.pool.readySet) (count : next.pool.nready = server.pool.nready - 1)
    (served : next.served = server.served ++ [server.pool.clientfd i])
    (slots : ∀ j, i < j → next.pool.clientfd j = server.pool.clientfd j)
    (distinct : ∀ j, j < fdSetsize → i < j → server.pool.clientfd j ≠ server.pool.clientfd i) :
    next.Passing (i + 1) := by
  have due : next.due = server.due := by rw [EchoServer.due, EchoServer.due, listenfd, readySet]
  have unserved := passing.behind i (Nat.le_refl i) small
  refine ⟨?_, fun fd found => ?_, due ▸ passing.known, ?_, fun fd found missing => ?_, fun j above smallJ => ?_⟩
  · rw [served, List.nodup_append]
    refine ⟨passing.once, by simp, fun fd found other here => ?_⟩
    rw [List.mem_singleton.mp here]
    rintro rfl
    exact unserved found
  · rw [due]
    rw [served, List.mem_append, List.mem_singleton] at found
    rcases found with old | rfl
    · exact passing.ready fd old
    · exact member
  · have open_ : server.pool.clientfd i ∈ server.due \ server.served.toFinset := by
      simpa using ⟨member, unserved⟩
    have split : server.due \ next.served.toFinset =
        (server.due \ server.served.toFinset).erase (server.pool.clientfd i) := by
      ext fd
      simp only [served, Finset.mem_sdiff, Finset.mem_erase, List.mem_toFinset, List.mem_append, List.mem_singleton,
        not_or]
      constructor
      · rintro ⟨ready, old, new⟩
        exact ⟨new, ready, old⟩
      · rintro ⟨new, ready, old⟩
        exact ⟨ready, old, new⟩
    have some : 0 < (server.due \ server.served.toFinset).card := Finset.card_pos.mpr ⟨_, open_⟩
    rw [count, passing.count, due, split, Finset.card_erase_of_mem open_]
    omega
  · rw [due] at found
    rw [served, List.mem_append, List.mem_singleton, not_or] at missing
    obtain ⟨j, above, smallJ, same⟩ := passing.ahead fd found missing.1
    have apart : j ≠ i := by
      rintro rfl
      exact missing.2 same.symm
    exact ⟨j, by omega, smallJ, (slots j (by omega)).trans same⟩
  · rw [served, slots j (by omega), List.mem_append, List.mem_singleton, not_or]
    exact ⟨passing.behind j (by omega) smallJ, distinct j smallJ (by omega)⟩

/-- When the loop ends, nobody is left out. -/
theorem Passing.finish {i : Nat} (passing : server.Passing i)
    (consistent : server.pool.Consistent server.listenfd server.opened)
    (ended : ¬ (i ≤ server.pool.maxi ∧ 0 < server.pool.nready)) :
    server.served.Nodup ∧ ∀ fd, fd ∈ server.served ↔ fd ∈ server.due := by
  refine ⟨passing.once, fun fd => ⟨passing.ready fd, fun member => ?_⟩⟩
  by_contra missing
  have left : fd ∈ server.due \ server.served.toFinset := by simpa using ⟨member, missing⟩
  have more : 0 < (server.due \ server.served.toFinset).card := Finset.card_pos.mpr ⟨fd, left⟩
  obtain ⟨j, above, small, same⟩ := passing.ahead fd member missing
  have count := passing.count
  have free := consistent.unused j small (by omega)
  have valid := passing.known fd member
  omega

/-- What reading from a client does to the pool: its entry stays, or it is closed. -/
inductive Reads (server next : EchoServer) (i : Nat) : Prop where
  | keep (stage : next.stage = .blocked ∨ next.stage = .checking (i + 1))
    (pool : next.pool = { server.pool with nready := server.pool.nready - 1 }) (opened : next.opened = server.opened)
  | drop (stage : next.stage = .checking (i + 1))
    (pool : next.pool = { server.pool with
      nready := server.pool.nready - 1
      readSet := server.pool.readSet.erase (server.pool.clientfd i)
      clientfd := Function.update server.pool.clientfd i (-1) })
    (opened : next.opened = server.opened.erase (server.pool.clientfd i))

theorem serve_reads (server : EchoServer) (i : Nat) :
    (server.serve i).listenfd = server.listenfd ∧
      (server.serve i).served = server.served ++ [server.pool.clientfd i] ∧ server.Reads (server.serve i) i := by
  unfold serve
  split
  · exact ⟨rfl, rfl, .keep (.inl rfl) rfl rfl⟩
  · split_ifs
    · refine ⟨rfl, rfl, .keep ?_ rfl rfl⟩
      unfold echo
      dsimp only
      split_ifs
      · exact .inl rfl
      · exact .inr rfl
    · exact ⟨rfl, rfl, .drop rfl rfl rfl⟩

theorem Pooled.start (listenfd : Int) (errno : Errno) (sockets : Int → Socket) :
    (start listenfd errno sockets).Pooled := by
  refine ⟨.initPool static listenfd, fun i small known => ?_, by simp [EchoServer.start], fun fd => ?_⟩
  · have free : (EchoServer.start listenfd errno sockets).pool.clientfd i = -1 := if_pos small
    rw [free] at known
    omega
  · simp [EchoServer.start, due, static, Pool.initPool]

theorem Pooled.serve (pooled : server.Pooled) {i : Nat} (checking : server.stage = .checking i)
    (inside : i ≤ server.pool.maxi) (positive : 0 < server.pool.clientfd i)
    (ready : server.pool.clientfd i ∈ server.pool.readySet) : (server.serve i).Pooled := by
  obtain ⟨consistent, valid, round⟩ := pooled
  rw [Round, checking] at round
  have small : i < fdSetsize := by
    have slots := consistent.slots
    omega
  have member : server.pool.clientfd i ∈ server.due :=
    Finset.mem_erase.mpr ⟨(consistent.clients i small (by omega)).1, ready⟩
  have distinct : ∀ j, j < fdSetsize → i < j → server.pool.clientfd j ≠ server.pool.clientfd i := by
    intro j smallJ above same
    have equal := consistent.distinct i j small smallJ (by omega) same.symm
    omega
  obtain ⟨listenfd, served, reads⟩ := serve_reads server i
  cases reads with
  | keep stage pool opened =>
    refine ⟨?_, by rw [pool]; exact valid, ?_⟩
    · rw [listenfd, pool, opened]
      exact ⟨consistent.members, consistent.distinct, consistent.clients, consistent.unused, consistent.bounded,
        consistent.listener, consistent.slots⟩
    · rcases stage with blocked | next
      · rw [Round, blocked]
        trivial
      · rw [Round, next]
        exact round.read small member listenfd (by rw [pool]) (by rw [pool]) served (fun j _ => by rw [pool]) distinct
  | drop stage pool opened =>
    refine ⟨?_, fun j smallJ known => ?_, ?_⟩
    · rw [listenfd, pool, opened]
      exact consistent.remove small (by omega) _
    · rw [pool] at known ⊢
      dsimp only at known ⊢
      by_cases here : j = i
      · rw [here, Function.update_self] at known
        omega
      · rw [Function.update_of_ne here] at known ⊢
        exact valid j smallJ known
    · rw [Round, stage]
      refine round.read small member listenfd (by rw [pool]) (by rw [pool]) served (fun j above => ?_) distinct
      rw [pool]
      exact Function.update_of_ne (by omega) _ _

theorem Pooled.accept (pooled : server.Pooled) (accepting : server.stage = .accepting) {connfd : Int}
    (positive : 0 < connfd) (fresh : connfd ∉ server.opened) (client : Socket) :
    (server.onAccept connfd client).Pooled := by
  obtain ⟨consistent, valid, round⟩ := pooled
  rw [Round, accepting] at round
  obtain ⟨none, listening, count, within⟩ := round
  have added := consistent.addClient positive fresh
  have pool : (server.onAccept connfd client).pool = server.pool.addClient connfd := by simp only [onAccept]
  have due : (server.onAccept connfd client).due = server.due := by
    simp only [EchoServer.due, onAccept, Pool.readySet_addClient]
  have kept : (server.onAccept connfd client).pool.Consistent (server.onAccept connfd client).listenfd
      (server.onAccept connfd client).opened := by
    simp only [onAccept]
    exact added
  refine ⟨kept, fun i small known => ?_, ?_⟩
  · rw [pool] at known ⊢
    rcases Pool.slot_addClient known with ⟨old, same, -⟩ | ⟨same, -⟩
    · rw [same]
      exact valid i small old
    · rw [same]
      exact positive
  · show (server.onAccept connfd client).Passing 0
    apply Passing.begin kept
    · simp only [onAccept, none]
    · have some : 0 < server.pool.readySet.card := Finset.card_pos.mpr ⟨_, listening⟩
      rw [due, EchoServer.due, Finset.card_erase_of_mem listening, pool, Pool.nready_addClient, count]
      omega
    · rw [due, pool]
      intro fd member
      exact Pool.mem_readSet_addClient connfd (within (Finset.mem_of_mem_erase member))

theorem Pooled.step (pooled : server.Pooled) {label : EchoLabel} (taken : server.step label = some next) :
    next.Pooled := by
  cases step_change taken with
  | select ready stack selecting within done =>
    subst done
    obtain ⟨consistent, valid, -⟩ := pooled
    have kept : (server.onSelect ready stack).pool.Consistent server.listenfd server.opened :=
      ⟨consistent.members, consistent.distinct, consistent.clients, consistent.unused, consistent.bounded,
        consistent.listener, consistent.slots⟩
    refine ⟨kept, valid, ?_⟩
    by_cases listening : server.listenfd ∈ ready
    · have stage : (server.onSelect ready stack).stage = .accepting := if_pos listening
      rw [Round, stage]
      exact ⟨rfl, listening, rfl, within⟩
    · have stage : (server.onSelect ready stack).stage = .checking 0 := if_neg listening
      have due : (server.onSelect ready stack).due = ready := Finset.erase_eq_of_notMem listening
      rw [Round, stage]
      exact .begin kept rfl (by rw [due]; rfl) fun fd member => within (due ▸ member)
  | accept connfd stream reads writes accepting positive fresh done =>
    exact done ▸ pooled.accept accepting positive fresh _
  | finish i checking ended done =>
    subst done
    obtain ⟨consistent, valid, round⟩ := pooled
    rw [Round, checking] at round
    exact ⟨consistent, valid, round.finish consistent ended⟩
  | pass i checking inside quiet done =>
    subst done
    obtain ⟨consistent, valid, round⟩ := pooled
    rw [Round, checking] at round
    have slots := consistent.slots
    have skipped := round.skip fun member =>
      quiet ⟨valid i (by omega) (round.known _ member), Finset.mem_of_mem_erase member⟩
    exact ⟨consistent, valid, skipped.once, skipped.ready, skipped.known, skipped.count, skipped.ahead, skipped.behind⟩
  | serve i checking inside positive ready done => exact done ▸ pooled.serve checking inside positive ready

theorem step_listenfd {label : EchoLabel} (taken : server.step label = some next) :
    next.listenfd = server.listenfd := by
  cases step_change taken with
  | serve i checking inside positive ready done => exact done ▸ (serve_reads server i).1
  | select _ _ _ _ done | accept _ _ _ _ _ _ _ done | finish _ _ _ done | pass _ _ _ _ done =>
    subst done
    rfl

end EchoServer
end UnixProgramming.Csapp
