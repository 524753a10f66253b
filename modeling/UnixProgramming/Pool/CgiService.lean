import UnixProgramming.Pool.CgiIsolation

/-! What the clients of a child get: each the program its own first line names, and each
as soon as the child has nothing left to do. -/

namespace UnixProgramming.Pool

open UnixProgramming.Lib HttpConn

variable {child : CgiChild} {client : Nat} {users : Nat → CgiConn} {labels : List ChildLabel}

theorem Isolated.of_reached (reached : run CgiChild.step (.start users) labels = some child) : Isolated child :=
  run_invariant (fun _ _ _ isolated taken => isolated.step taken) (Isolated.start users) reached

/-- The calls of a request that has been run, and the bytes that were read for it. -/
theorem Executed.named {calls : List CgiCall} {conn : CgiConn} {sent : List UInt8}
    (done : Executed (arrived calls) ⟨conn, calls, false⟩) (starts : arrived calls <+: sent) :
    ∃ line, FirstLine sent line ∧ line.length + 2 ≤ CgiConn.bufferSize - 1 ∧
      (∃ found, .access (line.takeWhile (· ≠ 0)) found ∈ calls) ∧
      (∀ call ∈ calls, ∀ path ∈ call.path?, path = line.takeWhile (· ≠ 0)) ∧
      calls.countP CgiCall.isFork ≤ 1 := by
  obtain ⟨line, first, -, -, reads, access, fork, same, quiet⟩ := done.line
  simp only at same
  obtain ⟨⟨found, looked⟩, named, once⟩ := executed_calls access fork (line.takeWhile (· ≠ 0))
  have fits := done.fits
  obtain ⟨rest, whole⟩ := first.split
  have length := congrArg List.length whole
  simp only [List.length_append, List.length_cons] at length
  refine ⟨line, first.mono starts, by omega, ⟨found, by rw [same]; exact List.mem_append_right _ looked⟩, ?_, ?_⟩
  · intro call member path names
    rw [same, List.mem_append] at member
    rcases member with early | late
    · have none := (CgiCall.path?_quiet (quiet call early)).1
      rw [none] at names
      cases names
    · exact named call late path names
  · have none : reads.countP CgiCall.isFork = 0 := by
      apply List.countP_eq_zero.mpr
      intro call member
      simp [(CgiCall.path?_quiet (quiet call member)).2]
    rw [same, List.countP_append, none]
    omega

/-- A request that is not complete has run nothing. -/
theorem Reading.nothing {state : CgiResult} {received : List UInt8} (reading : Reading received state) :
    (∀ call ∈ state.calls, call.path? = Option.none) ∧ state.calls.countP CgiCall.isFork = 0 := by
  constructor
  · intro call member
    exact (CgiCall.path?_quiet (reading.quiet call member)).1
  · apply List.countP_eq_zero.mpr
    intro call member
    simp [(CgiCall.path?_quiet (reading.quiet call member)).2]

/-- The clients of a child are kept apart. In every run, with any descriptors reused, the object
behind a descriptor has read, in order and without loss, the bytes of the one client the descriptor
belongs to; what is looked for and run for a client is named by the first line that client has
sent, at most one process is created for it, and its descriptor is given up at most once and never
used afterwards. -/
theorem clients_isolated (users : Nat → CgiConn) (labels : List ChildLabel) (child : CgiChild)
    (reached : run CgiChild.step (.start users) labels = some child) :
    child.stray = [] ∧
    (∀ fd other client, child.files fd = some client → child.files other = some client → fd = other) ∧
    ∀ client, arrived (child.calls client) ++ (child.sockets client).incoming = (child.sockets client).sent ∧
      (∀ call ∈ child.calls client, ∀ path ∈ call.path?,
        ∃ line, FirstLine (child.sockets client).sent line ∧ path = line.takeWhile (· ≠ 0)) ∧
      (child.calls client).countP CgiCall.isFork ≤ 1 ∧ (child.calls client).count .removefd ≤ 1 ∧
      (.removefd ∈ child.calls client ↔ client ∈ child.accepted ∧ ∀ fd, child.files fd ≠ some client) := by
  have isolated := Isolated.of_reached reached
  refine ⟨isolated.stray, fun fd other client first second => ?_, fun client => ⟨isolated.conserved client, ?_⟩⟩
  · cases isolated.standing client with
    | unknown absent gone untouched => exact (gone fd first).elim
    | served own known only serves => rw [(only fd).mp first, (only other).mp second]
    | closed known gone reason once => exact (gone fd first).elim
  have starts : arrived (child.calls client) <+: (child.sockets client).sent := ⟨_, isolated.conserved client⟩
  have quiet : ∀ {conn connected}, Reading (arrived (child.calls client)) ⟨conn, child.calls client, connected⟩ →
      (∀ call ∈ child.calls client, ∀ path ∈ call.path?,
        ∃ line, FirstLine (child.sockets client).sent line ∧ path = line.takeWhile (· ≠ 0)) ∧
      (child.calls client).countP CgiCall.isFork ≤ 1 := by
    intro conn connected reading
    obtain ⟨unnamed, unforked⟩ := reading.nothing
    simp only at unnamed unforked
    refine ⟨fun call member path names => ?_, by omega⟩
    rw [unnamed call member] at names
    cases names
  cases isolated.standing client with
  | unknown absent gone untouched =>
    rw [untouched]
    simp [absent]
  | served fd known only serves =>
    have open' : CgiCall.removefd ∉ child.calls client := by
      intro removed
      have closed := serves.reading.removed.mpr removed
      cases closed
    obtain ⟨named, forked⟩ := quiet serves.reading
    refine ⟨named, forked, by simp [List.count_eq_zero_of_not_mem open'], iff_of_false open' fun gone => ?_⟩
    exact gone.2 fd ((only fd).mpr rfl)
  | closed known gone reason once =>
    have removed : CgiCall.removefd ∈ child.calls client := List.count_pos_iff.mp (by omega)
    have law : (∀ call ∈ child.calls client, ∀ path ∈ call.path?,
        ∃ line, FirstLine (child.sockets client).sent line ∧ path = line.takeWhile (· ≠ 0)) ∧
        (child.calls client).countP CgiCall.isFork ≤ 1 := by
      cases reason with
      | executed conn done =>
        obtain ⟨line, first, -, -, named, forked⟩ := done.named starts
        exact ⟨fun call member path names => ⟨line, first, named call member path names⟩, forked⟩
      | failed conn stopped length error => exact quiet stopped
      | full conn stopped full => exact quiet stopped
      | drained conn stopped empty ended => exact quiet stopped
    exact ⟨law.1, law.2, once.le, iff_of_true removed ⟨known, gone⟩⟩

/-- A client is accepted with the descriptor of one that has been served. -/
theorem clients_isolated_reused :
    ∃ child, run CgiChild.step (.start fun _ => .init)
        [.fetch [.pipe], .notified false, .accept (some (7, 0)), .send 0 (bytes "a\r"), .fetch [.pipe, .client 7],
          .notified false, .accept none, .process, .turn 5 false (fun _ => true) true, .send 0 (bytes "\nb"),
          .turn 9 false (fun _ => true) true, .send 1 (bytes "c"), .fetch [.pipe], .notified false,
          .accept (some (7, 1)), .fetch [.client 7], .process, .turn 1 false (fun _ => true) true] = some child ∧
      ∀ client, arrived (child.calls client) ++ (child.sockets client).incoming = (child.sockets client).sent := by
  have computed : (run CgiChild.step (.start fun _ => .init)
      [.fetch [.pipe], .notified false, .accept (some (7, 0)), .send 0 (bytes "a\r"), .fetch [.pipe, .client 7],
        .notified false, .accept none, .process, .turn 5 false (fun _ => true) true, .send 0 (bytes "\nb"),
        .turn 9 false (fun _ => true) true, .send 1 (bytes "c"), .fetch [.pipe], .notified false,
        .accept (some (7, 1)), .fetch [.client 7], .process, .turn 1 false (fun _ => true) true]).isSome = true := by
    decide +kernel
  obtain ⟨child, reached⟩ := Option.isSome_iff_exists.mp computed
  exact ⟨child, reached, fun client => ((clients_isolated _ _ child reached).2.2 client).1⟩

/-- Where no accepted client has an edge, none of the open descriptors has. -/
theorem Isolated.idle (isolated : Isolated child) (waits : child.stage = .events []) (runs : child.stop = false)
    (quiet : ∀ client ∈ child.accepted, (child.sockets client).edge = false) : child.Idle := by
  refine ⟨waits, runs, fun fd client files => ?_⟩
  cases isolated.standing client with
  | unknown absent gone untouched => exact (gone fd files).elim
  | served own known only serves => exact quiet client known
  | closed known gone reason once => exact (gone fd files).elim

end UnixProgramming.Pool
