import UnixProgramming.Csapp.TinyWeb

/-! How many responses a request gets from the tiny web server, and which programs are run. The
branch of `doit` for static files does not return after `serve_static`. -/

namespace UnixProgramming.Csapp

open UnixProgramming.Lib

/-! ## What reaches the client -/

namespace Effect

/-- The bytes that a call sends when no `write()` fails. -/
def output (host : Host) : Effect → List UInt8
  | write _ text => text
  | sendFile filename filesize =>
    match host.mmap filename filesize with
    | none => []
    | some memory => stretch memory 0 (filesize % 2 ^ 64).toNat
  | execute filename cgiargs => (host.cgi filename cgiargs).getD []

variable {host : Host} {errno : Errno} {sink : Sink}

theorem stretch_text (text : List UInt8) : stretch (fun offset => text.getD offset 0) 0 text.length = text := by
  apply List.ext_getElem
  · simp [stretch]
  · intro index _ below
    simp [stretch, below]

theorem rioWriten_output {memory : Nat → UInt8} {n : Nat} {result : Errno × Sink}
    (benign : ∀ outcome ∈ sink.writes, outcome.Benign)
    (returned : ((rioWriten memory n errno sink).value.map fun _ =>
      ((rioWriten memory n errno sink).errno, (rioWriten memory n errno sink).sink)) = some result) :
    result.2.written = sink.written ++ stretch memory 0 n ∧ ∀ outcome ∈ result.2.writes, outcome.Benign := by
  have passes := rioWriten_passes memory n errno benign
  obtain ⟨value, found, rfl⟩ := Option.map_eq_some_iff.mp returned
  exact ⟨passes.all (by rw [found]; exact nofun), passes.1⟩

theorem perform_output {effect : Effect} {result : Errno × Sink} (benign : ∀ outcome ∈ sink.writes, outcome.Benign)
    (performed : effect.perform host errno sink = some result) :
    result.2.written = sink.written ++ effect.output host ∧ ∀ outcome ∈ result.2.writes, outcome.Benign := by
  cases effect with
  | write responder text =>
    obtain ⟨written, later⟩ := rioWriten_output benign performed
    rw [stretch_text] at written
    exact ⟨written, later⟩
  | sendFile filename filesize =>
    simp only [perform] at performed
    simp only [output]
    cases mapped : host.mmap filename filesize with
    | none =>
      rw [mapped] at performed
      cases performed
      exact ⟨(List.append_nil _).symm, benign⟩
    | some memory =>
      rw [mapped] at performed
      exact rioWriten_output benign performed
  | execute filename cgiargs =>
    obtain ⟨output, ends, rfl⟩ := Option.map_eq_some_iff.mp performed
    refine ⟨?_, benign⟩
    simp [Effect.output, ends]

theorem performAll_output {effects : List Effect} {result : Errno × Sink}
    (benign : ∀ outcome ∈ sink.writes, outcome.Benign)
    (performed : performAll host effects errno sink = some result) :
    result.2.written = sink.written ++ effects.flatMap (output host) := by
  induction effects generalizing errno sink with
  | nil =>
    cases performed
    simp
  | cons effect rest ih =>
    obtain ⟨middle, here, there⟩ := Option.bind_eq_some_iff.mp performed
    obtain ⟨written, later⟩ := perform_output benign here
    rw [ih later there, written, List.flatMap_cons, List.append_assoc]

end Effect

/-- The client gets the bytes of the calls in their order. -/
theorem doit_written {host : Host} {stack : Stack} {fd : Descriptor} {errno : Errno} {sink : Sink}
    {transaction : Transaction} (benign : ∀ outcome ∈ sink.writes, outcome.Benign)
    (returned : doit host stack fd errno sink = some transaction) :
    transaction.sink.written = sink.written ++ transaction.effects.flatMap (Effect.output host) := by
  obtain ⟨effects, -, performed⟩ := Option.bind_eq_some_iff.mp returned
  obtain ⟨after, done, rfl⟩ := Option.map_eq_some_iff.mp performed
  exact Effect.performAll_output benign done

/-! ## How many responses -/

/-- One response by one function, with one status line, and a program is only run for a dynamic
resource that is a regular file its owner may execute. -/
structure OneResponse (host : Host) (target : Target) (effects : List Effect) : Prop where
  line : effects.countP Effect.isStatusLine = 1
  alone : ∃ responder, ∀ effect ∈ effects, effect.responder = responder
  dynamic : ∀ effect ∈ effects, effect.responder = .serveDynamic → target.isStatic = false ∧
    ∃ sbuf, host.stat target.filename = some sbuf ∧ sbuf.isReg = true ∧ sbuf.ownerExecute = true

/-- The request is for a static resource, and nothing keeps `serve_static` from being called. -/
def StaticServed (host : Host) (request : Request) (target : Target) : Prop :=
  caseEqual (str request.method 0) (bytes "GET") = true ∧ target.isStatic = true ∧
    ∃ sbuf, host.stat target.filename = some sbuf ∧ sbuf.isReg = true ∧ sbuf.ownerRead = true

variable {host : Host} {target : Target} {stack : Stack} {fd : Descriptor} {request : Request} {rest : Rio}

theorem OneResponse.clienterror (host : Host) (target : Target) (cause errnum shortmsg longmsg : List UInt8) :
    OneResponse host target (clienterror cause errnum shortmsg longmsg) where
  line := rfl
  alone := ⟨.clienterror, by simp [Csapp.clienterror, Effect.responder]⟩
  dynamic := by simp [Csapp.clienterror, Effect.responder]

theorem OneResponse.serveDynamic {sbuf : FileStat} (filename cgiargs : List UInt8) (dynamic : target.isStatic = false)
    (found : host.stat target.filename = some sbuf) (regular : sbuf.isReg = true)
    (execute : sbuf.ownerExecute = true) : OneResponse host target (serveDynamic filename cgiargs) where
  line := rfl
  alone := ⟨.serveDynamic, by simp [Csapp.serveDynamic, Effect.responder]⟩
  dynamic := fun _ _ _ => ⟨dynamic, sbuf, found, regular, execute⟩

/-- The two responses to a request for a static file. -/
theorem not_oneResponse_static (filename cgiargs filetype : List UInt8) (filesize : Int) :
    ¬ OneResponse host target (serveStatic filename filesize filetype ++ serveDynamic filename cgiargs) := by
  rintro ⟨line, -, -⟩
  have two : (serveStatic filename filesize filetype ++ serveDynamic filename cgiargs).countP Effect.isStatusLine = 2 := rfl
  rw [two] at line
  cases line

theorem serve_oneResponse_iff (host : Host) (stack : Stack) (get : caseEqual (str request.method 0) (bytes "GET") = true) :
    OneResponse host (parseUri (str request.uri 0) stack.beforeUri) (serve host stack (str request.uri 0)) ↔
      ¬ StaticServed host request (parseUri (str request.uri 0) stack.beforeUri) := by
  unfold serve StaticServed
  generalize parseUri (str request.uri 0) stack.beforeUri = target
  dsimp only
  cases found : host.stat target.filename with
  | none => exact iff_of_true (.clienterror ..) (by simp)
  | some sbuf =>
    dsimp only
    by_cases isStatic : target.isStatic = true
    · rw [if_pos isStatic]
      split_ifs with refused
      · refine iff_of_true (.clienterror ..) ?_
        rintro ⟨-, -, other, same, regular, readable⟩
        cases same
        simp [regular, readable] at refused
      · refine iff_of_false (not_oneResponse_static _ _ _ _) (not_not.mpr ⟨get, isStatic, sbuf, rfl, ?_⟩)
        simpa using refused
    · rw [if_neg isStatic]
      have dynamic : target.isStatic = false := by simpa using isStatic
      split_ifs with refused
      · exact iff_of_true (.clienterror ..) fun served => isStatic served.2.1
      · obtain ⟨regular, execute⟩ : sbuf.isReg = true ∧ sbuf.ownerExecute = true := by simpa using refused
        exact iff_of_true (.serveDynamic _ _ dynamic found regular execute) fun served => isStatic served.2.1

/-- A request that `doit` returns from has got one response exactly when it was not served as a
static file. -/
theorem one_response_iff (read : readRequest stack fd = some (request, rest)) {errno : Errno} {sink : Sink}
    {transaction : Transaction} (returned : doit host stack fd errno sink = some transaction) :
    OneResponse host (parseUri (str request.uri 0) stack.beforeUri) transaction.effects ↔
      ¬ StaticServed host request (parseUri (str request.uri 0) stack.beforeUri) := by
  obtain ⟨effects, responds, performed⟩ := Option.bind_eq_some_iff.mp returned
  obtain ⟨after, -, rfl⟩ := Option.map_eq_some_iff.mp performed
  dsimp only
  unfold respond at responds
  rw [read, Option.bind_some] at responds
  dsimp only at responds
  split_ifs at responds with get
  · obtain ⟨skipped, -, rfl⟩ := Option.map_eq_some_iff.mp responds
    exact serve_oneResponse_iff host stack get
  · obtain rfl := Option.some.inj responds
    exact iff_of_true (.clienterror ..) fun served => get served.1

/-- A request for a program, which is run. -/
theorem one_response_iff_dynamic :
    ∃ request rest transaction,
      readRequest .zeroed ⟨bytes "GET /cgi-bin/adder?1&2 HTTP/1.0\r\n\r\n", [.count 100], []⟩ = some (request, rest) ∧
      doit ⟨fun _ => some ⟨true, true, true, 2⟩, fun _ _ => some fun _ => 65, fun _ _ => some []⟩ .zeroed
        ⟨bytes "GET /cgi-bin/adder?1&2 HTTP/1.0\r\n\r\n", [.count 100], []⟩ .other
        ⟨List.replicate 2 (.count 100), []⟩ = some transaction ∧
      (OneResponse ⟨fun _ => some ⟨true, true, true, 2⟩, fun _ _ => some fun _ => 65, fun _ _ => some []⟩
          (parseUri (str request.uri 0) 0) transaction.effects ↔
        ¬ StaticServed ⟨fun _ => some ⟨true, true, true, 2⟩, fun _ _ => some fun _ => 65, fun _ _ => some []⟩ request
          (parseUri (str request.uri 0) 0)) := by
  have reads : (readRequest .zeroed ⟨bytes "GET /cgi-bin/adder?1&2 HTTP/1.0\r\n\r\n", [.count 100], []⟩).isSome := by
    decide +kernel
  have returns : (doit ⟨fun _ => some ⟨true, true, true, 2⟩, fun _ _ => some fun _ => 65, fun _ _ => some []⟩ .zeroed
      ⟨bytes "GET /cgi-bin/adder?1&2 HTTP/1.0\r\n\r\n", [.count 100], []⟩ .other
      ⟨List.replicate 2 (.count 100), []⟩).isSome := by decide +kernel
  obtain ⟨⟨request, rest⟩, read⟩ := Option.isSome_iff_exists.mp reads
  obtain ⟨transaction, returned⟩ := Option.isSome_iff_exists.mp returns
  exact ⟨request, rest, transaction, read, returned, one_response_iff read returned⟩

/-- A file that everyone may get, and that its owner may run. -/
theorem static_file_answered_twice :
    ∃ transaction,
      doit ⟨fun _ => some ⟨true, true, true, 2⟩, fun _ _ => some fun _ => 65, fun _ _ => some []⟩ .zeroed
        ⟨bytes "GET /a HTTP/1.0\r\n\r\n", [.count 100], []⟩ .other ⟨List.replicate 5 (.count 200), []⟩ =
          some transaction ∧
      transaction.effects.countP Effect.isStatusLine = 2 ∧
      .execute (bytes "./a") [] ∈ transaction.effects ∧
      ∀ host target, ¬ OneResponse host target transaction.effects := by
  have twice : (doit ⟨fun _ => some ⟨true, true, true, 2⟩, fun _ _ => some fun _ => 65, fun _ _ => some []⟩ .zeroed
      ⟨bytes "GET /a HTTP/1.0\r\n\r\n", [.count 100], []⟩ .other ⟨List.replicate 5 (.count 200), []⟩).map
        (fun transaction => (transaction.effects.countP Effect.isStatusLine,
          decide (.execute (bytes "./a") [] ∈ transaction.effects))) = some (2, true) := by decide +kernel
  obtain ⟨transaction, returned, same⟩ := Option.map_eq_some_iff.mp twice
  obtain ⟨two, ran⟩ := Prod.mk.inj same
  refine ⟨transaction, returned, two, of_decide_eq_true ran, fun host target response => ?_⟩
  cases two.symm.trans response.line

end UnixProgramming.Csapp
