import UnixProgramming.Csapp.LineEcho

/-! What every state of a line echo keeps: the line the client has read is on its way to the server
or on its way back, and only a line that has come back whole is printed. -/

namespace UnixProgramming.Csapp.LineEcho

open UnixProgramming.Lib Rio

namespace ClientStage

/-- What `rio_readlineb` has stored. -/
def got : ClientStage → List UInt8
  | .receiving stored => stored
  | _ => []

def unsent (buf : List UInt8) : ClientStage → List UInt8
  | .writing n sent => (buf.take n).drop sent
  | _ => []

/-- The string that is on its way to the server and back. -/
def text (buf : List UInt8) : ClientStage → List UInt8
  | .writing _ _ => str buf 0
  | .receiving _ => str buf 0
  | _ => []

def Fits (buf : List UInt8) : ClientStage → Prop
  | .writing n sent => n = (str buf 0).length ∧ sent < n
  | .receiving stored => newline ∉ stored ∧ stored.length < maxline
  | _ => True

/-- The line `fgets` has read and `fputs` has not printed. -/
def Holds (buf line : List UInt8) : ClientStage → Prop
  | .writing _ _ => line ≠ [] ∧ str buf 0 = line.takeWhile (· ≠ 0)
  | .receiving _ => line ≠ [] ∧ str buf 0 = line.takeWhile (· ≠ 0)
  | .printing => line ≠ [] ∧ str buf 0 = line ∧ Whole line
  | _ => line = []

end ClientStage

namespace ServerStage

/-- What `rio_readlineb` has stored. -/
def held : ServerStage → List UInt8
  | .reading stored => stored
  | _ => []

def unreplied (buf : List UInt8) : ServerStage → List UInt8
  | .writing n sent => (buf.take n).drop sent
  | _ => []

def Fits (buf : List UInt8) : ServerStage → Prop
  | .reading stored => newline ∉ stored ∧ stored.length < maxline
  | .writing n sent => sent < n ∧ n ≤ buf.length
  | _ => True

end ServerStage

namespace Conn

/-- On the way to the server. -/
def there (conn : Conn) : List UInt8 :=
  conn.server.held ++ (conn.serverRio.remaining ++ conn.client.unsent conn.clientBuf)

/-- On the way back. -/
def back (conn : Conn) : List UInt8 :=
  conn.client.got ++ (conn.clientRio.remaining ++ conn.server.unreplied conn.serverBuf)

structure Sound (input line : List UInt8) (conn : Conn) : Prop where
  clientRests : conn.clientRio.Resting
  serverRests : conn.serverRio.Resting
  clientFits : conn.client.Fits conn.clientBuf
  serverFits : conn.server.Fits conn.serverBuf
  flight : conn.back ++ conn.there = conn.client.text conn.clientBuf
  /-- The server answers when it has the whole line. -/
  oneWay : conn.back = [] ∨ conn.there = []
  cut : conn.stdout ++ (line ++ conn.stdin) = input
  holds : conn.client.Holds conn.clientBuf line
  isLine : line ≠ [] → line = lineOf (maxline - 1) (line ++ conn.stdin)
  sofar : Complete (line ++ conn.stdin) ↔ Complete input
  ended : conn.client = .closed → conn.stdin = []
  served : conn.server = .closed → conn.client = .closed
  outside : conn.client = .connecting → conn.server = .pending

variable {capacity : Capacity} {input line : List UInt8} {conn next : Conn} {label : Label}

theorem Sound.start {clientBuf serverBuf : List UInt8} {clientRio serverRio : Rio}
    (clientSize : clientRio.buf.length = rioBufsize) (serverSize : serverRio.buf.length = rioBufsize) :
    Sound input [] (create input clientBuf serverBuf clientRio serverRio) := by
  have rests : ∀ rio : Rio, rio.buf.length = rioBufsize → (rio.rioReadinitb ⟨[], [], []⟩).Resting := by
    intro rio size
    exact ⟨⟨size, Nat.zero_le _, by simp [rioReadinitb], by simp [rioReadinitb, Descriptor.Benign]⟩, le_rfl, rfl⟩
  have empty : ∀ rio : Rio, (rio.rioReadinitb ⟨[], [], []⟩).remaining = [] := fun rio => rfl
  constructor <;>
    simp_all [create, ClientStage.Fits, ServerStage.Fits, ClientStage.Holds, back, there, ClientStage.text, ClientStage.got,
      ServerStage.held, ClientStage.unsent, ServerStage.unreplied]

/-- The line has a newline at its end only, and so has what is sent of it. -/
theorem Sound.inner (sound : Sound input line conn) :
    newline ∉ line.dropLast ∧ line.length ≤ maxline - 1 := by
  by_cases nonempty : line = []
  · simp [nonempty]
  · have next := (lineOf_next (maxline - 1) (line ++ conn.stdin)).1
    rw [← sound.isLine nonempty] at next
    exact ⟨next.inner, next.short⟩

theorem Sound.text_prefix (sound : Sound input line conn) : conn.client.text conn.clientBuf <+: line ∧ 0 ∉ conn.client.text conn.clientBuf := by
  have holds := sound.holds
  have plain : 0 ∉ str conn.clientBuf 0 := fun member => by simpa using List.mem_takeWhile_imp member
  cases client : conn.client with
  | writing n sent =>
    simp only [ClientStage.Holds, client] at holds
    simp only [ClientStage.text]
    exact ⟨holds.2 ▸ List.takeWhile_prefix _, plain⟩
  | receiving stored =>
    simp only [ClientStage.Holds, client] at holds
    simp only [ClientStage.text]
    exact ⟨holds.2 ▸ List.takeWhile_prefix _, plain⟩
  | _ => simp [ClientStage.text]

/-- A first part of the text that ends as a line ends is all of the line. -/
theorem Sound.whole (sound : Sound input line conn) {part more : List UInt8} (same : part ++ more = conn.client.text conn.clientBuf)
    (ends : part.getLast? = some newline ∨ part.length = maxline - 1) : more = [] ∧ part = line ∧ Whole line := by
  obtain ⟨inner, short⟩ := sound.inner
  obtain ⟨⟨rest, split⟩, plain⟩ := sound.text_prefix
  rw [← same, List.append_assoc] at split
  have nothing : more ++ rest = [] := by
    rcases ends with last | full
    · obtain ⟨first, rfl⟩ := List.getLast?_eq_some_iff.mp last
      rw [List.append_assoc] at split
      exact newline_last inner split.symm
    · have lengths := congrArg List.length split
      rw [List.length_append] at lengths
      exact List.eq_nil_of_length_eq_zero (by omega)
  rw [nothing, List.append_nil] at split
  obtain ⟨rfl, rfl⟩ := List.append_eq_nil_iff.mp nothing
  rw [← same, List.append_nil, split] at plain
  exact ⟨rfl, split, plain, split ▸ ends⟩

/-- Storing a string at the start of a buffer. -/
theorem str_stored (buf : List UInt8) {line : List UInt8} (plain : 0 ∉ line) :
    str (overwrite buf 0 (line ++ [0])) 0 = line := by
  simpa [overwrite] using str_middle [] (buf.drop (line.length + 1)) plain

theorem str_cut (buf line : List UInt8) : str (overwrite buf 0 (line ++ [0])) 0 = line.takeWhile (· ≠ 0) := by
  simp only [overwrite, str, List.take_zero, List.nil_append, List.drop_zero, List.append_assoc, List.singleton_append]
  generalize buf.drop _ = rest
  induction line with
  | nil => simp
  | cons byte line ih => rw [List.cons_append, List.takeWhile_cons, List.takeWhile_cons, ih]

/-- The string at the start of a buffer is its first bytes. -/
theorem take_str (buf : List UInt8) : buf.take (str buf 0).length = str buf 0 :=
  List.prefix_iff_eq_take.mp (List.takeWhile_prefix _) |>.symm

theorem Sound.fgets (sound : Sound input line conn) {read rest buf : List UInt8} (reading : conn.client = .reading)
    (more : read ≠ []) (split : read ++ rest = conn.stdin) (isLine : read = lineOf (maxline - 1) conn.stdin)
    (text : str buf 0 = read.takeWhile (· ≠ 0)) :
    Sound input read { conn with client := writing (str buf 0).length, stdin := rest, clientBuf := buf } := by
  obtain ⟨clientRests, serverRests, clientFits, serverFits, flight, oneWay, cut, holds, -, sofar, ended, served,
    outside⟩ := sound
  obtain ⟨client, server, stdin, stdout, clientBuf, clientRio, serverBuf, serverRio⟩ := conn
  cases reading
  simp only [ClientStage.Holds] at holds
  subst holds split
  have started : server ≠ .closed := fun closed => by cases served closed
  have taken := take_str buf
  refine ⟨clientRests, serverRests, ?_, serverFits, ?_, ?_, cut, ?_, fun _ => isLine, sofar, ?_, ?_, ?_⟩
  all_goals
    clear isLine
    simp only [writing]
    by_cases empty : (str buf 0).length = 0
    all_goals
      simp_all [ClientStage.Fits, ClientStage.Holds, back, there, ClientStage.text, ClientStage.got, ClientStage.unsent,
        Nat.pos_of_ne_zero, maxline]

theorem Sound.writeServer (sound : Sound input line conn) {n sent count : Nat} (writing : conn.client = .writing n sent)
    (fits : sent + count ≤ n) :
    Sound input line { conn with
      client := if sent + count = n then .receiving [] else .writing n (sent + count)
      serverRio := conn.serverRio.feed ((conn.clientBuf.drop sent).take count) } := by
  obtain ⟨clientRests, serverRests, clientFits, serverFits, flight, oneWay, cut, holds, isLine, sofar, ended, served,
    outside⟩ := sound
  obtain ⟨client, server, stdin, stdout, clientBuf, clientRio, serverBuf, serverRio⟩ := conn
  cases writing
  obtain ⟨long, before⟩ := clientFits
  simp only at long
  have part := take_drop_append clientBuf sent count n fits
  have all : sent + count = n → (clientBuf.take n).drop (sent + count) = [] := fun all =>
    List.drop_eq_nil_of_le (by simp [all])
  refine ⟨clientRests, serverRests.feed _, ?_, serverFits, ?_, ?_, cut, ?_, isLine, sofar, ?_, ?_, ?_⟩
  all_goals
    clear isLine
    by_cases done : sent + count = n
    all_goals
      simp_all [ClientStage.Fits, ClientStage.Holds, back, there, ClientStage.text, ClientStage.got, ClientStage.unsent,
        remaining_feed, maxline]
  omega

theorem Sound.writeClient (sound : Sound input line conn) {n sent count : Nat} (writing : conn.server = .writing n sent)
    (fits : sent + count ≤ n) :
    Sound input line { conn with
      server := if sent + count = n then .reading [] else .writing n (sent + count)
      clientRio := conn.clientRio.feed ((conn.serverBuf.drop sent).take count) } := by
  obtain ⟨clientRests, serverRests, clientFits, serverFits, flight, oneWay, cut, holds, isLine, sofar, ended, served,
    outside⟩ := sound
  obtain ⟨client, server, stdin, stdout, clientBuf, clientRio, serverBuf, serverRio⟩ := conn
  cases writing
  obtain ⟨before, fill⟩ := serverFits
  have part := take_drop_append serverBuf sent count n fits
  have all : sent + count = n → (serverBuf.take n).drop (sent + count) = [] := fun all =>
    List.drop_eq_nil_of_le (by simp [all])
  have opened : client ≠ .connecting := fun connecting => by cases outside connecting
  simp only [back, there, ServerStage.held, ServerStage.unreplied, ← part] at flight oneWay
  refine ⟨clientRests.feed _, serverRests, clientFits, ?_, ?_, ?_, cut, holds, isLine, sofar, ended, ?_, ?_⟩
  all_goals
    clear isLine
    by_cases done : sent + count = n
    all_goals
      simp_all [ServerStage.Fits, back, there, ServerStage.held, ServerStage.unreplied, remaining_feed, maxline]
  omega

theorem size_of_length {n : Nat} (small : n < maxline) : ((n : Int) % 2 ^ 64).toNat = n := by
  rw [maxline] at small
  omega

theorem take_stores (buf : List UInt8) (part : List UInt8) :
    (stores buf ⟨some part.length, part, true⟩).take part.length = part ∧
      part.length ≤ (stores buf ⟨some part.length, part, true⟩).length := by
  simp [stores, overwrite]

/-- The server has read a line to its end. Nothing else is on its way, and it sends the line back. -/
theorem Sound.answers (sound : Sound input line conn) {part : List UInt8} {rp : Rio}
    (split : conn.there = part ++ (rp.rested.remaining ++ conn.client.unsent conn.clientBuf)) (nonempty : part ≠ [])
    (ends : part.getLast? = some newline ∨ part.length = maxline - 1) (short : part.length < maxline)
    (connected : conn.client ≠ .connecting) (rests : rp.rested.Resting)
    (taken : conn.fetched (.returned ⟨some part.length, part, true⟩, rp) = some next) : Sound input line next := by
  have positive := List.length_pos_iff.mpr nonempty
  obtain ⟨front, size⟩ := take_stores conn.serverBuf part
  simp only [Conn.fetched, Option.getD_some, size_of_length short, if_neg positive.ne', Option.some.injEq] at taken
  subst taken
  have back : conn.back = [] := by
    refine sound.oneWay.resolve_right fun empty => nonempty ?_
    rw [split] at empty
    exact (List.append_eq_nil_iff.mp empty).1
  have flight := sound.flight
  rw [back, List.nil_append, split] at flight
  obtain ⟨more, -, -⟩ := sound.whole flight ends
  rw [more, List.append_nil] at flight
  obtain ⟨remaining, unsent⟩ := List.append_eq_nil_iff.mp more
  simp only [Conn.back, List.append_eq_nil_iff] at back
  refine ⟨sound.clientRests, rests, sound.clientFits, ⟨positive, size⟩, ?_, .inr ?_, sound.cut, sound.holds, sound.isLine,
    sound.sofar, sound.ended, ?_, ?_⟩
  · simp only [Conn.back, there, ServerStage.held, ServerStage.unreplied, back, front, remaining, unsent]
    simpa using flight
  · simp only [there, ServerStage.held, remaining, unsent]
    rfl
  · intro wrong
    cases wrong
  · exact fun connecting => absurd connecting connected

/-- One iteration of the server's `rio_readlineb`. -/
theorem Sound.fetched (sound : Sound input line conn) {stored : List UInt8} {result : Rio.Turn × Rio}
    (reading : conn.server = .reading stored)
    (turned : conn.serverRio.Turned stored (decide (conn.client = .closed)) result)
    (rests : result.2.rested.Resting) (taken : conn.fetched result = some next) : Sound input line next := by
  have opened : conn.client ≠ .connecting := fun connecting => by
    have pending := sound.outside connecting
    rw [reading] at pending
    cases pending
  have serverFits := sound.serverFits
  rw [reading] at serverFits
  cases turned with
  | full rp room same =>
    have nonempty : stored ≠ [] := by
      rintro rfl
      cases room
    refine sound.answers ?_ nonempty (.inr ?_) serverFits.2 opened rests taken
    · rw [there, reading]
      exact congrArg (stored ++ ·) (congrArg (· ++ _) same.symm)
    · rw [← room]
      rfl
  | shut rp nothing same shut =>
    have closed : conn.client = .closed := of_decide_eq_true shut
    have quiet := sound.flight
    simp only [closed, ClientStage.text, Conn.back, there, reading, ServerStage.held, List.append_eq_nil_iff] at quiet
    obtain ⟨⟨got, comes, -⟩, rfl, -, -⟩ := quiet
    cases taken
    refine ⟨sound.clientRests, rests, sound.clientFits, trivial, ?_, ?_, sound.cut, sound.holds, sound.isLine,
      sound.sofar, sound.ended, ?_, ?_⟩
    · simp [Conn.back, there, closed, ServerStage.held, ServerStage.unreplied, ClientStage.unsent, ClientStage.text, got,
        comes, same]
    · exact .inr (by simp [there, closed, ServerStage.held, ClientStage.unsent, remaining_rested, same])
    · exact fun _ => closed
    · exact fun connecting => absurd connecting opened
  | line rp room bytes =>
    have long : (stored ++ [newline]).length = stored.length + 1 := by simp
    have split : conn.there = (stored ++ [newline]) ++ (rp.rested.remaining ++ conn.client.unsent conn.clientBuf) := by
      rw [there, reading, ServerStage.held, bytes, List.append_assoc]
      rfl
    refine sound.answers split (by simp) (.inl (by simp)) (by rwa [long]) opened rests ?_
    rw [← taken, long]
    rfl
  | more rp byte inner room bytes =>
    cases taken
    have same : Conn.there { conn with server := .reading (stored ++ [byte]), serverRio := rp.rested } = conn.there := by
      simp only [there, reading, ServerStage.held, bytes, List.append_assoc, List.cons_append]
      rfl
    have way : Conn.back { conn with server := .reading (stored ++ [byte]), serverRio := rp.rested } = conn.back := by
      simp only [back, reading, ServerStage.unreplied]
    refine ⟨sound.clientRests, rests, sound.clientFits, ⟨?_, ?_⟩, by rw [way, same]; exact sound.flight,
      by rw [way, same]; exact sound.oneWay, sound.cut, sound.holds, sound.isLine, sound.sofar, sound.ended, ?_, ?_⟩
    · simp [serverFits.1, Ne.symm inner]
    · simpa using room
    · intro wrong
      cases wrong
    · exact fun connecting => absurd connecting opened

/-- The client has read a line to its end: it is the line it has sent. -/
theorem Sound.returns (sound : Sound input line conn) {stored part : List UInt8} {rp : Rio}
    (receiving : conn.client = .receiving stored)
    (split : conn.back = part ++ (rp.rested.remaining ++ conn.server.unreplied conn.serverBuf)) (nonempty : part ≠ [])
    (ends : part.getLast? = some newline ∨ part.length = maxline - 1) (rests : rp.rested.Resting)
    (taken : conn.received (.returned ⟨some part.length, part, true⟩, rp) = some next) : Sound input line next := by
  cases taken
  have flight := sound.flight
  rw [split, List.append_assoc] at flight
  obtain ⟨more, rfl, whole⟩ := sound.whole flight ends
  obtain ⟨way, there⟩ := List.append_eq_nil_iff.mp more
  obtain ⟨remaining, unreplied⟩ := List.append_eq_nil_iff.mp way
  have same : str (stores conn.clientBuf ⟨some part.length, part, true⟩) 0 = part := str_stored _ whole.1
  refine ⟨rests, sound.serverRests, trivial, sound.serverFits, ?_, ?_, sound.cut, ⟨nonempty, same, whole⟩, sound.isLine,
    sound.sofar, ?_, ?_, ?_⟩
  · simp only [Conn.there, receiving, ClientStage.unsent] at there
    simp [Conn.back, Conn.there, ClientStage.got, ClientStage.unsent, ClientStage.text, remaining, unreplied]
    simpa using there
  · left
    simp [Conn.back, ClientStage.got, remaining, unreplied]
  · intro wrong
    cases wrong
  · intro closed
    have shut := sound.served closed
    rw [receiving] at shut
    cases shut
  · intro wrong
    cases wrong

/-- One iteration of the client's `rio_readlineb`. -/
theorem Sound.received (sound : Sound input line conn) {stored : List UInt8} {result : Rio.Turn × Rio}
    (receiving : conn.client = .receiving stored)
    (turned : conn.clientRio.Turned stored (decide (conn.server = .closed)) result)
    (rests : result.2.rested.Resting) (taken : conn.received result = some next) : Sound input line next := by
  have clientFits := sound.clientFits
  rw [receiving] at clientFits
  cases turned with
  | full rp room same =>
    have nonempty : stored ≠ [] := by
      rintro rfl
      cases room
    refine sound.returns receiving ?_ nonempty (.inr ?_) rests taken
    · rw [back, receiving]
      exact congrArg (stored ++ ·) (congrArg (· ++ _) same.symm)
    · rw [← room]
      rfl
  | shut rp nothing same shut =>
    have closed := sound.served (of_decide_eq_true shut)
    rw [receiving] at closed
    cases closed
  | line rp room bytes =>
    have long : (stored ++ [newline]).length = stored.length + 1 := by simp
    have split : conn.back = (stored ++ [newline]) ++ (rp.rested.remaining ++ conn.server.unreplied conn.serverBuf) := by
      rw [back, receiving, ClientStage.got, bytes, List.append_assoc]
      rfl
    refine sound.returns receiving split (by simp) (.inl (by simp)) rests ?_
    rw [← taken, long]
    rfl
  | more rp byte inner room bytes =>
    cases taken
    have same : Conn.back { conn with client := .receiving (stored ++ [byte]), clientRio := rp.rested } = conn.back := by
      simp only [back, receiving, ClientStage.got, bytes, List.append_assoc, List.cons_append]
      rfl
    have way : Conn.there { conn with client := .receiving (stored ++ [byte]), clientRio := rp.rested } = conn.there := by
      simp only [there, receiving, ClientStage.unsent]
    have flight := sound.flight
    have holds := sound.holds
    rw [receiving] at flight holds
    refine ⟨rests, sound.serverRests, ⟨?_, ?_⟩, sound.serverFits, by rw [way, same]; exact flight,
      by rw [way, same]; exact sound.oneWay, sound.cut, holds, sound.isLine, sound.sofar, ?_, ?_, ?_⟩
    · simp [clientFits.1, Ne.symm inner]
    · simpa using room
    · intro wrong
      cases wrong
    · intro closed
      have shut := sound.served closed
      rw [receiving] at shut
      cases shut
    · intro wrong
      cases wrong

theorem Sound.fputs (sound : Sound input line conn) (printing : conn.client = .printing) :
    Sound input [] { conn with client := .reading, stdout := conn.stdout ++ str conn.clientBuf 0 } := by
  obtain ⟨clientRests, serverRests, clientFits, serverFits, flight, oneWay, cut, holds, isLine, sofar, ended, served,
    outside⟩ := sound
  rw [printing] at holds flight
  obtain ⟨nonempty, same, whole⟩ := holds
  have stream : line ++ conn.stdin ≠ [] := by simp [nonempty]
  have rest := complete_lineOf stream
  rw [← isLine nonempty, List.drop_left, and_iff_right whole, sofar] at rest
  simp only [back, there, printing, ClientStage.got, ClientStage.unsent] at flight oneWay
  refine ⟨clientRests, serverRests, trivial, serverFits, flight, oneWay, ?_, rfl, fun wrong => absurd rfl wrong, rest.symm,
    ?_, ?_, ?_⟩
  · rw [same, List.append_assoc]
    exact cut
  · intro wrong
    cases wrong
  · intro closed
    have shut := served closed
    rw [printing] at shut
    cases shut
  · intro wrong
    cases wrong

theorem Sound.after (sound : Sound input line conn) (taken : conn.step capacity label = some next) :
    ∃ after, Sound input after next := by
  cases steps_of_step taken with
  | connect connecting =>
    obtain ⟨clientRests, serverRests, clientFits, serverFits, flight, oneWay, cut, holds, isLine, sofar, ended, served,
      outside⟩ := sound
    have pending := outside connecting
    exact ⟨line, by constructor <;>
      simp_all [back, there, ClientStage.Fits, ClientStage.got, ClientStage.unsent, ClientStage.text, ClientStage.Holds]⟩
  | close reading nothing =>
    have stdin := ((lineOf_next (maxline - 1) conn.stdin).nil_iff (by decide)).mp nothing
    obtain ⟨clientRests, serverRests, clientFits, serverFits, flight, oneWay, cut, holds, isLine, sofar, ended, served,
      outside⟩ := sound
    exact ⟨line, by constructor <;>
      simp_all [back, there, ClientStage.Fits, ClientStage.got, ClientStage.unsent, ClientStage.text, ClientStage.Holds]⟩
  | fgets read reading same more =>
    refine ⟨read, sound.fgets reading more ?_ same (str_cut _ _)⟩
    rw [same]
    exact lineOf_append _ _
  | send n sent count writing positive fits room => exact ⟨line, sound.writeServer writing fits⟩
  | receive stored limit next receiving positive offers same =>
    have clientFits := sound.clientFits
    rw [receiving] at clientFits
    obtain ⟨turned, rests⟩ := turn_turned sound.clientRests positive clientFits.2 offers
    exact ⟨line, sound.received receiving turned rests same⟩
  | fputs printing => exact ⟨[], sound.fputs printing⟩
  | accept pending connected =>
    obtain ⟨clientRests, serverRests, clientFits, serverFits, flight, oneWay, cut, holds, isLine, sofar, ended, served,
      outside⟩ := sound
    simp only [back, there, pending, ServerStage.held, ServerStage.unreplied] at flight oneWay
    refine ⟨line, clientRests, serverRests, clientFits, ⟨by simp, by decide⟩, flight, oneWay, cut, holds, isLine, sofar,
      ended, ?_, fun connecting => absurd connecting connected⟩
    intro wrong
    cases wrong
  | fetch stored limit next reading positive offers same =>
    have serverFits := sound.serverFits
    rw [reading] at serverFits
    obtain ⟨turned, rests⟩ := turn_turned sound.serverRests positive serverFits.2 offers
    exact ⟨line, sound.fetched reading turned rests same⟩
  | reply n sent count writing positive fits room => exact ⟨line, sound.writeClient writing fits⟩

end Conn
end UnixProgramming.Csapp.LineEcho
