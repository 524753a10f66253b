import UnixProgramming.Pool.HttpResponse
import UnixProgramming.Pool.LineScan

/-! The text of the responses. The header fits the write buffer whatever its numbers are, so what
`process_write` leaves in the buffer can be written down. -/

namespace UnixProgramming.Pool

open UnixProgramming.Lib HttpConn

/-! ## The header -/

theorem addResponse_room (conn : HttpConn) (text : List UInt8)
    (room : conn.writeBuf.length + text.length < writeBufferSize - 1) :
    conn.addResponse text = (true, { conn with writeBuf := conn.writeBuf ++ text }) := by
  unfold addResponse
  rw [if_neg (by omega), if_neg (by omega)]

theorem decimal_length (value : Int) : (decimal (toInt32 value)).length ≤ 11 := by
  have small : (toInt32 value).natAbs < 10 ^ 10 := by
    unfold toInt32
    omega
  have digits := (Nat.length_toDigits_le_iff (by decide) (by decide)).mpr small
  unfold decimal
  rw [List.length_append, List.length_map]
  split_ifs <;> simp <;> omega

def statusText : List UInt8 := bytes "HTTP/1.1 " ++ decimal 200 ++ bytes " " ++ ok200Title ++ bytes "\r\n"

def statusLine (status : Nat) (title : List UInt8) : List UInt8 :=
  bytes "HTTP/1.1 " ++ decimal status ++ bytes " " ++ title ++ bytes "\r\n"

def lengthText (size : Nat) : List UInt8 := bytes "Content-Length: " ++ decimal (toInt32 size) ++ bytes "\r\n"

def lingerText (linger : Bool) : List UInt8 :=
  bytes "Connection: " ++ (if linger then bytes "keep-alive" else bytes "close") ++ bytes "\r\n"

/-- The header of the response to a request for a file. -/
def fileHeader (size : Nat) (linger : Bool) : List UInt8 :=
  statusText ++ lengthText size ++ lingerText linger ++ bytes "\r\n"

theorem lengthText_length (size : Nat) : (lengthText size).length ≤ 29 := by
  have digits := decimal_length size
  have name : (bytes "Content-Length: ").length = 16 := by decide
  have ends : (bytes "\r\n").length = 2 := by decide
  simp only [lengthText, List.length_append, name, ends]
  omega

theorem lingerText_length (linger : Bool) : (lingerText linger).length ≤ 24 := by cases linger <;> decide

/-- Behind a status line the headers fit the write buffer with room to spare. -/
theorem addHeaders_eq {conn : HttpConn} (room : conn.writeBuf.length ≤ 100) (size : Nat) :
    conn.addHeaders size = { conn with
      writeBuf := conn.writeBuf ++ lengthText size ++ lingerText conn.linger ++ bytes "\r\n" } := by
  have second := lengthText_length size
  have third := lingerText_length conn.linger
  have fourth : (bytes "\r\n").length = 2 := by decide
  have bound : writeBufferSize = 1024 := rfl
  have length : conn.addContentLength (toInt32 size) =
      (true, { conn with writeBuf := conn.writeBuf ++ lengthText size }) :=
    addResponse_room conn (lengthText size) (by omega)
  have linger : HttpConn.addLinger { conn with writeBuf := conn.writeBuf ++ lengthText size } =
      (true, { conn with writeBuf := conn.writeBuf ++ lengthText size ++ lingerText conn.linger }) :=
    addResponse_room _ (lingerText conn.linger) (by simp only [List.length_append]; omega)
  have blank : HttpConn.addBlankLine { conn with
      writeBuf := conn.writeBuf ++ lengthText size ++ lingerText conn.linger } = (true, { conn with
      writeBuf := conn.writeBuf ++ lengthText size ++ lingerText conn.linger ++ bytes "\r\n" }) :=
    addResponse_room _ (bytes "\r\n") (by simp only [List.length_append]; omega)
  unfold addHeaders
  rw [length, linger, blank]

theorem addStatusLine_eq {conn : HttpConn} (empty : conn.writeBuf = []) {status : Nat} {title : List UInt8}
    (room : (statusLine status title).length ≤ 100) :
    conn.addStatusLine status title = (true, { conn with writeBuf := statusLine status title }) := by
  have bound : writeBufferSize = 1024 := rfl
  have added := addResponse_room conn (statusLine status title) (by rw [empty, List.length_nil]; omega)
  rwa [empty, List.nil_append] at added

theorem fileResponse_eq {conn : HttpConn} (empty : conn.writeBuf = []) (nonempty : conn.fileStat.size ≠ 0) :
    conn.fileResponse = (true, { conn with
      writeBuf := fileHeader conn.fileStat.size conn.linger
      iv := [.writeBuf (fileHeader conn.fileStat.size conn.linger).length,
        .file conn.fileAddress conn.fileStat.size] }) := by
  unfold fileResponse
  rw [addStatusLine_eq empty (by decide)]
  simp only [nonempty, ne_eq, not_false_eq_true, if_true]
  have short : (statusLine 200 ok200Title).length ≤ 100 := by decide
  rw [addHeaders_eq short]
  rfl

/-! ## Framing -/

/-- The number of the status line and its title, for the results that are answered. -/
def statusOf : HttpCode → Option (Nat × List UInt8)
  | .internalError => some (500, error500Title)
  | .badRequest => some (400, error400Title)
  | .noResource => some (404, error404Title)
  | .forbiddenRequest => some (403, error403Title)
  | .fileRequest => some (200, ok200Title)
  | _ => none

def Iovec.length : Iovec → Nat
  | .writeBuf length => length
  | .file _ length => length

/-- A header that declares so many bytes of content. -/
def header (status : Nat) (title : List UInt8) (length : Int) (linger : Bool) : List UInt8 :=
  statusLine status title ++ (bytes "Content-Length: " ++ decimal length ++ bytes "\r\n") ++ lingerText linger ++
    bytes "\r\n"

/-- `process_write` has succeeded with a header in the first iovec, and behind the header the
iovecs hold as many bytes as it declares. -/
structure Framed (status : Nat) (title : List UInt8) (linger : Bool) (result : Bool × HttpConn) : Prop where
  returned : result.1 = true
  framed : ∃ length : Nat, header status title length linger <+: result.2.writeBuf ∧
    result.2.iv.head? = some (.writeBuf result.2.writeBuf.length) ∧
    (result.2.iv.map Iovec.length).sum = (header status title length linger).length + length
  room : result.2.writeBuf.length < writeBufferSize

theorem header_length (status : Nat) (title : List UInt8) (size : Nat) (linger : Bool) :
    (header status title (toInt32 size) linger).length ≤ (statusLine status title).length + 55 := by
  have second := lengthText_length size
  have third := lingerText_length linger
  have fourth : (bytes "\r\n").length = 2 := by decide
  have whole : header status title (toInt32 size) linger =
      statusLine status title ++ lengthText size ++ lingerText linger ++ bytes "\r\n" := rfl
  simp only [whole, List.length_append]
  omega

theorem toInt32_eq_iff (size : Nat) : toInt32 size = size ↔ size < 2 ^ 31 := by
  unfold toInt32
  omega

theorem errorResponse_eq {conn : HttpConn} (empty : conn.writeBuf = []) {status : Nat} {title form : List UInt8}
    (short : (statusLine status title).length ≤ 100) (room : form.length ≤ 500) :
    conn.errorResponse status title form = (true, { conn with
      writeBuf := header status title form.length conn.linger ++ form
      iv := [.writeBuf (header status title form.length conn.linger ++ form).length] }) := by
  have exact : toInt32 form.length = form.length := (toInt32_eq_iff _).mpr (by omega)
  have length := header_length status title form.length conn.linger
  rw [exact] at length
  have bound : writeBufferSize = 1024 := rfl
  unfold errorResponse
  rw [addStatusLine_eq empty short]
  dsimp only
  rw [addHeaders_eq short]
  dsimp only
  have headed : statusLine status title ++ lengthText form.length ++ lingerText conn.linger ++ bytes "\r\n" =
      header status title form.length conn.linger := by rw [header, lengthText, exact]
  rw [headed, addContent, addResponse_room _ _ (by dsimp only; omega)]
  rfl

theorem errorResponse_framed {conn : HttpConn} (empty : conn.writeBuf = []) {status : Nat} {title form : List UInt8}
    (short : (statusLine status title).length ≤ 100) (room : form.length ≤ 500) :
    Framed status title conn.linger (conn.errorResponse status title form) := by
  have exact : toInt32 form.length = form.length := (toInt32_eq_iff _).mpr (by omega)
  have length := header_length status title form.length conn.linger
  rw [exact] at length
  have bound : writeBufferSize = 1024 := rfl
  rw [errorResponse_eq empty short room]
  refine ⟨rfl, ⟨form.length, List.prefix_append _ _, rfl, ?_⟩, ?_⟩
  · simp [Iovec.length]
  · rw [List.length_append]
    omega

/-! ## The declared number -/

theorem toDigits_bytes_injective {first second : Nat}
    (same : (Nat.toDigits 10 first).map (fun digit => UInt8.ofNat digit.toNat) =
      (Nat.toDigits 10 second).map fun digit => UInt8.ofNat digit.toNat) : first = second := by
  have back : ∀ value, ((Nat.toDigits 10 value).map fun digit => UInt8.ofNat digit.toNat).map
      (fun byte => Char.ofNat byte.toNat) = Nat.toDigits 10 value := by
    intro value
    rw [List.map_map]
    refine (List.map_congr_left fun digit member => ?_).trans (List.map_id _)
    have range := toDigits_range member
    have small : digit.toNat % 2 ^ 8 = digit.toNat := Nat.mod_eq_of_lt (by omega)
    simp only [Function.comp, UInt8.toNat_ofNat', small, Char.ofNat_toNat, id]
  have digits : Nat.toDigits 10 first = Nat.toDigits 10 second := by rw [← back first, same, back second]
  simpa using congrArg (fun digits => Nat.ofDigitChars 10 digits 0) digits

theorem decimal_inLine (value : Int) : ∀ byte ∈ decimal value, inLine byte = true := by
  intro byte member
  rcases List.mem_append.mp member with sign | digits
  · split_ifs at sign
    · rw [List.mem_singleton.mp sign]
      decide
    · cases sign
  · obtain ⟨digit, isDigit, rfl⟩ := List.mem_map.mp digits
    have range := toDigits_range isDigit
    have small : (UInt8.ofNat digit.toNat).toNat = digit.toNat := by
      rw [UInt8.toNat_ofNat']
      omega
    refine inLine_iff.mpr ⟨fun same => ?_, fun same => ?_⟩
    · rw [same] at small
      change 13 = digit.toNat at small
      omega
    · rw [same] at small
      change 10 = digit.toNat at small
      omega

/-- A number that is not negative is declared by no other number. -/
theorem decimal_injective {value : Int} {size : Nat} (same : decimal value = decimal size) : value = size := by
  have plain : ¬ (size : Int) < 0 := by omega
  unfold decimal at same
  rw [if_neg plain, List.nil_append] at same
  by_cases negative : value < 0
  · rw [if_pos negative] at same
    have sign : (45 : UInt8) ∈ (Nat.toDigits 10 (size : Int).natAbs).map fun digit => UInt8.ofNat digit.toNat := by
      rw [← same]
      exact List.mem_cons_self
    obtain ⟨digit, isDigit, isSign⟩ := List.mem_map.mp sign
    have range := toDigits_range isDigit
    have value := congrArg UInt8.toNat isSign
    rw [UInt8.toNat_ofNat', show (45 : UInt8).toNat = 45 from rfl] at value
    omega
  · rw [if_neg negative, List.nil_append] at same
    have magnitude := toDigits_bytes_injective same
    omega

theorem header_declares {status : Nat} {title : List UInt8} {value : Int} {size : Nat} {linger : Bool}
    (starts : header status title size linger <+: header status title value linger) : value = size := by
  obtain ⟨tail, whole⟩ := starts
  simp only [header, List.append_assoc, List.append_cancel_left_eq] at whole
  have cr : bytes "\r\n" = [13, 10] := by decide
  simp only [cr, List.cons_append, List.nil_append] at whole
  exact decimal_injective (word_unique (decimal_inLine _) (decimal_inLine _) (by decide) (by decide) whole.symm).1

/-- The response to a request for a file is framed unless the file is empty or its size is no `int`. -/
theorem fileResponse_framed_iff {conn : HttpConn} (empty : conn.writeBuf = []) :
    Framed 200 ok200Title conn.linger conn.fileResponse ↔
      ¬ (conn.fileStat.size = 0 ∨ 2 ^ 31 ≤ conn.fileStat.size) := by
  by_cases nonempty : conn.fileStat.size = 0
  · refine iff_of_false (fun framed => ?_) (by simp [nonempty])
    have returned := framed.returned
    unfold fileResponse at returned
    rw [addStatusLine_eq empty (by decide)] at returned
    simp [nonempty] at returned
  · have text : fileHeader conn.fileStat.size conn.linger =
        header 200 ok200Title (toInt32 conn.fileStat.size) conn.linger := rfl
    rw [fileResponse_eq empty nonempty, text]
    constructor
    · rintro ⟨-, ⟨length, starts, -, total⟩, -⟩ (zero | large)
      · exact nonempty zero
      · have declared := header_declares starts
        rw [declared] at total
        simp only [List.map_cons, List.map_nil, List.sum_cons, List.sum_nil, Iovec.length] at total
        have same : toInt32 conn.fileStat.size = conn.fileStat.size := by omega
        have small := (toInt32_eq_iff _).mp same
        omega
    · intro fits
      have exact : toInt32 conn.fileStat.size = conn.fileStat.size := (toInt32_eq_iff _).mpr (by omega)
      have length := header_length 200 ok200Title conn.fileStat.size conn.linger
      rw [exact] at length ⊢
      have short : (statusLine 200 ok200Title).length ≤ 100 := by decide
      have bound : writeBufferSize = 1024 := rfl
      refine ⟨rfl, ⟨conn.fileStat.size, List.prefix_rfl, rfl, ?_⟩, ?_⟩
      · simp [Iovec.length]
      · dsimp only
        omega

/-- Every result that is answered gets a response that is framed, except a file that is empty or
of `2^31` bytes or more. -/
theorem processWrite_framed_iff (conn : HttpConn) (empty : conn.writeBuf = []) {code : HttpCode} {status : Nat}
    {title : List UInt8} (answered : statusOf code = some (status, title)) :
    Framed status title conn.linger (conn.processWrite code) ↔
      ¬ (code = .fileRequest ∧ (conn.fileStat.size = 0 ∨ 2 ^ 31 ≤ conn.fileStat.size)) := by
  cases code with
  | noRequest => cases answered
  | getRequest => cases answered
  | closedConnection => cases answered
  | internalError =>
    cases answered
    have framed : Framed 500 error500Title conn.linger (conn.errorResponse 500 error500Title error500Form) :=
      errorResponse_framed empty (by decide) (by decide)
    exact iff_of_true framed (by simp)
  | badRequest =>
    cases answered
    have framed : Framed 400 error400Title conn.linger (conn.errorResponse 400 error400Title error400Form) :=
      errorResponse_framed empty (by decide) (by decide)
    exact iff_of_true framed (by simp)
  | noResource =>
    cases answered
    have framed : Framed 404 error404Title conn.linger (conn.errorResponse 404 error404Title error404Form) :=
      errorResponse_framed empty (by decide) (by decide)
    exact iff_of_true framed (by simp)
  | forbiddenRequest =>
    cases answered
    have framed : Framed 403 error403Title conn.linger (conn.errorResponse 403 error403Title error403Form) :=
      errorResponse_framed empty (by decide) (by decide)
    exact iff_of_true framed (by simp)
  | fileRequest =>
    cases answered
    simpa [processWrite] using fileResponse_framed_iff empty

/-- A file of five bytes. -/
theorem processWrite_framed_five :
    Framed 200 ok200Title false (processWrite { zeroed with fileStat := ⟨5, true, false⟩ } .fileRequest) :=
  (processWrite_framed_iff { zeroed with fileStat := ⟨5, true, false⟩ } rfl rfl).mpr (by simp)

/-- An empty file gets no response at all. -/
theorem empty_file_not_framed :
    ¬ Framed 200 ok200Title false (processWrite { zeroed with fileStat := ⟨0, true, false⟩ } .fileRequest) := by
  intro framed
  have returned := framed.returned
  revert returned
  decide +kernel

end UnixProgramming.Pool
