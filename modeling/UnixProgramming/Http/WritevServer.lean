import UnixProgramming.Lib.Run
import UnixProgramming.Pool.Framing

/-! The server that answers with a file through `writev`. The lengths that it sends come from
`strlen` and from the last `snprintf`, the declared one from `stat`. -/

namespace UnixProgramming.Http

open UnixProgramming.Lib UnixProgramming.Pool
open UnixProgramming.Pool.HttpConn (decimal)

/-- `BUFFER_SIZE`. -/
def bufferSize : Nat := 1024

/-- `status_line`. -/
def statusLine : Fin 2 → List UInt8
  | 0 => bytes "200 OK"
  | 1 => bytes "500 Internal server error"

/-- The members of `struct stat` that are looked at; the size is an `off_t`. -/
structure FileStat where
  isReg : Bool
  otherRead : Bool
  size : Nat
  small : size < 2 ^ 63

/-- What the calls for the file return; `read` fails if `open` has failed. -/
structure FileOutcome where
  stat : Option FileStat
  read : Option (List UInt8)

/-- The file if it is `valid`. -/
def FileOutcome.delivered (file : FileOutcome) : Option (FileStat × List UInt8) :=
  file.stat.bind fun fileStat =>
    if fileStat.isReg ∧ fileStat.otherRead then file.read.map fun content => (fileStat, content) else none

/-- `snprintf(memory + offset, size, text)` and what it returns. -/
def snprintf (memory : List UInt8) (offset size : Nat) (text : List UInt8) : List UInt8 × Nat :=
  (if size = 0 then memory else overwrite memory offset (text.take (size - 1) ++ [0]), text.length)

/-- The first `strlen(memory)` bytes of an array. -/
def iovec (memory : List UInt8) : List UInt8 := memory.take (str memory 0).length

/-- The bytes that `main` hands to `writev` or `send`. -/
def respond (file : FileOutcome) : List UInt8 :=
  let headerBuf := List.replicate bufferSize 0
  match file.delivered with
  | some (fileStat, content) =>
    let fileBuf := overwrite (List.replicate (fileStat.size + 1) 0) 0 content
    let (headerBuf, ret) := snprintf headerBuf 0 (bufferSize - 1) (bytes "HTTP/1.1 " ++ statusLine 0 ++ bytes "\r\n")
    let len := ret
    let (headerBuf, ret) := snprintf headerBuf len (bufferSize - 1 - len)
      (bytes "Content-Length: " ++ decimal fileStat.size ++ bytes "\r\n")
    let len := len + ret
    let (headerBuf, _) := snprintf headerBuf len (bufferSize - 1 - len) (bytes "\r\n")
    iovec headerBuf ++ iovec fileBuf
  | none =>
    let (headerBuf, ret) := snprintf headerBuf 0 (bufferSize - 1) (bytes "HTTP/1.1 " ++ statusLine 1 ++ bytes "\r\n")
    let len := ret
    let (headerBuf, ret) := snprintf headerBuf len (bufferSize - 1 - len) (bytes "\r\n")
    headerBuf.take ret

/-! ## What is sent -/

/-- A status line, header fields and an empty line. -/
def head (status : List UInt8) (fields : List (List UInt8)) : List UInt8 :=
  bytes "HTTP/1.1 " ++ status ++ bytes "\r\n" ++ (fields.flatMap (· ++ bytes "\r\n") ++ bytes "\r\n")

def lengthField (length : Nat) : List UInt8 := bytes "Content-Length: " ++ decimal length

/-- The bytes are a complete header, and for a file that can be delivered the content, with its
length declared. -/
def Framed (file : FileOutcome) (sent : List UInt8) : Prop :=
  ∃ status fields body, (∀ byte ∈ status, inLine byte = true) ∧
    (∀ field ∈ fields, ∀ byte ∈ field, inLine byte = true) ∧ sent = head status fields ++ body ∧
    ∀ fileStat content, file.delivered = some (fileStat, content) →
      status = statusLine 0 ∧ lengthField body.length ∈ fields ∧ body = content

/-- Printing behind a text into memory that is zero. -/
theorem snprintf_zeros {front text : List UInt8} {room size : Nat} (fits : text.length < size) (inside : size ≤ room) :
    snprintf (front ++ List.replicate room 0) front.length size text =
      ((front ++ text) ++ List.replicate (room - text.length) 0, text.length) := by
  have whole : text.take (size - 1) = text := List.take_of_length_le (by omega)
  have zeros : [0] ++ List.replicate (room - (text.length + 1)) (0 : UInt8) = List.replicate (room - text.length) 0 := by
    rw [List.singleton_append, ← List.replicate_succ]
    congr 1
    omega
  have behind : (front ++ List.replicate room (0 : UInt8)).drop (front.length + (text ++ [0]).length) =
      List.replicate (room - (text.length + 1)) 0 := by
    rw [← List.drop_drop, List.drop_left, List.drop_replicate, List.length_append, List.length_singleton]
  rw [snprintf, if_neg (by omega), whole, overwrite, List.take_left, behind, List.append_assoc text, zeros,
    ← List.append_assoc]

theorem iovec_zeros {text : List UInt8} (nonzero : ∀ byte ∈ text, byte ≠ 0) {room : Nat} :
    iovec (text ++ List.replicate room 0) = text := by
  have all : ∀ byte ∈ text, decide (byte ≠ 0) = true := fun byte member => decide_eq_true (nonzero byte member)
  have front : str (text ++ List.replicate room 0) 0 = text := by
    rw [str, List.drop_zero, List.takeWhile_append_of_pos all]
    cases room <;> simp
  rw [iovec, front, List.take_left]

/-- What `read` leaves in the buffer for the file. -/
theorem iovec_file {content : List UInt8} {size : Nat} (whole : content.length = size) :
    iovec (overwrite (List.replicate (size + 1) 0) 0 content) = content.takeWhile (· ≠ 0) := by
  have buffer : overwrite (List.replicate (size + 1) 0) 0 content = content ++ [0] := by
    simp [overwrite, whole]
  have front : str (content ++ [0]) 0 = content.takeWhile (· ≠ 0) := by
    rw [str, List.drop_zero, List.takeWhile_append]
    split_ifs with all
    · have same := (@List.takeWhile_prefix _ content fun byte => decide (byte ≠ 0)).eq_of_length all
      rw [same]
      simp
    · rfl
  have initial : content.takeWhile (· ≠ 0) <+: content ++ [0] := (List.takeWhile_prefix _).trans (List.prefix_append _ _)
  rw [iovec, buffer, front]
  exact (List.prefix_iff_eq_take.mp initial).symm

theorem decimal_nonzero (value : Nat) : ∀ byte ∈ decimal value, byte ≠ 0 := by
  intro byte member
  rw [decimal, if_neg (by omega), List.nil_append] at member
  obtain ⟨digit, isDigit, rfl⟩ := List.mem_map.mp member
  have range := HttpConn.toDigits_range isDigit
  intro same
  have zero := congrArg UInt8.toNat same
  rw [UInt8.toNat_ofNat'] at zero
  change digit.toNat % 2 ^ 8 = 0 at zero
  omega

theorem decimal_length_off {value : Nat} (small : value < 2 ^ 63) : (decimal value).length ≤ 19 := by
  rw [decimal, if_neg (by omega), List.nil_append, List.length_map]
  exact (Nat.length_toDigits_le_iff (by decide) (by decide)).mpr (by omega)

/-- The three parts of the header behind each other. -/
theorem snprintf_header {first second third : List UInt8}
    (fits : first.length + second.length + third.length < bufferSize - 1) :
    (snprintf (snprintf (snprintf (List.replicate bufferSize 0) 0 (bufferSize - 1) first).1 first.length
      (bufferSize - 1 - first.length) second).1 (first.length + second.length)
        (bufferSize - 1 - (first.length + second.length)) third).1 =
      first ++ second ++ third ++ List.replicate (bufferSize - first.length - second.length - third.length) 0 := by
  have one : snprintf (List.replicate bufferSize 0) 0 (bufferSize - 1) first =
      (first ++ List.replicate (bufferSize - first.length) 0, first.length) :=
    @snprintf_zeros [] first bufferSize (bufferSize - 1) (by omega) (by omega)
  have two : snprintf (first ++ List.replicate (bufferSize - first.length) 0) first.length
      (bufferSize - 1 - first.length) second =
        (first ++ second ++ List.replicate (bufferSize - first.length - second.length) 0, second.length) :=
    snprintf_zeros (by omega) (by omega)
  have three : snprintf (first ++ second ++ List.replicate (bufferSize - first.length - second.length) 0)
      (first ++ second).length (bufferSize - 1 - (first ++ second).length) third =
        (first ++ second ++ third ++ List.replicate (bufferSize - first.length - second.length - third.length) 0,
          third.length) :=
    snprintf_zeros (by rw [List.length_append]; omega) (by rw [List.length_append]; omega)
  rw [List.length_append] at three
  rw [one, two, three]

theorem fixed_nonzero : ∀ byte ∈ bytes "HTTP/1.1 " ++ statusLine 0 ++ bytes "\r\n" ++ bytes "Content-Length: " ++
    bytes "\r\n", byte ≠ 0 := by
  decide +kernel

theorem statusLine_inLine : ∀ byte ∈ statusLine 0, inLine byte = true := by decide +kernel

theorem prompt_inLine : ∀ byte ∈ bytes "Content-Length: ", inLine byte = true := by decide +kernel

/-- The header is sent as a whole, and the content up to its first NUL. -/
theorem respond_delivered {file : FileOutcome} {fileStat : FileStat} {content : List UInt8}
    (delivered : file.delivered = some (fileStat, content)) (whole : content.length = fileStat.size) :
    respond file = head (statusLine 0) [lengthField fileStat.size] ++ content.takeWhile (· ≠ 0) := by
  have digits := decimal_length_off fileStat.small
  have line : (bytes "HTTP/1.1 " ++ statusLine 0 ++ bytes "\r\n").length = 17 := by decide
  have prompt : (bytes "Content-Length: ").length = 16 := rfl
  have crlf : (bytes "\r\n").length = 2 := rfl
  have field : (bytes "Content-Length: " ++ decimal fileStat.size ++ bytes "\r\n").length ≤ 37 := by
    rw [List.length_append, List.length_append]
    omega
  have nonzero : ∀ byte ∈ bytes "HTTP/1.1 " ++ statusLine 0 ++ bytes "\r\n" ++
      (bytes "Content-Length: " ++ decimal fileStat.size ++ bytes "\r\n") ++ bytes "\r\n", byte ≠ 0 := by
    intro byte member
    rcases List.mem_append.mp member with front | blank
    · rcases List.mem_append.mp front with status | field
      · exact fixed_nonzero byte (List.mem_append_left _ (List.mem_append_left _ status))
      · rcases List.mem_append.mp field with number | blank
        · rcases List.mem_append.mp number with prompt | digit
          · exact fixed_nonzero byte (List.mem_append_left _ (List.mem_append_right _ prompt))
          · exact decimal_nonzero fileStat.size byte digit
        · exact fixed_nonzero byte (List.mem_append_right _ blank)
    · exact fixed_nonzero byte (List.mem_append_right _ blank)
  have printed := @snprintf_header (bytes "HTTP/1.1 " ++ statusLine 0 ++ bytes "\r\n")
    (bytes "Content-Length: " ++ decimal fileStat.size ++ bytes "\r\n") (bytes "\r\n")
    (by rw [show bufferSize = 1024 from rfl]; omega)
  have sent := @iovec_zeros _ nonzero (bufferSize - (bytes "HTTP/1.1 " ++ statusLine 0 ++ bytes "\r\n").length -
    (bytes "Content-Length: " ++ decimal fileStat.size ++ bytes "\r\n").length - (bytes "\r\n").length)
  rw [← printed] at sent
  unfold respond
  rw [delivered]
  dsimp only [snprintf] at sent ⊢
  rw [sent, iovec_file whole]
  simp [head, lengthField, List.append_assoc]

/-- A response of two bytes. -/
theorem respond_refused {file : FileOutcome} (refused : file.delivered = none) : respond file = bytes "HT" := by
  unfold respond
  rw [refused]
  decide

theorem delivered_iff {file : FileOutcome} {fileStat : FileStat} {content : List UInt8} :
    file.delivered = some (fileStat, content) ↔
      file.stat = some fileStat ∧ fileStat.isReg = true ∧ fileStat.otherRead = true ∧ file.read = some content := by
  unfold FileOutcome.delivered
  rw [Option.bind_eq_some_iff]
  constructor
  · rintro ⟨found, stat, read⟩
    obtain ⟨⟨regular, readable⟩, taken⟩ := Option.ite_none_right_eq_some.mp read
    obtain ⟨bytes, same, pair⟩ := Option.map_eq_some_iff.mp taken
    obtain ⟨rfl, rfl⟩ := Prod.mk.inj pair
    exact ⟨stat, regular, readable, same⟩
  · rintro ⟨stat, regular, readable, read⟩
    exact ⟨fileStat, stat, by rw [if_pos ⟨regular, readable⟩, read, Option.map_some]⟩

/-- The header is at least as long as one of its fields says. -/
theorem head_length {status field : List UInt8} {fields : List (List UInt8)} (member : field ∈ fields) :
    (head status [field]).length ≤ (head status fields).length := by
  obtain ⟨before, behind, rfl⟩ := List.append_of_mem member
  simp only [head, List.length_append, List.flatMap_append, List.flatMap_cons, List.flatMap_nil, List.append_nil]
  omega

theorem not_framed_refused {file : FileOutcome} (refused : file.delivered = none) : ¬ Framed file (respond file) := by
  rintro ⟨status, fields, body, -, -, sent, -⟩
  have lengths := congrArg List.length sent
  have protocol : (bytes "HTTP/1.1 ").length = 9 := rfl
  rw [respond_refused refused, show (bytes "HT").length = 2 from rfl] at lengths
  simp only [head, List.length_append] at lengths
  omega

theorem framed_delivered {file : FileOutcome} {fileStat : FileStat} {content : List UInt8}
    (delivered : file.delivered = some (fileStat, content)) (whole : content.length = fileStat.size) :
    Framed file (respond file) ↔ 0 ∉ content := by
  rw [respond_delivered delivered whole]
  constructor
  · rintro ⟨status, fields, body, -, -, sent, promised⟩
    obtain ⟨rfl, declared, rfl⟩ := promised fileStat content delivered
    have lengths := congrArg List.length sent
    have longer := @head_length (statusLine 0) _ _ declared
    rw [List.length_append, List.length_append] at lengths
    rw [whole] at longer
    have front := @List.takeWhile_prefix _ body fun byte => decide (byte ≠ 0)
    have all := front.eq_of_length (by have shorter := front.length_le; omega)
    intro member
    have kept := List.takeWhile_eq_self_iff.mp all 0 member
    simp at kept
  · intro plain
    have all : content.takeWhile (· ≠ 0) = content := List.takeWhile_eq_self_iff.mpr fun byte member =>
      decide_eq_true fun zero => plain (zero ▸ member)
    rw [all]
    refine ⟨statusLine 0, [lengthField fileStat.size], content, statusLine_inLine, fun field member byte inField => ?_, rfl, ?_⟩
    · rw [List.mem_singleton.mp member] at inField
      rcases List.mem_append.mp inField with prompt | digits
      · exact prompt_inLine byte prompt
      · exact decimal_inLine _ byte digits
    · rintro other bytes again
      obtain ⟨rfl, rfl⟩ := Prod.mk.inj (Option.some.inj (delivered.symm.trans again))
      exact ⟨rfl, whole ▸ List.mem_singleton_self _, rfl⟩

/-- The response is framed exactly if the file can be delivered and holds no NUL. -/
theorem writev_framed_iff (file : FileOutcome)
    (whole : ∀ fileStat content, file.delivered = some (fileStat, content) → content.length = fileStat.size) :
    Framed file (respond file) ↔
      ∃ fileStat content, file.stat = some fileStat ∧ fileStat.isReg = true ∧ fileStat.otherRead = true ∧
        file.read = some content ∧ 0 ∉ content := by
  cases outcome : file.delivered with
  | none =>
    refine iff_of_false (not_framed_refused outcome) ?_
    rintro ⟨fileStat, content, stat, regular, readable, read, -⟩
    cases outcome.symm.trans (delivered_iff.mpr ⟨stat, regular, readable, read⟩)
  | some pair =>
    obtain ⟨fileStat, content⟩ := pair
    obtain ⟨stat, regular, readable, read⟩ := delivered_iff.mp outcome
    rw [framed_delivered outcome (whole fileStat content outcome)]
    constructor
    · exact fun plain => ⟨fileStat, content, stat, regular, readable, read, plain⟩
    · rintro ⟨other, bytes, -, -, -, same, plain⟩
      obtain rfl := Option.some.inj (read.symm.trans same)
      exact plain

/-- A text file. -/
theorem writev_framed_iff_text :
    Framed ⟨some ⟨true, true, 3, by decide⟩, some (bytes "abc")⟩
      (respond ⟨some ⟨true, true, 3, by decide⟩, some (bytes "abc")⟩) := by
  refine (writev_framed_iff ⟨some ⟨true, true, 3, by decide⟩, some (bytes "abc")⟩ ?_).mpr
    ⟨_, _, rfl, rfl, rfl, rfl, by decide⟩
  rintro fileStat content delivered
  obtain ⟨stat, -, -, read⟩ := delivered_iff.mp delivered
  cases stat
  cases read
  rfl

/-- A missing file, and a file of three bytes with a NUL in it. -/
theorem missing_and_binary_not_framed :
    respond ⟨none, none⟩ = bytes "HT" ∧ ¬ Framed ⟨none, none⟩ (respond ⟨none, none⟩) ∧
      ¬ Framed ⟨some ⟨true, true, 3, by decide⟩, some [65, 0, 66]⟩
        (respond ⟨some ⟨true, true, 3, by decide⟩, some [65, 0, 66]⟩) := by
  refine ⟨respond_refused rfl, not_framed_refused rfl, ?_⟩
  rw [framed_delivered (delivered_iff.mpr ⟨rfl, rfl, rfl, rfl⟩) rfl]
  decide

end UnixProgramming.Http
