import UnixProgramming.Pool.Reception

/-! The path `do_request` serves. It is copied into `m_real_file`, which has room for
`FILENAME_LEN` bytes and is used again by the next request, and goes to `stat` and `open` as it is. -/

namespace UnixProgramming.Pool

open UnixProgramming.Lib HttpConn

/-! ## The copy -/

/-- The memory of `m_real_file`; the last byte is NUL from `init` on. -/
structure RealFile where
  memory : List UInt8
  size : memory.length = filenameLen
  ends : memory.drop (filenameLen - 1) = [0]

namespace RealFile

/-- The `memset` of `init()`. -/
def cleared : RealFile where
  memory := List.replicate filenameLen 0
  size := by simp
  ends := by decide

/-- The two copies of `do_request`. -/
def copied (memory url : List UInt8) : List UInt8 :=
  strncpy (strcpy memory 0 docRoot) docRoot.length url (filenameLen - docRoot.length - 1)

/-- What `strncpy` writes. -/
def padded (url : List UInt8) : List UInt8 :=
  url.take (filenameLen - docRoot.length - 1) ++ List.replicate (filenameLen - docRoot.length - 1 - url.length) 0

theorem padded_length (url : List UInt8) : (padded url).length = filenameLen - docRoot.length - 1 := by
  rw [padded, List.length_append, List.length_take, List.length_replicate]
  omega

/-- What the copies leave there: the bytes they write, and the last one of before. -/
theorem copied_eq (file : RealFile) (url : List UInt8) :
    copied file.memory url = docRoot ++ (padded url ++ [0]) := by
  have root : docRoot = [46] := by decide
  have started : strcpy file.memory 0 docRoot = docRoot ++ 0 :: file.memory.drop 2 := by
    simp [strcpy, overwrite, root]
  have behind : (docRoot ++ 0 :: file.memory.drop 2).drop (docRoot.length + (padded url).length) = [0] := by
    have room : filenameLen = 200 := rfl
    have last := file.ends
    rw [padded_length, List.drop_append]
    simpa [root, room] using last
  calc copied file.memory url
      = overwrite (docRoot ++ 0 :: file.memory.drop 2) docRoot.length (padded url) := by rw [copied, started]; rfl
    _ = docRoot ++ (padded url ++ [0]) := by rw [overwrite, behind, List.take_left]

/-- `m_real_file` after the copies. -/
def copy (file : RealFile) (url : List UInt8) : RealFile where
  memory := copied file.memory url
  size := by
    rw [copied_eq, List.length_append, List.length_append, padded_length]
    decide
  ends := by
    have front : (docRoot ++ padded url).length = filenameLen - 1 := by
      rw [List.length_append, padded_length]
      decide
    rw [copied_eq, ← List.append_assoc, ← front, List.drop_left]

/-- The string in it. -/
def text (file : RealFile) : List UInt8 := str file.memory 0

/-- Nothing of an earlier request is left, and a long URL is cut. -/
theorem copy_text (file : RealFile) {url : List UInt8} (plain : 0 ∉ url) : (file.copy url).text = realPath url := by
  have clean : 0 ∉ realPath url := by
    intro member
    rcases List.mem_append.mp member with root | cut
    · revert root
      decide
    · exact plain (List.mem_of_mem_take cut)
  have split : copied file.memory url = [] ++ (realPath url ++ 0 ::
      List.replicate (filenameLen - docRoot.length - 1 - url.length) 0) := by
    rw [copied_eq, padded, realPath, ← List.replicate_succ, List.replicate_succ']
    simp
  have read := str_middle [] (List.replicate (filenameLen - docRoot.length - 1 - url.length) 0) clean
  rwa [← split] at read

end RealFile

/-! ## The whole of the URL -/

/-- As many bytes of a URL fit behind the document root. -/
theorem realPath_whole_iff (url : List UInt8) :
    realPath url = docRoot ++ url ↔ url.length ≤ filenameLen - docRoot.length - 1 := by
  rw [realPath, List.append_cancel_left_eq]
  exact ⟨fun same => by rw [← same, List.length_take]; exact Nat.min_le_left _ _, List.take_of_length_le⟩

theorem str_plain (buffer : List UInt8) (pointer : Nat) : 0 ∉ str buffer pointer := by
  intro member
  have nonzero := List.mem_takeWhile_imp member
  simp at nonzero

theorem doRequest_realFile (fs : FileSystem) (conn : HttpConn) {target : Nat} (asks : conn.url = some target) :
    (doRequest fs conn).2.realFile = realPath (str conn.readBuf target) := by
  unfold doRequest
  simp only [asks, Option.map_some, Option.getD_some]
  repeat' split
  all_goals rfl

/-- Two requests are served the whole of their URLs, and different paths for different URLs,
exactly when neither URL is longer than what is left of `FILENAME_LEN`, whatever requests the two
objects have served before. -/
theorem realFile_whole_iff (fs : FileSystem) (first second : HttpConn) {target other : Nat}
    (asks : first.url = some target) (asksOther : second.url = some other) (memory earlier : RealFile) :
    (doRequest fs first).2.realFile = (memory.copy (str first.readBuf target)).text ∧
    (doRequest fs second).2.realFile = (earlier.copy (str second.readBuf other)).text ∧
    (((doRequest fs first).2.realFile = docRoot ++ str first.readBuf target ∧
        (doRequest fs second).2.realFile = docRoot ++ str second.readBuf other ∧
        (str first.readBuf target ≠ str second.readBuf other →
          (doRequest fs first).2.realFile ≠ (doRequest fs second).2.realFile)) ↔
      (str first.readBuf target).length ≤ filenameLen - docRoot.length - 1 ∧
        (str second.readBuf other).length ≤ filenameLen - docRoot.length - 1) := by
  rw [doRequest_realFile fs first asks, doRequest_realFile fs second asksOther,
    memory.copy_text (str_plain _ _), earlier.copy_text (str_plain _ _)]
  generalize str first.readBuf target = url
  generalize str second.readBuf other = url'
  refine ⟨rfl, rfl, ?_⟩
  rw [← realPath_whole_iff, ← realPath_whole_iff]
  constructor
  · exact fun whole => ⟨whole.1, whole.2.1⟩
  · rintro ⟨whole, whole'⟩
    refine ⟨whole, whole', fun different same => different ?_⟩
    rw [whole, whole'] at same
    exact List.append_cancel_left same

/-- A request line for a slash and so many letters, and the blank line. -/
def longRequest (count : Nat) : List UInt8 :=
  bytes "GET /" ++ List.replicate count 97 ++ bytes " HTTP/1.1\r\n\r\n"

/-- What a fresh connection has in `m_real_file` after a request. -/
def servedPath (request : List UInt8) : Option (List UInt8) :=
  ((Reception.start .zeroed).call ⟨fun _ => none, fun _ => none⟩ [.data request]).map fun result =>
    result.2.conn.realFile

/-- Two URLs that first differ behind their 198th byte. -/
theorem long_urls_collide :
    servedPath (longRequest 198) = servedPath (longRequest 199) ∧
      servedPath (longRequest 198) ≠ some (docRoot ++ 47 :: List.replicate 198 97) ∧
      servedPath (longRequest 199) ≠ some (docRoot ++ 47 :: List.replicate 199 97) := by
  decide +kernel

/-- Two requests for short paths. -/
theorem realFile_whole_short :
    (doRequest ⟨fun _ => none, fun _ => none⟩ { zeroed with readBuf := bytes "/a", url := some 0 }).2.realFile ≠
      (doRequest ⟨fun _ => none, fun _ => none⟩ { zeroed with readBuf := bytes "/b", url := some 0 }).2.realFile := by
  have exact := (realFile_whole_iff ⟨fun _ => none, fun _ => none⟩
    { zeroed with readBuf := bytes "/a", url := some 0 } { zeroed with readBuf := bytes "/b", url := some 0 }
    rfl rfl .cleared .cleared).2.2
  exact (exact.mpr (by decide +kernel)).2.2 (by decide +kernel)

/-! ## The document root -/

/-- The component that goes up. -/
def parentDir : List UInt8 := bytes ".."

/-- The directories a walk along the components is in, below the one it starts from; none when it
leaves that one. -/
def walk : List (List UInt8) → List (List UInt8) → Option (List (List UInt8))
  | place, [] => some place
  | place, component :: rest =>
    if component = parentDir then
      match place with
      | [] => none
      | _ :: above => walk above rest
    else walk (component :: place) rest

/-- The string `m_url` points at. -/
def urlText (conn : HttpConn) : Option (List UInt8) := conn.url.map (str conn.readBuf)

end UnixProgramming.Pool
