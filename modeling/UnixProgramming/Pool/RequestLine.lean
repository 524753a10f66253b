import UnixProgramming.Pool.HttpConn

/-! The grammar of the request line. The parser splits the line in place; here the words it
finds are those of the only way to write the line as a method, a URL and a version with
blanks between them. -/

namespace UnixProgramming.Pool

open UnixProgramming.Lib

/-- The line consists of a method, a URL and a version, separated by blanks. -/
structure Words (line method url version : List UInt8) : Prop where
  separated : ∃ first second, line = method ++ (first ++ (url ++ (second ++ version))) ∧
    first ≠ [] ∧ second ≠ [] ∧ (∀ byte ∈ first, isBlank byte = true) ∧ ∀ byte ∈ second, isBlank byte = true
  noneInMethod : ∀ byte ∈ method, isBlank byte = false
  noneInUrl : ∀ byte ∈ url, isBlank byte = false
  nonempty : url ≠ []
  noneBefore : ∀ byte ∈ version.head?, isBlank byte = false

/-- The path that is asked for: the URL itself, or what follows the host. -/
inductive PathOf (url : List UInt8) : List UInt8 → Prop where
  | relative (slash : url.head? = some 47) : PathOf url url
  | absolute (host path : List UInt8) (http : caseEqualUpTo 7 url (bytes "http://") = true)
    (split : url.drop 7 = host ++ path) (first : 47 ∉ host) (slash : path.head? = some 47) : PathOf url path

/-- A request line that asks for a path. -/
def RequestLine (line path : List UInt8) : Prop :=
  ∃ method url version, Words line method url version ∧ caseEqual method (bytes "GET") = true ∧
    caseEqual version (bytes "HTTP/1.1") = true ∧ PathOf url path

/-! ## Splitting -/

/-- The words the parser finds. -/
def split (line : List UInt8) : Option (List UInt8 × List UInt8 × List UInt8) :=
  (firstBlank line).bind fun offset =>
    let rest := (line.drop (offset + 1)).dropWhile isBlank
    (firstBlank rest).map fun second =>
      (line.take offset, rest.take second, (rest.drop (second + 1)).dropWhile isBlank)

theorem firstBlank_some {text : List UInt8} {offset : Nat} (found : firstBlank text = some offset) :
    ∃ byte, text = text.take offset ++ byte :: text.drop (offset + 1) ∧ isBlank byte = true ∧
      ∀ other ∈ text.take offset, isBlank other = false := by
  rw [firstBlank, List.findIdx?_eq_some_iff_getElem] at found
  obtain ⟨inside, blank, before⟩ := found
  refine ⟨text[offset], ?_, blank, fun other member => ?_⟩
  · rw [List.getElem_cons_drop, List.take_append_drop]
  · obtain ⟨index, below, rfl⟩ := List.mem_take_iff_getElem.mp member
    simpa using before index (by omega)

theorem dropWhile_split (text : List UInt8) :
    ∃ first, text = first ++ text.dropWhile isBlank ∧ (∀ byte ∈ first, isBlank byte = true) ∧
      ∀ byte ∈ (text.dropWhile isBlank).head?, isBlank byte = false := by
  refine ⟨text.takeWhile isBlank, List.takeWhile_append_dropWhile.symm, fun byte member => ?_, fun byte member => ?_⟩
  · exact List.mem_takeWhile_imp member
  · have head := List.head?_dropWhile_not isBlank text
    rw [Option.mem_def.mp member] at head
    simpa using head

theorem dropWhile_words {first rest : List UInt8} (all : ∀ byte ∈ first, isBlank byte = true)
    (ends : ∀ byte ∈ rest.head?, isBlank byte = false) : (first ++ rest).dropWhile isBlank = rest := by
  rw [List.dropWhile_append_of_pos all]
  cases rest with
  | nil => rfl
  | cons byte others => rw [List.dropWhile_cons_of_neg (by simp [ends byte rfl])]

theorem split_sound {line method url version : List UInt8} (found : split line = some (method, url, version)) :
    Words line method url version := by
  unfold split at found
  obtain ⟨offset, here, found⟩ := Option.bind_eq_some_iff.mp found
  obtain ⟨second, there, same⟩ := Option.map_eq_some_iff.mp found
  cases same
  obtain ⟨byte, whole, blank, clean⟩ := firstBlank_some here
  obtain ⟨first, blanksFirst, allFirst, startsUrl⟩ := dropWhile_split (line.drop (offset + 1))
  generalize (line.drop (offset + 1)).dropWhile isBlank = rest at there blanksFirst startsUrl ⊢
  obtain ⟨other, parts, blankOther, cleanUrl⟩ := firstBlank_some there
  obtain ⟨later, blanksLater, allLater, startsVersion⟩ := dropWhile_split (rest.drop (second + 1))
  refine ⟨⟨byte :: first, other :: later, ?_, by simp, by simp, ?_, ?_⟩, clean, cleanUrl, ?_, startsVersion⟩
  · rw [List.cons_append, List.cons_append, ← blanksLater, ← parts, ← blanksFirst, ← whole]
  · exact List.forall_mem_cons.mpr ⟨blank, allFirst⟩
  · exact List.forall_mem_cons.mpr ⟨blankOther, allLater⟩
  · intro none
    rw [none, List.nil_append] at parts
    have clash := startsUrl other (by rw [parts]; rfl)
    rw [blankOther] at clash
    cases clash

theorem split_complete {line method url version : List UInt8} (words : Words line method url version) :
    split line = some (method, url, version) := by
  obtain ⟨⟨first, second, rfl, someFirst, someSecond, allFirst, allSecond⟩, clean, cleanUrl, nonempty, startsVersion⟩ :=
    words
  obtain ⟨byte, first, rfl⟩ := List.exists_cons_of_ne_nil someFirst
  obtain ⟨other, second, rfl⟩ := List.exists_cons_of_ne_nil someSecond
  obtain ⟨blank, allFirst⟩ := List.forall_mem_cons.mp allFirst
  obtain ⟨blankOther, allSecond⟩ := List.forall_mem_cons.mp allSecond
  have here : firstBlank (method ++ (byte :: first ++ (url ++ (other :: second ++ version)))) = some method.length :=
    findIdx_middle _ clean blank
  have rest : ((method ++ (byte :: first ++ (url ++ (other :: second ++ version)))).drop (method.length + 1)).dropWhile
      isBlank = url ++ (other :: second ++ version) := by
    rw [← List.drop_drop, List.drop_left, List.cons_append, List.drop_succ_cons, List.drop_zero]
    refine dropWhile_words allFirst fun head member => ?_
    obtain ⟨letter, letters, rfl⟩ := List.exists_cons_of_ne_nil nonempty
    cases member
    exact cleanUrl _ (List.mem_cons_self ..)
  have there : firstBlank (url ++ (other :: second ++ version)) = some url.length :=
    findIdx_middle _ cleanUrl blankOther
  have last : ((url ++ (other :: second ++ version)).drop (url.length + 1)).dropWhile isBlank = version := by
    rw [← List.drop_drop, List.drop_left, List.cons_append, List.drop_succ_cons, List.drop_zero]
    exact dropWhile_words allSecond startsVersion
  simp only [split, here, Option.bind_some, rest, there, Option.map_some, last, List.take_left]

theorem split_iff {line method url version : List UInt8} :
    split line = some (method, url, version) ↔ Words line method url version :=
  ⟨split_sound, split_complete⟩

/-- Where the path starts in the URL, as the parser finds it. -/
def pathOffset (url : List UInt8) : Option Nat :=
  if caseEqualUpTo 7 url (bytes "http://") then (strchr (url.drop 7) 47).map (7 + ·) else some 0

theorem strchr_some {text : List UInt8} {byte : UInt8} {offset : Nat} (found : strchr text byte = some offset) :
    byte ∉ text.take offset ∧ (text.drop offset).head? = some byte := by
  rw [strchr, List.findIdx?_eq_some_iff_getElem] at found
  obtain ⟨inside, here, before⟩ := found
  refine ⟨fun member => ?_, ?_⟩
  · obtain ⟨index, below, same⟩ := List.mem_take_iff_getElem.mp member
    have other := before index (by omega)
    simp [same] at other
  · rw [List.head?_drop, List.getElem?_eq_getElem inside]
    simpa using here

theorem pathOf_sound {url : List UInt8} {offset : Nat} (found : pathOffset url = some offset)
    (slash : (url.drop offset).head? = some 47) : PathOf url (url.drop offset) := by
  unfold pathOffset at found
  split_ifs at found with http
  · obtain ⟨place, here, rfl⟩ := Option.map_eq_some_iff.mp found
    refine .absolute ((url.drop 7).take place) _ http ?_ (strchr_some here).1 slash
    rw [← List.drop_drop, List.take_append_drop]
  · cases found
    exact .relative slash

theorem pathOf_complete {url path : List UInt8} (is : PathOf url path) :
    ∃ offset, pathOffset url = some offset ∧ url.drop offset = path ∧ path.head? = some 47 := by
  cases is with
  | relative slash =>
    refine ⟨0, ?_, rfl, slash⟩
    obtain ⟨rest, rfl⟩ := List.head?_eq_some_iff.mp slash
    -- a slash is no letter
    have other : caseEqualUpTo 7 (47 :: rest) (bytes "http://") = false := by
      simp [caseEqualUpTo, caseEqual, bytes, toLower]
    simp [pathOffset, other]
  | absolute host path http split first slash =>
    obtain ⟨rest, rfl⟩ := List.head?_eq_some_iff.mp slash
    have found : strchr (host ++ 47 :: rest) 47 = some host.length := by
      refine findIdx_middle rest (fun byte member => ?_) (by simp)
      simpa using fun same : byte = 47 => first (same ▸ member)
    refine ⟨7 + host.length, ?_, ?_, slash⟩
    · simp [pathOffset, http, split, found]
    · rw [← List.drop_drop, split, List.drop_left]

/-! ## The parser -/

section Strings
variable {buffer : List UInt8} {pointer position : Nat}

/-- A NUL before a string does not change it. -/
theorem str_set_before (before : position < pointer) : str (buffer.set position 0) pointer = str buffer pointer := by
  rw [str, List.drop_set, if_pos before, str]

/-- A NUL in a string cuts it. -/
theorem str_set_cut (within : position < (str buffer pointer).length) :
    str (buffer.set (pointer + position) 0) pointer = (str buffer pointer).take position := by
  have whole := drop_str buffer pointer
  have nonzero : ∀ byte ∈ (str buffer pointer).take position, decide (byte ≠ 0) = true := by
    intro byte member
    have inside : byte ∈ (buffer.drop pointer).takeWhile (· ≠ 0) := List.mem_of_mem_take member
    have here := List.mem_takeWhile_imp inside
    exact here
  rw [str, List.drop_set, if_neg (by omega), Nat.add_sub_cancel_left, ← whole, List.set_append_left _ _ within]
  generalize str buffer pointer = text at within nonzero ⊢
  rw [List.set_eq_take_append_cons_drop, if_pos within, List.append_assoc, List.takeWhile_append_of_pos nonzero,
    List.cons_append, List.takeWhile_cons_of_neg (by simp), List.append_nil]

theorem getD_eq_iff {byte : UInt8} (nonzero : byte ≠ 0) :
    buffer.getD pointer 0 = byte ↔ (str buffer pointer).head? = some byte := by
  constructor
  · intro same
    have inside : buffer[pointer]? = some byte := by
      cases found : buffer[pointer]? with
      | none =>
        rw [List.getD_eq_getElem?_getD, found] at same
        exact absurd same.symm nonzero
      | some other =>
        rw [List.getD_eq_getElem?_getD, found] at same
        exact congrArg some same
    have head : (buffer.drop pointer).head? = some byte := by rw [List.head?_drop, inside]
    obtain ⟨rest, split⟩ := List.head?_eq_some_iff.mp head
    rw [str, split, List.takeWhile_cons_of_pos (by simpa using nonzero), List.head?_cons]
  · intro head
    obtain ⟨rest, text⟩ := List.head?_eq_some_iff.mp head
    exact getD_of_str text

end Strings

namespace HttpConn

/-- What a part of `parse_request_line` answers, given which paths it accepts. -/
inductive Answers (conn : HttpConn) (accepts : List UInt8 → Prop) (result : HttpCode × HttpConn) : Prop where
  | accepted (path : List UInt8) (target : Nat) (is : accepts path) (code : result.1 = .noRequest)
    (state : result.2.checkState = .header) (url : result.2.url = some target)
    (text : str result.2.readBuf target = path)
  | rejected (none : ∀ path, ¬ accepts path) (code : result.1 = .badRequest)
    (state : result.2.checkState = conn.checkState)

theorem Answers.mono {conn before : HttpConn} {accepts others : List UInt8 → Prop} {result : HttpCode × HttpConn}
    (answers : conn.Answers accepts result) (same : ∀ path, accepts path ↔ others path)
    (state : conn.checkState = before.checkState) : before.Answers others result := by
  cases answers with
  | accepted path target is code state url text => exact .accepted path target ((same path).mp is) code state url text
  | rejected none code kept => exact .rejected (fun path is => none path ((same path).mpr is)) code (kept.trans state)

theorem requestTarget_eq (buffer : List UInt8) (url : Nat) :
    requestTarget buffer url = (pathOffset (str buffer url)).map (url + ·) := by
  unfold requestTarget pathOffset
  split_ifs with http
  · rw [str_drop (length_of_caseEqualUpTo http (by decide)), Option.map_map]
    congr 1
    funext offset
    exact Nat.add_assoc url 7 offset
  · rfl

theorem pathOffset_le {url : List UInt8} {offset : Nat} (found : pathOffset url = some offset) :
    offset ≤ url.length := by
  unfold pathOffset at found
  split_ifs at found with http
  · obtain ⟨place, here, rfl⟩ := Option.map_eq_some_iff.mp found
    have long := length_of_caseEqualUpTo http (by decide)
    have inside := strchr_lt here
    rw [List.length_drop] at inside
    omega
  · cases found
    exact Nat.zero_le _

theorem parseVersion_answers (conn : HttpConn) (url version : Nat) :
    conn.Answers (fun path => caseEqual (str conn.readBuf version) (bytes "HTTP/1.1") = true ∧
      PathOf (str conn.readBuf url) path) (conn.parseVersion url version) := by
  unfold parseVersion
  split_ifs with http
  · dsimp only
    rw [requestTarget_eq]
    cases found : pathOffset (str conn.readBuf url) with
    | none =>
      refine .rejected (fun path is => ?_) rfl rfl
      obtain ⟨offset, there, -⟩ := pathOf_complete is.2
      rw [found] at there
      cases there
    | some offset =>
      have text := str_drop (pathOffset_le found)
      dsimp only [Option.map_some]
      split_ifs with slash
      · rw [getD_eq_iff (by decide), text] at slash
        exact .accepted _ (url + offset) ⟨http, pathOf_sound found slash⟩ rfl rfl rfl text
      · refine .rejected (fun path is => slash ?_) rfl rfl
        obtain ⟨other, there, rfl, head⟩ := pathOf_complete is.2
        rw [found] at there
        cases there
        rwa [getD_eq_iff (by decide), text]
  · exact .rejected (fun path is => http is.1) rfl rfl

theorem parseUrl_answers (conn : HttpConn) (url : Nat) {rest : List UInt8}
    (text : (str conn.readBuf url).dropWhile isBlank = rest) :
    conn.Answers (fun path => ∃ second, firstBlank rest = some second ∧
      caseEqual ((rest.drop (second + 1)).dropWhile isBlank) (bytes "HTTP/1.1") = true ∧
      PathOf (rest.take second) path) (conn.parseUrl url) := by
  have start : str conn.readBuf (url + blanks (str conn.readBuf url)) = rest := by
    rw [str_drop (blanks_le _), drop_blanks, text]
  unfold parseUrl
  dsimp only
  rw [start]
  cases found : firstBlank rest with
  | none =>
    refine .rejected ?_ rfl rfl
    rintro path ⟨second, there, -⟩
    cases there
  | some second =>
    have inside := firstBlank_lt found
    rw [← start] at inside
    generalize url + blanks (str conn.readBuf url) = url at start inside
    have cut : str (conn.readBuf.set (url + second) 0) url = rest.take second := by
      rw [str_set_cut inside, start]
    have behind : str (conn.readBuf.set (url + second) 0) (url + second + 1) = rest.drop (second + 1) := by
      rw [str_set_before (by omega), Nat.add_assoc, str_drop inside, start]
    refine (parseVersion_answers _ url _).mono (fun path => ?_) rfl
    dsimp only
    rw [cut, str_drop (blanks_le _), drop_blanks, behind]
    constructor
    · exact fun is => ⟨second, rfl, is⟩
    · rintro ⟨other, same, is⟩
      cases same
      exact is

/-- The request lines, by the words the parser finds. -/
theorem requestLine_iff {line path : List UInt8} :
    RequestLine line path ↔ ∃ method url version, split line = some (method, url, version) ∧
      caseEqual method (bytes "GET") = true ∧ caseEqual version (bytes "HTTP/1.1") = true ∧ PathOf url path := by
  simp only [RequestLine, split_iff]

theorem parseRequestLine_answers (conn : HttpConn) (text : Nat) :
    conn.Answers (RequestLine (str conn.readBuf text)) (conn.parseRequestLine text) := by
  generalize line : str conn.readBuf text = words
  unfold parseRequestLine
  rw [line]
  cases found : firstBlank words with
  | none =>
    refine .rejected (fun path is => ?_) rfl rfl
    obtain ⟨method, url, version, same, -⟩ := requestLine_iff.mp is
    simp [split, found] at same
  | some offset =>
    have inside := firstBlank_lt found
    rw [← line] at inside
    have cut : str (conn.readBuf.set (text + offset) 0) text = words.take offset := by rw [str_set_cut inside, line]
    have behind : str (conn.readBuf.set (text + offset) 0) (text + offset + 1) = words.drop (offset + 1) := by
      rw [str_set_before (by omega), Nat.add_assoc, str_drop inside, line]
    dsimp only
    rw [cut]
    split_ifs with get
    · refine (parseUrl_answers _ (text + offset + 1) (by rw [behind])).mono (fun path => ?_) rfl
      rw [requestLine_iff, split, found, Option.bind_some]
      constructor
      · rintro ⟨second, there, http, is⟩
        exact ⟨_, _, _, Option.map_eq_some_iff.mpr ⟨second, there, rfl⟩, get, http, is⟩
      · rintro ⟨method, url, version, same, -, http, is⟩
        obtain ⟨second, there, words⟩ := Option.map_eq_some_iff.mp same
        cases words
        exact ⟨second, there, http, is⟩
    · refine .rejected (fun path is => get ?_) rfl rfl
      obtain ⟨method, url, version, same, isGet, -⟩ := requestLine_iff.mp is
      rw [split, found, Option.bind_some] at same
      obtain ⟨second, -, words⟩ := Option.map_eq_some_iff.mp same
      cases words
      exact isGet

/-- The path a line asks for, if it is a request line. -/
def requestPath (line : List UInt8) : Option (List UInt8) :=
  (split line).bind fun (method, url, version) =>
    if caseEqual method (bytes "GET") = true ∧ caseEqual version (bytes "HTTP/1.1") = true then
      (pathOffset url).bind fun offset => if (url.drop offset).head? = some 47 then some (url.drop offset) else none
    else none

theorem requestPath_iff {line path : List UInt8} : requestPath line = some path ↔ RequestLine line path := by
  rw [requestLine_iff, requestPath, Option.bind_eq_some_iff]
  constructor
  · rintro ⟨⟨method, url, version⟩, found, rest⟩
    dsimp only at rest
    split_ifs at rest with words
    obtain ⟨offset, there, same⟩ := Option.bind_eq_some_iff.mp rest
    split_ifs at same with slash
    cases same
    exact ⟨method, url, version, found, words.1, words.2, pathOf_sound there slash⟩
  · rintro ⟨method, url, version, found, get, http, is⟩
    obtain ⟨offset, there, rfl, slash⟩ := pathOf_complete is
    refine ⟨(method, url, version), found, ?_⟩
    simp only [get, http, and_self, if_true, there, Option.bind_some, slash]

instance (line : List UInt8) : Decidable (∃ path, RequestLine line path) :=
  decidable_of_iff ((requestPath line).isSome = true) (by simp only [Option.isSome_iff_exists, requestPath_iff])

theorem RequestLine.unique {line path other : List UInt8} (is : RequestLine line path) (also : RequestLine line other) :
    path = other :=
  Option.some.inj ((requestPath_iff.mpr is).symm.trans (requestPath_iff.mpr also))

/-- `parse_request_line` accepts the request lines and no others: it goes on to the headers with
`m_url` at the path, or rejects the line and stays in its state. -/
theorem parseRequestLine_exact (conn : HttpConn) (text : Nat) :
    ((conn.parseRequestLine text).1 = .noRequest ↔ ∃ path, RequestLine (str conn.readBuf text) path) ∧
    (∀ path, RequestLine (str conn.readBuf text) path → (conn.parseRequestLine text).2.checkState = .header ∧
      ∃ url, (conn.parseRequestLine text).2.url = some url ∧ str (conn.parseRequestLine text).2.readBuf url = path) ∧
    ((¬ ∃ path, RequestLine (str conn.readBuf text) path) → (conn.parseRequestLine text).1 = .badRequest ∧
      (conn.parseRequestLine text).2.checkState = conn.checkState) := by
  cases parseRequestLine_answers conn text with
  | accepted path target is code state url found =>
    refine ⟨iff_of_true code ⟨path, is⟩, fun other also => ?_, fun none => absurd ⟨path, is⟩ none⟩
    exact ⟨state, target, url, found.trans (RequestLine.unique is also)⟩
  | rejected none code state =>
    have never : ¬ ∃ path, RequestLine (str conn.readBuf text) path := fun ⟨path, is⟩ => none path is
    refine ⟨iff_of_false (by rw [code]; decide) never, fun path is => absurd is (none path), fun _ => ⟨code, state⟩⟩

/-- An absolute URL without a path is not a request line. -/
example : (parseRequestLine { zeroed with readBuf := bytes "GET http://a HTTP/1.1" } 0).1 = .badRequest := by
  decide

end HttpConn
end UnixProgramming.Pool
