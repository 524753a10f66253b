import UnixProgramming.Csapp.HeaderSkip

/-! Which request lines the arrays of `doit` are large enough for. The words of a line are
shorter than the line, but the name of a directory's page is longer than its URI. -/

namespace UnixProgramming.Csapp

open UnixProgramming.Lib

/-- The words that so many conversions `%s` find. -/
def scanWords : Nat → List UInt8 → List (List UInt8)
  | 0, _ => []
  | conversions + 1, text =>
    match scanWord text with
    | none => []
    | some (word, text) => word :: scanWords conversions text

/-- The indices at which `parse_uri` reads the string `uri`. -/
def uriReads (uri : List UInt8) : List Int :=
  let whole := (List.range (uri.length + 1)).map Int.ofNat
  -- `strstr` and `strcat` go through the whole string, as `index` does when it finds nothing
  if ¬ strstr uri (bytes "cgi-bin") then whole ++ whole ++ [(uri.length : Int) - 1]
  else
    match strchr uri 63 with
    | some offset =>
      let path := (List.range (offset + 1)).map Int.ofNat
      whole ++ path ++ (List.range' (offset + 1) (uri.length - offset)).map Int.ofNat ++ path
    | none => whole ++ whole ++ whole

/-- A word comes from the text, and so does what is left, which begins with white space. -/
theorem scanWord_some {text word rest : List UInt8} (scanned : scanWord text = some (word, rest)) :
    word ≠ [] ∧ word.length + rest.length ≤ text.length ∧ (∀ byte ∈ word, byte ∈ text) ∧
      (∀ byte ∈ rest, byte ∈ text) ∧ rest.head?.all isSpace := by
  unfold scanWord at scanned
  dsimp only at scanned
  split_ifs at scanned with nothing
  obtain ⟨rfl, rfl⟩ := Prod.mk.inj (Option.some.inj scanned)
  have lengths := congrArg List.length
    (@List.takeWhile_append_dropWhile _ (! isSpace ·) (text.dropWhile isSpace))
  rw [List.length_append] at lengths
  have shorter := (@List.dropWhile_suffix _ text isSpace).length_le
  refine ⟨?_, by omega, fun byte member => ?_, fun byte member => ?_, ?_⟩
  · have first := List.head_dropWhile_not isSpace nothing
    obtain ⟨byte, behind, same⟩ := List.exists_cons_of_ne_nil nothing
    simp only [same, List.head_cons] at first
    simp [same, first]
  · exact (List.dropWhile_suffix isSpace).subset ((List.takeWhile_prefix _).subset member)
  · exact (List.dropWhile_suffix isSpace).subset ((List.dropWhile_suffix _).subset member)
  · have first := List.head?_dropWhile_not (! isSpace ·) (text.dropWhile isSpace)
    cases head : ((text.dropWhile isSpace).dropWhile (! isSpace ·)).head? with
    | none => rfl
    | some byte => simpa [head] using first

/-- A word behind another one leaves a byte between them. -/
theorem scanWord_behind {text word rest : List UInt8} (between : text.head?.all isSpace)
    (scanned : scanWord text = some (word, rest)) : word.length + rest.length < text.length := by
  unfold scanWord at scanned
  cases text with
  | nil => cases scanned
  | cons byte text =>
    have space : isSpace byte = true := by simpa using between
    rw [List.dropWhile_cons_of_pos space] at scanned
    have scannedBehind : scanWord text = some (word, rest) := scanned
    obtain ⟨-, fits, -⟩ := scanWord_some scannedBehind
    rw [List.length_cons]
    omega

theorem scanWords_mem {conversions : Nat} {text word : List UInt8} (member : word ∈ scanWords conversions text) :
    word.length ≤ text.length ∧ ∀ byte ∈ word, byte ∈ text := by
  induction conversions generalizing text with
  | zero => cases member
  | succ conversions ih =>
    rw [scanWords] at member
    split at member
    · cases member
    · next first rest scanned =>
      obtain ⟨-, fits, inFirst, inRest, -⟩ := scanWord_some scanned
      rcases List.mem_cons.mp member with rfl | later
      · exact ⟨by omega, inFirst⟩
      · obtain ⟨shorter, inWord⟩ := ih later
        exact ⟨by omega, fun byte inside => inRest byte (inWord byte inside)⟩

/-- Each array gets its word, if there is one. -/
theorem sscanf_words (request : Request) (text : List UInt8) :
    request.sscanf text =
      { method := ((scanWords 3 text)[0]?).elim request.method (strcpy request.method)
        uri := ((scanWords 3 text)[1]?).elim request.uri (strcpy request.uri)
        version := ((scanWords 3 text)[2]?).elim request.version (strcpy request.version) } := by
  unfold Request.sscanf
  simp only [scanWords]
  cases scanWord text with
  | none => rfl
  | some pair =>
    obtain ⟨method, rest⟩ := pair
    cases second : scanWord rest with
    | none => simp [second]
    | some pair =>
      obtain ⟨uri, behind⟩ := pair
      cases third : scanWord behind with
      | none => simp [second, third]
      | some pair => simp [second, third]

/-- The string in an array that a word without NUL has been stored in. -/
theorem str_strcpy {memory text : List UInt8} (nonzero : ∀ byte ∈ text, byte ≠ 0) :
    str (strcpy memory text) 0 = text := by
  have all : ∀ byte ∈ text, decide (byte ≠ 0) = true := fun byte member => decide_eq_true (nonzero byte member)
  rw [str, strcpy, List.drop_zero, List.takeWhile_append_of_pos all]
  simp

/-- The string in an array of `doit` is its word, or what it was before. -/
theorem str_word {text : List UInt8} (nonzero : ∀ byte ∈ text, byte ≠ 0) (memory : List UInt8) (position : Nat) :
    str (((scanWords 3 text)[position]?).elim memory (strcpy memory)) 0 =
      ((scanWords 3 text)[position]?).getD (str memory 0) := by
  cases found : (scanWords 3 text)[position]? with
  | none => rfl
  | some word =>
    exact str_strcpy fun byte member =>
      nonzero byte ((scanWords_mem (List.mem_of_getElem? found)).2 byte member)

/-- The second word of a line that begins with a method of this length. -/
theorem scanWords_uri {text method uri : List UInt8} (first : (scanWords 3 text)[0]? = some method)
    (second : (scanWords 3 text)[1]? = some uri) :
    uri ≠ [] ∧ method.length + uri.length + 1 ≤ text.length := by
  simp only [scanWords] at first second
  cases scanned : scanWord text with
  | none => simp [scanned] at first
  | some pair =>
    obtain ⟨word, rest⟩ := pair
    obtain ⟨-, fits, -, -, between⟩ := scanWord_some scanned
    simp only [scanned, List.getElem?_cons_zero, Option.some.injEq, List.getElem?_cons_succ] at first second
    subst first
    cases next : scanWord rest with
    | none => simp [next] at second
    | some pair =>
      obtain ⟨other, behind⟩ := pair
      simp only [next, List.getElem?_cons_zero, Option.some.injEq] at second
      subst second
      have apart := scanWord_behind between next
      exact ⟨(scanWord_some next).1, by omega⟩

/-! ## What fits -/

/-- What the text of a request line leads to fits the arrays of `doit`, and `parse_uri` reads
nothing but the string that `sscanf` stored. -/
structure UriFits (text : List UInt8) (request : Request) (beforeUri : UInt8) : Prop where
  words : ∀ word ∈ scanWords 3 text, word.length + 1 ≤ maxline
  filename : (parseUri (str request.uri 0) beforeUri).filename.length + 1 ≤ maxline
  cgiargs : (parseUri (str request.uri 0) beforeUri).cgiargs.length + 1 ≤ maxline
  reads : ∀ index ∈ uriReads (str request.uri 0),
    ∃ uri, (scanWords 3 text)[1]? = some uri ∧ 0 ≤ index ∧ index ≤ uri.length

theorem zero_mem_uriReads (uri : List UInt8) : 0 ∈ uriReads uri := by
  have whole : (0 : Int) ∈ (List.range (uri.length + 1)).map Int.ofNat :=
    List.mem_map.mpr ⟨0, List.mem_range.mpr (Nat.succ_pos _), rfl⟩
  unfold uriReads
  dsimp only
  split_ifs
  · split
    · simp only [List.mem_append]
      exact .inl (.inl (.inl whole))
    · simp only [List.mem_append]
      exact .inl (.inl whole)
  · simp only [List.mem_append]
    exact .inl (.inl whole)

/-- In a string that is not empty every read is inside. -/
theorem uriReads_inside {uri : List UInt8} (nonempty : uri ≠ []) {index : Int} (read : index ∈ uriReads uri) :
    0 ≤ index ∧ index ≤ uri.length := by
  have positive := List.length_pos_iff.mpr nonempty
  unfold uriReads at read
  dsimp only at read
  split_ifs at read
  · split at read
    · next offset found =>
      have inside := strchr_lt found
      simp only [List.mem_append, List.mem_map, List.mem_range, List.mem_range'_1] at read
      obtain ((⟨place, below, rfl⟩ | ⟨place, below, rfl⟩) | ⟨place, below, rfl⟩) | ⟨place, below, rfl⟩ := read <;>
        exact ⟨Int.natCast_nonneg place, Int.ofNat_le.mpr (by omega)⟩
    · simp only [List.mem_append, List.mem_map, List.mem_range] at read
      obtain (⟨place, below, rfl⟩ | ⟨place, below, rfl⟩) | ⟨place, below, rfl⟩ := read <;>
        exact ⟨Int.natCast_nonneg place, Int.ofNat_le.mpr (by omega)⟩
  · simp only [List.mem_append, List.mem_map, List.mem_range, List.mem_singleton] at read
    obtain (⟨place, below, rfl⟩ | ⟨place, below, rfl⟩) | rfl := read
    · exact ⟨Int.natCast_nonneg place, Int.ofNat_le.mpr (by omega)⟩
    · exact ⟨Int.natCast_nonneg place, Int.ofNat_le.mpr (by omega)⟩
    · omega

/-- How long the results of `parse_uri` are. -/
theorem parseUri_lengths (uri : List UInt8) (beforeUri : UInt8) :
    (parseUri uri beforeUri).cgiargs.length ≤ uri.length ∧
      ((strstr uri (bytes "cgi-bin") = true ∨ uri.getLastD beforeUri ≠ 47) →
        (parseUri uri beforeUri).filename.length ≤ uri.length + 1) ∧
      (strstr uri (bytes "cgi-bin") = false → uri.getLastD beforeUri = 47 →
        (parseUri uri beforeUri).filename.length = uri.length + 10) := by
  have dot : (bytes ".").length = 1 := rfl
  have page : (bytes "home.html").length = 9 := rfl
  unfold parseUri
  by_cases dynamic : strstr uri (bytes "cgi-bin") = true
  · rw [if_neg (not_not.mpr dynamic)]
    refine ⟨?_, fun _ => ?_, fun absent => absurd (dynamic.symm.trans absent) nofun⟩
    · split
      · simp
      · exact Nat.zero_le _
    · split
      · simp only [List.length_append, List.length_take, dot]
        omega
      · simp only [List.length_append, dot]
        omega
  · rw [if_pos dynamic]
    refine ⟨Nat.zero_le _, fun apart => ?_, fun _ slash => ?_⟩
    · simp only [if_neg (apart.resolve_left dynamic), List.length_append, dot]
      omega
    · simp only [if_pos slash, List.length_append, dot, page]
      omega

theorem sscanf_method (request : Request) {text : List UInt8} (nonzero : ∀ byte ∈ text, byte ≠ 0) :
    str (request.sscanf text).method 0 = ((scanWords 3 text)[0]?).getD (str request.method 0) := by
  rw [sscanf_words, str_word nonzero]

theorem sscanf_uri (request : Request) {text : List UInt8} (nonzero : ∀ byte ∈ text, byte ≠ 0) :
    str (request.sscanf text).uri 0 = ((scanWords 3 text)[1]?).getD (str request.uri 0) := by
  rw [sscanf_words, str_word nonzero]

/-- What fits has a second word, and it is no long directory. -/
theorem UriFits.small {request : Request} {beforeUri : UInt8} {text : List UInt8} (nonzero : ∀ byte ∈ text, byte ≠ 0)
    (fits : UriFits text (request.sscanf text) beforeUri) :
    ∃ uri, (scanWords 3 text)[1]? = some uri ∧
      (strstr uri (bytes "cgi-bin") = true ∨ uri.getLast? ≠ some 47 ∨ uri.length ≤ 1013) := by
  obtain ⟨uri, second, -⟩ := fits.reads 0 (zero_mem_uriReads _)
  refine ⟨uri, second, ?_⟩
  have limit : maxline = 1024 := rfl
  have filename := fits.filename
  rw [sscanf_uri request nonzero, second, Option.getD_some] at filename
  by_contra refused
  simp only [not_or, Bool.not_eq_true, not_not, Nat.not_le] at refused
  obtain ⟨absent, slash, long⟩ := refused
  have length := (parseUri_lengths uri beforeUri).2.2 absent (by rw [List.getLastD_eq_getLast?, slash]; rfl)
  omega

/-- The room for `filename`, for the second word of a line behind a method. -/
theorem filename_fits {uri : List UInt8} (beforeUri : UInt8) (nonempty : uri ≠ []) (room : uri.length + 4 ≤ maxline - 1)
    (holds : strstr uri (bytes "cgi-bin") = true ∨ uri.getLast? ≠ some 47 ∨ uri.length ≤ 1013) :
    (parseUri uri beforeUri).filename.length + 1 ≤ maxline := by
  obtain ⟨-, plain, directory⟩ := parseUri_lengths uri beforeUri
  have limit : maxline = 1024 := rfl
  have last : uri.getLastD beforeUri = 47 ↔ uri.getLast? = some 47 := by
    rw [List.getLastD_eq_getLast?, List.getLast?_eq_some_getLast nonempty]
    simp
  by_cases long : strstr uri (bytes "cgi-bin") = true ∨ uri.getLastD beforeUri ≠ 47
  · have length := plain long
    omega
  · simp only [not_or, Bool.not_eq_true, not_not] at long
    have length := directory long.1 long.2
    rcases holds with dynamic | apart | small
    · rw [long.1] at dynamic
      cases dynamic
    · exact absurd (last.mp long.2) apart
    · omega

/-- The lines that fit, for the texts of lines that `rio_readlineb` delivers. -/
theorem uriFits_iff (request : Request) (beforeUri : UInt8) {text : List UInt8} (nonzero : ∀ byte ∈ text, byte ≠ 0)
    (short : text.length ≤ maxline - 1)
    (get : caseEqual (str (request.sscanf text).method 0) (bytes "GET") = true) :
    UriFits text (request.sscanf text) beforeUri ↔
      ∃ uri, (scanWords 3 text)[1]? = some uri ∧
        (strstr uri (bytes "cgi-bin") = true ∨ uri.getLast? ≠ some 47 ∨ uri.length ≤ 1013) := by
  refine ⟨UriFits.small nonzero, ?_⟩
  rintro ⟨uri, second, holds⟩
  have inside : 1 < (scanWords 3 text).length := (List.getElem?_eq_some_iff.mp second).1
  have first : (scanWords 3 text)[0]? = some (scanWords 3 text)[0] := List.getElem?_eq_getElem (by omega)
  have limit : maxline = 1024 := rfl
  rw [sscanf_method request nonzero, first, Option.getD_some] at get
  have stored : str (request.sscanf text).uri 0 = uri := by
    rw [sscanf_uri request nonzero, second, Option.getD_some]
  have three : ((scanWords 3 text)[0]).length = 3 := by
    have same := congrArg List.length (beq_iff_eq.mp get)
    rw [List.length_map, List.length_map] at same
    exact same
  obtain ⟨nonempty, sum⟩ := scanWords_uri first second
  refine ⟨fun word member => ?_, ?_, ?_, fun index read => ?_⟩
  · have shorter := (scanWords_mem member).1
    omega
  · rw [stored]
    exact filename_fits beforeUri nonempty (by omega) holds
  · rw [stored]
    have cgiargs := (parseUri_lengths uri beforeUri).1
    omega
  · rw [stored] at read
    exact ⟨uri, second, uriReads_inside nonempty read⟩

/-! ## Request lines that are delivered -/

/-- The string of the request line. -/
def requestLine (stream : List UInt8) : List UInt8 := (Rio.lineOf (maxline - 1) stream).takeWhile (· ≠ 0)

theorem requestLine_length (stream : List UInt8) : (requestLine stream).length ≤ maxline - 1 :=
  (List.takeWhile_prefix _).length_le.trans (Rio.lineOf_next (maxline - 1) stream).1.short

theorem requestLine_nonzero (stream : List UInt8) : ∀ byte ∈ requestLine stream, byte ≠ 0 := fun byte member => by
  simpa using List.mem_takeWhile_imp member

theorem initial_sound {rp : Rio} (size : rp.buf.length = rioBufsize) {fd : Descriptor} (benign : fd.Benign) :
    (rp.rioReadinitb fd).Sound :=
  ⟨size, Nat.zero_le _, by simp [Rio.rioReadinitb], benign⟩

theorem readRequest_line {stack : Stack} (size : stack.rio.buf.length = rioBufsize) {fd : Descriptor}
    (benign : fd.Benign) (more : fd.source ≠ []) {request : Request} {rp : Rio}
    (read : readRequest stack fd = some (request, rp)) : request = stack.request.sscanf (requestLine fd.source) := by
  unfold readRequest at read
  rcases line : (stack.rio.rioReadinitb fd).rioReadlineb maxline with ⟨delivery, next⟩
  rw [line] at read
  obtain ⟨value, finished, same⟩ := Option.map_eq_some_iff.mp read
  obtain ⟨waiting, -⟩ | ⟨-, delivered, -⟩ :=
    Rio.rioReadlineb_line (initial_sound size benign) (Int.le_refl 0) line
  · rw [waiting] at finished
    cases finished
  · have whole : (stack.rio.rioReadinitb fd).remaining = fd.source := rfl
    rw [whole] at delivered
    rw [← (Prod.mk.inj same).1, delivered, Rio.str_into_line, if_neg more, requestLine]

/-- The arrays of `doit` are large enough for a request line with method GET exactly if it has a
second word that is not a directory's URI of more than 1013 bytes. -/
theorem uri_fits_iff (stack : Stack) (size : stack.rio.buf.length = rioBufsize) (fd : Descriptor)
    (benign : fd.Benign) (more : fd.source ≠ []) (request : Request) (rp : Rio)
    (read : readRequest stack fd = some (request, rp))
    (get : caseEqual (str request.method 0) (bytes "GET") = true) :
    UriFits (requestLine fd.source) request stack.beforeUri ↔
      ∃ uri, (scanWords 3 (requestLine fd.source))[1]? = some uri ∧
        (strstr uri (bytes "cgi-bin") = true ∨ uri.getLast? ≠ some 47 ∨ uri.length ≤ 1013) := by
  obtain rfl := readRequest_line size benign more read
  exact uriFits_iff stack.request stack.beforeUri (requestLine_nonzero fd.source) (requestLine_length fd.source) get

/-- A request for the root directory. -/
theorem uri_fits_iff_root :
    ∃ request rp, readRequest { Stack.zeroed with rio := Session.zeroed } ⟨bytes "GET / HTTP/1.0\r\n", [.count 99], []⟩ =
        some (request, rp) ∧
      UriFits (bytes "GET / HTTP/1.0\r\n") request 0 := by
  have reads : ((readRequest { Stack.zeroed with rio := Session.zeroed }
      ⟨bytes "GET / HTTP/1.0\r\n", [.count 99], []⟩).map fun pair =>
        caseEqual (str pair.1.method 0) (bytes "GET")) = some true := by
    decide +kernel
  obtain ⟨⟨request, rp⟩, read, get⟩ := Option.map_eq_some_iff.mp reads
  have fits := (uri_fits_iff { Stack.zeroed with rio := Session.zeroed } (by simp [Session.zeroed])
    ⟨bytes "GET / HTTP/1.0\r\n", [.count 99], []⟩ (by simp [Descriptor.Benign, ReadOutcome.Benign]) (by decide)
    request rp read get).mpr ⟨bytes "/", by decide +kernel, .inr (.inr (by decide))⟩
  have line : requestLine (bytes "GET / HTTP/1.0\r\n") = bytes "GET / HTTP/1.0\r\n" := by decide +kernel
  exact ⟨request, rp, read, line ▸ fits⟩

/-- The longest URI of a directory that fits in the line. -/
def longDirectory : List UInt8 := List.replicate 1019 47

/-- Its page has a name of 1029 bytes. -/
theorem long_directory_overflows :
    ∃ request rp, readRequest { Stack.zeroed with rio := Session.zeroed }
        ⟨bytes "GET " ++ longDirectory, List.replicate 1024 (.count 9), []⟩ = some (request, rp) ∧
      caseEqual (str request.method 0) (bytes "GET") = true ∧
      ¬ UriFits (requestLine (bytes "GET " ++ longDirectory)) request 0 := by
  have benign : Descriptor.Benign ⟨bytes "GET " ++ longDirectory, List.replicate 1024 (.count 9), []⟩ := by
    intro outcome member
    obtain rfl := List.eq_of_mem_replicate member
    decide
  have size : Session.zeroed.buf.length = rioBufsize := List.length_replicate
  have returned : readRequest { Stack.zeroed with rio := Session.zeroed }
      ⟨bytes "GET " ++ longDirectory, List.replicate 1024 (.count 9), []⟩ ≠ none := by
    unfold readRequest
    rcases line : (Session.zeroed.rioReadinitb
      ⟨bytes "GET " ++ longDirectory, List.replicate 1024 (.count 9), []⟩).rioReadlineb maxline with ⟨delivery, next⟩
    obtain ⟨-, used⟩ | ⟨finished, -⟩ := Rio.rioReadlineb_line (initial_sound size benign) (Int.le_refl 0) line
    · exact absurd used (by decide +kernel)
    · simpa [Option.isSome_iff_ne_none] using finished
  obtain ⟨⟨request, rp⟩, read⟩ := Option.ne_none_iff_exists'.mp returned
  have scanned := @readRequest_line { Stack.zeroed with rio := Session.zeroed } size _ benign (by decide) _ _ read
  refine ⟨request, rp, read, ?_, fun fits => ?_⟩
  · rw [scanned]
    decide +kernel
  · have filename := fits.filename
    rw [scanned] at filename
    exact absurd filename (by decide +kernel)

end UnixProgramming.Csapp
