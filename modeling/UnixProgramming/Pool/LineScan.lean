import Mathlib.Data.List.GetD
import UnixProgramming.Pool.Fragmentation

/-! What `parse_line` makes of the bytes behind the last complete line: they start with a
complete line, or with one that is incomplete or malformed. -/

namespace UnixProgramming.Pool

open UnixProgramming.Lib

/-- A byte other than CR and LF. -/
def inLine (byte : UInt8) : Bool := byte != 13 && byte != 10

theorem inLine_iff {byte : UInt8} : inLine byte = true ↔ byte ≠ 13 ∧ byte ≠ 10 := by
  simp [inLine]

/-- No CR and no LF, except for a CR at the end. -/
def Unfinished (rest : List UInt8) : Prop :=
  ∃ word, (∀ byte ∈ word, inLine byte = true) ∧ (rest = word ∨ rest = word ++ [13])

/-- The first CR is followed by a byte other than LF, or an LF comes before it. -/
def Malformed (rest : List UInt8) : Prop :=
  ∃ word more, (∀ byte ∈ word, inLine byte = true) ∧
    ((∃ byte, byte ≠ 10 ∧ rest = word ++ 13 :: byte :: more) ∨ rest = word ++ 10 :: more)

/-- A line and what follows it. -/
def Complete (rest line after : List UInt8) : Prop :=
  (∀ byte ∈ line, inLine byte = true) ∧ rest = line ++ 13 :: 10 :: after

/-- The three kinds of what can follow, which exclude each other. -/
theorem scan_cases (rest : List UInt8) : (∃ line after, Complete rest line after) ∨ Unfinished rest ∨ Malformed rest := by
  have plain : ∀ byte ∈ rest.takeWhile inLine, inLine byte = true := fun byte member => List.mem_takeWhile_imp member
  have split : rest.takeWhile inLine ++ rest.dropWhile inLine = rest := List.takeWhile_append_dropWhile
  have head := List.head?_dropWhile_not inLine rest
  generalize rest.takeWhile inLine = word at plain split
  generalize rest.dropWhile inLine = tail at split head
  subst split
  match tail with
  | [] => exact .inr (.inl ⟨word, plain, .inl (List.append_nil word)⟩)
  | byte :: more =>
    have stop : inLine byte = false := by simpa using head
    by_cases lf : byte = 10
    · exact .inr (.inr ⟨word, more, plain, .inr (by rw [lf])⟩)
    · obtain rfl : byte = 13 := by
        simp only [inLine, Bool.and_eq_false_iff, bne_eq_false_iff_eq, lf, or_false] at stop
        exact stop
      match more with
      | [] => exact .inr (.inl ⟨word, plain, .inr rfl⟩)
      | next :: after =>
        by_cases newline : next = 10
        · exact .inl ⟨word, after, plain, by rw [newline]⟩
        · exact .inr (.inr ⟨word, after, plain, .inl ⟨next, newline, rfl⟩⟩)

/-- A word ends at the first byte that is not in it. -/
theorem word_unique {word other tail later : List UInt8} {byte next : UInt8} (plain : ∀ byte ∈ word, inLine byte = true)
    (plainOther : ∀ byte ∈ other, inLine byte = true) (stop : inLine byte = false) (stopNext : inLine next = false)
    (same : word ++ byte :: tail = other ++ next :: later) : word = other ∧ byte = next ∧ tail = later := by
  have first : (word ++ byte :: tail).takeWhile inLine = word := by
    rw [List.takeWhile_append_of_pos plain, List.takeWhile_cons_of_neg (by simp [stop]), List.append_nil]
  have second : (other ++ next :: later).takeWhile inLine = other := by
    rw [List.takeWhile_append_of_pos plainOther, List.takeWhile_cons_of_neg (by simp [stopNext]), List.append_nil]
  rw [same] at first
  obtain rfl := first.symm.trans second
  have rest := List.append_cancel_left same
  simpa using rest

variable {rest line after : List UInt8}

theorem Complete.unique {other later : List UInt8} (here : Complete rest line after)
    (there : Complete rest other later) : line = other ∧ after = later := by
  obtain ⟨same, -, tail⟩ := word_unique here.1 there.1 (by decide) (by decide) (here.2.symm.trans there.2)
  exact ⟨same, by simpa using tail⟩

theorem Complete.append (complete : Complete rest line after) (more : List UInt8) :
    Complete (rest ++ more) line (after ++ more) := by
  refine ⟨complete.1, ?_⟩
  rw [complete.2]
  simp

theorem Complete.not_unfinished (complete : Complete rest line after) : ¬ Unfinished rest := by
  rintro ⟨word, plain, same | same⟩
  · have found : inLine 13 = true := plain 13 (by rw [← same, complete.2]; simp)
    exact absurd found (by decide)
  · obtain ⟨-, -, tail⟩ := word_unique complete.1 plain (by decide) (by decide) (complete.2.symm.trans same)
    cases tail

theorem Complete.not_malformed (complete : Complete rest line after) : ¬ Malformed rest := by
  rintro ⟨word, more, plain, ⟨byte, other, same⟩ | same⟩
  · obtain ⟨-, -, tail⟩ := word_unique complete.1 plain (by decide) (by decide) (complete.2.symm.trans same)
    exact other (List.cons.inj tail).1.symm
  · obtain ⟨-, clash, -⟩ := word_unique complete.1 plain (by decide) (by decide) (complete.2.symm.trans same)
    cases clash

/-! ## The scanner -/

namespace HttpConn

theorem parseLineLoop_skip (buf : List UInt8) (checked unchecked count : Nat)
    (plain : ∀ offset < count, inLine (buf.getD (checked + offset) 0) = true) :
    parseLineLoop (count + unchecked) buf checked = parseLineLoop unchecked buf (checked + count) := by
  induction count generalizing checked with
  | zero => rw [Nat.zero_add, Nat.add_zero]
  | succ count ih =>
    obtain ⟨cr, lf⟩ := inLine_iff.mp (plain 0 (Nat.succ_pos count))
    rw [Nat.add_right_comm, parseLineLoop]
    simp only [Nat.add_zero] at cr lf
    simp only [cr, lf, if_false]
    rw [ih (checked + 1) fun offset below => ?_]
    · rw [Nat.add_assoc, Nat.add_comm 1 count]
    · have later := plain (offset + 1) (by omega)
      rwa [Nat.add_comm offset 1, ← Nat.add_assoc] at later

/-- The scan has come by some bytes of what is behind `base` and found no end of a line. -/
structure Facing (conn : HttpConn) (base : Nat) (rest : List UInt8) : Prop where
  inside : base ≤ conn.readIdx
  buffer : conn.readBuf.drop base = rest
  scanned : ∃ word more, rest = word ++ more ∧ (∀ byte ∈ word, inLine byte = true) ∧
    conn.checkedIdx = base + word.length
  clean : ∀ index < base, conn.readBuf.getD index 0 ≠ 13

variable {conn : HttpConn} {base : Nat}

theorem Facing.getD (facing : conn.Facing base rest) (offset : Nat) :
    conn.readBuf.getD (base + offset) 0 = rest.getD offset 0 := by
  rw [← facing.buffer, List.getD_eq_getElem?_getD, List.getD_eq_getElem?_getD, List.getElem?_drop]

theorem Facing.length (facing : conn.Facing base rest) : conn.readIdx = base + rest.length := by
  have inside := facing.inside
  rw [← facing.buffer, List.length_drop]
  exact (Nat.add_sub_cancel' inside).symm

/-- The scan comes to the end of a word behind which there is something else. -/
theorem Facing.skip {word tail : List UInt8} (facing : conn.Facing base (word ++ tail))
    (plain : ∀ byte ∈ word, inLine byte = true) (stop : ∀ byte ∈ tail.head?, inLine byte = false) :
    parseLineLoop (conn.readIdx - conn.checkedIdx) conn.readBuf conn.checkedIdx =
      parseLineLoop tail.length conn.readBuf (base + word.length) := by
  obtain ⟨before, more, same, plainBefore, checked⟩ := facing.scanned
  have length := facing.length
  have short : before.length ≤ word.length := by
    by_contra beyond
    rw [List.append_eq_append_iff] at same
    obtain ⟨middle, rfl, rest⟩ | ⟨middle, rfl, -⟩ := same
    · match middle with
      | [] => simp at beyond
      | byte :: others =>
        have stops := stop byte (by rw [rest]; rfl)
        rw [plainBefore byte (by simp)] at stops
        cases stops
    · simp at beyond
  have skipped := parseLineLoop_skip conn.readBuf conn.checkedIdx tail.length (word.length - before.length) ?_
  · rw [List.length_append] at length
    rw [show conn.readIdx - conn.checkedIdx = word.length - before.length + tail.length by omega, skipped]
    congr 1
    omega
  · intro offset below
    rw [checked, Nat.add_assoc, facing.getD, List.getD_append _ _ _ _ (by omega)]
    refine plain _ ?_
    rw [List.getD_eq_getElem _ _ (by omega)]
    exact List.getElem_mem _

theorem Facing.parseLine_complete (facing : conn.Facing base rest) (complete : Complete rest line after) :
    conn.parseLine = (.ok, { conn with
      readBuf := (conn.readBuf.set (base + line.length) 0).set (base + line.length + 1) 0
      checkedIdx := base + line.length + 2 }) := by
  obtain ⟨plain, rfl⟩ := complete
  have length := facing.length
  have cr := facing.getD line.length
  have lf := facing.getD (line.length + 1)
  rw [← Nat.add_assoc] at lf
  have inside : base + line.length + 1 ≠ conn.readBuf.length := by
    rw [readIdx, List.length_append, List.length_cons, List.length_cons] at length
    omega
  unfold parseLine
  rw [facing.skip plain (by simp [inLine]), List.length_cons, parseLineLoop]
  simp only [cr, lf, inside]
  simp

/-- There is no CR before the place where the scan of a word ends. -/
theorem Facing.clean_word {word tail : List UInt8} (facing : conn.Facing base (word ++ tail))
    (plain : ∀ byte ∈ word, inLine byte = true) {index : Nat} (below : index < base + word.length) :
    conn.readBuf.getD index 0 ≠ 13 := by
  by_cases early : index < base
  · exact facing.clean index early
  · have inside : index - base < word.length := by omega
    have place := facing.getD (index - base)
    rw [Nat.add_sub_cancel' (Nat.le_of_not_lt early), List.getD_append _ _ _ _ inside,
      List.getD_eq_getElem word 0 inside] at place
    rw [place]
    exact (inLine_iff.mp (plain _ (List.getElem_mem _))).1

theorem takeWhile_word {word tail : List UInt8} (plain : ∀ byte ∈ word, inLine byte = true)
    (stop : ∀ byte ∈ tail.head?, inLine byte = false) : (word ++ tail).takeWhile inLine = word := by
  rw [List.takeWhile_append_of_pos plain]
  match tail with
  | [] => simp
  | byte :: more => rw [List.takeWhile_cons_of_neg (by simp [stop byte rfl]), List.append_nil]

/-- Where the scan stands when it has come by all that it can. -/
theorem Facing.stopped (facing : conn.Facing base rest) :
    Facing { conn with checkedIdx := base + (rest.takeWhile inLine).length } base rest where
  inside := facing.inside
  buffer := facing.buffer
  scanned := ⟨rest.takeWhile inLine, rest.dropWhile inLine, List.takeWhile_append_dropWhile.symm,
    fun _ member => List.mem_takeWhile_imp member, rfl⟩
  clean := facing.clean

/-- An incomplete or malformed line stops the scan at its first CR or LF, or at the end. -/
theorem Facing.parseLine_stop (facing : conn.Facing base rest) (stuck : Unfinished rest ∨ Malformed rest) :
    ∃ status, status ≠ .ok ∧
      conn.parseLine = (status, { conn with checkedIdx := base + (rest.takeWhile inLine).length }) := by
  have length := facing.length
  rw [readIdx] at length
  unfold parseLine
  obtain ⟨word, plain, rfl | rfl⟩ | ⟨word, more, plain, ⟨byte, other, rfl⟩ | rfl⟩ := stuck
  · have all : rest.takeWhile inLine = rest := List.takeWhile_eq_self_iff.mpr plain
    rw [← List.append_nil rest] at facing
    rw [facing.skip plain (by simp), all]
    exact ⟨.open, by decide, rfl⟩
  · have cr := facing.getD word.length
    have last : base + word.length + 1 = conn.readBuf.length := by
      rw [length, List.length_append, List.length_singleton]
      omega
    rw [facing.skip plain (by simp [inLine]), takeWhile_word plain (by simp [inLine])]
    refine ⟨.open, by decide, ?_⟩
    simp only [List.length_singleton, parseLineLoop, cr, last]
    simp
  · have cr := facing.getD word.length
    have next := facing.getD (word.length + 1)
    rw [← Nat.add_assoc] at next
    have inside : base + word.length + 1 ≠ conn.readBuf.length := by
      rw [List.length_append, List.length_cons, List.length_cons] at length
      omega
    rw [facing.skip plain (by simp [inLine]), takeWhile_word plain (by simp [inLine])]
    refine ⟨.bad, by decide, ?_⟩
    simp only [List.length_cons, parseLineLoop, cr, next, inside]
    simp [other]
  · have lf := facing.getD word.length
    have before : ¬ (1 < base + word.length ∧ conn.readBuf.getD (base + word.length - 1) 0 = 13) := by
      rintro ⟨some, cr⟩
      exact facing.clean_word plain (by omega) cr
    rw [facing.skip plain (by simp [inLine]), takeWhile_word plain (by simp [inLine])]
    refine ⟨.bad, by decide, ?_⟩
    simp only [List.length_cons, parseLineLoop, lf, before]
    simp

end HttpConn
end UnixProgramming.Pool
