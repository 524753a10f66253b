import UnixProgramming.Csapp.RioLine
import UnixProgramming.Csapp.TinyWeb

/-! When `read_requesthdrs` comes back. It looks for the empty line in its array only, and the
array stays as it is once the client has sent everything. -/

namespace UnixProgramming.Csapp

open UnixProgramming.Lib

namespace Rio

theorem lineOf_ne_nil {stream : List UInt8} (more : stream ≠ []) : lineOf (maxline - 1) stream ≠ [] := fun empty =>
  more (((lineOf_next (maxline - 1) stream).nil_iff (by decide)).mp empty)

/-- The lines that `rio_readlineb` cuts the headers into. -/
def headerLines (stream : List UInt8) : List (List UInt8) :=
  match stream with
  | [] => []
  | byte :: rest =>
    lineOf (maxline - 1) (byte :: rest) ::
      headerLines ((byte :: rest).drop (lineOf (maxline - 1) (byte :: rest)).length)
termination_by stream.length
decreasing_by
  have nonempty : 0 < (lineOf (maxline - 1) (byte :: rest)).length :=
    List.length_pos_iff.mpr (lineOf_ne_nil (by simp))
  rw [List.length_drop, List.length_cons]
  omega

def blankLine : List UInt8 := bytes "\r\n"

/-- What is in front of the first empty line, and that line. -/
def throughBlank (lines : List (List UInt8)) : List UInt8 := (lines.takeWhile (· ≠ blankLine)).flatten ++ blankLine

/-- The first line, and those behind it. -/
theorem headerLines_cut {stream rest : List UInt8} (more : stream ≠ [])
    (cut : stream = lineOf (maxline - 1) stream ++ rest) :
    headerLines stream = lineOf (maxline - 1) stream :: headerLines rest := by
  have behind := congrArg (List.drop (lineOf (maxline - 1) stream).length) cut
  rw [List.drop_left] at behind
  rw [← behind]
  cases stream with
  | nil => exact absurd rfl more
  | cons byte rest => rw [headerLines]

/-- A line is the empty one if the string in its array is. -/
theorem LinePart.blank_iff {room : Nat} {stream line : List UInt8} (part : LinePart room stream line) :
    line.takeWhile (· ≠ 0) = blankLine ↔ line = blankLine := by
  refine ⟨fun same => ?_, fun same => by rw [same]; decide⟩
  have front := List.takeWhile_prefix (l := line) (p := fun byte => decide (byte ≠ 0))
  rw [same] at front
  obtain ⟨rest, rfl⟩ := front
  cases rest with
  | nil => simp
  | cons byte rest =>
    have inner : newline ∈ (blankLine ++ byte :: rest).dropLast := by
      rw [List.dropLast_append_of_ne_nil (by simp)]
      exact List.mem_append_left _ (by decide)
    exact absurd inner part.inner

/-- The string in the array after a line, or after the end of the stream. -/
theorem str_into_line (stream buf : List UInt8) :
    str ((lineDelivery maxline [] stream).into buf) 0 =
      if stream = [] then str buf 0 else (lineOf (maxline - 1) stream).takeWhile (· ≠ 0) := by
  by_cases ended : stream = []
  · subst ended
    simp [lineDelivery, Delivery.into, maxline]
  · have line := lineOf_ne_nil ended
    have whole : ((lineOf (maxline - 1) stream).takeWhile (· ≠ 0)).length = (lineOf (maxline - 1) stream).length →
        lineOf (maxline - 1) stream = (lineOf (maxline - 1) stream).takeWhile (· ≠ 0) := fun same =>
      ((List.takeWhile_prefix _).eq_of_length same).symm
    simpa [lineDelivery, Delivery.into, line, str, ended, List.takeWhile_append] using whole

/-- One line of the headers. -/
theorem rioReadlineb_line {rp next : Rio} (sound : rp.Sound) (settled : 0 ≤ rp.cnt) {delivery : Delivery}
    (read : rp.rioReadlineb maxline = (delivery, next)) :
    (delivery.value = none ∧ rp.fd.counts ≤ rp.fd.source.length) ∨
      (delivery.value.isSome ∧ delivery = lineDelivery maxline [] rp.remaining ∧ next.Sound ∧ 0 ≤ next.cnt ∧
        rp.Moved (lineOf (maxline - 1) rp.remaining) 1 next) := by
  have served := readline_served maxline 1 [] rp sound settled rfl (by decide)
  change rp.Served [] _ (rp.rioReadlineb maxline) at served
  rw [read] at served
  obtain ⟨data, stored, kept, ⟨waiting, ⟨fresh, -, source, -, paid⟩, used⟩ | ⟨finished, moved, calm, expected⟩⟩ := served
  · rw [source, List.length_append]
    exact .inl ⟨waiting, by omega⟩
  · rw [List.nil_append] at stored
    rw [← stored, expected] at moved
    exact .inr ⟨finished, expected, kept, calm, moved⟩

theorem readRequesthdrs_eq (rp : Rio) (buf : List UInt8) :
    rp.readRequesthdrs buf =
      match rp.rioReadlineb maxline with
      | (delivery, next) => delivery.value.bind fun _ =>
        if str (delivery.into buf) 0 = blankLine then some next else next.readRequesthdrs (delivery.into buf) := by
  rw [readRequesthdrs]
  rcases rp.rioReadlineb maxline with ⟨⟨value, data, terminated⟩, next⟩
  cases value with
  | none => rfl
  | some value =>
    simp only [Option.bind_some]
    rw [skipHeaders]
    by_cases blank : str (Delivery.into ⟨some value, data, terminated⟩ buf) 0 = blankLine
    · rw [if_pos blank, if_pos (by exact blank)]
    · rw [if_neg blank, if_neg (by exact blank), readRequesthdrs]
      rcases next.rioReadlineb maxline with ⟨⟨other, more, ended⟩, after⟩
      cases other <;> rfl

/-- Where `read_requesthdrs` can have come to when it returns. -/
def Skipped (rp : Rio) (buf : List UInt8) (next : Rio) : Prop :=
  rp.remaining = [] ∧ str buf 0 = blankLine ∨
    blankLine ∈ headerLines rp.remaining ∧
      rp.remaining = throughBlank (headerLines rp.remaining) ++ next.remaining

theorem readRequesthdrs_skipped {rp next : Rio} {buf : List UInt8} (sound : rp.Sound) (settled : 0 ≤ rp.cnt)
    (returned : rp.readRequesthdrs buf = some next) : rp.Skipped buf next := by
  induction measured : rp.pending using Nat.strong_induction_on generalizing rp buf with
  | _ measure ih =>
    rw [readRequesthdrs_eq] at returned
    rcases read : rp.rioReadlineb maxline with ⟨delivery, after⟩
    rw [read] at returned
    obtain ⟨value, finished, goes⟩ := Option.bind_eq_some_iff.mp returned
    have fewer := rioReadlineb_pending read finished
    obtain ⟨waiting, -⟩ | ⟨-, rfl, kept, calm, moved⟩ := rioReadlineb_line sound settled read
    · rw [waiting] at finished
      cases finished
    have stored := str_into_line rp.remaining buf
    have stream := moved.remaining
    by_cases ended : rp.remaining = []
    · rw [if_pos ended] at stored
      have nothing : after.remaining = [] := by
        rw [ended] at stream
        exact (List.append_eq_nil_iff.mp stream.symm).2
      split_ifs at goes with blank
      · exact .inl ⟨ended, stored ▸ blank⟩
      · obtain ⟨-, blanks⟩ | ⟨present, -⟩ := ih after.pending (measured ▸ fewer) kept calm goes rfl
        · exact absurd blanks blank
        · simp [nothing, headerLines] at present
    · rw [if_neg ended] at stored
      have part := (lineOf_next (maxline - 1) rp.remaining).1
      refine .inr ?_
      rw [headerLines_cut ended stream]
      split_ifs at goes with blank
      · rw [stored, part.blank_iff] at blank
        cases goes
        rw [blank] at stream ⊢
        exact ⟨List.mem_cons_self, by simpa [throughBlank] using stream⟩
      · have other : lineOf (maxline - 1) rp.remaining ≠ blankLine := fun same =>
          blank (stored.trans (part.blank_iff.mpr same))
        obtain ⟨-, blanks⟩ | ⟨present, consumed⟩ := ih after.pending (measured ▸ fewer) kept calm goes rfl
        · exact absurd blanks blank
        · refine ⟨List.mem_cons_of_mem _ present, ?_⟩
          rw [consumed] at stream
          simpa [throughBlank, other] using stream

/-- With enough counts the empty line is reached. -/
theorem readRequesthdrs_total {rp : Rio} (sound : rp.Sound) (settled : 0 ≤ rp.cnt) (buf : List UInt8)
    (present : blankLine ∈ headerLines rp.remaining)
    (enough : rp.fd.source.length + rp.remaining.length < rp.fd.counts) : rp.readRequesthdrs buf ≠ none := by
  induction measured : rp.pending using Nat.strong_induction_on generalizing rp buf with
  | _ measure ih =>
    rw [readRequesthdrs_eq]
    rcases read : rp.rioReadlineb maxline with ⟨delivery, after⟩
    obtain ⟨-, used⟩ | ⟨finished, rfl, kept, calm, moved⟩ := rioReadlineb_line sound settled read
    · omega
    obtain ⟨value, same⟩ := Option.isSome_iff_exists.mp finished
    have fewer := rioReadlineb_pending read same
    have stream := moved.remaining
    have more : rp.remaining ≠ [] := by
      intro ended
      simp [ended, headerLines] at present
    have stored := str_into_line rp.remaining buf
    rw [if_neg more] at stored
    simp only [same, Option.bind_some]
    split_ifs with blank
    · simp
    · have part := (lineOf_next (maxline - 1) rp.remaining).1
      have other : lineOf (maxline - 1) rp.remaining ≠ blankLine := fun same =>
        blank (stored.trans (part.blank_iff.mpr same))
      rw [headerLines_cut more stream, List.mem_cons] at present
      have nonempty := List.length_pos_iff.mpr (lineOf_ne_nil more)
      obtain ⟨fresh, -, source, -, paid⟩ := moved
      refine ih after.pending (measured ▸ fewer) kept calm _ (present.resolve_left (Ne.symm other)) ?_ rfl
      have lengths := congrArg List.length stream
      have sources := congrArg List.length source
      rw [List.length_append] at lengths sources
      omega

/-- At the end of the stream the array decides, as nothing is stored in it. -/
theorem readRequesthdrs_ended {rp : Rio} (sound : rp.Sound) (settled : 0 ≤ rp.cnt) {buf : List UInt8}
    (ended : rp.remaining = []) (blank : str buf 0 = blankLine) (enough : rp.fd.source.length < rp.fd.counts) :
    rp.readRequesthdrs buf ≠ none := by
  rw [readRequesthdrs_eq]
  rcases read : rp.rioReadlineb maxline with ⟨delivery, after⟩
  obtain ⟨-, used⟩ | ⟨finished, rfl, -⟩ := rioReadlineb_line sound settled read
  · omega
  · obtain ⟨value, same⟩ := Option.isSome_iff_exists.mp finished
    have stored := str_into_line rp.remaining buf
    rw [if_pos ended] at stored
    simp only [same, Option.bind_some, stored, if_pos blank]
    exact nofun

/-! ## Schedules without an end -/

/-- The reader with the first of the outcomes to come. -/
def facing (rp : Rio) (outcomes : Nat → ReadOutcome) (count : Nat) : Rio :=
  { rp with fd := { rp.fd with schedule := (List.range count).map outcomes } }

theorem Sound.facing {rp : Rio} (sound : rp.Sound) {outcomes : Nat → ReadOutcome}
    (benign : ∀ k, (outcomes k).Benign) (count : Nat) : (rp.facing outcomes count).Sound where
  size := sound.size
  pointer := sound.pointer
  inside := sound.inside
  benign := by
    intro outcome member
    obtain ⟨k, -, rfl⟩ := List.mem_map.mp member
    exact benign k

end Rio

/-- No failures but interruptions, and always another `read()` that is not interrupted. -/
structure Lasting (outcomes : Nat → ReadOutcome) : Prop where
  benign : ∀ k, (outcomes k).Benign
  counts : ∀ k, ∃ later, k ≤ later ∧ (outcomes later).isCount = true

theorem Lasting.unbounded {outcomes : Nat → ReadOutcome} (lasting : Lasting outcomes) (bound : Nat) :
    ∃ count, bound ≤ ((List.range count).map outcomes).countP ReadOutcome.isCount := by
  induction bound with
  | zero => exact ⟨0, Nat.zero_le _⟩
  | succ bound ih =>
    obtain ⟨count, enough⟩ := ih
    obtain ⟨later, behind, isCount⟩ := lasting.counts count
    have more : ((List.range count).map outcomes).countP ReadOutcome.isCount ≤
        ((List.range later).map outcomes).countP ReadOutcome.isCount :=
      ((List.range_sublist.mpr behind).map outcomes).countP_le
    refine ⟨later + 1, ?_⟩
    rw [List.range_succ, List.map_append, List.countP_append, List.map_singleton, List.countP_singleton, if_pos isCount]
    omega

namespace Session

/-- `read_requesthdrs` returns exactly if the lines to come hold an empty one, or there are none
and the array happens to hold it. It has then consumed what is in front of the first one and
that line. -/
theorem read_requesthdrs_returns_iff (rp : Rio) (size : rp.buf.length = rioBufsize) (stream : List UInt8)
    (schedule : List ReadOutcome) (benign : ∀ outcome ∈ schedule, outcome.Benign) (calls : List Call)
    (inRange : ∀ call ∈ calls, call.InRange) (session : Session)
    (reached : run Session.call (start rp stream schedule) calls = some session) (free : session.blocked = none)
    (outcomes : Nat → ReadOutcome) (lasting : Lasting outcomes) (buf : List UInt8) :
    ((∃ count next, (session.rio.facing outcomes count).readRequesthdrs buf = some next) ∧
        ∀ count next, (session.rio.facing outcomes count).readRequesthdrs buf = some next →
          Rio.blankLine ∈ Rio.headerLines session.rio.remaining →
            session.rio.remaining = Rio.throughBlank (Rio.headerLines session.rio.remaining) ++ next.remaining) ↔
      Rio.blankLine ∈ Rio.headerLines session.rio.remaining ∨
        session.rio.remaining = [] ∧ str buf 0 = Rio.blankLine := by
  obtain ⟨sound, settled, -⟩ := reached_ready size benign inRange reached free
  have skipped {count : Nat} {next : Rio}
      (returned : (session.rio.facing outcomes count).readRequesthdrs buf = some next) :
      (session.rio.facing outcomes count).Skipped buf next :=
    Rio.readRequesthdrs_skipped (sound.facing lasting.benign count) settled returned
  constructor
  · rintro ⟨⟨count, next, returned⟩, -⟩
    rcases skipped returned with uninitialised | ⟨present, -⟩
    · exact .inr uninitialised
    · exact .inl present
  · intro holds
    obtain ⟨count, enough⟩ :=
      lasting.unbounded (session.rio.fd.source.length + session.rio.remaining.length + 1)
    refine ⟨⟨count, Option.ne_none_iff_exists'.mp ?_⟩, fun count next returned present => ?_⟩
    · rcases holds with present | ⟨ended, blank⟩
      · exact Rio.readRequesthdrs_total (sound.facing lasting.benign count) settled buf present enough
      · refine Rio.readRequesthdrs_ended (sound.facing lasting.benign count) settled ended blank ?_
        exact Nat.lt_of_lt_of_le (Nat.lt_succ_of_le (Nat.le_add_right _ _)) enough
    · rcases skipped returned with ⟨ended, -⟩ | ⟨-, consumed⟩
      · simp [show session.rio.remaining = [] from ended, Rio.headerLines] at present
      · exact consumed

/-- A header, the empty line and a byte behind it. -/
theorem read_requesthdrs_returns_iff_blank :
    ∃ count next, ((start zeroed (bytes "A\r\n\r\nB") []).rio.facing (fun _ => .count 4) count).readRequesthdrs [] =
      some next := by
  have returns := (read_requesthdrs_returns_iff zeroed (by simp [zeroed]) (bytes "A\r\n\r\nB") [] (by simp) [] (by simp)
    _ rfl rfl (fun _ => .count 4) ⟨fun _ => by decide, fun k => ⟨k, Nat.le_refl k, rfl⟩⟩ []).mpr
  exact (returns (.inl (by decide +kernel))).1

/-- A client that closes behind its only header: however often `read()` returns 0, the loop goes on. -/
theorem truncated_headers_never_end :
    Lasting (fun _ => .count 100) ∧
      ∀ count, ((start zeroed (bytes "Host: a\r\n") []).rio.facing (fun _ => .count 100) count).readRequesthdrs [] =
        none := by
  have lasting : Lasting (fun _ => .count 100) := ⟨fun _ => by decide, fun k => ⟨k, Nat.le_refl k, rfl⟩⟩
  refine ⟨lasting, fun count => ?_⟩
  by_contra returned
  obtain ⟨next, returned⟩ := Option.ne_none_iff_exists'.mp returned
  have ready : Ready (start zeroed (bytes "Host: a\r\n") []) := .start (by simp [zeroed]) (by simp)
  have skipped := Rio.readRequesthdrs_skipped (ready.sound.facing lasting.benign count) ready.settled returned
  have absent : ¬ (bytes "Host: a\r\n" = [] ∧ str [] 0 = Rio.blankLine ∨
      Rio.blankLine ∈ Rio.headerLines (bytes "Host: a\r\n")) := by
    decide +kernel
  exact absent (skipped.imp_right And.left)

end Session
end UnixProgramming.Csapp
