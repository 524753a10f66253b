import UnixProgramming.Csapp.RioDelivery

/-! Unbuffered block reads, and that they agree with the buffered ones: both deliver a
part of the stream that no schedule of `read()` outcomes has a say in. -/

namespace UnixProgramming.Csapp

open UnixProgramming.Lib

namespace Descriptor

/-- The loop `while (nleft > 0)` of `rio_readn`; an interrupted `read()` counts as one of no bytes. -/
def readLoop (n nleft : Nat) (stored : List UInt8) (fd : Descriptor) : Rio.Delivery × Descriptor :=
  if 0 < nleft then
    match taken : fd.read nleft with
    | none => (⟨none, stored, false⟩, fd)
    | some (.error errno, fd) =>
      if errno = .eintr then readLoop n nleft stored fd else (⟨some (-1), stored, false⟩, fd)
    | some (.ok got, fd) =>
      if got.length = 0 then (⟨some (Rio.toSsize (n - nleft)), stored, false⟩, fd)
      else readLoop n (nleft - got.length) (stored ++ got) fd
  else (⟨some (Rio.toSsize (n - nleft)), stored, false⟩, fd)
termination_by fd.schedule.length
decreasing_by
  · exact read_shorter taken
  · exact read_shorter taken

def rioReadn (fd : Descriptor) (n : Nat) : Rio.Delivery × Descriptor := readLoop n n [] fd

/-- What a loop leads to that had stored some bytes before and has an expected end. -/
def Served (fd : Descriptor) (stored : List UInt8) (expected : Rio.Delivery) : Rio.Delivery × Descriptor → Prop
  | (delivery, next) => ∃ data, delivery.data = stored ++ data ∧ fd.source = data ++ next.source ∧
      (delivery = expected ∨ (delivery.value = none ∧ fd.counts ≤ data.length))

theorem Served.after {first second : Descriptor} {stored data : List UInt8} {expected : Rio.Delivery}
    {result : Rio.Delivery × Descriptor} (moved : first.source = data ++ second.source)
    (paid : first.counts ≤ data.length + second.counts) (served : second.Served (stored ++ data) expected result) :
    first.Served stored expected result := by
  obtain ⟨more, same, source, ending⟩ := served
  refine ⟨data ++ more, by rw [same, List.append_assoc], by rw [moved, source, List.append_assoc], ?_⟩
  rcases ending with finished | ⟨waiting, used⟩
  · exact .inl finished
  · exact .inr ⟨waiting, by rw [List.length_append]; omega⟩

theorem readLoop_served (n nleft : Nat) (stored : List UInt8) (fd : Descriptor) (benign : fd.Benign)
    (counter : nleft + stored.length = n) :
    fd.Served stored (Rio.blockDelivery n stored fd.source) (readLoop n nleft stored fd) := by
  fun_induction readLoop n nleft stored fd with
  | case1 nleft stored fd more blocked =>
    exact ⟨[], by simp, by simp, .inr ⟨rfl, by rw [counts_of_blocked blocked]; exact Nat.zero_le _⟩⟩
  | case2 nleft stored fd more next taken ih =>
    obtain ⟨schedule, source, -, counts⟩ := read_error taken
    have moved : fd.source = [] ++ next.source := source.symm
    rw [← source]
    exact .after moved (by simp [counts]) (by simpa using ih (benign.error schedule).2 counter)
  | case3 nleft stored fd more errno next taken other =>
    exact absurd (benign.error (read_error taken).1).1 other
  | case4 nleft stored fd more got next taken ended =>
    obtain ⟨limit, schedule, sent, source, -, -⟩ := read_ok taken
    obtain ⟨positive, -⟩ := benign.count schedule
    have empty : fd.source = [] := by
      rw [sent, List.length_take] at ended
      exact List.eq_nil_of_length_eq_zero (by omega)
    have stores : (n : Int) - nleft = stored.length := by omega
    refine ⟨[], by simp, by simp [source, empty], .inl ?_⟩
    simp [Rio.blockDelivery, empty, stores]
  | case5 nleft stored fd more got next taken nonempty ih =>
    obtain ⟨limit, schedule, sent, source, -, counts⟩ := read_ok taken
    have moved : fd.source = got ++ next.source := by rw [sent, source, List.take_append_drop]
    have fits : got.length ≤ nleft := by
      rw [sent, List.length_take]
      omega
    rw [moved, Rio.blockDelivery_append (by omega)]
    refine .after moved (by omega) (ih (benign.count schedule).2 ?_)
    rw [List.length_append]
    omega
  | case6 nleft stored fd full =>
    obtain rfl : nleft = 0 := by omega
    refine ⟨[], by simp, by simp, .inl ?_⟩
    simp [Rio.blockDelivery, ← counter]

/-- A call of `rio_readn` that returns delivers the front of the source; it returns when there
is a count more than there are bytes. -/
theorem rioReadn_served (fd : Descriptor) (benign : fd.Benign) (n : Nat) :
    ((fd.rioReadn n).1.value ≠ none → (fd.rioReadn n).1 = Rio.blockDelivery n [] fd.source) ∧
      (fd.source.length < fd.counts → (fd.rioReadn n).1.value ≠ none) := by
  obtain ⟨data, -, source, ending⟩ := readLoop_served n n [] fd benign rfl
  change (fd.rioReadn n).1 = _ ∨ (fd.rioReadn n).1.value = none ∧ _ at ending
  rcases ending with finished | ⟨waiting, used⟩
  · exact ⟨fun _ => finished, fun _ blocked => by rw [finished] at blocked; cases blocked⟩
  · refine ⟨fun returned => absurd waiting returned, fun enough => ?_⟩
    rw [source, List.length_append] at enough
    omega

end Descriptor

namespace Rio

/-- The same for `rio_readnb`. -/
theorem rioReadnb_served (rp : Rio) (sound : rp.Sound) (settled : 0 ≤ rp.cnt) (n : Nat) :
    ((rp.rioReadnb n).1.value ≠ none → (rp.rioReadnb n).1 = blockDelivery n [] rp.remaining) ∧
      (rp.fd.source.length < rp.fd.counts → (rp.rioReadnb n).1.value ≠ none) := by
  have served := readBlock_served n n [] rp sound settled rfl
  change rp.Served [] _ (rp.rioReadnb n) at served
  generalize rp.rioReadnb n = result at served
  obtain ⟨delivery, next⟩ := result
  obtain ⟨data, -, -, ⟨waiting, ⟨fresh, -, source, -, paid⟩, used⟩ | ⟨finished, -, -, expected⟩⟩ := served
  · refine ⟨fun returned => absurd waiting returned, fun enough => ?_⟩
    rw [source, List.length_append] at enough
    omega
  · exact ⟨fun _ => expected, fun _ blocked => by rw [blocked] at finished; cases finished⟩

theorem toSsize_small {n : Nat} (small : n < 2 ^ 63) : toSsize n = n := by
  unfold toSsize
  omega

end Rio

namespace Session

/-- Two block reads in a row deliver what one of both sizes does. -/
theorem answers_blocks (stream : List UInt8) (first second : Nat) :
    (Call.answers stream [.readnb first, .readnb second]).flatMap (·.data) = stream.take (first + second) := by
  simp only [Call.answers, Call.answer, Rio.blockDelivery, List.nil_append, List.length_nil, Nat.sub_zero,
    List.flatMap_cons, List.flatMap_nil, List.append_nil]
  rw [List.length_take, List.take_add]
  rcases Nat.le_total first stream.length with inside | beyond
  · rw [Nat.min_eq_left inside]
  · rw [Nat.min_eq_right beyond, List.drop_of_length_le (Nat.le_refl _), List.drop_of_length_le beyond]

theorem delivered_of_run {rp : Rio} (size : rp.buf.length = rioBufsize) {stream : List UInt8}
    {schedule : List ReadOutcome} (benign : ∀ outcome ∈ schedule, outcome.Benign) {calls : List Call}
    (inRange : ∀ call ∈ calls, call.InRange) {final : Session}
    (reached : run Session.call (start rp stream schedule) calls = some final) (free : final.blocked = none) :
    final.delivered = (Call.answers stream calls).flatMap (·.data) := by
  have ready : Ready (start rp stream schedule) := .start size benign
  obtain ⟨-, -, ⟨deliveries, returned, -, all⟩, -⟩ := ready.run inRange reached
  have answers : deliveries = Call.answers stream calls := all free
  have returns : final.returned = deliveries := returned
  simp [delivered, free, returns, answers]

/-- Buffered and unbuffered block reads agree. For every stream, size and pair of benign
schedules both deliver the first `n` bytes and return their number, once they return; two
buffered reads deliver what one of both sizes delivers; and enough counts make all of them
return. -/
theorem block_reads_agree (rp : Rio) (size : rp.buf.length = rioBufsize) (stream : List UInt8)
    (first second : List ReadOutcome) (benign : ∀ outcome ∈ first ++ second, outcome.Benign) :
    (∀ n < 2 ^ 64,
      ((Descriptor.rioReadn ⟨stream, first, []⟩ n).1.value ≠ none →
        ((start rp stream second).rio.rioReadnb n).1.value ≠ none →
          (Descriptor.rioReadn ⟨stream, first, []⟩ n).1 = ((start rp stream second).rio.rioReadnb n).1 ∧
          (Descriptor.rioReadn ⟨stream, first, []⟩ n).1.data = stream.take n ∧
          (min n stream.length < 2 ^ 63 →
            (Descriptor.rioReadn ⟨stream, first, []⟩ n).1.value = some ((min n stream.length : Nat) : Int))) ∧
      (stream.length < first.countP ReadOutcome.isCount →
        (Descriptor.rioReadn ⟨stream, first, []⟩ n).1.value ≠ none) ∧
      (stream.length < second.countP ReadOutcome.isCount →
        ((start rp stream second).rio.rioReadnb n).1.value ≠ none)) ∧
    ∀ n m, n + m < 2 ^ 64 →
      (∀ twice once, run Session.call (start rp stream first) [.readnb n, .readnb m] = some twice →
        twice.blocked = none → run Session.call (start rp stream second) [.readnb (n + m)] = some once →
        once.blocked = none → twice.delivered = once.delivered ∧ once.delivered = stream.take (n + m)) ∧
      (stream.length + 2 ≤ first.countP ReadOutcome.isCount →
        ∃ twice, run Session.call (start rp stream first) [.readnb n, .readnb m] = some twice ∧
          twice.blocked = none) ∧
      (stream.length + 1 ≤ second.countP ReadOutcome.isCount →
        ∃ once, run Session.call (start rp stream second) [.readnb (n + m)] = some once ∧ once.blocked = none) := by
  have benignFirst : ∀ outcome ∈ first, outcome.Benign := fun outcome member =>
    benign outcome (List.mem_append_left second member)
  have benignSecond : ∀ outcome ∈ second, outcome.Benign := fun outcome member =>
    benign outcome (List.mem_append_right first member)
  have readyFirst : Ready (start rp stream first) := .start size benignFirst
  have readySecond : Ready (start rp stream second) := .start size benignSecond
  refine ⟨fun n _ => ?_, fun n m fits => ?_⟩
  · obtain ⟨unbuffered, enough⟩ := Descriptor.rioReadn_served ⟨stream, first, []⟩ benignFirst n
    obtain ⟨buffered, enoughBuffered⟩ := Rio.rioReadnb_served _ readySecond.sound readySecond.settled n
    have whole : (start rp stream second).rio.remaining = stream := rfl
    rw [whole] at buffered
    refine ⟨fun returned returns => ?_, enough, enoughBuffered⟩
    rw [unbuffered returned, buffered returns]
    refine ⟨rfl, by simp [Rio.blockDelivery], fun small => ?_⟩
    simp only [Rio.blockDelivery, List.nil_append, List.length_nil, Nat.sub_zero, List.length_take]
    rw [Rio.toSsize_small small]
  · have inRangeTwice : ∀ call ∈ [Call.readnb n, .readnb m], call.InRange := by
      simp only [List.forall_mem_cons, Call.InRange]
      exact ⟨by omega, by omega, by simp⟩
    have inRangeOnce : ∀ call ∈ [Call.readnb (n + m)], call.InRange := by
      simpa [Call.InRange] using fits
    refine ⟨fun twice once reached free reachedOnce freeOnce => ?_, fun enough => ?_, fun enough => ?_⟩
    · rw [delivered_of_run size benignFirst inRangeTwice reached free, answers_blocks,
        delivered_of_run size benignSecond inRangeOnce reachedOnce freeOnce]
      exact ⟨by simp [Call.answers, Call.answer, Rio.blockDelivery],
        by simp [Call.answers, Call.answer, Rio.blockDelivery]⟩
    · exact readyFirst.run_total inRangeTwice enough
    · exact readySecond.run_total inRangeOnce enough

/-- Three bytes of five in two pieces and at once, then two and one. -/
theorem block_reads_agree_pieces :
    (Descriptor.rioReadn ⟨bytes "abcde", [.count 2, .error .eintr, .count 7], []⟩ 3).1 =
        ((start zeroed (bytes "abcde") [.error .eintr, .count 9, .count 1]).rio.rioReadnb 3).1 ∧
      (Descriptor.rioReadn ⟨bytes "abcde", [.count 2, .error .eintr, .count 7], []⟩ 3).1.value = some 3 := by
  obtain ⟨single, -⟩ := block_reads_agree zeroed (by simp [zeroed]) (bytes "abcde")
    [.count 2, .error .eintr, .count 7] [.error .eintr, .count 9, .count 1] (by decide)
  obtain ⟨agree, -⟩ := single 3 (by decide)
  obtain ⟨same, -, count⟩ := agree (by decide +kernel) (by decide +kernel)
  exact ⟨same, count (by decide)⟩

end Session
end UnixProgramming.Csapp
