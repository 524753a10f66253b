import UnixProgramming.Csapp.EchoPool
import UnixProgramming.Csapp.RioDelivery

/-! `rio_readlineb` one iteration at a time, so that a reader can be stopped wherever `read()` lets
it wait, and be fed more bytes there. -/

namespace UnixProgramming.Csapp

open UnixProgramming.Lib

namespace Rio

/-- How one iteration of the loop of `rio_readlineb` ends. -/
inductive Turn where
  | blocked
  | more (stored : List UInt8)
  | returned (delivery : Delivery)
  deriving DecidableEq, Repr

/-- One iteration of the loop of `rio_readlineb`, its condition first. -/
def turn (maxlen : Nat) (stored : List UInt8) (rp : Rio) : Turn × Rio :=
  if stored.length + 1 < maxlen then
    match rp.rioRead 1 with
    | (none, _, rp) => (.blocked, rp)
    | (some rc, c, rp) =>
      if rc = 1 then
        if c = [newline] then (.returned ⟨some (stored.length + 1), stored ++ c, true⟩, rp)
        else (.more (stored ++ c), rp)
      else if rc = 0 then
        if stored = [] then (.returned ⟨some 0, stored, false⟩, rp)
        else (.returned ⟨some stored.length, stored, true⟩, rp)
      else (.returned ⟨some (-1), stored, false⟩, rp)
  else (.returned ⟨some stored.length, stored, true⟩, rp)

/-- The call is its iterations one after the other. -/
theorem readline_turn (maxlen : Nat) (stored : List UInt8) (rp : Rio) (sound : rp.Sound) :
    readline maxlen (stored.length + 1) stored rp =
      match rp.turn maxlen stored with
      | (.blocked, next) => (⟨none, stored, false⟩, next)
      | (.more longer, next) => readline maxlen (longer.length + 1) longer next
      | (.returned delivery, next) => (delivery, next) := by
  rw [readline, turn]
  by_cases more : stored.length + 1 < maxlen
  · rw [if_pos more, if_pos more]
    match read : rp.rioRead 1 with
    | (none, copied, next) => rfl
    | (some value, copied, next) =>
      obtain ⟨-, -, ⟨rfl, -, -, -⟩ | ⟨rfl, byte, rfl, -, -⟩⟩ := rioRead_one sound read
      · cases stored <;> simp
      · by_cases last : [byte] = [newline] <;> simp [last]
  · rw [if_neg more, if_neg more]
    simp

/-- The kernel's next `read()` returns at most `limit` bytes. It waits when there is none to return,
unless the peer has closed. -/
def granted (rp : Rio) (limit : Nat) (ended : Bool) : Rio :=
  { rp with fd := { rp.fd with schedule := if rp.fd.source = [] ∧ ended = false then [] else [.count limit] } }

/-- The iteration is over; a `read()` that was not needed has not happened. -/
def rested (rp : Rio) : Rio := { rp with fd := { rp.fd with schedule := [] } }

/-- Bytes arrive behind the ones that are still to come. -/
def feed (rp : Rio) (bytes : List UInt8) : Rio := { rp with fd := { rp.fd with source := rp.fd.source ++ bytes } }

/-- An iteration has something to do: its loop is at an end, or a byte or the end of the stream is there. -/
def Offers (rp : Rio) (stored : List UInt8) (ended : Bool) : Prop :=
  maxline ≤ stored.length + 1 ∨ 0 < rp.cnt ∨ rp.fd.source ≠ [] ∨ ended = true

instance (rp : Rio) (stored : List UInt8) (ended : Bool) : Decidable (rp.Offers stored ended) :=
  inferInstanceAs (Decidable (_ ∨ _))

/-- Between two iterations: nothing has failed, and no `read()` is under way. -/
structure Resting (rp : Rio) : Prop where
  sound : rp.Sound
  settled : 0 ≤ rp.cnt
  still : rp.fd.schedule = []

theorem Resting.feed {rp : Rio} (resting : rp.Resting) (bytes : List UInt8) : (rp.feed bytes).Resting where
  sound := ⟨resting.sound.size, resting.sound.pointer, resting.sound.inside, resting.sound.benign⟩
  settled := resting.settled
  still := resting.still

theorem remaining_feed (rp : Rio) (bytes : List UInt8) : (rp.feed bytes).remaining = rp.remaining ++ bytes :=
  (List.append_assoc _ _ _).symm

theorem Resting.granted {rp : Rio} (resting : rp.Resting) {limit : Nat} (positive : 0 < limit) (ended : Bool) :
    (rp.granted limit ended).Sound where
  size := resting.sound.size
  pointer := resting.sound.pointer
  inside := resting.sound.inside
  benign := by
    intro outcome member
    simp only [Rio.granted] at member
    split at member
    · cases member
    · rw [List.mem_singleton.mp member]
      exact positive

@[simp] theorem remaining_rested (rp : Rio) : rp.rested.remaining = rp.remaining := rfl

/-- A `rio_read` that has something to do does not block. -/
theorem rioRead_offered {rp : Rio} (resting : rp.Resting) {stored : List UInt8} {limit : Nat} {ended : Bool}
    (positive : 0 < limit) (room : stored.length + 1 < maxline) (offers : rp.Offers stored ended) :
    ∃ value copied next, (rp.granted limit ended).rioRead 1 = (some value, copied, next) := by
  have refilled := refill_refilled _ (resting.granted positive ended)
  match same : (rp.granted limit ended).refill with
  | (.ready, next) => exact ⟨_, _, _, by rw [rioRead, same]⟩
  | (.returned value, next) => exact ⟨value, [], next, by rw [rioRead, same]⟩
  | (.blocked, next) =>
    rw [same] at refilled
    obtain ⟨⟨fresh, -, source, bytes, paid⟩, -, drained, used⟩ := refilled
    rw [unread_of_nonpos drained] at bytes
    obtain ⟨unread, rfl⟩ := List.append_eq_nil_iff.mp bytes
    have empty : ¬ 0 < rp.cnt := fun unread => by
      have ready : (rp.granted limit ended).refill = (.ready, rp.granted limit ended) := by
        rw [refill, if_pos (by exact unread)]
      rw [ready] at same
      cases same
    have now : ¬ (rp.fd.source = [] ∧ ended = false) := by
      rcases offers with full | unread | here | shut
      · omega
      · exact absurd unread empty
      · exact fun wrong => here wrong.1
      · simp [shut]
    have one : (rp.granted limit ended).fd.counts = 1 := by
      simp [Rio.granted, now, Descriptor.counts, ReadOutcome.isCount]
    rw [one, used] at paid
    simp at paid

/-- What an iteration leads to. -/
inductive Turned (rp : Rio) (stored : List UInt8) (ended : Bool) : Turn × Rio → Prop where
  | full (next : Rio) (room : stored.length + 1 = maxline) (same : next.remaining = rp.remaining) :
    Turned rp stored ended (.returned ⟨some stored.length, stored, true⟩, next)
  | shut (next : Rio) (nothing : rp.remaining = []) (same : next.remaining = []) (shut : ended = true) :
    Turned rp stored ended (.returned ⟨some stored.length, stored, !stored.isEmpty⟩, next)
  | line (next : Rio) (room : stored.length + 1 < maxline) (taken : rp.remaining = newline :: next.remaining) :
    Turned rp stored ended (.returned ⟨some (stored.length + 1), stored ++ [newline], true⟩, next)
  | more (next : Rio) (byte : UInt8) (inner : byte ≠ newline) (room : stored.length + 1 < maxline)
    (taken : rp.remaining = byte :: next.remaining) :
    Turned rp stored ended (.more (stored ++ [byte]), next)

theorem unread_ne_nil {rp : Rio} (sound : rp.Sound) (positive : 0 < rp.cnt) : rp.unread ≠ [] := by
  have inside := sound.inside
  have size := sound.size
  rw [unread_of_pos positive]
  refine List.ne_nil_of_length_pos ?_
  simp
  omega

theorem turn_turned {rp : Rio} (resting : rp.Resting) {stored : List UInt8} {limit : Nat} {ended : Bool}
    (positive : 0 < limit) (fits : stored.length < maxline) (offers : rp.Offers stored ended) :
    rp.Turned stored ended ((rp.granted limit ended).turn maxline stored) ∧
      ((rp.granted limit ended).turn maxline stored).2.rested.Resting := by
  have kept := resting.granted positive ended
  have rests : ∀ next : Rio, next.Sound → 0 ≤ next.cnt → next.rested.Resting := fun next sound settled =>
    ⟨⟨sound.size, sound.pointer, sound.inside, by simp [rested, Descriptor.Benign]⟩, settled, rfl⟩
  by_cases room : stored.length + 1 < maxline
  · obtain ⟨value, copied, next, read⟩ := rioRead_offered resting positive room offers
    obtain ⟨sound, settled, ⟨rfl, rfl, moved, nothing⟩ | ⟨rfl, byte, rfl, moved, taken⟩⟩ := rioRead_one kept read
    · have same : next.remaining = [] := by
        have moves := moved.remaining
        rw [nothing] at moves
        exact (List.append_eq_nil_iff.mp moves.symm).2
      have shut : ended = true := by
        obtain ⟨unread, source⟩ := List.append_eq_nil_iff.mp nothing
        rcases offers with full | unseen | here | shut
        · omega
        · exact absurd unread (unread_ne_nil kept unseen)
        · exact absurd source here
        · exact shut
      have turn : (rp.granted limit ended).turn maxline stored =
          (.returned ⟨some stored.length, stored, !stored.isEmpty⟩, next) := by
        cases stored <;> simp [Rio.turn, read] at room ⊢ <;> simp [room]
      rw [turn]
      exact ⟨.shut next nothing same shut, rests next sound settled⟩
    · by_cases last : byte = newline
      · subst last
        have turn : (rp.granted limit ended).turn maxline stored =
            (.returned ⟨some (stored.length + 1), stored ++ [newline], true⟩, next) := by
          simp [Rio.turn, read, room]
        rw [turn]
        exact ⟨.line next room taken, rests next sound settled⟩
      · have turn : (rp.granted limit ended).turn maxline stored = (.more (stored ++ [byte]), next) := by
          simp [Rio.turn, read, room, last]
        rw [turn]
        exact ⟨.more next byte last room taken, rests next sound settled⟩
  · have turn : (rp.granted limit ended).turn maxline stored =
        (.returned ⟨some stored.length, stored, true⟩, rp.granted limit ended) := by
      simp [Rio.turn, room]
    rw [turn]
    exact ⟨.full _ (by omega) rfl, rests _ kept resting.settled⟩

end Rio
end UnixProgramming.Csapp
