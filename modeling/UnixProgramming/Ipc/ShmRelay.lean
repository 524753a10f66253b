import Mathlib.Data.List.FinRange
import UnixProgramming.Lib.Run

/-! Messages through the shared memory, with a fixed set of clients. A child puts what its
client sent into its region and sends its number to the parent; the parent passes the number
on to the other children, and each of them sends the region to its client. -/

namespace UnixProgramming.Ipc

open UnixProgramming.Lib

/-- `BUFFER_SIZE`. -/
def bufferSize : Nat := 1024

/-- A number in a pipe, with the `recv` of the sender's child that caused it. -/
structure Note (n : Nat) where
  sender : Fin n
  serial : Nat
  deriving DecidableEq, Repr

inductive RelayStage (n : Nat) where
  /-- In `epoll_wait`, or between two events. -/
  | idle
  /-- Between `memset` and `recv`. -/
  | cleared
  /-- Between `recv` and the `send` to the parent. -/
  | received
  /-- Between `recv` from the pipe and the `send` to the client. -/
  | forwarding (note : Note n)
  deriving DecidableEq, Repr

inductive ParentRelay (n : Nat) where
  | idle
  /-- In the loop over the other rows: whose pipe was read, what, and the rows to come. -/
  | relaying (source : Fin n) (note : Note n) (rows : List (Fin n))
  deriving DecidableEq, Repr

variable {n : Nat}

def ParentRelay.ofRows (source : Fin n) (note : Note n) : List (Fin n) → ParentRelay n
  | [] => .idle
  | row :: rest => .relaying source note (row :: rest)

/-- The child is about to forward the note. -/
def RelayStage.forwards (note : Note n) : RelayStage n → Nat
  | .forwarding other => if other = note then 1 else 0
  | _ => 0

/-- The sends to a recipient the parent's loop has still to make. -/
def ParentRelay.carries (note : Note n) (recipient : Fin n) : ParentRelay n → Nat
  | .idle => 0
  | .relaying _ other rows => if other = note then rows.count recipient else 0

structure Relay (n : Nat) where
  /-- The bytes of each client not received yet. -/
  inbox : Fin n → List UInt8
  /-- The regions of the shared memory. -/
  region : Fin n → List UInt8
  stages : Fin n → RelayStage n
  parent : ParentRelay n
  /-- The two directions of the pipes. -/
  up : Fin n → List (Note n)
  down : Fin n → List (Note n)
  /-- The payloads each child has received, and what it has sent to its client. -/
  received : Fin n → List (List UInt8)
  forwarded : Fin n → List (Note n × List UInt8)

inductive RelayLabel (n : Nat) where
  /-- A client sends bytes. -/
  | send (row : Fin n) (bytes : List UInt8)
  | memset (row : Fin n)
  /-- `recv` from the client returns this many bytes. -/
  | recv (row : Fin n) (count : Nat)
  /-- `recv` from the client finds nothing: the event was for bytes already received. -/
  | again (row : Fin n)
  | notify (row : Fin n)
  /-- The parent reads from the pipe of a child. -/
  | collect (row : Fin n)
  /-- One iteration of the parent's loop over the rows. -/
  | relay
  /-- A child reads from its pipe. -/
  | take (row : Fin n)
  | forward (row : Fin n)
  deriving DecidableEq, Repr

/-- A region with some bytes at its start, after `memset`. -/
def padded (bytes : List UInt8) : List UInt8 := bytes ++ List.replicate (bufferSize - bytes.length) 0

namespace Relay

def create (region : Fin n → List UInt8) : Relay n where
  inbox := fun _ => []
  region := region
  stages := fun _ => .idle
  parent := .idle
  up := fun _ => []
  down := fun _ => []
  received := fun _ => []
  forwarded := fun _ => []

def setStage (relay : Relay n) (row : Fin n) (stage : RelayStage n) : Relay n :=
  { relay with stages := Function.update relay.stages row stage }

def step (relay : Relay n) : RelayLabel n → Option (Relay n)
  | .send row bytes => some { relay with inbox := Function.update relay.inbox row (relay.inbox row ++ bytes) }
  | .memset row =>
    if relay.stages row = .idle then
      some { relay.setStage row .cleared with region := Function.update relay.region row (padded []) }
    else none
  | .recv row count =>
    let bytes := (relay.inbox row).take count
    if relay.stages row = .cleared ∧ bytes ≠ [] ∧ bytes.length ≤ bufferSize - 1 then
      some { relay.setStage row .received with
        inbox := Function.update relay.inbox row ((relay.inbox row).drop count)
        region := Function.update relay.region row (padded bytes)
        received := Function.update relay.received row (relay.received row ++ [padded bytes]) }
    else none
  | .again row =>
    if relay.stages row = .cleared ∧ relay.inbox row = [] then some (relay.setStage row .idle) else none
  | .notify row =>
    if relay.stages row = .received then
      let note := ⟨row, (relay.received row).length - 1⟩
      some { relay.setStage row .idle with up := Function.update relay.up row (relay.up row ++ [note]) }
    else none
  | .collect row =>
    match relay.parent, relay.up row with
    | .idle, note :: rest =>
      some { relay with
        parent := .ofRows row note (List.finRange n), up := Function.update relay.up row rest }
    | _, _ => none
  | .relay =>
    match relay.parent with
    | .relaying source note (row :: rest) =>
      let relay := { relay with parent := .ofRows source note rest }
      if row ≠ source then
        some { relay with down := Function.update relay.down row (relay.down row ++ [note]) }
      else some relay
    | _ => none
  | .take row =>
    match relay.stages row, relay.down row with
    | .idle, note :: rest =>
      some { relay.setStage row (.forwarding note) with down := Function.update relay.down row rest }
    | _, _ => none
  | .forward row =>
    match relay.stages row with
    | .forwarding note =>
      some { relay.setStage row .idle with
        forwarded := Function.update relay.forwarded row
          (relay.forwarded row ++ [(note, relay.region note.sender)]) }
    | _ => none

/-- All pipes are empty and every process is in `epoll_wait`. -/
def Quiescent (relay : Relay n) : Prop :=
  relay.parent = .idle ∧ ∀ row, relay.stages row = .idle ∧ relay.up row = [] ∧ relay.down row = []

/-! ## Where a note is -/

/-- The payload is in its region and the parent is not told yet. -/
def unsent (relay : Relay n) (note : Note n) : Nat :=
  if relay.stages note.sender = .received ∧ note.serial + 1 = (relay.received note.sender).length then 1 else 0

/-- How often a note has been or is going to be forwarded to a recipient. -/
def journey (relay : Relay n) (note : Note n) (recipient : Fin n) : Nat :=
  (relay.forwarded recipient).countP (fun entry => entry.1 = note) + (relay.down recipient).count note +
    (relay.stages recipient).forwards note + relay.parent.carries note recipient +
    (relay.up note.sender).count note + relay.unsent note

/-- Every payload received is on exactly one way to each other client. -/
structure Accounted (relay : Relay n) : Prop where
  once : ∀ note recipient, recipient ≠ note.sender →
    relay.journey note recipient = if note.serial < (relay.received note.sender).length then 1 else 0
  owned : ∀ row note, note ∈ relay.up row → note.sender = row
  source : ∀ source note rows, relay.parent = .relaying source note rows → note.sender = source
  present : ∀ row, relay.stages row = .received → relay.received row ≠ []

theorem Accounted.create (region : Fin n → List UInt8) : Accounted (create region) where
  once := fun note recipient _ => by
    simp [journey, Relay.create, RelayStage.forwards, ParentRelay.carries, unsent]
  owned := fun row note member => by simp [Relay.create] at member
  source := fun source note rows same => by simp [Relay.create] at same
  present := fun row same => by simp [Relay.create] at same

@[simp] theorem carries_ofRows (source : Fin n) (note other : Note n) (rows : List (Fin n)) (recipient : Fin n) :
    (ParentRelay.ofRows source note rows).carries other recipient = if note = other then rows.count recipient else 0 := by
  cases rows <;> simp [ParentRelay.ofRows, ParentRelay.carries]

variable {relay next : Relay n}

theorem stages_eq_of_setStage {row other : Fin n} {stage wanted : RelayStage n} (apart : stage ≠ wanted)
    (same : (relay.setStage row stage).stages other = wanted) : relay.stages other = wanted := by
  simp only [setStage, Function.update_apply] at same
  split_ifs at same
  · exact absurd same apart
  · exact same

/-- A step in a child that leaves every note on its way. -/
theorem Accounted.keep (accounted : relay.Accounted) (received : next.received = relay.received)
    (up : next.up = relay.up) (parent : next.parent = relay.parent)
    (stages : ∀ row, next.stages row = .received → relay.stages row = .received)
    (journey : ∀ note recipient, next.journey note recipient = relay.journey note recipient) : next.Accounted := by
  obtain ⟨once, owned, source, present⟩ := accounted
  refine ⟨fun note recipient other => ?_, ?_, ?_, fun row same => ?_⟩
  · rw [journey, received]
    exact once note recipient other
  · rw [up]
    exact owned
  · rw [parent]
    exact source
  · rw [received]
    exact present row (stages row same)

theorem Accounted.memset (accounted : relay.Accounted) {row : Fin n}
    (taken : relay.step (.memset row) = some next) : next.Accounted := by
  dsimp only [step] at taken
  split_ifs at taken with idle
  cases taken
  refine accounted.keep rfl rfl rfl (fun _ same => stages_eq_of_setStage (by simp) same) fun note recipient => ?_
  simp only [journey, unsent, setStage, Function.update_apply]
  grind [RelayStage.forwards]

theorem Accounted.recv (accounted : relay.Accounted) {row : Fin n} {count : Nat}
    (taken : relay.step (.recv row count) = some next) : next.Accounted := by
  obtain ⟨once, owned, source, present⟩ := accounted
  dsimp only [step] at taken
  split_ifs at taken with cleared
  cases taken
  refine ⟨fun note recipient other => ?_, owned, source, fun other same => ?_⟩
  · have before := once note recipient other
    simp only [journey, unsent, setStage, Function.update_apply] at before ⊢
    grind [RelayStage.forwards]
  · simp only [setStage, Function.update_apply] at same ⊢
    split_ifs at same ⊢
    · simp
    · exact present other same

theorem Accounted.again (accounted : relay.Accounted) {row : Fin n}
    (taken : relay.step (.again row) = some next) : next.Accounted := by
  dsimp only [step] at taken
  split_ifs at taken with cleared
  cases taken
  refine accounted.keep rfl rfl rfl (fun _ same => stages_eq_of_setStage (by simp) same) fun note recipient => ?_
  simp only [journey, unsent, setStage, Function.update_apply]
  grind [RelayStage.forwards]

theorem Accounted.notify (accounted : relay.Accounted) {row : Fin n}
    (taken : relay.step (.notify row) = some next) : next.Accounted := by
  obtain ⟨once, owned, source, present⟩ := accounted
  dsimp only [step] at taken
  split_ifs at taken with received
  cases taken
  have nonempty := List.length_pos_iff.mpr (present row received)
  refine ⟨fun note recipient other => ?_, fun pipe note member => ?_, source, fun other same => ?_⟩
  · have before := once note recipient other
    have latest : (⟨row, (relay.received row).length - 1⟩ : Note n) = note ↔
        note.sender = row ∧ note.serial + 1 = (relay.received row).length := by
      cases note
      simp only [Note.mk.injEq]
      omega
    simp only [journey, unsent, setStage, Function.update_apply] at before ⊢
    grind [RelayStage.forwards]
  · simp only [Function.update_apply] at member
    grind
  · exact present other (stages_eq_of_setStage (by simp) same)

theorem Accounted.collect (accounted : relay.Accounted) {row : Fin n}
    (taken : relay.step (.collect row) = some next) : next.Accounted := by
  obtain ⟨once, owned, source, present⟩ := accounted
  dsimp only [step] at taken
  split at taken
  · next note rest idle front =>
    cases taken
    have own : note.sender = row := owned row note (by simp [front])
    refine ⟨fun other recipient apart => ?_, fun pipe other member => ?_, fun place other rows same => ?_, present⟩
    · have before := once other recipient apart
      have all : (List.finRange n).count recipient = 1 := List.count_finRange recipient
      simp only [journey, unsent, carries_ofRows, Function.update_apply] at before ⊢
      grind [ParentRelay.carries]
    · simp only [Function.update_apply] at member
      grind
    · cases found : List.finRange n <;> simp_all [ParentRelay.ofRows]
  · cases taken

theorem Accounted.relays (accounted : relay.Accounted) (taken : relay.step .relay = some next) : next.Accounted := by
  obtain ⟨once, owned, source, present⟩ := accounted
  dsimp only [step] at taken
  split at taken
  · next place note row rest stage =>
    have own := source _ _ _ stage
    have sources : ∀ other held rows, ParentRelay.ofRows place note rest = .relaying other held rows →
        held.sender = other := by
      intro other held rows same
      cases rest <;> simp_all [ParentRelay.ofRows]
    split_ifs at taken with apart
    · cases taken
      refine ⟨fun other recipient distinct => ?_, owned, sources, present⟩
      have before := once other recipient distinct
      simp only [journey, unsent, carries_ofRows, Function.update_apply] at before ⊢
      grind [ParentRelay.carries]
    · cases taken
      refine ⟨fun other recipient distinct => ?_, owned, sources, present⟩
      have before := once other recipient distinct
      simp only [journey, unsent, carries_ofRows] at before ⊢
      grind [ParentRelay.carries]
  · cases taken

theorem Accounted.take (accounted : relay.Accounted) {row : Fin n}
    (taken : relay.step (.take row) = some next) : next.Accounted := by
  dsimp only [step] at taken
  split at taken
  · next note rest idle front =>
    cases taken
    refine accounted.keep rfl rfl rfl (fun _ same => stages_eq_of_setStage (by simp) same) fun other recipient => ?_
    simp only [journey, unsent, setStage, Function.update_apply]
    grind [RelayStage.forwards]
  · cases taken

theorem Accounted.forward (accounted : relay.Accounted) {row : Fin n}
    (taken : relay.step (.forward row) = some next) : next.Accounted := by
  dsimp only [step] at taken
  split at taken
  · next note stage =>
    cases taken
    refine accounted.keep rfl rfl rfl (fun _ same => stages_eq_of_setStage (by simp) same) fun other recipient => ?_
    simp only [journey, unsent, setStage, Function.update_apply]
    grind [RelayStage.forwards]
  · cases taken

theorem Accounted.step (accounted : relay.Accounted) {label : RelayLabel n} (taken : relay.step label = some next) :
    next.Accounted := by
  cases label with
  | send row bytes =>
    cases taken
    exact ⟨accounted.once, accounted.owned, accounted.source, accounted.present⟩
  | memset row => exact accounted.memset taken
  | recv row count => exact accounted.recv taken
  | again row => exact accounted.again taken
  | notify row => exact accounted.notify taken
  | collect row => exact accounted.collect taken
  | relay => exact accounted.relays taken
  | take row => exact accounted.take taken
  | forward row => exact accounted.forward taken

end Relay
end UnixProgramming.Ipc
