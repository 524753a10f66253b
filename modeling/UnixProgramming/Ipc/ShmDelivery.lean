import UnixProgramming.Ipc.ShmRelay

/-! What the chat server delivers. A note names a region and not its content, so the content
has to stay until the last recipient has forwarded it. -/

namespace UnixProgramming.Ipc

variable {n : Nat}

/-- The note a child has read from its pipe. -/
def RelayStage.notes : RelayStage n → List (Note n)
  | .forwarding note => [note]
  | _ => []

def ParentRelay.notes : ParentRelay n → List (Note n)
  | .idle => []
  | .relaying _ note _ => [note]

namespace Relay

open UnixProgramming.Lib

variable {relay next : Relay n}

/-- The notes that are in the pipes of a row or with its child. -/
def notes (relay : Relay n) (row : Fin n) : List (Note n) :=
  relay.up row ++ relay.down row ++ (relay.stages row).notes

/-- The note is somewhere on its way. -/
def Outstanding (relay : Relay n) (note : Note n) : Prop :=
  (∃ row, note ∈ relay.notes row) ∨ note ∈ relay.parent.notes ∨ relay.unsent note = 1

/-- A child turns to a new message only when no note of it is on its way. -/
def Patient (relay : Relay n) : RelayLabel n → Prop
  | .memset row => (∀ other, ∀ note ∈ relay.notes other, note.sender ≠ row) ∧
      ∀ note ∈ relay.parent.notes, note.sender ≠ row
  | _ => True

/-- A region holds the payload of every note that is on its way, and what was forwarded is
what was received. -/
structure Intact (relay : Relay n) : Prop where
  held : ∀ note, relay.Outstanding note →
    relay.stages note.sender ≠ .cleared ∧ (relay.received note.sender)[note.serial]? = some (relay.region note.sender)
  sent : ∀ row entry, entry ∈ relay.forwarded row → (relay.received entry.1.sender)[entry.1.serial]? = some entry.2

theorem Intact.create (region : Fin n → List UInt8) : Intact (create region) where
  held := fun note way => by
    simp [Outstanding, notes, Relay.create, unsent, RelayStage.notes, ParentRelay.notes] at way
  sent := fun row entry member => by simp [Relay.create] at member

/-- A step that moves notes and leaves the regions alone. -/
theorem Intact.keep (intact : relay.Intact) (region : next.region = relay.region)
    (received : next.received = relay.received) (forwarded : next.forwarded = relay.forwarded)
    (way : ∀ note, next.Outstanding note → relay.Outstanding note)
    (cleared : ∀ row, next.stages row = .cleared → relay.stages row = .cleared) : next.Intact := by
  refine ⟨fun note after => ?_, ?_⟩
  · obtain ⟨busy, same⟩ := intact.held note (way note after)
    rw [region, received]
    exact ⟨fun again => busy (cleared _ again), same⟩
  · rw [received, forwarded]
    exact intact.sent

theorem mem_notes {row : Fin n} {note : Note n} :
    note ∈ relay.notes row ↔ note ∈ relay.up row ∨ note ∈ relay.down row ∨ relay.stages row = .forwarding note := by
  have stage : note ∈ (relay.stages row).notes ↔ relay.stages row = .forwarding note := by
    cases relay.stages row <;> simp [RelayStage.notes, eq_comm]
  simp only [notes, List.mem_append, stage, or_assoc]

theorem unsent_eq_one {note : Note n} :
    relay.unsent note = 1 ↔
      relay.stages note.sender = .received ∧ note.serial + 1 = (relay.received note.sender).length := by
  simp [unsent]

theorem Intact.memset (intact : relay.Intact) {row : Fin n} (patient : relay.Patient (.memset row))
    (taken : relay.step (.memset row) = some next) : next.Intact := by
  dsimp only [step] at taken
  split_ifs at taken with idle
  cases taken
  refine ⟨fun note after => ?_, intact.sent⟩
  have way : relay.Outstanding note ∧ note.sender ≠ row := by
    have gone := fun other => patient.1 other note
    have passed := patient.2 note
    simp only [Outstanding, mem_notes, unsent_eq_one, setStage, Function.update_apply] at after gone ⊢
    grind
  obtain ⟨busy, same⟩ := intact.held note way.1
  simpa [setStage, way.2] using ⟨busy, same⟩

theorem Intact.recv (intact : relay.Intact) {row : Fin n} {count : Nat}
    (taken : relay.step (.recv row count) = some next) : next.Intact := by
  dsimp only [step] at taken
  split_ifs at taken with ready
  obtain ⟨cleared, -⟩ := ready
  cases taken
  refine ⟨fun note after => ?_, fun other entry member => ?_⟩
  · by_cases own : note.sender = row
    · -- the notes of the row are gone, so this one is of the payload just received
      have fresh : note.serial = (relay.received row).length := by
        have before := intact.held note
        simp only [Outstanding, mem_notes, unsent_eq_one, setStage, Function.update_apply] at after before
        grind
      simp [setStage, own, fresh]
    · have way : relay.Outstanding note := by
        simp only [Outstanding, mem_notes, unsent_eq_one, setStage, Function.update_apply] at after ⊢
        grind
      simpa [setStage, own] using intact.held note way
  · have before := intact.sent other entry member
    simp only [Function.update_apply]
    split_ifs with own
    · rw [own] at before
      rw [List.getElem?_append_left (List.getElem?_eq_some_iff.mp before).1, before]
    · exact before

theorem Intact.again (intact : relay.Intact) {row : Fin n} (taken : relay.step (.again row) = some next) :
    next.Intact := by
  dsimp only [step] at taken
  split_ifs at taken
  cases taken
  refine intact.keep rfl rfl rfl (fun note after => ?_) (fun other same => stages_eq_of_setStage (by simp) same)
  simp only [Outstanding, mem_notes, unsent_eq_one, setStage, Function.update_apply] at after ⊢
  grind

theorem Intact.notify (intact : relay.Intact) (accounted : relay.Accounted) {row : Fin n}
    (taken : relay.step (.notify row) = some next) : next.Intact := by
  dsimp only [step] at taken
  split_ifs at taken with received
  cases taken
  have nonempty := List.length_pos_iff.mpr (accounted.present row received)
  refine intact.keep rfl rfl rfl (fun note after => ?_) (fun other same => stages_eq_of_setStage (by simp) same)
  simp only [Outstanding, mem_notes, unsent_eq_one, setStage, Function.update_apply] at after ⊢
  grind

theorem Intact.collect (intact : relay.Intact) {row : Fin n}
    (taken : relay.step (.collect row) = some next) : next.Intact := by
  dsimp only [step] at taken
  split at taken
  · next note rest idle front =>
    cases taken
    refine intact.keep rfl rfl rfl (fun other after => ?_) (fun _ same => same)
    have carried : other ∈ (ParentRelay.ofRows row note (List.finRange n)).notes → other = note := by
      cases List.finRange n <;> simp [ParentRelay.ofRows, ParentRelay.notes]
    simp only [Outstanding, mem_notes, unsent_eq_one, Function.update_apply] at after ⊢
    grind
  · cases taken

theorem Intact.relays (intact : relay.Intact) (taken : relay.step .relay = some next) : next.Intact := by
  dsimp only [step] at taken
  split at taken
  · next place note row rest stage =>
    have carried : ∀ other, other ∈ (ParentRelay.ofRows place note rest).notes → other = note := by
      intro other
      cases rest <;> simp [ParentRelay.ofRows, ParentRelay.notes]
    have carries : note ∈ relay.parent.notes := by simp [stage, ParentRelay.notes]
    split_ifs at taken
    · cases taken
      refine intact.keep rfl rfl rfl (fun other after => ?_) (fun _ same => same)
      simp only [Outstanding, mem_notes, unsent_eq_one, Function.update_apply] at after ⊢
      grind
    · cases taken
      refine intact.keep rfl rfl rfl (fun other after => ?_) (fun _ same => same)
      simp only [Outstanding, mem_notes, unsent_eq_one] at after ⊢
      grind
  · cases taken

theorem Intact.take (intact : relay.Intact) {row : Fin n} (taken : relay.step (.take row) = some next) :
    next.Intact := by
  dsimp only [step] at taken
  split at taken
  · next note rest idle front =>
    cases taken
    refine intact.keep rfl rfl rfl (fun other after => ?_) (fun other same => stages_eq_of_setStage (by simp) same)
    simp only [Outstanding, mem_notes, unsent_eq_one, setStage, Function.update_apply] at after ⊢
    grind
  · cases taken

theorem Intact.forward (intact : relay.Intact) {row : Fin n} (taken : relay.step (.forward row) = some next) :
    next.Intact := by
  dsimp only [step] at taken
  split at taken
  · next note stage =>
    cases taken
    refine ⟨fun other after => ?_, fun other entry member => ?_⟩
    · have way : relay.Outstanding other := by
        simp only [Outstanding, mem_notes, unsent_eq_one, setStage, Function.update_apply] at after ⊢
        grind
      obtain ⟨busy, same⟩ := intact.held other way
      exact ⟨fun again => busy (stages_eq_of_setStage (by simp) again), same⟩
    · have latest : relay.Outstanding note := .inl ⟨row, mem_notes.mpr (by simp [stage])⟩
      have content := (intact.held note latest).2
      simp only [Function.update_apply] at member
      split_ifs at member with same
      · rcases List.mem_append.mp member with old | new
        · exact intact.sent row entry old
        · cases List.mem_singleton.mp new
          exact content
      · exact intact.sent other entry member
  · cases taken

theorem Intact.step (intact : relay.Intact) (accounted : relay.Accounted) {label : RelayLabel n}
    (patient : relay.Patient label) (taken : relay.step label = some next) : next.Intact := by
  cases label with
  | send row bytes =>
    cases taken
    exact ⟨intact.held, intact.sent⟩
  | memset row => exact intact.memset patient taken
  | recv row count => exact intact.recv taken
  | again row => exact intact.again taken
  | notify row => exact intact.notify accounted taken
  | collect row => exact intact.collect taken
  | relay => exact intact.relays taken
  | take row => exact intact.take taken
  | forward row => exact intact.forward taken

/-- When nothing is on its way, every payload has arrived at every other client. -/
theorem Accounted.delivered (accounted : relay.Accounted) (quiescent : relay.Quiescent) {note : Note n}
    {recipient : Fin n} (known : note.serial < (relay.received note.sender).length)
    (other : recipient ≠ note.sender) :
    (relay.forwarded recipient).countP (fun entry => entry.1 = note) = 1 := by
  obtain ⟨parent, rows⟩ := quiescent
  obtain ⟨idle, -, down⟩ := rows recipient
  obtain ⟨senderIdle, up, -⟩ := rows note.sender
  have once := accounted.once note recipient other
  rw [if_pos known] at once
  simpa [journey, unsent, idle, senderIdle, parent, up, down, RelayStage.forwards, ParentRelay.carries] using once

def Delivering (relay : Relay n) : Prop := relay.Accounted ∧ relay.Intact

/-- Messages are delivered as they were received where no child turns to a new message while
a note of it is on its way: every payload forwarded is the one of the `recv` that caused the
note, and when all pipes are empty and every process waits, each payload has been forwarded
to each other client exactly once. -/
theorem messages_delivered (region : Fin n → List UInt8) (labels : List (RelayLabel n))
    (patient : Meets step Patient (create region) labels) (reached : run step (create region) labels = some relay) :
    (∀ row entry, entry ∈ relay.forwarded row → (relay.received entry.1.sender)[entry.1.serial]? = some entry.2) ∧
      (relay.Quiescent → ∀ note recipient, note.serial < (relay.received note.sender).length →
        recipient ≠ note.sender → (relay.forwarded recipient).countP (fun entry => entry.1 = note) = 1) := by
  obtain ⟨accounted, intact⟩ : relay.Delivering := run_invariant_of_meets
    (fun _ _ _ kept guard taken => ⟨kept.1.step taken, kept.2.step kept.1 guard taken⟩)
    ⟨.create region, .create region⟩ patient reached
  exact ⟨intact.sent, fun quiescent _ _ known other => accounted.delivered quiescent known other⟩

instance (relay : Relay n) : (label : RelayLabel n) → Decidable (relay.Patient label)
  | .memset _ => inferInstanceAs (Decidable (_ ∧ _))
  | .send _ _ | .recv _ _ | .again _ | .notify _ | .collect _ | .relay | .take _ | .forward _ => .isTrue trivial

instance (relay : Relay n) : Decidable relay.Quiescent := inferInstanceAs (Decidable (_ ∧ _))

/-- A message of the first of two clients, up to the pipe of the second child. -/
def message (byte : UInt8) : List (RelayLabel 2) :=
  [.send 0 [byte], .memset 0, .recv 0 1023, .notify 0, .collect 0, .relay, .relay]

/-- Two messages, one after the other. -/
theorem messages_delivered_in_turn :
    ∃ relay, run step (create fun _ => []) (message 97 ++ [.take 1, .forward 1] ++ message 98 ++ [.take 1, .forward 1]) =
        some relay ∧
      relay.forwarded 1 = [(⟨0, 0⟩, padded [97]), (⟨0, 1⟩, padded [98])] ∧
      (relay.forwarded 1).countP (fun entry => entry.1 = ⟨0, 1⟩) = 1 := by
  have computed :
    (run step (create fun _ => []) (message 97 ++ [.take 1, .forward 1] ++ message 98 ++ [.take 1, .forward 1])).map
      (fun relay => (relay.forwarded 1, (relay.received 0).length, decide relay.Quiescent)) =
      some ([(⟨0, 0⟩, padded [97]), (⟨0, 1⟩, padded [98])], 2, true) := by decide +kernel
  obtain ⟨relay, reached, same⟩ := Option.map_eq_some_iff.mp computed
  simp only [Prod.mk.injEq, decide_eq_true_eq] at same
  obtain ⟨forwarded, two, quiescent⟩ := same
  obtain ⟨-, arrived⟩ := messages_delivered (fun _ => []) _ (by decide +kernel) reached
  exact ⟨relay, reached, forwarded, arrived quiescent ⟨0, 1⟩ 1 (by simp [two]) (by decide)⟩

/-- The second message is received before the first is forwarded: the second client gets the
second one in place of the first. -/
theorem messages_not_delivered :
    ¬ ∀ (region : Fin 2 → List UInt8) (labels : List (RelayLabel 2)) (relay : Relay 2),
      run step (create region) labels = some relay →
      (∀ row entry, entry ∈ relay.forwarded row → (relay.received entry.1.sender)[entry.1.serial]? = some entry.2) ∧
        (relay.Quiescent → ∀ note recipient, note.serial < (relay.received note.sender).length →
          recipient ≠ note.sender → (relay.forwarded recipient).countP (fun entry => entry.1 = note) = 1) := by
  intro delivered
  have computed :
    (run step (create fun _ => []) (message 97 ++ [.send 0 [98], .memset 0, .recv 0 1023, .take 1, .forward 1])).map
      (fun relay => (relay.forwarded 1, relay.received 0)) =
      some ([(⟨0, 0⟩, padded [98])], [padded [97], padded [98]]) := by decide +kernel
  obtain ⟨relay, reached, same⟩ := Option.map_eq_some_iff.mp computed
  simp only [Prod.mk.injEq] at same
  obtain ⟨forwarded, received⟩ := same
  have content := (delivered _ _ relay reached).1 1 (⟨0, 0⟩, padded [98]) (by simp [forwarded])
  rw [received] at content
  exact absurd content (by decide +kernel)

end Relay
end UnixProgramming.Ipc
