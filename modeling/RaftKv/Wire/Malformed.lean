-- SUMMARY: Which buffers the two server loops contain: no read outside the buffer, no exception that leaves the loop.
import RaftKv.Wire.Framing
import RaftKv.Wire.Node

/-!
# Malformed input

The decoders of the two listeners on any buffer at all. `Command::deserialize` alone looks at
the size of its buffer, and `handleClient` alone catches exceptions. So the condition for a
buffer to be contained is what the header and the length fields in it announce.

The command in a log entry is decoded when the entry is applied, which for a follower is inside
`handleAppendEntries`. So the entries that a message makes the node apply must hold commands.
-/

namespace RaftKv.Wire

open ByteOrder Decoder

/-! ## Decoders of fixed width -/

section

variable [Host]

variable {σ : Type}

/-! ## Containment -/

end

namespace Storage

variable [Host]

/-- The log file is what `append` and `truncate` leave: whole records, each with a CRC that fits.
The cached fields may be anything. -/
def Undamaged (s : Storage) : Prop :=
  ∃ entries, s.files.log = encodeLog entries ∧ ∀ e ∈ entries, e.Intact

variable {s : Storage}

theorem Undamaged.readAll (h : s.Undamaged) :
    ∃ entries, s.readAll = .ok entries ∧ ∀ e ∈ entries, e.Intact := by
  obtain ⟨entries, hfile, hintact⟩ := h
  exact ⟨entries, by rw [Storage.readAll, hfile, readLog_encodeLog hintact], hintact⟩

theorem Undamaged.getTermAt (h : s.Undamaged) (index : UInt64) : ∃ t, s.getTermAt index = .ok t := by
  obtain ⟨entries, hread, -⟩ := h.readAll
  rw [Storage.getTermAt, hread]
  split
  · exact ⟨0, rfl⟩
  · show ∃ t, (if index.toNat ≤ entries.length then _ else _) = _
    split
    · exact ⟨_, rfl⟩
    · exact ⟨_, rfl⟩

theorem Undamaged.readRange (h : s.Undamaged) (start stop : UInt64) :
    ∃ es, s.readRange start stop = .ok es := by
  obtain ⟨entries, hread, -⟩ := h.readAll
  rw [Storage.readRange, hread]
  split
  · exact ⟨[], rfl⟩
  · show ∃ es, (if stop.toNat > entries.length then _ else _) = _
    split
    · exact ⟨_, rfl⟩
    · exact ⟨_, rfl⟩

theorem Undamaged.truncate (h : s.Undamaged) (k : UInt64) :
    ∃ s', s.truncate k = .ok s' ∧ s'.Undamaged := by
  obtain ⟨entries, hread, hintact⟩ := h.readAll
  rw [Storage.truncate, hread]
  split
  · exact ⟨s, rfl, h⟩
  · show ∃ s', (if k.toNat ≥ entries.length then _ else _) = _ ∧ _
    split
    · exact ⟨s, rfl, h⟩
    · exact ⟨_, rfl, entries.take k.toNat, rfl, fun e he => hintact e (List.mem_of_mem_take he)⟩

theorem Undamaged.append (h : s.Undamaged) {entry : LogEntry} (hentry : entry.Intact) :
    (s.append entry).Undamaged := by
  obtain ⟨entries, hfile, hintact⟩ := h
  refine ⟨entries ++ [entry], ?_, fun e he => ?_⟩
  · rw [encodeLog_concat, ← hfile]
    rfl
  · rcases List.mem_append.mp he with he | he
    · exact hintact e he
    · rwa [List.mem_singleton.mp he]

end Storage

namespace Node

variable [Host] {n : Node} {rpc : AppendEntries}

theorem followLeader_log (n : Node) (rpc : AppendEntries) :
    (n.followLeader rpc).store.files.log = n.store.files.log := by
  unfold followLeader
  dsimp only
  split <;> split <;> rfl

omit [Host] in
theorem followCommit_log (n : Node) (leaderCommit : UInt64) :
    (n.followCommit leaderCommit).store.files.log = n.store.files.log := by
  unfold followCommit
  split <;> rfl

end Node

section

variable [Host] {σ : Type}

end

end RaftKv.Wire
