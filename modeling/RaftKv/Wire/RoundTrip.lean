-- SUMMARY: What is sent or stored is what is received or read back, for every message, on hosts of either byte order.
import RaftKv.Wire.TCPServer

/-!
# Round trips

Every decoder of the wire format undoes its encoder. A log entry is the one message that is
decoded out of the middle of a longer string and encoded again by every node it passes; a
`Hop` is one such passage, in an AppendEntries message or through a log file.
-/

namespace RaftKv.Wire

open Decoder

section

variable [Host]

/-- `LogEntry::deserialize(data, offset)`: the entry and the offset behind it. -/
def LogEntry.deserializeAt (data : Bytes) (offset : Nat) : Result (LogEntry × Nat) :=
  (LogEntry.deserialize.run (data.drop offset)).map fun r => (r.1, data.length - r.2.length)

/-- A record that the constructor built from a command that fits its length fields. -/
def LogEntry.Built (entry : LogEntry) : Prop :=
  ∃ t i cmd, Command.Short cmd ∧ entry = .ofCommand t i cmd

theorem LogEntry.Built.intact {entry : LogEntry} (h : entry.Built) : entry.Intact := by
  obtain ⟨t, i, cmd, hcmd, rfl⟩ := h
  exact intact_ofCommand t i hcmd

theorem LogEntry.deserializeAt_serialize {entry : LogEntry} (h : entry.Intact)
    (before after : Bytes) :
    deserializeAt (before ++ entry.serialize ++ after) before.length =
      .ok (entry, before.length + entry.serialize.length) := by
  have hrun := reads_deserialize h after
  rw [deserializeAt, List.append_assoc, List.drop_left, hrun]
  have hoffset : (before ++ (entry.serialize ++ after)).length - after.length =
      before.length + entry.serialize.length := by
    simp only [List.length_append]
    omega
  simp only [Except.map, hoffset]

theorem LogEntry.getCommand_ofCommand (t i : UInt64) {cmd : Command} (h : cmd.Short) :
    (ofCommand t i cmd).getCommand = .ok cmd :=
  Command.deserialize_serialize h

theorem AppendEntries.deserialize_serialize {rpc : AppendEntries} (h : rpc.Intact) :
    deserialize rpc.serialize = .ok rpc :=
  run_map_ok.mpr ⟨[], (reads_decode h).run⟩

omit [Host] in
theorem RequestVote.deserialize_serialize (rpc : RequestVote) :
    deserialize rpc.serialize = .ok rpc :=
  run_map_ok.mpr ⟨[], rpc.reads_decode.run⟩

omit [Host] in
theorem AppendEntriesResponse.deserialize_serialize (resp : AppendEntriesResponse) :
    deserialize resp.serialize = .ok resp :=
  run_map_ok.mpr ⟨[], resp.reads_decode.run⟩

omit [Host] in
theorem RequestVoteResponse.deserialize_serialize (resp : RequestVoteResponse) :
    deserialize resp.serialize = .ok resp :=
  run_map_ok.mpr ⟨[], resp.reads_decode.run⟩

/-! ## Passing an entry on -/

/-- One passage of an entry: as part of a message, or of a log file, among other entries. -/
inductive Hop where
  | message (term leaderId prevLogIndex prevLogTerm leaderCommit : UInt64)
      (before after : List LogEntry)
  | file (before after : List LogEntry)

namespace Hop

/-- The other entries are built ones, and a message has fewer than 2^32 entries. -/
def Allowed : Hop → Prop
  | message _ _ _ _ _ before after =>
    (∀ e ∈ before ++ after, e.Built) ∧ before.length + 1 + after.length < 2 ^ 32
  | file before after => ∀ e ∈ before ++ after, e.Built

/-- The entry at position `i` of what was decoded. -/
def pick (entries : List LogEntry) (i : Nat) : Result LogEntry :=
  match entries[i]? with
  | some entry => .ok entry
  | none => .error .outOfBounds

/-- Encode the message or the file, decode it, and take the entry that stands where `entry`
was put. -/
def carry : Hop → LogEntry → Result LogEntry
  | message term leaderId prevLogIndex prevLogTerm leaderCommit before after, entry => do
    let rpc : AppendEntries :=
      { term, leaderId, prevLogIndex, prevLogTerm, leaderCommit, entries := before ++ entry :: after }
    let rpc ← AppendEntries.deserialize rpc.serialize
    pick rpc.entries before.length
  | file before after, entry => do
    let data := Storage.encodeLog (before ++ entry :: after)
    let entries ← Storage.readLog data.length data
    pick entries before.length

def carryAll (hops : List Hop) (entry : LogEntry) : Result LogEntry :=
  hops.foldlM (fun entry hop => hop.carry entry) entry

omit [Host] in
theorem pick_middle (before after : List LogEntry) (entry : LogEntry) :
    pick (before ++ entry :: after) before.length = .ok entry := by
  rw [pick, List.getElem?_append_right (Nat.le_refl _), Nat.sub_self, List.getElem?_cons_zero]

theorem carry_ok {hop : Hop} (hhop : hop.Allowed) {entry : LogEntry} (hentry : entry.Built) :
    hop.carry entry = .ok entry := by
  have hall : ∀ before after : List LogEntry, (∀ e ∈ before ++ after, e.Built) →
      ∀ e ∈ before ++ entry :: after, e.Intact := by
    intro before after hothers e he
    rcases List.mem_append.mp he with he | he
    · exact (hothers e (List.mem_append_left _ he)).intact
    · rcases List.mem_cons.mp he with rfl | he
      · exact hentry.intact
      · exact (hothers e (List.mem_append_right _ he)).intact
  cases hop with
  | message term leaderId prevLogIndex prevLogTerm leaderCommit before after =>
    obtain ⟨hothers, hcount⟩ := hhop
    let rpc : AppendEntries :=
      { term, leaderId, prevLogIndex, prevLogTerm, leaderCommit, entries := before ++ entry :: after }
    have hlength : rpc.entries.length < 2 ^ 32 := by
      show (before ++ entry :: after).length < 2 ^ 32
      rw [List.length_append, List.length_cons]
      omega
    have hrpc : AppendEntries.deserialize rpc.serialize = .ok rpc :=
      AppendEntries.deserialize_serialize ⟨hall before after hothers, hlength⟩
    show (AppendEntries.deserialize rpc.serialize >>= _) = _
    rw [hrpc]
    exact pick_middle before after entry
  | file before after =>
    have hread := Storage.readLog_encodeLog (hall before after hhop)
    show (Storage.readLog _ _ >>= _) = _
    rw [hread]
    exact pick_middle before after entry

/-- Over any number of passages, by induction on them. -/
theorem carryAll_ok {hops : List Hop} (hhops : ∀ hop ∈ hops, hop.Allowed) {entry : LogEntry}
    (hentry : entry.Built) : carryAll hops entry = .ok entry := by
  induction hops with
  | nil => rfl
  | cons hop hops ih =>
    have hfirst := carry_ok (hhops hop List.mem_cons_self) hentry
    have hrest := ih fun x hx => hhops x (List.mem_cons_of_mem hop hx)
    rw [carryAll, List.foldlM_cons, hfirst]
    exact hrest

end Hop

/-! ## Every message -/

/-- On either host: every message decodes to itself, a log entry also out of the middle of
a longer string, and the command in a client's packet is what every node gets out of the
entry made from it, whatever messages and files the entry has passed. -/
theorem messages_survive :
    (∀ cmd : Command, cmd.Short → Command.deserialize cmd.serialize = .ok cmd) ∧
    (∀ entry : LogEntry, entry.Built → ∀ before after : Bytes,
      LogEntry.deserializeAt (before ++ entry.serialize ++ after) before.length =
        .ok (entry, before.length + entry.serialize.length)) ∧
    (∀ rpc : AppendEntries, (∀ e ∈ rpc.entries, e.Built) → rpc.entries.length < 2 ^ 32 →
      AppendEntries.deserialize rpc.serialize = .ok rpc) ∧
    (∀ rpc : RequestVote, RequestVote.deserialize rpc.serialize = .ok rpc) ∧
    (∀ resp : AppendEntriesResponse, AppendEntriesResponse.deserialize resp.serialize = .ok resp) ∧
    (∀ resp : RequestVoteResponse, RequestVoteResponse.deserialize resp.serialize = .ok resp) ∧
    (∀ cmd : Command, cmd.Short → ∀ (t i : UInt64) (hops : List Hop), (∀ hop ∈ hops, hop.Allowed) →
      ∃ received entry, Command.deserialize (clientPacket cmd).tail = .ok received ∧
        Hop.carryAll hops (.ofCommand t i received) = .ok entry ∧ entry.getCommand = .ok cmd) := by
  refine ⟨fun cmd hcmd => Command.deserialize_serialize hcmd, ?_, ?_,
    RequestVote.deserialize_serialize, AppendEntriesResponse.deserialize_serialize,
    RequestVoteResponse.deserialize_serialize, ?_⟩
  · intro entry hentry before after
    exact LogEntry.deserializeAt_serialize hentry.intact before after
  · intro rpc hentries hcount
    exact AppendEntries.deserialize_serialize ⟨fun e he => (hentries e he).intact, hcount⟩
  · intro cmd hcmd t i hops hhops
    refine ⟨cmd, .ofCommand t i cmd, Command.deserialize_serialize hcmd, ?_, ?_⟩
    · exact Hop.carryAll_ok hhops ⟨t, i, cmd, hcmd, rfl⟩
    · exact LogEntry.getCommand_ofCommand t i hcmd

end

/-- A host on which `htons` and `htonl` are the identity. -/
@[reducible] def bigEndianHost : Host where
  littleEndian := false

theorem messages_survive_bigEndian :
    letI := bigEndianHost
    let entry : LogEntry := .ofCommand 0x8000000000000000 1 { oper := .put, key := [200], val := [255, 0] }
    AppendEntries.deserialize (AppendEntries.serialize ⟨1, 1, 0, 0, 0, [entry]⟩) =
      .ok ⟨1, 1, 0, 0, 0, [entry]⟩ := by
  let host : Host := bigEndianHost
  intro entry
  refine messages_survive.2.2.1 ⟨1, 1, 0, 0, 0, [entry]⟩ ?_ (by decide)
  intro e he
  rw [List.mem_singleton.mp he]
  exact ⟨_, _, _, ⟨by decide, by decide⟩, rfl⟩

end RaftKv.Wire
