-- SUMMARY: The byte encoding of the four messages, and the messages a node builds from its store.
import RaftKv.Wire.Storage

/-!
# Messages on the wire

`RPC.h`. The first byte is the type of the message. `AppendEntries` carries the number
of its entries and, before each entry, the length of its encoding; the reader uses the
number, and reads the lengths only to step over them.
-/

namespace RaftKv.Wire

open ByteOrder Decoder

/-- A character literal of the source. -/
def tag (c : Char) : UInt8 := c.toUInt8

def pushBool (b : Bool) : Bytes := [if b then 1 else 0]

def readBool : Decoder String Bool := do
  let bs ← take 1
  return bs.headD 0 != 0

/-! ## Replication -/

structure AppendEntries where
  term : UInt64
  leaderId : UInt64
  prevLogIndex : UInt64
  prevLogTerm : UInt64
  leaderCommit : UInt64
  entries : List LogEntry
  deriving DecidableEq, Repr

namespace AppendEntries

/-- One entry behind its length. -/
def serializeEntry [Host] (entry : LogEntry) : Bytes :=
  pushUInt32 (UInt32.ofNat entry.serialize.length) ++ entry.serialize

def serialize [Host] (rpc : AppendEntries) : Bytes :=
  [tag 'A'] ++ pushUInt64 rpc.term ++ pushUInt64 rpc.leaderId ++ pushUInt64 rpc.prevLogIndex ++
    pushUInt64 rpc.prevLogTerm ++ pushUInt64 rpc.leaderCommit ++
    pushUInt32 (UInt32.ofNat rpc.entries.length) ++ rpc.entries.flatMap serializeEntry

/-- The body of the loop over the entries: the length is read and not used. -/
def readEntry [Host] : Decoder String LogEntry := do
  let _ ← readUInt32
  LogEntry.deserialize

def decode [Host] : Decoder String AppendEntries := do
  let _ ← take 1
  let term ← readUInt64
  let leaderId ← readUInt64
  let prevLogIndex ← readUInt64
  let prevLogTerm ← readUInt64
  let leaderCommit ← readUInt64
  let count ← readUInt32
  let entries ← repeatN readEntry count.toNat
  return { term, leaderId, prevLogIndex, prevLogTerm, leaderCommit, entries }

def deserialize [Host] (data : Bytes) : Result AppendEntries := (decode.run data).map (·.1)

end AppendEntries

structure AppendEntriesResponse where
  term : UInt64
  success : Bool
  deriving DecidableEq, Repr

namespace AppendEntriesResponse

def serialize (resp : AppendEntriesResponse) : Bytes :=
  [tag 'R'] ++ pushUInt64 resp.term ++ pushBool resp.success

def decode : Decoder String AppendEntriesResponse := do
  let _ ← take 1
  let term ← readUInt64
  let success ← readBool
  return { term, success }

def deserialize (data : Bytes) : Result AppendEntriesResponse := (decode.run data).map (·.1)

end AppendEntriesResponse

/-! ## Election -/

structure RequestVote where
  term : UInt64
  candidateId : UInt64
  lastLogIndex : UInt64
  lastLogTerm : UInt64
  deriving DecidableEq, Repr

namespace RequestVote

def serialize (rpc : RequestVote) : Bytes :=
  [tag 'V'] ++ pushUInt64 rpc.term ++ pushUInt64 rpc.candidateId ++ pushUInt64 rpc.lastLogIndex ++
    pushUInt64 rpc.lastLogTerm

def decode : Decoder String RequestVote := do
  let _ ← take 1
  let term ← readUInt64
  let candidateId ← readUInt64
  let lastLogIndex ← readUInt64
  let lastLogTerm ← readUInt64
  return { term, candidateId, lastLogIndex, lastLogTerm }

def deserialize (data : Bytes) : Result RequestVote := (decode.run data).map (·.1)

end RequestVote

structure RequestVoteResponse where
  term : UInt64
  voteGranted : Bool
  deriving DecidableEq, Repr

namespace RequestVoteResponse

def serialize (resp : RequestVoteResponse) : Bytes :=
  [tag 'W'] ++ pushUInt64 resp.term ++ pushBool resp.voteGranted

def decode : Decoder String RequestVoteResponse := do
  let _ ← take 1
  let term ← readUInt64
  let voteGranted ← readBool
  return { term, voteGranted }

def deserialize (data : Bytes) : Result RequestVoteResponse := (decode.run data).map (·.1)

end RequestVoteResponse

/-! ## The messages a node builds -/

/-- The term of the entry before the ones sent. -/
def prevTerm [Host] (store : Storage) (prevLogIndex : UInt64) : Result UInt64 :=
  if prevLogIndex = 0 then .ok 0 else store.getTermAt prevLogIndex

/-- The entries the peer is missing: all the store has from `nextIndex` on. -/
def missingEntries [Host] (store : Storage) (nextIndex : UInt64) : Result (List LogEntry) :=
  if nextIndex ≤ store.logLen then store.readFrom nextIndex else .ok []

/-- The message of `sendAppendEntries`. -/
def buildAppendEntries [Host] (store : Storage) (nodeId nextIndex : UInt64) : Result AppendEntries := do
  let prevLogTerm ← prevTerm store (nextIndex - 1)
  let entries ← missingEntries store nextIndex
  return {
    term := store.term, leaderId := nodeId, prevLogIndex := nextIndex - 1, prevLogTerm
    leaderCommit := store.commitIndex, entries }

/-- The message of `startElection`. -/
def buildRequestVote (store : Storage) (nodeId : UInt64) : RequestVote where
  term := store.term
  candidateId := nodeId
  lastLogIndex := store.logLen
  lastLogTerm := store.getLastLogTerm

/-! ## Round trips -/

theorem run_map_ok {α : Type} {d : Decoder String α} {data : Bytes} {a : α} :
    (d.run data).map (·.1) = .ok a ↔ ∃ rest, d.run data = .ok (a, rest) := by
  cases hrun : d.run data with
  | error e => simp [Except.map]
  | ok r =>
    obtain ⟨b, rest⟩ := r
    simp [Except.map]

theorem reads_readBool (b : Bool) : Reads readBool (pushBool b) b := by
  intro rest
  cases b <;> rfl

theorem RequestVote.reads_decode (rpc : RequestVote) : Reads decode rpc.serialize rpc := by
  unfold decode
  simp only [serialize, List.append_assoc]
  refine Reads.bind (reads_take (n := 1) rfl) ?_
  refine (reads_readUInt64 _).bind ?_
  refine (reads_readUInt64 _).bind ?_
  refine (reads_readUInt64 _).bind ?_
  exact (reads_readUInt64 _).map

theorem AppendEntriesResponse.reads_decode (resp : AppendEntriesResponse) :
    Reads decode resp.serialize resp := by
  unfold decode
  simp only [serialize, List.append_assoc]
  refine Reads.bind (reads_take (n := 1) rfl) ?_
  refine (reads_readUInt64 _).bind ?_
  exact (reads_readBool _).map

theorem RequestVoteResponse.reads_decode (resp : RequestVoteResponse) :
    Reads decode resp.serialize resp := by
  unfold decode
  simp only [serialize, List.append_assoc]
  refine Reads.bind (reads_take (n := 1) rfl) ?_
  refine (reads_readUInt64 _).bind ?_
  exact (reads_readBool _).map

theorem AppendEntries.reads_readEntry [Host] {entry : LogEntry} (h : entry.Intact) :
    Reads readEntry (serializeEntry entry) entry :=
  (reads_readUInt32 _).bind (LogEntry.reads_deserialize h)

/-- A message whose entries are intact and can be counted in 32 bits. -/
structure AppendEntries.Intact (rpc : AppendEntries) : Prop where
  entries : ∀ e ∈ rpc.entries, e.Intact
  count : rpc.entries.length < 2 ^ 32

theorem AppendEntries.reads_decode [Host] {rpc : AppendEntries} (h : rpc.Intact) :
    Reads decode rpc.serialize rpc := by
  have hcount : (UInt32.ofNat rpc.entries.length).toNat = rpc.entries.length :=
    UInt32.toNat_ofNat_of_lt' h.count
  have hentries := reads_repeatN fun e he => reads_readEntry (h.entries e he)
  rw [← hcount] at hentries
  unfold decode
  simp only [serialize, List.append_assoc]
  refine Reads.bind (reads_take (n := 1) rfl) ?_
  refine (reads_readUInt64 _).bind ?_
  refine (reads_readUInt64 _).bind ?_
  refine (reads_readUInt64 _).bind ?_
  refine (reads_readUInt64 _).bind ?_
  refine (reads_readUInt64 _).bind ?_
  refine (reads_readUInt32 _).bind ?_
  exact hentries.map

theorem AppendEntries.local_decode [Host] : Local decode := by
  refine (Local.take 1).bind fun _ => ?_
  refine local_readUInt64.bind fun _ => ?_
  refine local_readUInt64.bind fun _ => ?_
  refine local_readUInt64.bind fun _ => ?_
  refine local_readUInt64.bind fun _ => ?_
  refine local_readUInt64.bind fun _ => ?_
  refine local_readUInt32.bind fun _ => ?_
  have hentry : Local readEntry := local_readUInt32.bind fun _ => LogEntry.local_deserialize
  exact (hentry.repeatN _).bind fun _ => .pure _

theorem RequestVote.local_decode : Local decode := by
  refine (Local.take 1).bind fun _ => ?_
  refine local_readUInt64.bind fun _ => ?_
  refine local_readUInt64.bind fun _ => ?_
  refine local_readUInt64.bind fun _ => ?_
  exact local_readUInt64.bind fun _ => .pure _

/-! ## Lengths -/

@[simp] theorem RequestVote.length_serialize (rpc : RequestVote) : rpc.serialize.length = 33 := rfl

@[simp] theorem AppendEntries.length_serialize [Host] (rpc : AppendEntries) :
    rpc.serialize.length = 45 + total (fun e => 28 + e.command.length) rpc.entries := by
  have hentry : ∀ e : LogEntry, (serializeEntry e).length = 28 + e.command.length := by
    intro e
    rw [serializeEntry, List.length_append, length_pushUInt32, LogEntry.length_serialize]
    omega
  simp only [serialize, List.length_append, length_flatMap_eq_total, hentry, length_pushUInt64,
    length_pushUInt32, List.length_singleton]

theorem RequestVote.length_le_of_deserialize {data : Bytes} {rpc : RequestVote}
    (h : deserialize data = .ok rpc) : rpc.serialize.length ≤ data.length := by
  obtain ⟨rest, h⟩ := run_map_ok.mp h
  obtain ⟨tag, in₁, htag, h⟩ := bind_ok.mp h
  obtain ⟨term, in₂, hterm, h⟩ := bind_ok.mp h
  obtain ⟨candidateId, in₃, hcandidateId, h⟩ := bind_ok.mp h
  obtain ⟨lastLogIndex, in₄, hlastLogIndex, h⟩ := bind_ok.mp h
  obtain ⟨lastLogTerm, in₅, hlastLogTerm, h⟩ := bind_ok.mp h
  obtain ⟨htagLen, rfl⟩ := take_ok.mp htag
  obtain rfl := readUInt64_ok.mp hterm
  obtain rfl := readUInt64_ok.mp hcandidateId
  obtain rfl := readUInt64_ok.mp hlastLogIndex
  obtain rfl := readUInt64_ok.mp hlastLogTerm
  simp only [length_serialize, List.length_append, length_pushUInt64]
  omega

theorem AppendEntries.sized_readEntry [Host] : Sized readEntry fun e => 28 + e.command.length := by
  intro input rest entry h
  obtain ⟨len, mid, hlen, h⟩ := bind_ok.mp h
  obtain rfl := readUInt32_ok.mp hlen
  obtain ⟨-, rfl⟩ := LogEntry.deserialize_ok.mp h
  simp only [List.length_append, length_pushUInt32, LogEntry.length_serialize]
  omega

theorem AppendEntries.length_le_of_deserialize [Host] {data : Bytes} {rpc : AppendEntries}
    (h : deserialize data = .ok rpc) : rpc.serialize.length ≤ data.length := by
  obtain ⟨rest, h⟩ := run_map_ok.mp h
  obtain ⟨tag, in₁, htag, h⟩ := bind_ok.mp h
  obtain ⟨term, in₂, hterm, h⟩ := bind_ok.mp h
  obtain ⟨leaderId, in₃, hleaderId, h⟩ := bind_ok.mp h
  obtain ⟨prevLogIndex, in₄, hprevLogIndex, h⟩ := bind_ok.mp h
  obtain ⟨prevLogTerm, in₅, hprevLogTerm, h⟩ := bind_ok.mp h
  obtain ⟨leaderCommit, in₆, hleaderCommit, h⟩ := bind_ok.mp h
  obtain ⟨count, in₇, hcount, h⟩ := bind_ok.mp h
  obtain ⟨entries, in₈, hentries, h⟩ := bind_ok.mp h
  obtain ⟨rfl, rfl⟩ := pure_ok.mp h
  obtain ⟨htagLen, rfl⟩ := take_ok.mp htag
  obtain rfl := readUInt64_ok.mp hterm
  obtain rfl := readUInt64_ok.mp hleaderId
  obtain rfl := readUInt64_ok.mp hprevLogIndex
  obtain rfl := readUInt64_ok.mp hprevLogTerm
  obtain rfl := readUInt64_ok.mp hleaderCommit
  obtain rfl := readUInt32_ok.mp hcount
  have hsize := sized_readEntry.repeatN _ hentries
  simp only [length_serialize, List.length_append, length_pushUInt64, length_pushUInt32]
  omega

end RaftKv.Wire
