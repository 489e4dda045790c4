-- SUMMARY: One node on the words and bytes of the source: 64-bit fields, the two files, messages in and out as they are sent.
import RaftKv.RaftNode
import RaftKv.Wire.RoundTrip

/-!
# The node on machine words

`RaftNode.h` once more, section by section as in `RaftKv/RaftNode.lean`, but over the byte-level
store, with unsigned 64-bit arithmetic, votes as decimal text, and replies as the bytes that
`sendRPC` returned. A section ends in a `Fault` where the source would read past a buffer or leave
an exception uncaught.

Peers are positions in the vector `peers`, `size` is its length, and `connected` says which of them
`isConnected`. The vectors `nextIndex` and `matchIndex` are empty until `becomeLeader` assigns
them and are not read before.
-/

namespace RaftKv.Wire

namespace Storage

def setCommit (s : Storage) (c : UInt64) : Storage := { s with commitIndex := c }

def setApplied (s : Storage) (a : UInt64) : Storage := { s with lastApplied := a }

end Storage

/-- The conversion of a `uint64_t` to `int`. -/
def toInt (x : UInt64) : Int := (x.toNat : Int).bmod 4294967296

/-- `isConnected` by position. -/
def connectedAt {ι : Type} (peers : List ι) (connected : ι → Bool) (k : Nat) : Bool :=
  peers[k]?.any connected

structure Node where
  nodeId : Int
  store : Storage
  sm : StateMachine := .empty
  state : NodeState := .follower
  /-- 0 for unknown. -/
  currentLeaderId : Int := 0
  nextIndex : Nat → UInt64 := fun _ => 0
  matchIndex : Nat → UInt64 := fun _ => 0

namespace Node

variable [Host]

/-! ## Applying entries -/

/-- The loop `for (auto& e : entries) sm.apply(e.getCommand())`. -/
def applyEntries (n : Node) : List LogEntry → Result Node
  | [] => .ok n
  | e :: es => do
    let cmd ← e.getCommand
    applyEntries { n with sm := n.sm.apply cmd } es

def replay (n : Node) : Result Node := do
  let entries ← n.store.readAll
  let n ← n.applyEntries entries
  match entries.getLast? with
  | none => return n
  | some e => return { n with store := (n.store.setApplied e.index).setCommit e.index }

/-- The constructor, over the two files. -/
def start (nodeId : Int) (files : Files) : Result Node := do
  let store ← Storage.reopen files
  replay { nodeId, store }

/-- A node in an empty directory. -/
def fresh (nodeId : Int) : Node where
  nodeId
  store :=
    { files := ⟨[], none⟩, term := 0, lastLogTerm := 0, voted := [], logLength := 0, commitIndex := 0
      lastApplied := 0 }

def applyCommitted (n : Node) : Result Node :=
  let lastApplied := n.store.lastApplied
  let commit := n.store.commitIndex
  if commit > lastApplied then do
    let entries ← n.store.readRange (lastApplied + 1) commit
    let n ← n.applyEntries entries
    return { n with store := n.store.setApplied commit }
  else .ok n

/-! ## The commit rule -/

def replicaCount (n : Node) (size : Nat) (connected : Nat → Bool) (idx : UInt64) : Nat :=
  1 + ((List.range size).filter fun j => connected j && decide (n.matchIndex j ≥ idx)).length

/-- The loop of `advanceCommitIndex`. The index goes up in each round and ends past the log, which
bounds the number of rounds, unless the log is so long that the index wraps. -/
def scanCommit (n : Node) (size : Nat) (connected : Nat → Bool) :
    Nat → UInt64 → UInt64 → Result UInt64
  | 0, _, newCommit => .ok newCommit
  | fuel + 1, idx, newCommit =>
    if idx ≤ n.store.logLength then do
      let t ← n.store.getTermAt idx
      if t ≠ n.store.term then scanCommit n size connected fuel (idx + 1) newCommit
      else if n.replicaCount size connected idx ≥ (size + 1) / 2 + 1 then
        scanCommit n size connected fuel (idx + 1) idx
      else return newCommit
    else .ok newCommit

def advanceCommitIndex (n : Node) (size : Nat) (connected : Nat → Bool) : Result Node := do
  let commit := n.store.commitIndex
  let newCommit ← n.scanCommit size connected (n.store.logLength.toNat - commit.toNat) (commit + 1) commit
  if newCommit > commit then applyCommitted { n with store := n.store.setCommit newCommit }
  else return n

/-! ## Elections -/

/-- The locked first part of `startElection`, up to the request it sends. -/
def startElection (n : Node) : Node × RequestVote :=
  let store := n.store.setTerm (n.store.term + 1)
  let store := store.setVoted (ofString (toString n.nodeId))
  ({ n with currentLeaderId := 0, state := .candidate, store },
    buildRequestVote store (UInt64.ofInt n.nodeId))

/-- What the vote loop does with the bytes that `sendRPC` returned: the new count, or `none` when
the node stepped down and `startElection` returned. -/
def voteReply (n : Node) (votes : Nat) (respData : Bytes) : Result (Node × Option Nat) :=
  if respData.head? = some (tag 'W') then do
    let resp ← RequestVoteResponse.deserialize respData
    if resp.term > n.store.term then
      let store := (n.store.setTerm resp.term).setVoted []
      return ({ n with store, state := .follower, currentLeaderId := 0 }, none)
    else if resp.voteGranted then return (n, some (votes + 1))
    else return (n, some votes)
  else .ok (n, some votes)

/-- `becomeLeader` up to its send loop. -/
def becomeLeader (n : Node) : Node :=
  if n.state ≠ .candidate then n
  else
    let last := n.store.logLength
    let newIdx := n.store.logLen + 1
    { n with
      state := .leader
      currentLeaderId := n.nodeId
      nextIndex := fun _ => last + 1
      matchIndex := fun _ => 0
      store := n.store.append (.ofCommand n.store.term newIdx { oper := .noop }) }

def handleRequestVote (n : Node) (rpc : RequestVote) : Node × RequestVoteResponse :=
  let resp : RequestVoteResponse := { term := n.store.term, voteGranted := false }
  if rpc.term < n.store.term then (n, resp)
  else
    let (n, resp) :=
      if rpc.term > n.store.term then
        let store := (n.store.setTerm rpc.term).setVoted []
        ({ n with store, state := .follower, currentLeaderId := 0 }, { resp with term := rpc.term })
      else (n, resp)
    let votedFor := n.store.voted
    let candidate := ofString (toString rpc.candidateId.toNat)
    let logOk := rpc.lastLogTerm > n.store.lastLogTerm ∨
      (rpc.lastLogTerm = n.store.lastLogTerm ∧ rpc.lastLogIndex ≥ n.store.logLength)
    if (votedFor = [] ∨ votedFor = candidate) ∧ logOk then
      ({ n with store := n.store.setVoted candidate }, { resp with voteGranted := true })
    else (n, resp)

/-! ## Replication -/

/-- `sendAppendEntries` up to the call. -/
def sendAppendEntries (n : Node) (peerIdx : Nat) : Result AppendEntries :=
  buildAppendEntries n.store (UInt64.ofInt n.nodeId) (n.nextIndex peerIdx)

/-- `if (!ae.entries.empty() && nextIndex[peer_idx] > 1) nextIndex[peer_idx]--`. -/
def backOff (n : Node) (peerIdx : Nat) (ae : AppendEntries) : Node :=
  if ¬ ae.entries.isEmpty ∧ n.nextIndex peerIdx > 1 then
    { n with nextIndex := Function.update n.nextIndex peerIdx (n.nextIndex peerIdx - 1) }
  else n

/-- The branch for a successful batch. -/
def acknowledge (n : Node) (size : Nat) (connected : Nat → Bool) (peerIdx : Nat)
    (ae : AppendEntries) : Result Node :=
  let lastSent := ae.prevLogIndex + UInt64.ofNat ae.entries.length
  let matched := max (n.matchIndex peerIdx) lastSent
  advanceCommitIndex
    { n with
      matchIndex := Function.update n.matchIndex peerIdx matched
      nextIndex := Function.update n.nextIndex peerIdx (matched + 1) } size connected

/-- The rest of `sendAppendEntries`, on the bytes that `sendRPC` returned. -/
def appendReply (n : Node) (size : Nat) (connected : Nat → Bool) (peerIdx : Nat)
    (ae : AppendEntries) (respData : Bytes) : Result Node :=
  let n := if respData = [] then { n with matchIndex := Function.update n.matchIndex peerIdx 0 } else n
  if respData.head? = some (tag 'R') then do
    let resp ← AppendEntriesResponse.deserialize respData
    if resp.term > n.store.term then
      return { n with store := (n.store.setTerm resp.term).setVoted [], state := .follower }
    else if resp.success ∧ ¬ ae.entries.isEmpty then n.acknowledge size connected peerIdx ae
    else return n.backOff peerIdx ae
  else .ok (n.backOff peerIdx ae)

/-- The conflict loop, from position `idx` on. -/
def resolveConflicts (n : Node) (idx : UInt64) : List LogEntry → Result Node
  | [] => .ok n
  | e :: es => do
    let n ←
      if idx ≤ n.store.logLength then do
        let t ← n.store.getTermAt idx
        if t ≠ e.term then
          let store ← n.store.truncate (idx - 1)
          pure { n with store }
        else pure n
      else pure n
    resolveConflicts n (idx + 1) es

/-- The append loop. -/
def appendNew (n : Node) : List LogEntry → Node
  | [] => n
  | e :: es =>
    let n := if e.index > n.store.logLength then { n with store := n.store.append e } else n
    appendNew n es

/-- The log matching check. -/
def prevMatches (s : Storage) (rpc : AppendEntries) : Result Bool :=
  if rpc.prevLogIndex > 0 then
    if rpc.prevLogIndex > s.logLength then .ok false
    else do
      let t ← s.getTermAt rpc.prevLogIndex
      return t = rpc.prevLogTerm
  else .ok true

/-- Entering `handleAppendEntries` with a term that is not stale. -/
def followLeader (n : Node) (rpc : AppendEntries) : Node :=
  let n :=
    if rpc.term > n.store.term then { n with store := (n.store.setTerm rpc.term).setVoted [] } else n
  let n := if rpc.term = n.store.term then { n with state := .follower } else n
  { n with currentLeaderId := toInt rpc.leaderId }

def followCommit (n : Node) (leaderCommit : UInt64) : Node :=
  if leaderCommit > n.store.commitIndex then
    { n with store := n.store.setCommit (min leaderCommit n.store.logLength) }
  else n

def handleAppendEntries (n : Node) (rpc : AppendEntries) : Result (Node × AppendEntriesResponse) :=
  let resp : AppendEntriesResponse := { term := n.store.term, success := false }
  if rpc.term < n.store.term then .ok (n, resp)
  else do
    let n := n.followLeader rpc
    let resp := { resp with term := rpc.term }
    if ← prevMatches n.store rpc then
      let n ← n.resolveConflicts (rpc.prevLogIndex + 1) rpc.entries
      let n := n.appendNew rpc.entries
      let n ← (n.followCommit rpc.leaderCommit).applyCommitted
      return (n, { resp with success := true })
    else return (n, resp)

/-- The two calls of `handleRaft`. -/
def raftHandlers : RaftHandlers Node where
  handleRequestVote n rpc := some (.ok (n.handleRequestVote rpc).swap)
  handleAppendEntries n rpc := some ((n.handleAppendEntries rpc).map Prod.swap)

/-! ## Client calls -/

def requestable (size : Nat) (connected : Nat → Bool) : Bool :=
  decide (((List.range size).filter connected).length ≥ (size + 1) / 2)

/-- The append of `submit` and `get`, and the index that they wait for. -/
def appendOwn (n : Node) (cmd : Command) : Node × UInt64 :=
  let idx := n.store.logLen + 1
  ({ n with store := n.store.append (.ofCommand n.store.term idx cmd) }, idx)

def submit (n : Node) (size : Nat) (connected : Nat → Bool) (cmd : Command) :
    Except Refusal (Node × UInt64) :=
  if n.state ≠ .leader then .error .notLeader
  else if ¬ requestable size connected then .error .notEnoughPeers
  else .ok (n.appendOwn cmd)

def get (n : Node) : Except Refusal (Node × UInt64) :=
  if n.state ≠ .leader then .error .notLeader
  else .ok (n.appendOwn { oper := .noop })

def getResult (n : Node) (key : Bytes) : Except Refusal Bytes :=
  if n.state ≠ .leader then .error .notLeader
  else .ok (n.sm.get key)

def getLeaderId (n : Node) : Int := n.currentLeaderId

def getStatus (n : Node) : Bytes :=
  ofString ("node_id: " ++ toString n.nodeId ++ "\n") ++
    ofString ("state: " ++ (match n.state with
      | .leader => "LEADER" | .candidate => "CANDIDATE" | .follower => "FOLLOWER") ++ "\n") ++
    ofString ("term: " ++ toString n.store.term.toNat ++ "\n") ++
    ofString ("log length: " ++ toString n.store.logLen.toNat ++ "\n") ++
    ofString ("commitIndex: " ++ toString n.store.commitIndex.toNat ++ "\n")

end Node

end RaftKv.Wire
