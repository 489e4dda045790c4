-- SUMMARY: The atomic sections of RaftNode: elections, the two RPC handlers, building and answering AppendEntries, the commit rule, client calls, restart.
import RaftKv.RPC
import Mathlib.Logic.Function.Basic

/-!
# One node

`RaftNode.h`, one definition per section of the source that runs without another
thread of the same node in between. `sendAppendEntries` blocks inside
`Peer::sendRPC`, so it is cut there: `buildAppendEntries` before the call,
`appendReply` or `appendLost` after it. The clock is not modelled: a timeout may
fire whenever its guard allows it.

`trace` is a history variable. It records, in program order and over all
incarnations of the node, every completed persistent write and the points the
properties speak about. No function reads it.
-/

namespace RaftKv

inductive NodeState where
  | follower
  | candidate
  | leader
  deriving DecidableEq, Repr

inductive Event (ι : Type) where
  /-- A persistent operation completed and left this on disk. -/
  | wrote (disk : Disk ι)
  /-- `startElection` voted for itself in `term`. -/
  | candidate (term : Nat)
  /-- `becomeLeader` set `LEADER` in `term`, holding `log`. -/
  | elected (term : Nat) (log : List LogEntry)
  /-- `advanceCommitIndex` raised the commit index in `term` to cover `log`. -/
  | committed (term : Nat) (log : List LogEntry)
  /-- `StateMachine::apply` was called for `entry` at `index`. -/
  | applied (index : Nat) (entry : LogEntry)
  deriving DecidableEq, Repr

structure RaftNode (ι : Type) where
  store : Store ι
  sm : StateMachine
  state : NodeState
  /-- `none` is the 0 of the source: unknown. -/
  currentLeaderId : Option ι
  nextIndex : ι → Nat
  matchIndex : ι → Nat
  trace : List (Event ι)

/-- Why `submit` and `get` throw. -/
inductive Refusal where
  | notLeader
  | notEnoughPeers
  deriving DecidableEq, Repr

namespace RaftNode

variable {ι : Type}

/-- Replace the store by the result of a persistent operation. -/
def persist (n : RaftNode ι) (s : Store ι) : RaftNode ι :=
  { n with store := s, trace := n.trace ++ [.wrote s.disk] }

def emit (n : RaftNode ι) (e : Event ι) : RaftNode ι :=
  { n with trace := n.trace ++ [e] }

/-! ## Applying entries -/

/-- The loop `for (auto& e : entries) sm.apply(e.getCommand())`, the first entry
being at position `start`. -/
def applyEntries (n : RaftNode ι) (start : Nat) (entries : List LogEntry) : RaftNode ι :=
  { n with
    sm := n.sm.applyAll (entries.map (·.command))
    trace := n.trace ++ entries.mapIdx fun k e => .applied (start + k) e }

/-- The whole log is applied, and taken as committed. -/
def replay (n : RaftNode ι) : RaftNode ι :=
  let entries := n.store.log
  let n := n.applyEntries 1 entries
  match entries.getLast? with
  | none => n
  | some e => { n with store := (n.store.setApplied e.index).setCommit e.index }

/-- The constructor, over what the disk holds. The vectors `nextIndex` and
`matchIndex` are empty until `becomeLeader` assigns them and are not read before. -/
def start (d : Disk ι) (trace : List (Event ι)) : RaftNode ι :=
  replay
    { store := .reopen d
      sm := .empty
      state := .follower
      currentLeaderId := none
      nextIndex := fun _ => 0
      matchIndex := fun _ => 0
      trace := trace }

def applyCommitted (n : RaftNode ι) : RaftNode ι :=
  let lastApplied := n.store.lastApplied
  let commit := n.store.commitIndex
  if commit > lastApplied then
    let entries := n.store.readRange (lastApplied + 1) commit
    let n := n.applyEntries (lastApplied + 1) entries
    { n with store := n.store.setApplied commit }
  else n

/-! ## The commit rule -/

/-- `(peers.size() + 1) / 2 + 1`. -/
def majority (peers : List ι) : Nat := (peers.length + 1) / 2 + 1

/-- The node itself and the connected peers whose `matchIndex` has reached `idx`. -/
def replicaCount (n : RaftNode ι) (peers : List ι) (connected : ι → Bool) (idx : Nat) : Nat :=
  1 + (peers.filter fun j => connected j && decide (n.matchIndex j ≥ idx)).length

/-- The loop of `advanceCommitIndex` over the indices above the commit index: other
terms are skipped, the first index of the current term without a majority ends it. -/
def scanCommit (n : RaftNode ι) (peers : List ι) (connected : ι → Bool) :
    List Nat → Nat → Nat
  | [], newCommit => newCommit
  | idx :: rest, newCommit =>
    if n.store.getTermAt idx ≠ n.store.term then scanCommit n peers connected rest newCommit
    else if n.replicaCount peers connected idx ≥ majority peers then
      scanCommit n peers connected rest idx
    else newCommit

def advanceCommitIndex (n : RaftNode ι) (peers : List ι) (connected : ι → Bool) : RaftNode ι :=
  let commit := n.store.commitIndex
  let newCommit :=
    n.scanCommit peers connected (List.range' (commit + 1) (n.store.logLength - commit)) commit
  if newCommit > commit then
    let n := { n with store := n.store.setCommit newCommit }
    (n.emit (.committed n.store.term (n.store.log.take newCommit))).applyCommitted
  else n

/-! ## Elections -/

section Elections

/-- The locked first part of `startElection`, up to the request it sends. -/
def startElection (self : ι) (n : RaftNode ι) : RaftNode ι × RequestVote ι :=
  let n := { n with currentLeaderId := none, state := .candidate }
  let n := n.persist (n.store.setTerm (n.store.term + 1))
  let n := n.persist (n.store.setVoted (some self))
  let n := n.emit (.candidate n.store.term)
  (n, { term := n.store.term
        candidateId := self
        lastLogIndex := n.store.logLength
        lastLogTerm := n.store.lastLogTerm })

/-- One reply in the vote loop: the new count, or `none` when the node stepped down
and `startElection` returned. -/
def voteReply (n : RaftNode ι) (votes : Nat) (resp : RequestVoteResponse) :
    RaftNode ι × Option Nat :=
  if resp.term > n.store.term then
    let n := n.persist (n.store.setTerm resp.term)
    let n := { n with state := .follower }
    let n := n.persist (n.store.setVoted none)
    ({ n with currentLeaderId := none }, none)
  else if resp.voteGranted then (n, some (votes + 1))
  else (n, some votes)

/-- `becomeLeader` up to its send loop. -/
def becomeLeader (self : ι) (n : RaftNode ι) : RaftNode ι :=
  if n.state ≠ .candidate then n
  else
    let last := n.store.logLength
    let n := { n with
      state := .leader
      currentLeaderId := some self
      nextIndex := fun _ => last + 1
      matchIndex := fun _ => 0 }
    let n := n.emit (.elected n.store.term n.store.log)
    let newIdx := n.store.logLength + 1
    n.persist (n.store.append ⟨n.store.term, newIdx, { oper := .noop }⟩)

variable [DecidableEq ι]

def handleRequestVote (n : RaftNode ι) (rpc : RequestVote ι) :
    RaftNode ι × RequestVoteResponse :=
  let resp : RequestVoteResponse := { term := n.store.term, voteGranted := false }
  if rpc.term < n.store.term then (n, resp)
  else
    let (n, resp) :=
      if rpc.term > n.store.term then
        let n := n.persist (n.store.setTerm rpc.term)
        let n := { n with state := .follower }
        let n := n.persist (n.store.setVoted none)
        ({ n with currentLeaderId := none }, { resp with term := rpc.term })
      else (n, resp)
    let votedFor := n.store.voted
    let logOk := rpc.lastLogTerm > n.store.lastLogTerm ∨
      (rpc.lastLogTerm = n.store.lastLogTerm ∧ rpc.lastLogIndex ≥ n.store.logLength)
    if (votedFor = none ∨ votedFor = some rpc.candidateId) ∧ logOk then
      (n.persist (n.store.setVoted (some rpc.candidateId)), { resp with voteGranted := true })
    else (n, resp)

end Elections

/-! ## Replication -/

section Replication

variable [DecidableEq ι]

/-- `sendAppendEntries` up to the call: term, commit index and log are read afresh. -/
def buildAppendEntries (self : ι) (n : RaftNode ι) (peer : ι) : AppendEntries ι :=
  let prevLogIndex := n.nextIndex peer - 1
  { term := n.store.term
    leaderId := self
    leaderCommit := n.store.commitIndex
    prevLogIndex := prevLogIndex
    prevLogTerm := if prevLogIndex = 0 then 0 else n.store.getTermAt prevLogIndex
    entries :=
      if n.nextIndex peer ≤ n.store.logLength then n.store.readFrom (n.nextIndex peer) else [] }

/-- `if (!ae.entries.empty() && nextIndex[peer_idx] > 1) nextIndex[peer_idx]--`. -/
def backOff (n : RaftNode ι) (peer : ι) (ae : AppendEntries ι) : RaftNode ι :=
  if ¬ ae.entries.isEmpty ∧ n.nextIndex peer > 1 then
    { n with nextIndex := Function.update n.nextIndex peer (n.nextIndex peer - 1) }
  else n

/-- The branch for a successful batch: `matchIndex`, `nextIndex`, commit index. -/
def acknowledge (n : RaftNode ι) (peers : List ι) (connected : ι → Bool) (peer : ι)
    (ae : AppendEntries ι) : RaftNode ι :=
  let lastSent := ae.prevLogIndex + ae.entries.length
  let n := { n with
    matchIndex := Function.update n.matchIndex peer (max (n.matchIndex peer) lastSent) }
  let n := { n with
    nextIndex := Function.update n.nextIndex peer (n.matchIndex peer + 1) }
  n.advanceCommitIndex peers connected

/-- The rest of `sendAppendEntries` after a reply to `ae`. Neither the term nor the
role under which `ae` was built is looked at again. -/
def appendReply (n : RaftNode ι) (peers : List ι) (connected : ι → Bool) (peer : ι)
    (ae : AppendEntries ι) (resp : AppendEntriesResponse) : RaftNode ι :=
  if resp.term > n.store.term then
    let n := n.persist (n.store.setTerm resp.term)
    let n := { n with state := .follower }
    n.persist (n.store.setVoted none)
  else if resp.success ∧ ¬ ae.entries.isEmpty then n.acknowledge peers connected peer ae
  else n.backOff peer ae

/-- The rest of `sendAppendEntries` when `sendRPC` returned nothing. -/
def appendLost (n : RaftNode ι) (peer : ι) (ae : AppendEntries ι) : RaftNode ι :=
  let n := { n with matchIndex := Function.update n.matchIndex peer 0 }
  n.backOff peer ae

/-- The conflict loop, from position `idx` on: `truncate` where the terms differ. -/
def resolveConflicts (n : RaftNode ι) (idx : Nat) : List LogEntry → RaftNode ι
  | [] => n
  | e :: es =>
    let n :=
      if idx ≤ n.store.logLength ∧ n.store.getTermAt idx ≠ e.term then
        n.persist (n.store.truncate (idx - 1))
      else n
    resolveConflicts n (idx + 1) es

/-- The append loop: an entry is written when its own index lies past the log. -/
def appendNew (n : RaftNode ι) : List LogEntry → RaftNode ι
  | [] => n
  | e :: es =>
    let n := if e.index > n.store.logLength then n.persist (n.store.append e) else n
    appendNew n es

/-- The log matching check. -/
def prevMatches (s : Store ι) (rpc : AppendEntries ι) : Bool :=
  if rpc.prevLogIndex > 0 then
    decide (rpc.prevLogIndex ≤ s.logLength) &&
      decide (s.getTermAt rpc.prevLogIndex = rpc.prevLogTerm)
  else true

/-- Entering `handleAppendEntries` with a term that is not stale: term, role, hint. -/
def followLeader (n : RaftNode ι) (rpc : AppendEntries ι) : RaftNode ι :=
  let n :=
    if rpc.term > n.store.term then
      let n := n.persist (n.store.setTerm rpc.term)
      n.persist (n.store.setVoted none)
    else n
  let n := if rpc.term = n.store.term then { n with state := .follower } else n
  { n with currentLeaderId := some rpc.leaderId }

/-- The follower's commit update. -/
def followCommit (n : RaftNode ι) (leaderCommit : Nat) : RaftNode ι :=
  if leaderCommit > n.store.commitIndex then
    { n with store := n.store.setCommit (min leaderCommit n.store.logLength) }
  else n

def handleAppendEntries (n : RaftNode ι) (rpc : AppendEntries ι) :
    RaftNode ι × AppendEntriesResponse :=
  let resp : AppendEntriesResponse := { term := n.store.term, success := false }
  if rpc.term < n.store.term then (n, resp)
  else
    let n := n.followLeader rpc
    let resp := { resp with term := rpc.term }
    if prevMatches n.store rpc then
      let n := n.resolveConflicts (rpc.prevLogIndex + 1) rpc.entries
      let n := n.appendNew rpc.entries
      let n := (n.followCommit rpc.leaderCommit).applyCommitted
      (n, { resp with success := true })
    else (n, resp)

end Replication

/-! ## Client calls -/

/-- The append of `submit` and `get`: an entry of the current term at the end. -/
def appendOwn (n : RaftNode ι) (cmd : Command) : RaftNode ι × LogEntry :=
  let entry : LogEntry := ⟨n.store.term, n.store.logLength + 1, cmd⟩
  (n.persist (n.store.append entry), entry)

def requestable (peers : List ι) (connected : ι → Bool) : Bool :=
  decide ((peers.filter connected).length ≥ (peers.length + 1) / 2)

/-- The locked first part of `submit`. -/
def submit (n : RaftNode ι) (peers : List ι) (connected : ι → Bool) (cmd : Command) :
    Except Refusal (RaftNode ι × LogEntry) :=
  if n.state ≠ .leader then .error .notLeader
  else if ¬ requestable peers connected then .error .notEnoughPeers
  else .ok (n.appendOwn cmd)

/-- The locked first part of `get`. -/
def get (n : RaftNode ι) : Except Refusal (RaftNode ι × LogEntry) :=
  if n.state ≠ .leader then .error .notLeader
  else .ok (n.appendOwn { oper := .noop })

/-- The end of `get`, once the commit index has reached its entry. -/
def getResult (n : RaftNode ι) (key : Bytes) : Except Refusal Bytes :=
  if n.state ≠ .leader then .error .notLeader
  else .ok (n.sm.get key)

end RaftNode

end RaftKv
