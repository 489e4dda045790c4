-- SUMMARY: The four messages of the protocol.
import RaftKv.Store

/-!
# Messages

The structures of `RPC.h`, over an arbitrary type `ι` of node names. Their wire
format is in `RaftKv/Wire/RPC.lean`.
-/

namespace RaftKv

variable (ι : Type)

structure AppendEntries where
  term : Nat
  leaderId : ι
  prevLogIndex : Nat
  prevLogTerm : Nat
  leaderCommit : Nat
  entries : List LogEntry
  deriving DecidableEq, Repr

structure AppendEntriesResponse where
  term : Nat
  success : Bool
  deriving DecidableEq, Repr

structure RequestVote where
  term : Nat
  candidateId : ι
  lastLogIndex : Nat
  lastLogTerm : Nat
  deriving DecidableEq, Repr

structure RequestVoteResponse where
  term : Nat
  voteGranted : Bool
  deriving DecidableEq, Repr

end RaftKv
