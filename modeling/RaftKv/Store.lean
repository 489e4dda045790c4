-- SUMMARY: The persistent store as RaftNode sees it: term, vote, log, the cached fields, and the two volatile indices.
import RaftKv.Command

/-!
# The store

`Storage.h` through its interface: the file `raft.log` is the list of records it
parses to, and `raft.meta` is the pair of term and vote. The cached fields
`log_length` and `last_log_term` are kept as the source keeps them, because
`append` takes them from the entry and not from the file. The byte-level store is
in `RaftKv/Wire/Storage.lean`.

Terms, indices and counts are natural numbers: each grows by one per election or
append, so the 64-bit fields of the source do not wrap.
-/

namespace RaftKv

/-- A log record. The CRC of `LogEntry.h` guards the bytes only and is left to the
byte-level store. -/
structure LogEntry where
  term : Nat
  index : Nat
  command : Command
  deriving DecidableEq, Repr

/-- What the two files hold: the part of the store that survives a crash. -/
structure Disk (ι : Type) where
  term : Nat
  voted : Option ι
  log : List LogEntry
  deriving DecidableEq, Repr

/-- `class Storage`. The empty string `voted = ""` is `none`. -/
structure Store (ι : Type) where
  term : Nat
  lastLogTerm : Nat
  voted : Option ι
  logLength : Nat
  log : List LogEntry
  commitIndex : Nat
  lastApplied : Nat

namespace Store

variable {ι : Type}

def disk (s : Store ι) : Disk ι := ⟨s.term, s.voted, s.log⟩

/-- The constructor `Storage()`: reload `raft.meta` and rebuild the cached fields
from the last record of `raft.log`. -/
def reopen (d : Disk ι) : Store ι where
  term := d.term
  voted := d.voted
  log := d.log
  logLength := (d.log.getLast?.map (·.index)).getD 0
  lastLogTerm := (d.log.getLast?.map (·.term)).getD 0
  commitIndex := 0
  lastApplied := 0

def setTerm (s : Store ι) (t : Nat) : Store ι := { s with term := t }

def setVoted (s : Store ι) (v : Option ι) : Store ι := { s with voted := v }

def setCommit (s : Store ι) (c : Nat) : Store ι := { s with commitIndex := c }

def setApplied (s : Store ι) (a : Nat) : Store ι := { s with lastApplied := a }

/-- `append` trusts `entry.index`: it becomes the cached length whatever the file
holds. -/
def append (s : Store ι) (entry : LogEntry) : Store ι :=
  { s with
    log := s.log ++ [entry]
    logLength := entry.index
    lastLogTerm := entry.term }

/-- The term at position `index`, and 0 outside the log. -/
def getTermAt (s : Store ι) (index : Nat) : Nat :=
  if index = 0 ∨ index > s.logLength then 0
  else if index ≤ s.log.length then (s.log[index - 1]?.map (·.term)).getD 0
  else 0

def truncate (s : Store ι) (keepUpToIndex : Nat) : Store ι :=
  if keepUpToIndex ≥ s.logLength then s
  else if keepUpToIndex ≥ s.log.length then s
  else
    let entries := s.log.take keepUpToIndex
    { s with
      log := entries
      logLength := keepUpToIndex
      lastLogTerm := if keepUpToIndex = 0 then 0 else (entries.getLast?.map (·.term)).getD 0 }

def readFrom (s : Store ι) (startIndex : Nat) : List LogEntry :=
  if startIndex < 1 ∨ startIndex > s.logLength then []
  else if startIndex > s.log.length then []
  else s.log.drop (startIndex - 1)

def readRange (s : Store ι) (start stop : Nat) : List LogEntry :=
  if start < 1 ∨ stop < start ∨ stop > s.logLength then []
  else if stop > s.log.length then []
  else (s.log.take stop).drop (start - 1)

end Store

end RaftKv
