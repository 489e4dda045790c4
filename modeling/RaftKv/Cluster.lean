-- SUMMARY: A cluster of nodes: threads, calls in flight, and the step function whose runs the properties are about.
import RaftKv.RaftNode
import Mathlib.Data.Fintype.Card

/-!
# The cluster

Every node runs one background thread and any number of client calls, and the
threads talk through `Peer::sendRPC`. A call is a record that is never removed:
it is delivered at most once, at any later moment or never, and its caller either
reads the reply or gives up. So loss, delay and reordering of requests and replies
are the choice of which step comes next.
-/

namespace RaftKv

/-- Who the nodes are: each node's `peers` vector lists exactly the others. -/
structure Config (ι : Type) where
  peers : ι → List ι
  nodup : ∀ i, (peers i).Nodup
  mem_peers : ∀ i j, j ∈ peers i ↔ j ≠ i

/-! ## Threads and calls -/

/-- A `for` loop over the peers: those not served yet, and the call in progress to
the first of them. -/
structure SendLoop (ι : Type) where
  todo : List ι
  waiting : Option Nat

/-- The vote loop of `startElection`, with its request and its count so far. -/
structure Election (ι : Type) where
  rpc : RequestVote ι
  votes : Nat
  loop : SendLoop ι

/-- What the background thread of a node is doing. -/
inductive Background (ι : Type) where
  | idle
  | election (e : Election ι)
  /-- The send loop of `becomeLeader`, which runs with the mutex held. -/
  | leading (loop : SendLoop ι)
  /-- The heartbeat loop of `backgroundLoop`. -/
  | heartbeat (loop : SendLoop ι)

inductive ClientOp where
  | submit (cmd : Command)
  | get (key : Bytes)
  deriving DecidableEq

inductive Outcome where
  | running
  /-- `submit` returned; the client is told `OK`. -/
  | ok
  /-- `get` returned a value. -/
  | value (v : Bytes)
  | refused (r : Refusal)
  /-- The node crashed during the call. -/
  | crashed
  deriving DecidableEq

/-- A `submit` or `get` call that has appended its entry. -/
structure ClientCall (ι : Type) where
  node : ι
  op : ClientOp
  entry : LogEntry
  loop : SendLoop ι
  outcome : Outcome

structure VoteCall (ι : Type) where
  src : ι
  dst : ι
  rpc : RequestVote ι
  reply : Option RequestVoteResponse

/-- `sender` is a history variable: the caller's state when it built `rpc`. -/
structure AppendCall (ι : Type) where
  src : ι
  dst : ι
  rpc : AppendEntries ι
  reply : Option AppendEntriesResponse
  sender : RaftNode ι

structure Cluster (ι : Type) where
  nodes : ι → RaftNode ι
  background : ι → Background ι
  clients : List (ClientCall ι)
  voteCalls : List (VoteCall ι)
  appendCalls : List (AppendCall ι)

def Background.sendLoop {ι : Type} : Background ι → Option (SendLoop ι)
  | .leading l => some l
  | .heartbeat l => some l
  | _ => none

def ClientCall.sendLoop {ι : Type} (call : ClientCall ι) : Option (ι × SendLoop ι) :=
  if call.outcome = .running then some (call.node, call.loop) else none

/-- A thread that runs `sendAppendEntries` over the peers. -/
inductive Thread (ι : Type) where
  | background (i : ι)
  | client (k : Nat)
  deriving DecidableEq

/-- One atomic step of the running cluster. -/
inductive Move (ι : Type) where
  | timeout (i : ι)
  | sendVote (i : ι)
  | deliverVote (k : Nat)
  | voteReply (i : ι)
  | voteLost (i : ι)
  | endElection (i : ι)
  | heartbeat (i : ι)
  | send (t : Thread ι)
  | deliverAppend (k : Nat)
  | appendReply (t : Thread ι) (connected : ι → Bool)
  | appendLost (t : Thread ι)
  | endLoop (i : ι)
  | submit (i : ι) (cmd : Command) (connected : ι → Bool)
  | get (i : ι) (key : Bytes)
  | finish (k : Nat)

/-- Where a crash cuts the events of a step. -/
inductive Cut where
  /-- Behind the first `j`. -/
  | after (j : Nat)
  /-- Inside the `truncate` that comes behind the first `j`: the file has been emptied, and the
  first `kept` of the records to keep are written again. -/
  | truncating (j kept : Nat)
  deriving DecidableEq

inductive Action (ι : Type) where
  | move (m : Move ι)
  /-- Node `i` crashes between two steps and restarts. -/
  | crash (i : ι)
  /-- Node `i` crashes inside `m` and restarts. -/
  | crashIn (m : Move ι) (i : ι) (cut : Cut)

namespace Cluster

variable {ι : Type}

/-- Every node starts in an empty directory. -/
def init : Cluster ι where
  nodes := fun _ => .start ⟨0, none, []⟩ []
  background := fun _ => .idle
  clients := []
  voteCalls := []
  appendCalls := []

/-- The mutex of node `i` is held between steps: only by `becomeLeader`. -/
def locked (c : Cluster ι) (i : ι) : Bool :=
  match c.background i with
  | .leading _ => true
  | _ => false

/-- The node and the state of the send loop that thread `t` runs. -/
def sendLoop (c : Cluster ι) : Thread ι → Option (ι × SendLoop ι)
  | .background i => (c.background i).sendLoop.map fun l => (i, l)
  | .client k => c.clients[k]?.bind (·.sendLoop)

variable [DecidableEq ι]

def setNode (c : Cluster ι) (i : ι) (n : RaftNode ι) : Cluster ι :=
  { c with nodes := Function.update c.nodes i n }

def setBackground (c : Cluster ι) (i : ι) (b : Background ι) : Cluster ι :=
  { c with background := Function.update c.background i b }

def setClient (c : Cluster ι) (k : Nat) (call : ClientCall ι) : Cluster ι :=
  { c with clients := c.clients.set k call }

def setSendLoop (c : Cluster ι) (t : Thread ι) (l : SendLoop ι) : Cluster ι :=
  match t with
  | .background i =>
    match c.background i with
    | .leading _ => c.setBackground i (.leading l)
    | .heartbeat _ => c.setBackground i (.heartbeat l)
    | _ => c
  | .client k =>
    match c.clients[k]? with
    | some call => c.setClient k { call with loop := l }
    | none => c

/-! ## The step function -/

variable (cfg : Config ι)

def move (c : Cluster ι) : Move ι → Option (Cluster ι)
  | .timeout i =>
    match c.background i with
    | .idle =>
      if (c.nodes i).state ≠ .leader then
        let (n, rpc) := (c.nodes i).startElection i
        some ((c.setNode i n).setBackground i (.election ⟨rpc, 1, cfg.peers i, none⟩))
      else none
    | _ => none
  | .sendVote i =>
    match c.background i with
    | .election ⟨rpc, votes, p :: todo, none⟩ =>
      let call : VoteCall ι := ⟨i, p, rpc, none⟩
      some ({ c with voteCalls := c.voteCalls ++ [call] }.setBackground i
        (.election ⟨rpc, votes, p :: todo, some c.voteCalls.length⟩))
    | _ => none
  | .deliverVote k =>
    match c.voteCalls[k]? with
    | some call =>
      if call.reply = none ∧ ¬ c.locked call.dst then
        let (n, resp) := (c.nodes call.dst).handleRequestVote call.rpc
        some { c.setNode call.dst n with
          voteCalls := c.voteCalls.set k { call with reply := some resp } }
      else none
    | none => none
  | .voteReply i =>
    match c.background i with
    | .election ⟨rpc, votes, _ :: todo, some k⟩ =>
      match (c.voteCalls[k]?).bind (·.reply) with
      | some resp =>
        match (c.nodes i).voteReply votes resp with
        | (n, some votes) =>
          some ((c.setNode i n).setBackground i (.election ⟨rpc, votes, todo, none⟩))
        | (n, none) => some ((c.setNode i n).setBackground i .idle)
      | none => none
    | _ => none
  | .voteLost i =>
    match c.background i with
    | .election ⟨rpc, votes, _ :: todo, some _⟩ =>
      some (c.setBackground i (.election ⟨rpc, votes, todo, none⟩))
    | _ => none
  | .endElection i =>
    match c.background i with
    | .election ⟨_, votes, [], none⟩ =>
      if votes ≥ RaftNode.majority (cfg.peers i) ∧ (c.nodes i).state = .candidate then
        some ((c.setNode i ((c.nodes i).becomeLeader i)).setBackground i
          (.leading ⟨cfg.peers i, none⟩))
      else some (c.setBackground i .idle)
    | _ => none
  | .heartbeat i =>
    match c.background i with
    | .idle =>
      if (c.nodes i).state = .leader then
        some (c.setBackground i (.heartbeat ⟨cfg.peers i, none⟩))
      else none
    | _ => none
  | .send t =>
    match c.sendLoop t with
    | some (i, ⟨p :: todo, none⟩) =>
      let n := c.nodes i
      let call : AppendCall ι := ⟨i, p, n.buildAppendEntries i p, none, n⟩
      some ({ c with appendCalls := c.appendCalls ++ [call] }.setSendLoop t
        ⟨p :: todo, some c.appendCalls.length⟩)
    | _ => none
  | .deliverAppend k =>
    match c.appendCalls[k]? with
    | some call =>
      if call.reply = none ∧ ¬ c.locked call.dst then
        let (n, resp) := (c.nodes call.dst).handleAppendEntries call.rpc
        some { c.setNode call.dst n with
          appendCalls := c.appendCalls.set k { call with reply := some resp } }
      else none
    | none => none
  | .appendReply t connected =>
    match c.sendLoop t with
    | some (i, ⟨p :: todo, some k⟩) =>
      match c.appendCalls[k]? with
      | some call =>
        match call.reply with
        | some resp =>
          let n := (c.nodes i).appendReply (cfg.peers i) connected p call.rpc resp
          some ((c.setNode i n).setSendLoop t ⟨todo, none⟩)
        | none => none
      | none => none
    | _ => none
  | .appendLost t =>
    match c.sendLoop t with
    | some (i, ⟨p :: todo, some k⟩) =>
      match c.appendCalls[k]? with
      | some call =>
        let n := (c.nodes i).appendLost p call.rpc
        some ((c.setNode i n).setSendLoop t ⟨todo, none⟩)
      | none => none
    | _ => none
  | .endLoop i =>
    match c.background i with
    | .leading ⟨[], none⟩ => some (c.setBackground i .idle)
    | .heartbeat ⟨[], none⟩ => some (c.setBackground i .idle)
    | _ => none
  | .submit i cmd connected =>
    if c.locked i then none
    else match (c.nodes i).submit (cfg.peers i) connected cmd with
    | .ok (n, entry) =>
      let call : ClientCall ι := ⟨i, .submit cmd, entry, ⟨cfg.peers i, none⟩, .running⟩
      some { c.setNode i n with clients := c.clients ++ [call] }
    | .error _ => none
  | .get i key =>
    if c.locked i then none
    else match (c.nodes i).get with
    | .ok (n, entry) =>
      let call : ClientCall ι := ⟨i, .get key, entry, ⟨cfg.peers i, none⟩, .running⟩
      some { c.setNode i n with clients := c.clients ++ [call] }
    | .error _ => none
  | .finish k =>
    match c.clients[k]? with
    | some ⟨i, op, entry, ⟨[], none⟩, .running⟩ =>
      let n := c.nodes i
      if c.locked i ∨ n.store.commitIndex < entry.index then none
      else match op with
      | .submit _ =>
        some ((c.setNode i n.applyCommitted).setClient k
          ⟨i, op, entry, ⟨[], none⟩, .ok⟩)
      | .get key =>
        let outcome := match n.getResult key with
          | .ok v => Outcome.value v
          | .error r => .refused r
        some (c.setClient k ⟨i, op, entry, ⟨[], none⟩, outcome⟩)
    | _ => none

/-! ## Crashes -/

/-- Node `i` comes back over the disk `d`: its threads are gone, and so is
everything it kept in memory. -/
def restart (c : Cluster ι) (i : ι) (d : Disk ι) (trace : List (Event ι)) : Cluster ι :=
  { c with
    nodes := Function.update c.nodes i (.start d trace)
    background := Function.update c.background i .idle
    clients := c.clients.map fun call =>
      if call.node = i ∧ call.outcome = .running then { call with outcome := .crashed }
      else call }

/-- The disk after the events of `trace`, which started over `d`. -/
def diskAfter (d : Disk ι) : List (Event ι) → Disk ι
  | [] => d
  | .wrote d' :: es => diskAfter d' es
  | _ :: es => diskAfter d es

/-- The events that the crash leaves complete. -/
def cutEvents (events : List (Event ι)) : Cut → List (Event ι)
  | .after j => events.take j
  | .truncating j _ => events.take j

/-- The disk that the crash leaves. Only `truncate` writes a shorter log, and it leaves term and
vote as they are. A record that is on the file in part is not among the cuts: the constructor reads
past the end of such a file (`RaftKv/Wire/Recovery.lean`), and no node comes back over it. -/
def cutDisk (d : Disk ι) (events : List (Event ι)) : Cut → Option (Disk ι)
  | .after j => some (diskAfter d (events.take j))
  | .truncating j kept =>
    match events[j]? with
    | some (.wrote d') =>
      if d'.log.length < (diskAfter d (events.take j)).log.length then
        some { d' with log := d'.log.take kept }
      else none
    | _ => none

/-- The events that node `i` adds from `c` to `c'`. -/
def newEvents (c c' : Cluster ι) (i : ι) : List (Event ι) :=
  (c'.nodes i).trace.drop (c.nodes i).trace.length

def step (c : Cluster ι) : Action ι → Option (Cluster ι)
  | .move m => c.move cfg m
  | .crash i => some (c.restart i (c.nodes i).store.disk (c.nodes i).trace)
  | .crashIn m i cut =>
    (c.move cfg m).bind fun c' =>
      (cutDisk (c.nodes i).store.disk (c.newEvents c' i) cut).map fun d =>
        c.restart i d ((c.nodes i).trace ++ cutEvents (c.newEvents c' i) cut)

end Cluster

end RaftKv
