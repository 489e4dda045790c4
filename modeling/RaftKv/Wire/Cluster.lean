-- SUMMARY: The cluster on words, files and bytes: the threads and calls of the protocol model over byte-level nodes.
import RaftKv.Cluster
import RaftKv.Lib.TransitionSystem
import RaftKv.Wire.Words
import RaftKv.Wire.Node

/-!
# The cluster in bytes

The threads of `RaftKv/Cluster.lean` once more, with nodes on words and files, loops over positions
of the vector `peers`, and calls that carry bytes: the node at the other end reads a request with
its `deserialize` and answers with bytes, which the caller reads in turn. A call that fails returns
no bytes.

A request is taken in one read, which returns at most `readSize` bytes of it; what a longer one
leaves for the next reads is not followed any further. A step whose section ends in a fault has no
next state: the process is gone.
-/

namespace RaftKv.Wire

open NodeIds

/-! ## Threads and calls -/

structure WireElection where
  rpc : RequestVote
  votes : Nat
  loop : SendLoop Nat

inductive WireBackground where
  | idle
  | election (e : WireElection)
  | leading (loop : SendLoop Nat)
  | heartbeat (loop : SendLoop Nat)

structure WireClient (ι : Type) where
  node : ι
  op : ClientOp
  /-- The index that the call waits for. -/
  idx : UInt64
  loop : SendLoop Nat
  outcome : Outcome

/-- `request` is the message as the caller holds it; what is sent are its bytes. -/
structure WireCall (ι μ : Type) where
  src : ι
  dst : ι
  request : μ
  reply : Option Bytes

structure WireCluster (ι : Type) where
  nodes : ι → Node
  background : ι → WireBackground
  clients : List (WireClient ι)
  voteCalls : List (WireCall ι RequestVote)
  appendCalls : List (WireCall ι AppendEntries)

def WireBackground.sendLoop : WireBackground → Option (SendLoop Nat)
  | .leading l => some l
  | .heartbeat l => some l
  | _ => none

def WireClient.sendLoop {ι : Type} (call : WireClient ι) : Option (ι × SendLoop Nat) :=
  if call.outcome = .running then some (call.node, call.loop) else none

inductive WireAction (ι : Type) where
  | move (m : Move ι)
  /-- Node `i` crashes between two sections and restarts on its files. -/
  | crash (i : ι)

/-- The step of the protocol model. -/
def WireAction.model {ι : Type} : WireAction ι → Action ι
  | .move m => .move m
  | .crash i => .crash i

namespace WireCluster

variable {ι : Type}

def init [NodeIds ι] : WireCluster ι where
  nodes i := .fresh (idOf i).toNat
  background := fun _ => .idle
  clients := []
  voteCalls := []
  appendCalls := []

def locked (c : WireCluster ι) (i : ι) : Bool :=
  match c.background i with
  | .leading _ => true
  | _ => false

def sendLoop (c : WireCluster ι) : Thread ι → Option (ι × SendLoop Nat)
  | .background i => (c.background i).sendLoop.map fun l => (i, l)
  | .client k => c.clients[k]?.bind (·.sendLoop)

variable [DecidableEq ι]

def setNode (c : WireCluster ι) (i : ι) (n : Node) : WireCluster ι :=
  { c with nodes := Function.update c.nodes i n }

def setBackground (c : WireCluster ι) (i : ι) (b : WireBackground) : WireCluster ι :=
  { c with background := Function.update c.background i b }

def setClient (c : WireCluster ι) (k : Nat) (call : WireClient ι) : WireCluster ι :=
  { c with clients := c.clients.set k call }

def setSendLoop (c : WireCluster ι) (t : Thread ι) (l : SendLoop Nat) : WireCluster ι :=
  match t with
  | .background i =>
    match c.background i with
    | .leading _ => c.setBackground i (.leading l)
    | .heartbeat _ => c.setBackground i (.heartbeat l)
    | _ => c
  | .client k =>
    match c.clients[k]? with
    | some call => c.setClient k { call with loop := l }
    | none => c

/-! ## The step function -/

variable [Host] (cfg : Config ι)

/-- The number of peers of node `i`. -/
def size (i : ι) : Nat := (cfg.peers i).length

/-- `for (size_t i = 0; i < peers.size(); ++i)` before its first round. -/
def loopStart (i : ι) : SendLoop Nat := ⟨List.range (size cfg i), none⟩

/-- The vote loop takes what `sendRPC` returned. -/
def countVote (c : WireCluster ι) (i : ι) (rpc : RequestVote) (votes : Nat) (todo : List Nat)
    (respData : Bytes) : Result (WireCluster ι) := do
  match ← (c.nodes i).voteReply votes respData with
  | (n, some votes) => return (c.setNode i n).setBackground i (.election ⟨rpc, votes, ⟨todo, none⟩⟩)
  | (n, none) => return (c.setNode i n).setBackground i .idle

/-- The loop of thread `t` on node `i` takes what `sendRPC` returned for position `k`. -/
def afterSend (c : WireCluster ι) (t : Thread ι) (i : ι) (connected : ι → Bool) (k : Nat)
    (todo : List Nat) (ae : AppendEntries) (respData : Bytes) : Result (WireCluster ι) := do
  let n ← (c.nodes i).appendReply (size cfg i) (connectedAt (cfg.peers i) connected) k ae respData
  return (c.setNode i n).setSendLoop t ⟨todo, none⟩

def move (c : WireCluster ι) : Move ι → Option (Result (WireCluster ι))
  | .timeout i =>
    match c.background i with
    | .idle =>
      if (c.nodes i).state ≠ .leader then
        let (n, rpc) := (c.nodes i).startElection
        some (.ok ((c.setNode i n).setBackground i (.election ⟨rpc, 1, loopStart cfg i⟩)))
      else none
    | _ => none
  | .sendVote i =>
    match c.background i with
    | .election ⟨rpc, votes, ⟨k :: todo, none⟩⟩ =>
      (cfg.peers i)[k]?.map fun p =>
        let call : WireCall ι RequestVote := ⟨i, p, rpc, none⟩
        .ok ({ c with voteCalls := c.voteCalls ++ [call] }.setBackground i
          (.election ⟨rpc, votes, ⟨k :: todo, some c.voteCalls.length⟩⟩))
    | _ => none
  | .deliverVote k =>
    match c.voteCalls[k]? with
    | some call =>
      if call.reply = none ∧ ¬ c.locked call.dst then
        let data := call.request.serialize.take readSize
        (Node.raftHandlers.round (c.nodes call.dst) data).map fun result => do
          let (n, reply) ← result
          return { c.setNode call.dst n with
            voteCalls := c.voteCalls.set k { call with reply := some reply } }
      else none
    | none => none
  | .voteReply i =>
    match c.background i with
    | .election ⟨rpc, votes, ⟨_ :: todo, some k⟩⟩ =>
      ((c.voteCalls[k]?).bind (·.reply)).map (c.countVote i rpc votes todo)
    | _ => none
  | .voteLost i =>
    match c.background i with
    | .election ⟨rpc, votes, ⟨_ :: todo, some _⟩⟩ => some (c.countVote i rpc votes todo [])
    | _ => none
  | .endElection i =>
    match c.background i with
    | .election ⟨_, votes, ⟨[], none⟩⟩ =>
      if votes ≥ (size cfg i + 1) / 2 + 1 ∧ (c.nodes i).state = .candidate then
        some (.ok ((c.setNode i (c.nodes i).becomeLeader).setBackground i
          (.leading (loopStart cfg i))))
      else some (.ok (c.setBackground i .idle))
    | _ => none
  | .heartbeat i =>
    match c.background i with
    | .idle =>
      if (c.nodes i).state = .leader then
        some (.ok (c.setBackground i (.heartbeat (loopStart cfg i))))
      else none
    | _ => none
  | .send t =>
    match c.sendLoop t with
    | some (i, ⟨k :: todo, none⟩) =>
      (cfg.peers i)[k]?.map fun p => do
        let ae ← (c.nodes i).sendAppendEntries k
        let call : WireCall ι AppendEntries := ⟨i, p, ae, none⟩
        return { c with appendCalls := c.appendCalls ++ [call] }.setSendLoop t
          ⟨k :: todo, some c.appendCalls.length⟩
    | _ => none
  | .deliverAppend k =>
    match c.appendCalls[k]? with
    | some call =>
      if call.reply = none ∧ ¬ c.locked call.dst then
        let data := call.request.serialize.take readSize
        (Node.raftHandlers.round (c.nodes call.dst) data).map fun result => do
          let (n, reply) ← result
          return { c.setNode call.dst n with
            appendCalls := c.appendCalls.set k { call with reply := some reply } }
      else none
    | none => none
  | .appendReply t connected =>
    match c.sendLoop t with
    | some (i, ⟨p :: todo, some k⟩) =>
      (c.appendCalls[k]?).bind fun call =>
        call.reply.map (c.afterSend cfg t i connected p todo call.request)
    | _ => none
  | .appendLost t =>
    match c.sendLoop t with
    | some (i, ⟨p :: todo, some k⟩) =>
      (c.appendCalls[k]?).map fun call =>
        -- no index is acknowledged, so the connections do not matter
        c.afterSend cfg t i (fun _ => false) p todo call.request []
    | _ => none
  | .endLoop i =>
    match c.background i with
    | .leading ⟨[], none⟩ => some (.ok (c.setBackground i .idle))
    | .heartbeat ⟨[], none⟩ => some (.ok (c.setBackground i .idle))
    | _ => none
  | .submit i cmd connected =>
    if c.locked i then none
    else match (c.nodes i).submit (size cfg i) (connectedAt (cfg.peers i) connected) cmd with
    | .ok (n, idx) =>
      some (.ok { c.setNode i n with
        clients := c.clients ++ [⟨i, .submit cmd, idx, loopStart cfg i, .running⟩] })
    | .error _ => none
  | .get i key =>
    if c.locked i then none
    else match (c.nodes i).get with
    | .ok (n, idx) =>
      some (.ok { c.setNode i n with
        clients := c.clients ++ [⟨i, .get key, idx, loopStart cfg i, .running⟩] })
    | .error _ => none
  | .finish k =>
    match c.clients[k]? with
    | some ⟨i, op, idx, ⟨[], none⟩, .running⟩ =>
      let n := c.nodes i
      if c.locked i ∨ n.store.commitIndex < idx then none
      else match op with
      | .submit _ =>
        some do
          let n ← n.applyCommitted
          return (c.setNode i n).setClient k ⟨i, op, idx, ⟨[], none⟩, .ok⟩
      | .get key =>
        let outcome := match n.getResult key with
          | .ok v => Outcome.value v
          | .error r => .refused r
        some (.ok (c.setClient k ⟨i, op, idx, ⟨[], none⟩, outcome⟩))
    | _ => none

/-- Node `i` starts anew on its files. -/
def restart (c : WireCluster ι) (i : ι) : Result (WireCluster ι) := do
  let n ← Node.start (c.nodes i).nodeId (c.nodes i).store.files
  return { c with
    nodes := Function.update c.nodes i n
    background := Function.update c.background i .idle
    clients := c.clients.map fun call =>
      if call.node = i ∧ call.outcome = .running then { call with outcome := .crashed } else call }

def step (c : WireCluster ι) : WireAction ι → Option (Result (WireCluster ι))
  | .move m => c.move cfg m
  | .crash i => some (c.restart i)

/-- No counter of a node is at its end. -/
def HasRoom (c : WireCluster ι) : Prop :=
  ∀ i, Fits ((c.nodes i).store.term.toNat + 1) ∧ Fits ((c.nodes i).store.logLength.toNat + 1)

/-- A submitted command fits its length fields, and a batch fits one read. -/
def Sized (c : WireCluster ι) : WireAction ι → Prop
  | .move (.submit _ cmd _) => cmd.Short
  | .move (.deliverAppend k) => ∀ call ∈ c.appendCalls[k]?, call.request.serialize.length ≤ readSize
  | _ => True

def Regular (c : WireCluster ι) (a : WireAction ι) : Prop := c.HasRoom ∧ c.Sized a

def system [NodeIds ι] : TransitionSystem (WireCluster ι) (WireAction ι) where
  init := .init
  step := fun c a c' => c.step cfg a = some (.ok c')

/-! ## Executing a run -/

omit [DecidableEq ι] in
instance [Fintype ι] (c : WireCluster ι) : Decidable c.HasRoom :=
  inferInstanceAs (Decidable (∀ _, Fits _ ∧ Fits _))

instance (c : WireCluster ι) : DecidablePred c.Sized
  | .move (.submit _ cmd _) => inferInstanceAs (Decidable cmd.Short)
  | .move (.deliverAppend k) =>
    inferInstanceAs (Decidable (∀ call ∈ c.appendCalls[k]?, call.request.serialize.length ≤ readSize))
  | .move (.timeout _) | .move (.sendVote _) | .move (.deliverVote _) | .move (.voteReply _)
  | .move (.voteLost _) | .move (.endElection _) | .move (.heartbeat _) | .move (.send _)
  | .move (.appendReply _ _) | .move (.appendLost _) | .move (.endLoop _) | .move (.get _ _)
  | .move (.finish _) | .crash _ => .isTrue trivial

instance [Fintype ι] (c : WireCluster ι) : DecidablePred c.Regular := fun _ =>
  inferInstanceAs (Decidable (_ ∧ _))

/-- The step of `system` as a function. -/
def next (c : WireCluster ι) (a : WireAction ι) : Option (WireCluster ι) :=
  (c.step cfg a).bind Except.toOption

variable {cfg}

theorem system_step_of_next [NodeIds ι] (c : WireCluster ι) (a : WireAction ι) (c' : WireCluster ι)
    (h : c.next cfg a = some c') : (system cfg).step c a c' := by
  obtain ⟨r, hr, hc'⟩ := Option.bind_eq_some_iff.mp h
  cases r with
  | error e => cases hc'
  | ok c'' =>
    cases hc'
    exact hr

end WireCluster

end RaftKv.Wire
