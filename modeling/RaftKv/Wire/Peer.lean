-- SUMMARY: How one node calls another: `Peer::sendRPC`, its background thread, and the connections with a `handleRaft` thread each.
import RaftKv.Wire.TCPServer
import RaftKv.Lib.TransitionSystem

/-!
# Connections between nodes

`Peer.h` on one side and `handleRaft` on the other. A request and its reply carry no number: what
`recv` returns is taken for the reply to what was sent last. The threads that call `sendRPC` take
turns by the mutex of the `Peer`; a call that gets no reply in time closes the connection, and the
background thread makes a new one, on which another `handleRaft` thread answers.

A connection carries bytes in order, each way, until one side ends it. Its history, which no code
reads, are the requests written to it and what its thread read and answered.
-/

namespace RaftKv.Wire

structure Stream where
  toServer : Bytes := []
  toPeer : Bytes := []
  /-- Its `handleRaft` thread runs. -/
  serving : Bool := true
  requests : List Bytes := []
  answered : List (Bytes × Bytes) := []

/-- A call of `sendRPC`. -/
structure RPCCall where
  request : Bytes
  /-- The connection that it was written to, and how many requests were written to it before. -/
  sentOn : Option (Nat × Nat) := none
  result : Option Bytes := none

/-- The call is at the mutex or waits for a connection. -/
def RPCCall.Waiting (call : RPCCall) : Prop := call.sentOn = none ∧ call.result = none

instance (call : RPCCall) : Decidable call.Waiting := inferInstanceAs (Decidable (_ ∧ _))

/-- A `Peer` and the node at the other end, with the state `σ`. -/
structure Link (σ : Type) where
  raft : σ
  connected : Bool := false
  sockFd : Option Nat := none
  /-- The call that waits in `recv`, with the mutex held. -/
  receiving : Option Nat := none
  calls : List RPCCall := []
  /-- Every connection made so far. -/
  streams : List Stream := []

inductive LinkAction (σ : Type) where
  /-- A thread calls `sendRPC`. -/
  | sendRPC (request : Bytes)
  /-- `backgroundConnect` gets through. -/
  | connect
  /-- Call `i` writes to the connection, which takes `n` bytes. -/
  | send (i n : Nat)
  | sendFailed (i : Nat)
  /-- There was no connection for a second. -/
  | giveUp (i : Nat)
  /-- Call `i` reads `n` bytes. -/
  | recv (i n : Nat)
  /-- A second passes without a reply, or the connection has ended. -/
  | recvFailed (i : Nat)
  /-- The thread of connection `s` reads `n` bytes and answers. -/
  | handle (s n : Nat)
  /-- The thread of connection `s` ends, as after the end of the connection or of the process. What
  it has written may be lost. -/
  | hangUp (s : Nat) (lost : Bool)
  /-- The process of the `Peer` ends and starts again. A call in `recv` goes no further; one that
  waited may, in place of a call of the new process. -/
  | restart
  /-- Anything else that happens to the node at the other end. -/
  | node (raft : σ)

namespace Link

variable {σ : Type} (l : Link σ)

/-- The socket is closed. -/
def close : Link σ := { l with connected := false, sockFd := none, receiving := none }

def setCall (i : Nat) (call : RPCCall) : Link σ := { l with calls := l.calls.set i call }

def setStream (s : Nat) (stream : Stream) : Link σ := { l with streams := l.streams.set s stream }

/-- A call returns without a reply. -/
def fail (i : Nat) (call : RPCCall) : Link σ := l.setCall i { call with result := some [] }

def step [Host] (h : RaftHandlers σ) : LinkAction σ → Option (Link σ)
  | .sendRPC request => some { l with calls := l.calls ++ [{ request }] }
  | .connect =>
    if l.connected = false ∧ l.receiving = none then
      some { l with connected := true, sockFd := some l.streams.length, streams := l.streams ++ [{}] }
    else none
  | .send i n => do
    let call ← l.calls[i]?
    let s ← l.sockFd
    let stream ← l.streams[s]?
    if l.connected ∧ l.receiving = none ∧ call.Waiting ∧ n ≤ call.request.length then
      let written := call.request.take n
      some (({ l with receiving := some i }.setCall i
          { call with sentOn := some (s, stream.requests.length) }).setStream s
        { stream with toServer := stream.toServer ++ written, requests := stream.requests ++ [written] })
    else none
  | .sendFailed i => do
    let call ← l.calls[i]?
    if l.connected ∧ l.receiving = none ∧ call.Waiting then some (l.close.fail i call) else none
  | .giveUp i => do
    let call ← l.calls[i]?
    if l.connected = false ∧ l.receiving = none ∧ call.Waiting then some (l.fail i call) else none
  | .recv i n => do
    let call ← l.calls[i]?
    let s ← l.sockFd
    let stream ← l.streams[s]?
    if l.receiving = some i ∧ 0 < n ∧ n ≤ stream.toPeer.length ∧ n ≤ 65536 then
      some (({ l with receiving := none }.setCall i
          { call with result := some (stream.toPeer.take n) }).setStream s
        { stream with toPeer := stream.toPeer.drop n })
    else none
  | .recvFailed i => do
    let call ← l.calls[i]?
    if l.receiving = some i then some (l.close.fail i call) else none
  | .handle s n => do
    let stream ← l.streams[s]?
    if stream.serving ∧ 0 < n ∧ n ≤ stream.toServer.length ∧ n ≤ readSize then
      let buffer := stream.toServer.take n
      -- a call that does not return is no step, and after an exception, which ends the process,
      -- come `hangUp` and `node`
      let result ← h.round l.raft buffer
      let (raft, reply) ← result.toOption
      some ({ l with raft }.setStream s
        { stream with
          toServer := stream.toServer.drop n
          toPeer := stream.toPeer ++ reply
          answered := stream.answered ++ [(buffer, reply)] })
    else none
  | .hangUp s lost => do
    let stream ← l.streams[s]?
    some (l.setStream s { stream with
      serving := false, toServer := [], toPeer := if lost then [] else stream.toPeer })
  | .restart => some l.close
  | .node raft => some { l with raft }

def system [Host] (h : RaftHandlers σ) (raft : σ) : TransitionSystem (Link σ) (LinkAction σ) where
  init := { raft }
  step := fun l a l' => l.step h a = some l'

/-- Every message is taken in one piece: a write takes all of it, and a read finds all of it. -/
def Whole : LinkAction σ → Prop
  | .send i n => ∀ call ∈ l.calls[i]?, n = call.request.length
  | .recv _ n => ∀ s ∈ l.sockFd, ∀ stream ∈ l.streams[s]?, n = stream.toPeer.length
  | .handle s n => ∀ stream ∈ l.streams[s]?, n = stream.toServer.length
  | _ => True

instance : (a : LinkAction σ) → Decidable (Whole l a)
  | .send i n => inferInstanceAs (Decidable (∀ call ∈ l.calls[i]?, n = call.request.length))
  | .recv _ n => inferInstanceAs
      (Decidable (∀ s ∈ l.sockFd, ∀ stream ∈ l.streams[s]?, n = stream.toPeer.length))
  | .handle s n => inferInstanceAs (Decidable (∀ stream ∈ l.streams[s]?, n = stream.toServer.length))
  | .sendRPC _ | .connect | .sendFailed _ | .giveUp _ | .recvFailed _ | .hangUp _ _ | .restart
  | .node _ => .isTrue trivial

end Link

end RaftKv.Wire
