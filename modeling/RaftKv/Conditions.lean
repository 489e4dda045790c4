-- SUMMARY: Conditions on the actions of a run under which the protocol keeps what the code promises.
import RaftKv.Runs

/-!
# Conditions on actions

The conditions that the code does not check and that the guarantees need. Each is a
condition on the state before an action.
-/

namespace RaftKv

/-- The peers a loop will still send to. -/
def SendLoop.unsent {ι : Type} (l : SendLoop ι) : List ι :=
  if l.waiting.isSome then l.todo.tail else l.todo

/-- The node accepts `rpc` and has, at an index of its batch up to `m`, an entry of
another term. -/
def RaftNode.Overwrites {ι : Type} (n : RaftNode ι) (rpc : AppendEntries ι) (m : Nat) : Prop :=
  n.store.term ≤ rpc.term ∧ prevMatches n.store rpc = true ∧
    ∃ k < rpc.entries.length, rpc.prevLogIndex + 1 + k ≤ m ∧
      rpc.prevLogIndex + 1 + k ≤ n.store.logLength ∧
      rpc.entries[k]?.map (·.term) ≠ some (n.store.getTermAt (rpc.prevLogIndex + 1 + k))

instance {ι : Type} (n : RaftNode ι) (rpc : AppendEntries ι) (m : Nat) :
    Decidable (n.Overwrites rpc m) :=
  inferInstanceAs (Decidable (_ ∧ _ ∧ _))

def ClientOp.isGet : ClientOp → Bool
  | .submit _ => false
  | .get _ => true

/-- The command of the entry that the call appends. -/
def ClientOp.command : ClientOp → Command
  | .submit cmd => cmd
  | .get _ => { oper := .noop }

namespace Cluster

variable {ι : Type} [DecidableEq ι]

/-- Every request a send loop builds is built while the node still is leader. -/
def SendsAsLeader (c : Cluster ι) : Action ι → Prop
  | .move (.send t) => ∀ x ∈ c.sendLoop t, (c.nodes x.1).state = .leader
  | _ => True

/-- A successful reply is processed by a leader of the term the request was built in. -/
def RepliesInTerm (c : Cluster ι) : Action ι → Prop
  | .move (.appendReply t _) =>
    ∀ x ∈ c.sendLoop t, ∀ k ∈ x.2.waiting, ∀ call ∈ c.appendCalls[k]?, ∀ resp ∈ call.reply,
      resp.term ≤ (c.nodes x.1).store.term → resp.success = true → call.rpc.entries ≠ [] →
        (c.nodes x.1).state = .leader ∧ (c.nodes x.1).store.term = call.rpc.term
  | _ => True

/-- A node crashes only with a log that a node of no later term has committed whole. -/
def RestartsCommitted (c : Cluster ι) : Action ι → Prop
  | .crash i => ∃ m, (c.nodes m).store.term ≤ (c.nodes i).store.term ∧
      (c.nodes i).store.log <+: (c.nodes m).store.log.take (c.nodes m).store.commitIndex
  | _ => True

/-- The first three, in a run that crashes between steps only. -/
def Clean (c : Cluster ι) (a : Action ι) : Prop :=
  Atomic c a ∧ SendsAsLeader c a ∧ RepliesInTerm c a ∧ RestartsCommitted c a

/-- The first two, in a run without crashes. -/
def Orderly (c : Cluster ι) (a : Action ι) : Prop :=
  CrashFree c a ∧ SendsAsLeader c a ∧ RepliesInTerm c a

omit [DecidableEq ι] in
theorem Orderly.clean {c : Cluster ι} {a : Action ι} (h : Orderly c a) : Clean c a := by
  obtain ⟨hfree, hsends, hreplies⟩ := h
  cases a with
  | move m => exact ⟨trivial, hsends, hreplies, trivial⟩
  | crash i => exact hfree.elim
  | crashIn m i cut => exact hfree.elim

/-- No send loop of node `i` has a peer left to send to. -/
def Quiescent (c : Cluster ι) (i : ι) : Prop :=
  (∀ l ∈ (c.background i).sendLoop, l.unsent = []) ∧
    ∀ call ∈ c.clients, call.node = i → call.outcome = .running → call.loop.unsent = []

/-- A request or a reply that makes a node step down is processed only when no send loop
of the node has a peer left. -/
def DeposedQuiescent (c : Cluster ι) : Action ι → Prop
  | .move (.deliverVote k) => ∀ call ∈ c.voteCalls[k]?,
      (c.nodes call.dst).store.term < call.rpc.term → Quiescent c call.dst
  | .move (.deliverAppend k) => ∀ call ∈ c.appendCalls[k]?,
      (c.nodes call.dst).store.term ≤ call.rpc.term → Quiescent c call.dst
  | .move (.appendReply t _) => ∀ x ∈ c.sendLoop t, ∀ k ∈ x.2.waiting,
      ∀ call ∈ c.appendCalls[k]?, ∀ resp ∈ call.reply,
        (c.nodes x.1).store.term < resp.term → Quiescent c x.1
  | _ => True

/-- A leader processes no AppendEntries reply of a later term. -/
def NotOutrun (c : Cluster ι) : Action ι → Prop
  | .move (.appendReply t _) => ∀ x ∈ c.sendLoop t, ∀ k ∈ x.2.waiting,
      ∀ call ∈ c.appendCalls[k]?, ∀ resp ∈ call.reply,
        (c.nodes x.1).store.term < resp.term → (c.nodes x.1).state ≠ .leader
  | _ => True

/-- No batch overwrites what its receiver has committed. -/
def KeepsCommitted (c : Cluster ι) : Action ι → Prop
  | .move (.deliverAppend k) => ∀ call ∈ c.appendCalls[k]?,
      ¬ (c.nodes call.dst).Overwrites call.rpc (c.nodes call.dst).store.commitIndex
  | _ => True

/-- No batch overwrites the entry that a running client call of its receiver waits for,
among the calls that `awaits` picks. -/
def KeepsAwaited (awaits : ClientOp → Bool) (c : Cluster ι) : Action ι → Prop
  | .move (.deliverAppend k) => ∀ call ∈ c.appendCalls[k]?, ∀ client ∈ c.clients,
      client.node = call.dst → client.outcome = .running → awaits client.op = true →
        ¬ (c.nodes call.dst).Overwrites call.rpc client.entry.index
  | _ => True

/-- No batch overwrites a committed entry or one that a running `submit` waits for, in a
run without crashes. -/
def KeepsWrites (c : Cluster ι) (a : Action ι) : Prop :=
  CrashFree c a ∧ KeepsCommitted c a ∧ KeepsAwaited (fun op => !op.isGet) c a

/-- An orderly run in which no batch overwrites an entry that a running `get` waits for. -/
def KeepsReads (c : Cluster ι) (a : Action ι) : Prop :=
  Orderly c a ∧ KeepsAwaited ClientOp.isGet c a

instance (c : Cluster ι) : DecidablePred (SendsAsLeader c) := fun a => by
  unfold SendsAsLeader; split <;> infer_instance

instance (c : Cluster ι) : DecidablePred (RepliesInTerm c) := fun a => by
  unfold RepliesInTerm; split <;> infer_instance

instance [Fintype ι] (c : Cluster ι) : DecidablePred (RestartsCommitted c) := fun a => by
  unfold RestartsCommitted; split <;> infer_instance

instance [Fintype ι] (c : Cluster ι) : DecidablePred (Clean c) := fun _ =>
  inferInstanceAs (Decidable (_ ∧ _ ∧ _ ∧ _))

instance (c : Cluster ι) : DecidablePred (Orderly c) := fun _ =>
  inferInstanceAs (Decidable (_ ∧ _ ∧ _))

instance (c : Cluster ι) : DecidablePred (NotOutrun c) := fun a => by
  unfold NotOutrun; split <;> infer_instance

instance (c : Cluster ι) : DecidablePred (KeepsCommitted c) := fun a => by
  unfold KeepsCommitted; split <;> infer_instance

instance (awaits : ClientOp → Bool) (c : Cluster ι) : DecidablePred (KeepsAwaited awaits c) :=
  fun a => by unfold KeepsAwaited; split <;> infer_instance

instance (c : Cluster ι) : DecidablePred (KeepsWrites c) := fun _ =>
  inferInstanceAs (Decidable (_ ∧ _ ∧ _))

instance (c : Cluster ι) : DecidablePred (KeepsReads c) := fun _ =>
  inferInstanceAs (Decidable (_ ∧ _))

instance (c : Cluster ι) (i : ι) : Decidable (Quiescent c i) :=
  inferInstanceAs (Decidable (_ ∧ _))

instance (c : Cluster ι) : DecidablePred (DeposedQuiescent c) := fun a => by
  unfold DeposedQuiescent; split <;> infer_instance

end Cluster

end RaftKv
