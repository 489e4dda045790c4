-- SUMMARY: What a move can do: one constructor per branch of the step function, and the projections of the updates.
import RaftKv.Cluster

/-!
# The branches of a move

`Cluster.move` is a match over threads and calls. `Moved` lists its branches with
their guards and results; every invariant is proved by cases on it.
-/

namespace RaftKv

namespace Cluster

variable {ι : Type}

/-! ## Projections -/

section Projections

variable (c : Cluster ι) (k : Nat) (call : ClientCall ι)

@[simp] theorem setClient_nodes : (c.setClient k call).nodes = c.nodes := rfl
@[simp] theorem setClient_background : (c.setClient k call).background = c.background := rfl
@[simp] theorem setClient_clients : (c.setClient k call).clients = c.clients.set k call := rfl
@[simp] theorem setClient_voteCalls : (c.setClient k call).voteCalls = c.voteCalls := rfl
@[simp] theorem setClient_appendCalls : (c.setClient k call).appendCalls = c.appendCalls := rfl

variable [DecidableEq ι] (i j : ι) (n : RaftNode ι) (b : Background ι) (t : Thread ι)
  (l : SendLoop ι)

@[simp] theorem setNode_nodes :
    (c.setNode i n).nodes j = if j = i then n else c.nodes j := Function.update_apply _ _ _ _

theorem setNode_cases {P : RaftNode ι → Prop} (hself : j = i → P n) (hother : j ≠ i → P (c.nodes j)) :
    P ((c.setNode i n).nodes j) := by
  rw [setNode_nodes]
  split
  · exact hself ‹_›
  · exact hother ‹_›

@[simp] theorem setNode_background : (c.setNode i n).background = c.background := rfl
@[simp] theorem setNode_clients : (c.setNode i n).clients = c.clients := rfl
@[simp] theorem setNode_voteCalls : (c.setNode i n).voteCalls = c.voteCalls := rfl
@[simp] theorem setNode_appendCalls : (c.setNode i n).appendCalls = c.appendCalls := rfl

@[simp] theorem setBackground_nodes : (c.setBackground i b).nodes = c.nodes := rfl
@[simp] theorem setBackground_background :
    (c.setBackground i b).background j = if j = i then b else c.background j :=
  Function.update_apply _ _ _ _
@[simp] theorem setBackground_clients : (c.setBackground i b).clients = c.clients := rfl
@[simp] theorem setBackground_voteCalls : (c.setBackground i b).voteCalls = c.voteCalls := rfl
@[simp] theorem setBackground_appendCalls :
    (c.setBackground i b).appendCalls = c.appendCalls := rfl

@[simp] theorem setSendLoop_nodes : (c.setSendLoop t l).nodes = c.nodes := by
  unfold setSendLoop; split <;> split <;> rfl

@[simp] theorem setSendLoop_voteCalls : (c.setSendLoop t l).voteCalls = c.voteCalls := by
  unfold setSendLoop; split <;> split <;> rfl

@[simp] theorem setSendLoop_appendCalls : (c.setSendLoop t l).appendCalls = c.appendCalls := by
  unfold setSendLoop; split <;> split <;> rfl

end Projections

/-! ## Branches -/

variable [DecidableEq ι] (cfg : Config ι)

inductive Moved (c : Cluster ι) : Move ι → Cluster ι → Prop where
  | timeout {i : ι} (hidle : c.background i = .idle) (hstate : (c.nodes i).state ≠ .leader) :
      Moved c (.timeout i)
        ((c.setNode i ((c.nodes i).startElection i).1).setBackground i
          (.election ⟨((c.nodes i).startElection i).2, 1, cfg.peers i, none⟩))
  | sendVote {i p : ι} {rpc : RequestVote ι} {votes : Nat} {todo : List ι}
      (hbg : c.background i = .election ⟨rpc, votes, p :: todo, none⟩) :
      Moved c (.sendVote i)
        (({ c with voteCalls := c.voteCalls ++ [⟨i, p, rpc, none⟩] } : Cluster ι).setBackground i
          (.election ⟨rpc, votes, p :: todo, some c.voteCalls.length⟩))
  | deliverVote {k : Nat} {call : VoteCall ι} (hcall : c.voteCalls[k]? = some call)
      (hnew : call.reply = none) (hfree : c.locked call.dst = false) :
      Moved c (.deliverVote k)
        { c.setNode call.dst ((c.nodes call.dst).handleRequestVote call.rpc).1 with
          voteCalls := c.voteCalls.set k
            { call with reply := some ((c.nodes call.dst).handleRequestVote call.rpc).2 } }
  | voteReply {i p : ι} {rpc : RequestVote ι} {votes k : Nat} {todo : List ι}
      {call : VoteCall ι} {resp : RequestVoteResponse}
      (hbg : c.background i = .election ⟨rpc, votes, p :: todo, some k⟩)
      (hcall : c.voteCalls[k]? = some call) (hreply : call.reply = some resp)
      (hterm : resp.term ≤ (c.nodes i).store.term) :
      Moved c (.voteReply i)
        ((c.setNode i (c.nodes i)).setBackground i
          (.election ⟨rpc, if resp.voteGranted then votes + 1 else votes, todo, none⟩))
  | deposed {i p : ι} {rpc : RequestVote ι} {votes k : Nat} {todo : List ι}
      {call : VoteCall ι} {resp : RequestVoteResponse}
      (hbg : c.background i = .election ⟨rpc, votes, p :: todo, some k⟩)
      (hcall : c.voteCalls[k]? = some call) (hreply : call.reply = some resp)
      (hterm : (c.nodes i).store.term < resp.term) :
      Moved c (.voteReply i)
        ((c.setNode i ((c.nodes i).voteReply votes resp).1).setBackground i .idle)
  | voteLost {i p : ι} {rpc : RequestVote ι} {votes k : Nat} {todo : List ι}
      (hbg : c.background i = .election ⟨rpc, votes, p :: todo, some k⟩) :
      Moved c (.voteLost i) (c.setBackground i (.election ⟨rpc, votes, todo, none⟩))
  | elected {i : ι} {rpc : RequestVote ι} {votes : Nat}
      (hbg : c.background i = .election ⟨rpc, votes, [], none⟩)
      (hvotes : votes ≥ RaftNode.majority (cfg.peers i))
      (hstate : (c.nodes i).state = .candidate) :
      Moved c (.endElection i)
        ((c.setNode i ((c.nodes i).becomeLeader i)).setBackground i
          (.leading ⟨cfg.peers i, none⟩))
  | unelected {i : ι} {rpc : RequestVote ι} {votes : Nat}
      (hbg : c.background i = .election ⟨rpc, votes, [], none⟩) :
      Moved c (.endElection i) (c.setBackground i .idle)
  | heartbeat {i : ι} (hidle : c.background i = .idle) (hstate : (c.nodes i).state = .leader) :
      Moved c (.heartbeat i) (c.setBackground i (.heartbeat ⟨cfg.peers i, none⟩))
  | send {t : Thread ι} {i p : ι} {todo : List ι}
      (hloop : c.sendLoop t = some (i, ⟨p :: todo, none⟩)) :
      Moved c (.send t)
        (({ c with
            appendCalls := c.appendCalls ++
              [⟨i, p, (c.nodes i).buildAppendEntries i p, none, c.nodes i⟩] } :
            Cluster ι).setSendLoop t
          ⟨p :: todo, some c.appendCalls.length⟩)
  | deliverAppend {k : Nat} {call : AppendCall ι} (hcall : c.appendCalls[k]? = some call)
      (hnew : call.reply = none) (hfree : c.locked call.dst = false) :
      Moved c (.deliverAppend k)
        { c.setNode call.dst ((c.nodes call.dst).handleAppendEntries call.rpc).1 with
          appendCalls := c.appendCalls.set k
            { call with reply := some ((c.nodes call.dst).handleAppendEntries call.rpc).2 } }
  | appendReply {t : Thread ι} {connected : ι → Bool} {i p : ι} {k : Nat} {todo : List ι}
      {call : AppendCall ι} {resp : AppendEntriesResponse}
      (hloop : c.sendLoop t = some (i, ⟨p :: todo, some k⟩))
      (hcall : c.appendCalls[k]? = some call) (hreply : call.reply = some resp) :
      Moved c (.appendReply t connected)
        ((c.setNode i
          ((c.nodes i).appendReply (cfg.peers i) connected p call.rpc resp)).setSendLoop t
            ⟨todo, none⟩)
  | appendLost {t : Thread ι} {i p : ι} {k : Nat} {todo : List ι} {call : AppendCall ι}
      (hloop : c.sendLoop t = some (i, ⟨p :: todo, some k⟩))
      (hcall : c.appendCalls[k]? = some call) :
      Moved c (.appendLost t)
        ((c.setNode i ((c.nodes i).appendLost p call.rpc)).setSendLoop t ⟨todo, none⟩)
  | endLoop {i : ι}
      (hbg : c.background i = .leading ⟨[], none⟩ ∨ c.background i = .heartbeat ⟨[], none⟩) :
      Moved c (.endLoop i) (c.setBackground i .idle)
  | submit {i : ι} {cmd : Command} {connected : ι → Bool} (hfree : c.locked i = false)
      (hstate : (c.nodes i).state = .leader) :
      Moved c (.submit i cmd connected)
        { c.setNode i ((c.nodes i).appendOwn cmd).1 with
          clients := c.clients ++
            [⟨i, .submit cmd, ((c.nodes i).appendOwn cmd).2, ⟨cfg.peers i, none⟩, .running⟩] }
  | get {i : ι} {key : Bytes} (hfree : c.locked i = false)
      (hstate : (c.nodes i).state = .leader) :
      Moved c (.get i key)
        { c.setNode i ((c.nodes i).appendOwn { oper := .noop }).1 with
          clients := c.clients ++
            [⟨i, .get key, ((c.nodes i).appendOwn { oper := .noop }).2, ⟨cfg.peers i, none⟩,
              .running⟩] }
  | finishSubmit {k : Nat} {i : ι} {cmd : Command} {entry : LogEntry}
      (hcall : c.clients[k]? = some ⟨i, .submit cmd, entry, ⟨[], none⟩, .running⟩)
      (hfree : c.locked i = false) (hcommit : entry.index ≤ (c.nodes i).store.commitIndex) :
      Moved c (.finish k)
        ((c.setNode i (c.nodes i).applyCommitted).setClient k
          ⟨i, .submit cmd, entry, ⟨[], none⟩, .ok⟩)
  | finishGet {k : Nat} {i : ι} {key : Bytes} {entry : LogEntry} {outcome : Outcome}
      (hcall : c.clients[k]? = some ⟨i, .get key, entry, ⟨[], none⟩, .running⟩)
      (hfree : c.locked i = false) (hcommit : entry.index ≤ (c.nodes i).store.commitIndex)
      (hvalue : (c.nodes i).state = .leader → outcome = .value ((c.nodes i).sm.get key))
      (hrefused : (c.nodes i).state ≠ .leader → outcome = .refused .notLeader) :
      Moved c (.finish k) (c.setClient k ⟨i, .get key, entry, ⟨[], none⟩, outcome⟩)

variable {cfg} {c c' : Cluster ι}

theorem moved_of_move {m : Move ι} (h : c.move cfg m = some c') : Moved cfg c m c' := by
  cases m with
  | timeout i =>
    simp only [move] at h
    split at h
    · rename_i hidle
      split at h
      · rename_i hstate
        cases h
        exact .timeout hidle hstate
      · cases h
    · cases h
  | sendVote i =>
    simp only [move] at h
    split at h
    · rename_i hbg
      cases h
      exact .sendVote hbg
    · cases h
  | deliverVote k =>
    simp only [move] at h
    split at h
    · rename_i call hcall
      split at h
      · rename_i hg
        cases h
        exact .deliverVote hcall hg.1 (by simpa using hg.2)
      · cases h
    · cases h
  | voteReply i =>
    simp only [move] at h
    split at h
    · rename_i rpc votes p todo k hbg
      split at h
      · rename_i resp hresp
        rw [Option.bind_eq_some_iff] at hresp
        obtain ⟨call, hcall, hreply⟩ := hresp
        by_cases hterm : resp.term > (c.nodes i).store.term
        · have hnone : ((c.nodes i).voteReply votes resp).2 = none := by
            simp [RaftNode.voteReply, hterm]
          split at h
          · rename_i heq
            rw [heq] at hnone
            cases hnone
          · rename_i n heq
            cases h
            have hn : n = ((c.nodes i).voteReply votes resp).1 := by rw [heq]
            subst hn
            exact .deposed hbg hcall hreply hterm
        · have hsame : (c.nodes i).voteReply votes resp =
              (c.nodes i, some (if resp.voteGranted then votes + 1 else votes)) := by
            simp only [RaftNode.voteReply, if_neg hterm]
            split <;> rfl
          rw [hsame] at h
          cases h
          exact .voteReply hbg hcall hreply (by omega)
      · cases h
    · cases h
  | voteLost i =>
    simp only [move] at h
    split at h
    · rename_i hbg
      cases h
      exact .voteLost hbg
    · cases h
  | endElection i =>
    simp only [move] at h
    split at h
    · rename_i hbg
      split at h
      · rename_i hg
        cases h
        exact .elected hbg hg.1 hg.2
      · cases h
        exact .unelected hbg
    · cases h
  | heartbeat i =>
    simp only [move] at h
    split at h
    · rename_i hidle
      split at h
      · rename_i hstate
        cases h
        exact .heartbeat hidle hstate
      · cases h
    · cases h
  | send t =>
    simp only [move] at h
    split at h
    · rename_i hloop
      cases h
      exact .send hloop
    · cases h
  | deliverAppend k =>
    simp only [move] at h
    split at h
    · rename_i call hcall
      split at h
      · rename_i hg
        cases h
        exact .deliverAppend hcall hg.1 (by simpa using hg.2)
      · cases h
    · cases h
  | appendReply t connected =>
    simp only [move] at h
    split at h
    · rename_i hloop
      split at h
      · rename_i call hcall
        split at h
        · rename_i resp hreply
          cases h
          exact .appendReply hloop hcall hreply
        · cases h
      · cases h
    · cases h
  | appendLost t =>
    simp only [move] at h
    split at h
    · rename_i hloop
      split at h
      · rename_i call hcall
        cases h
        exact .appendLost hloop hcall
      · cases h
    · cases h
  | endLoop i =>
    simp only [move] at h
    split at h
    · rename_i hbg
      cases h
      exact .endLoop (Or.inl hbg)
    · rename_i hbg
      cases h
      exact .endLoop (Or.inr hbg)
    · cases h
  | submit i cmd connected =>
    simp only [move] at h
    split at h
    · cases h
    · rename_i hfree
      by_cases hstate : (c.nodes i).state = .leader
      · by_cases hreq : RaftNode.requestable (cfg.peers i) connected = true
        · have hok : (c.nodes i).submit (cfg.peers i) connected cmd =
              .ok ((c.nodes i).appendOwn cmd) := by
            simp [RaftNode.submit, hstate, hreq]
          rw [hok] at h
          cases h
          exact .submit (by simpa using hfree) hstate
        · simp [RaftNode.submit, hstate, hreq] at h
      · simp [RaftNode.submit, hstate] at h
  | get i key =>
    simp only [move] at h
    split at h
    · cases h
    · rename_i hfree
      by_cases hstate : (c.nodes i).state = .leader
      · have hok : (c.nodes i).get = .ok ((c.nodes i).appendOwn { oper := .noop }) := by
          simp [RaftNode.get, hstate]
        rw [hok] at h
        cases h
        exact .get (by simpa using hfree) hstate
      · simp [RaftNode.get, hstate] at h
  | finish k =>
    simp only [move] at h
    split at h
    · rename_i i op entry hcall
      split at h
      · cases h
      · rename_i hg
        rw [not_or, Nat.not_lt] at hg
        obtain ⟨hfree, hcommit⟩ := hg
        cases op with
        | submit cmd =>
          cases h
          exact .finishSubmit hcall (by simpa using hfree) hcommit
        | get key =>
          cases h
          refine .finishGet hcall (by simpa using hfree) hcommit ?_ ?_
          · intro hl; simp [RaftNode.getResult, hl]
          · intro hl; simp [RaftNode.getResult, hl]
    · cases h

end Cluster

end RaftKv
