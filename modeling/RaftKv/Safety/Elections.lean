-- SUMMARY: One leader per term in every run, and when the messages of a term come from its leader.
import RaftKv.Refinement.Crash

/-!
# Elections

A term has at most one leader, whatever crashes. Whether a message of the term was built
by that leader is another matter: `sendAppendEntries` looks at the term but not at the
role, so it depends on nobody deposing a node in the middle of a send loop.
-/

namespace RaftKv

open Consensus (Tenure Elections)

namespace Cluster

variable {ι : Type} [Fintype ι] [DecidableEq ι] {cfg : Config ι} {c c' : Cluster ι}

/-! ## One leader per term -/

/-- Election safety, in every run: whoever became leader in term `T` is one node. -/
theorem election_safety (h : (system cfg).Reach Any c) {i j : ι} {T : Nat} {l l' : List LogEntry}
    (hi : .elected T l ∈ (c.nodes i).trace) (hj : .elected T l' ∈ (c.nodes j).trace) : i = j := by
  obtain ⟨s, hsound, hsim⟩ := simulates_any h
  have hti := (hsim.nodes i).events _ hi
  have htj := (hsim.nodes j).events _ hj
  exact congrArg Tenure.leader (hsound.elections.tenure_unique hti htj rfl)

/-- Nodes 0 and 2 campaign in term 1. Node 1 crashes on the request of node 0 between
the writes of `setTerm` and `setVoted`, and votes for node 2 after the restart. -/
def crashedVoterRun : List (Action (Fin 3)) := List.flatten
  [[.move (.timeout 0), .move (.sendVote 0), .crashIn (.deliverVote 0) 1 (.after 1), .move (.voteLost 0)],
    [.move (.timeout 2)], noVote 2, vote 2 2, [.move (.endElection 2)]]

theorem election_safety_crashedVoter : ∃ c : Cluster (Fin 3),
    (system (Config.complete 3)).Reach Any c ∧ .elected 1 [] ∈ (c.nodes 2).trace ∧
      ∀ j l, .elected 1 l ∈ (c.nodes j).trace → 2 = j := by
  have hrun : (run (Config.complete 3) Any .init crashedVoterRun).any
      (fun c => decide (.elected 1 [] ∈ (c.nodes 2).trace)) = true := by decide +kernel
  obtain ⟨c, hreach, hp⟩ := exists_reach hrun
  have hmem := of_decide_eq_true hp
  exact ⟨c, hreach, hmem, fun j l hj => election_safety hreach hmem hj⟩

/-- Node 1 deposes node 0, and its first batch makes node 0 cut off its second entry: the crash
comes when the file has been emptied, so node 0 comes back with no entry at all. -/
def tornTruncationRun : List (Action (Fin 3)) := List.flatten
  [[.move (.timeout 0)], vote 0 0, noVote 0, [.move (.endElection 0)], served (.background 0) 0,
    unserved (.background 0), [.move (.endLoop 0), .move (.submit 0 { oper := .put, key := [1] } fun _ => true)],
    [.move (.timeout 1)], noVote 1, vote 1 3, [.move (.endElection 1), .move (.send (.background 1)),
      .crashIn (.deliverAppend 2) 0 (.truncating 2 0)]]

example : (run (Config.complete 3) Any .init tornTruncationRun).map (fun c =>
    ((c.nodes 0).store.term, (c.nodes 0).store.log, (c.nodes 1).store.log.length)) =
      some (2, [], 2) := by decide +kernel

/-! ## Whose message it is -/

/-- `call` speaks for its term: its sender was leader when it built the message, and had
won the term with a majority of votes. -/
structure SpeaksForTerm (c : Cluster ι) (call : AppendCall ι) : Prop where
  sender : call.rpc.leaderId = call.src ∧ call.rpc.term = call.sender.store.term
  leader : call.sender.state = .leader
  won : Majority { v | Voted c call.rpc.leaderId call.rpc.term v }

omit [Fintype ι] [DecidableEq ι] in
theorem Quiescent.unsent {i : ι} (h : Quiescent c i) {t : Thread ι} {l : SendLoop ι}
    (hl : c.sendLoop t = some (i, l)) : l.unsent = [] := by
  cases t with
  | background j =>
    simp only [sendLoop, Option.map_eq_some_iff, Prod.mk.injEq] at hl
    obtain ⟨l', hl', rfl, rfl⟩ := hl
    exact h.1 _ hl'
  | client k =>
    simp only [sendLoop, Option.bind_eq_some_iff, ClientCall.sendLoop] at hl
    obtain ⟨call, hcall, hl⟩ := hl
    split at hl
    · rename_i hrun
      cases hl
      exact h.2 call (List.mem_of_getElem? hcall) rfl hrun
    · cases hl

/-- Every send loop with a peer left belongs to a leader. -/
def LoopsLead (c : Cluster ι) : Prop :=
  ∀ t i l, c.sendLoop t = some (i, l) → l.unsent ≠ [] → (c.nodes i).state = .leader

omit [Fintype ι] in
/-- In a move that deposes only quiescent nodes, a leader with a peer left to serve
stays leader. -/
theorem Moved.stays_leader {m : Move ι} (hm : Moved cfg c m c')
    (hok : DeposedQuiescent c (.move m)) (hth : Threads cfg c) {i : ι} (hq : ¬ Quiescent c i)
    (hlead : (c.nodes i).state = .leader) : (c'.nodes i).state = .leader := by
  have hset : ∀ (j : ι) (n : RaftNode ι), (j = i → n.state = .leader) →
      ((c.setNode j n).nodes i).state = .leader := by
    intro j n hn
    exact c.setNode_cases j i n (P := fun n' => n'.state = .leader) (fun heq => hn heq.symm)
      fun _ => hlead
  cases hm with
  | @timeout j hidle hstate =>
    exact hset _ _ fun heq => absurd (heq ▸ hlead) hstate
  | @deliverVote k call hcall hnew hfree =>
    refine hset _ _ fun heq => ?_
    have hnot : ¬ (c.nodes call.dst).store.term < call.rpc.term :=
      fun hlt => hq (heq ▸ hok call hcall hlt)
    have hheard : (c.nodes call.dst).heardVote call.rpc = c.nodes call.dst := if_neg hnot
    rcases (c.nodes call.dst).handleRequestVote_cases call.rpc with ⟨-, h⟩ | ⟨-, -, h⟩ | ⟨-, h⟩ <;>
      rw [h]
    · exact heq ▸ hlead
    · rw [hheard]; exact heq ▸ hlead
    · rw [hheard]; exact heq ▸ hlead
  | @deliverAppend k call hcall hnew hfree =>
    refine hset _ _ fun heq => ?_
    have hlt : call.rpc.term < (c.nodes call.dst).store.term := by
      by_contra hge
      exact hq (heq ▸ hok call hcall (by omega))
    rcases (c.nodes call.dst).handleAppendEntries_cases call.rpc with ⟨-, h⟩ | ⟨hge, -⟩ | ⟨hge, -⟩
    · rw [h]; exact heq ▸ hlead
    · omega
    · omega
  | @deposed j p rpc votes k todo call resp hbg hcall hreply hterm =>
    refine hset _ _ fun heq => ?_
    exact absurd (heq ▸ hlead) (hth.elections j _ hbg).role
  | @elected j rpc votes hbg hvotes hstate =>
    exact hset _ _ fun _ => RaftNode.becomeLeader_state j hstate
  | @appendReply t connected j p k todo call resp hloop hcall hreply =>
    rw [setSendLoop_nodes]
    refine hset _ _ fun heq => ?_
    have hst := RaftNode.appendReply_cases (c.nodes j) (cfg.peers j) connected p call.rpc resp
    rcases hst with ⟨hlt, -⟩ | ⟨-, -, -, h⟩ | ⟨-, h⟩
    · exact absurd (heq ▸ hok _ hloop k rfl call hcall resp hreply hlt) hq
    · rw [h, RaftNode.advanceCommitIndex_state]; exact heq ▸ hlead
    · rw [h, (RaftNode.backOff_rest _ p call.rpc).2.1]; exact heq ▸ hlead
  | @appendLost t j p k todo call hloop hcall =>
    rw [setSendLoop_nodes]
    refine hset _ _ fun heq => ?_
    rw [RaftNode.appendLost_state]; exact heq ▸ hlead
  | voteReply hbg hcall hreply hterm => exact hset _ _ fun heq => heq ▸ hlead
  | submit hfree hstate => exact hset _ _ fun heq => heq ▸ hlead
  | get hfree hstate => exact hset _ _ fun heq => heq ▸ hlead
  | finishSubmit hcall hfree hcommit =>
    refine hset _ _ fun heq => ?_
    rw [RaftNode.applyCommitted_state]; exact heq ▸ hlead
  | send hloop => rw [setSendLoop_nodes]; exact hlead
  | sendVote _ | voteLost _ | unelected _ | heartbeat _ _ | endLoop _ | finishGet _ _ _ _ _ =>
    exact hlead

omit [Fintype ι] in
theorem LoopsLead.moved (h : LoopsLead c) (hth : Threads cfg c) {m : Move ι}
    (hm : Moved cfg c m c') (hok : DeposedQuiescent c (.move m)) : LoopsLead c' := by
  intro t i l hl hne
  have hkeep : ∀ l₀, c.sendLoop t = some (i, l₀) → l₀.unsent ≠ [] →
      (c'.nodes i).state = .leader := fun l₀ hl₀ hne₀ =>
    hm.stays_leader hok hth (fun hq => hne₀ (hq.unsent hl₀)) (h t i l₀ hl₀ hne₀)
  rcases hm.loops hl with hold | ⟨-, ⟨-, hlead⟩ | ⟨hcand, heq⟩⟩ | ⟨p, todo, hold, -⟩ |
    ⟨p, todo, k, hold, rfl⟩
  · exact hkeep l hold hne
  · exact hlead
  · rw [heq]; exact RaftNode.becomeLeader_state i hcand
  · exact hkeep _ hold (by simp [SendLoop.unsent])
  · exact hkeep _ hold hne

omit [Fintype ι] in
theorem LoopsLead.restart (h : LoopsLead c) (i : ι) (d : Disk ι) (tr : List (Event ι)) :
    LoopsLead (c.restart i d tr) := by
  intro t j l hl hne
  obtain ⟨hold, hj⟩ := sendLoop_restart hl
  have hlead := h t j l hold hne
  simpa only [Cluster.restart, Function.update_of_ne hj] using hlead

/-- Every request was built by a leader. -/
def SentAsLeader (c : Cluster ι) : Prop := ∀ call ∈ c.appendCalls, call.sender.state = .leader

omit [Fintype ι] in
theorem SentAsLeader.moved (h : SentAsLeader c) (hloops : LoopsLead c) {m : Move ι}
    (hm : Moved cfg c m c') : SentAsLeader c' := by
  intro call' hcall'
  rcases hm.appendCalls hcall' with hold | ⟨t, i, p, todo, -, hloop, rfl⟩ |
    ⟨k, call, -, hk, rfl⟩
  · exact h call' hold
  · exact hloops t i _ hloop (by simp [SendLoop.unsent])
  · exact h call (List.mem_of_getElem? hk)

omit [Fintype ι] in
theorem sentAsLeader (h : (system cfg).Reach DeposedQuiescent c) : SentAsLeader c := by
  refine (h.invariant (I := fun c => LoopsLead c ∧ SentAsLeader c) ⟨?_, ?_⟩ ?_).2
  · intro t i l hl
    cases t <;> simp [sendLoop, system, init, Background.sendLoop] at hl
  · intro call hcall
    cases hcall
  · rintro c a c' hc ⟨hloops, hsent⟩ hok hstep
    have hth := Threads.reach hc
    rcases step_cases hstep with ⟨m, rfl, hm⟩ | ⟨i, rfl, rfl⟩ | ⟨m, i, cut, c₁, d, rfl, hm, -, rfl⟩
    · exact ⟨hloops.moved hth hm hok, hsent.moved hloops hm⟩
    · exact ⟨hloops.restart i _ _, hsent⟩
    · exact ⟨hloops.restart i _ _, hsent⟩

/-- Along a run in which no node is deposed in the middle of a send loop, every request
comes from the leader of its term. -/
theorem messages_speakForTerm (h : (system cfg).Reach DeposedQuiescent c) :
    ∀ call ∈ c.appendCalls, SpeaksForTerm c call := by
  intro call hcall
  obtain ⟨s, hsound, hsim⟩ := simulates_any h
  obtain ⟨hrpc, -, -⟩ := (Threads.reach h).appendCalls call hcall
  have hlead := sentAsLeader h call hcall
  obtain ⟨e, he, hleader, hterm⟩ := (hsim.appends call hcall).tenure hlead
  have hid : call.rpc.leaderId = call.src := by rw [hrpc]; rfl
  have hT : call.rpc.term = call.sender.store.term := by rw [hrpc]; rfl
  refine ⟨⟨hid, hT⟩, hlead, ?_⟩
  rw [hid, hT, ← hleader, ← hterm]
  refine (hsound.elections.tenure e he).2.2.1.mono ?_
  rintro v ⟨L, hL⟩
  exact hsim.ballots _ hL

/-- Node 0 wins term 1 with the vote of node 1, and its first loop reaches nobody. -/
def firstLeader : List (Action (Fin 3)) := List.flatten
  [[.move (.timeout 0)], vote 0 0, noVote 0, [.move (.endElection 0)],
    unserved (.background 0), unserved (.background 0), [.move (.endLoop 0)]]

/-- Node 1 deposes the idle leader and sends as the leader of term 2. -/
def successionRun : List (Action (Fin 3)) := List.flatten
  [firstLeader, [.move (.timeout 1)], vote 1 2, vote 1 3,
    [.move (.endElection 1), .move (.send (.background 1))]]

theorem messages_speakForTerm_succession : ∃ c : Cluster (Fin 3),
    (system (Config.complete 3)).Reach DeposedQuiescent c ∧
      (∃ call ∈ c.appendCalls, call.rpc.term = 2 ∧ call.rpc.leaderId = 1) ∧
      ∀ call ∈ c.appendCalls, SpeaksForTerm c call := by
  have hrun : (run (Config.complete 3) DeposedQuiescent .init successionRun).any
      (fun c => decide (∃ call ∈ c.appendCalls, call.rpc.term = 2 ∧ call.rpc.leaderId = 1)) =
        true := by decide +kernel
  obtain ⟨c, hreach, hp⟩ := exists_reach hrun
  exact ⟨c, hreach, of_decide_eq_true hp, messages_speakForTerm hreach⟩

/-- The heartbeat loop of node 0 is between two peers when a vote request of term 2
deposes it: the next message carries term 2 and node 0 as leader. -/
def deposedSenderRun : List (Action (Fin 3)) :=
  firstLeader ++ [.move (.heartbeat 0), .move (.timeout 1), .move (.sendVote 1),
    .move (.deliverVote 2), .move (.send (.background 0))]

theorem message_of_follower : ∃ c : Cluster (Fin 3),
    (system (Config.complete 3)).Reach CrashFree c ∧
      ∃ call ∈ c.appendCalls, call.rpc.term = 2 ∧ call.rpc.leaderId = 0 ∧
        call.sender.state = .follower ∧ ¬ SpeaksForTerm c call := by
  have hrun : (run (Config.complete 3) CrashFree .init deposedSenderRun).any
      (fun c => decide (∃ call ∈ c.appendCalls, call.rpc.term = 2 ∧ call.rpc.leaderId = 0 ∧
        call.sender.state = .follower)) = true := by decide +kernel
  obtain ⟨c, hreach, hp⟩ := exists_reach hrun
  obtain ⟨call, hcall, hterm, hleader, hstate⟩ := of_decide_eq_true hp
  refine ⟨c, hreach, call, hcall, hterm, hleader, hstate, fun hspeaks => ?_⟩
  rw [hspeaks.leader] at hstate
  cases hstate

end Cluster

end RaftKv
