-- SUMMARY: The simulation relation between the cluster and the abstract protocol, and what carries it across a change of one node.
import RaftKv.Threads
import RaftKv.Conditions
import RaftKv.Lib.Commitment

/-!
# The simulation relation

A cluster is related to a state of the abstract protocol when its nodes are the peers,
its calls are the published snapshots and ballots, and its histories tell of tenures
and committed logs that the abstract state has. The relation comes in two strengths.
The weak one holds along every run; the strong one (`strict`) along clean runs, where
every abstract move is legal, and it adds what needs committed logs to be safe.
-/

namespace RaftKv

open TermLog
open Consensus (Ballot Tenure Message Ack Elections Logs Safe)

namespace Cluster

variable {ι : Type}

/-- A state of the abstract protocol over this log. -/
abbrev Abstract (ι : Type) := Consensus.State ι LogEntry

/-! ## Abstract runs -/

section Follows

variable [Fintype ι]

/-- Moves are legal in the strong reading and arbitrary in the weak one. -/
def Allowed (strict : Prop) (s : Abstract ι) (m : Consensus.Move ι LogEntry) : Prop :=
  strict → s.Legal LogEntry.term m

variable [DecidableEq ι]

abbrev Follows (strict : Prop) (s s' : Abstract ι) : Prop :=
  (Consensus.system LogEntry.term).Steps (Allowed strict) s s'

/-- What the runs of allowed moves keep. -/
structure Sound (strict : Prop) (s : Abstract ι) : Prop where
  elections : Elections LogEntry.term s
  logs : Logs LogEntry.term s
  safe : strict → Safe LogEntry.term s

variable {strict : Prop} {s s' : Abstract ι}

theorem Follows.single {m : Consensus.Move ι LogEntry} (hen : s.Enabled LogEntry.term m)
    (hlegal : strict → s.Legal LogEntry.term m) : Follows strict s (s.next m) :=
  TransitionSystem.Steps.single hlegal ⟨hen, rfl⟩

omit [DecidableEq ι] in
theorem Sound.init : Sound strict (Consensus.State.init : Abstract ι) :=
  ⟨Elections.init, Logs.init, fun _ => Safe.init⟩

theorem Sound.follows (h : Sound strict s) (hf : Follows strict s s') : Sound strict s' := by
  refine TransitionSystem.Steps.preserves hf ?_ h
  rintro t m t' - ht hallowed ⟨hen, rfl⟩
  exact ⟨ht.elections.step hen, ht.logs.step ht.elections hen,
    fun hs => (ht.safe hs).step ht.logs ht.elections hen (hallowed hs)⟩

end Follows

/-- The remembered parts of a state only grow. -/
structure Extends (s s' : Abstract ι) : Prop where
  ballots : ∀ b ∈ s.ballots, b ∈ s'.ballots
  tenures : ∀ e ∈ s.tenures, e ∈ s'.tenures
  sent : ∀ m ∈ s.sent, m ∈ s'.sent
  acks : ∀ a ∈ s.acks, a ∈ s'.acks

theorem Extends.refl (s : Abstract ι) : Extends s s :=
  ⟨fun _ h => h, fun _ h => h, fun _ h => h, fun _ h => h⟩

theorem Extends.trans {s s' s'' : Abstract ι} (h : Extends s s') (h' : Extends s' s'') :
    Extends s s'' :=
  ⟨fun b hb => h'.ballots b (h.ballots b hb), fun e he => h'.tenures e (h.tenures e he),
    fun m hm => h'.sent m (h.sent m hm), fun a ha => h'.acks a (h.acks a ha)⟩

theorem Extends.next [DecidableEq ι] (s : Abstract ι) (m : Consensus.Move ι LogEntry) :
    Extends s (s.next m) := by
  cases m <;> constructor <;> intro x hx <;>
    first | exact hx | exact Set.mem_insert_of_mem _ hx

/-! ## The relation -/

section Relation

variable [Fintype ι] (strict : Prop) (s : Abstract ι)

/-- What an event in the history of node `i` says about the abstract state. -/
def EventOk (i : ι) : Event ι → Prop
  | .elected T l => (⟨i, T, l⟩ : Tenure ι LogEntry) ∈ s.tenures
  | .committed T P => strict → s.Committed LogEntry.term T P
  | .applied k e => strict → ∃ T P, s.Committed LogEntry.term T P ∧ 1 ≤ k ∧ P[k - 1]? = some e
  | _ => True

structure NodeSim (i : ι) (n : RaftNode ι) : Prop where
  peer : s.peer i = n.peer
  wf : n.store.Wf
  events : ∀ x ∈ n.trace, EventOk strict s i x
  /-- What a leader believes of a peer, the peer acknowledged in the leader's term. -/
  reached : strict → n.state = .leader → ∀ j, 0 < n.matchIndex j →
    ∃ a ∈ s.acks, a.node = j ∧ a.term = n.store.term ∧ n.matchIndex j ≤ a.log.length
  /-- The state machine is the fold of the applied part of the log. -/
  applied : strict → n.store.lastApplied ≤ n.store.commitIndex ∧
    n.sm = StateMachine.empty.applyAll ((n.store.log.take n.store.lastApplied).map (·.command))

/-- `rpc` tells of the log that `i` campaigned with. -/
def Requested (i : ι) (rpc : RequestVote ι) : Prop :=
  ∃ L, (⟨i, rpc.term, i, L⟩ : Ballot ι LogEntry) ∈ s.ballots ∧ rpc.lastLogIndex = L.length ∧
    rpc.lastLogTerm = lastTerm LogEntry.term L

structure VoteSim (call : VoteCall ι) : Prop where
  requested : Requested s call.src call.rpc
  granted : ∀ resp, call.reply = some resp → resp.voteGranted = true →
    call.dst ∈ s.votersFor call.rpc.term call.src

structure AppendSim (call : AppendCall ι) : Prop where
  sent : (⟨call.src, call.sender.peer⟩ : Message ι LogEntry) ∈ s.sent
  wf : call.sender.store.Wf
  tenure : call.sender.state = .leader →
    ∃ e ∈ s.tenures, e.leader = call.src ∧ e.term = call.sender.store.term
  ack : ∀ resp, call.reply = some resp → resp.success = true →
    (⟨call.dst, call.rpc.term, call.sender.store.log⟩ : Ack ι LogEntry) ∈ s.acks

/-- `v` voted for `i` in term `T`: for itself as a candidate, or in a reply. -/
def Voted (c : Cluster ι) (i : ι) (T : Nat) (v : ι) : Prop :=
  (v = i ∧ .candidate T ∈ (c.nodes i).trace) ∨ c.Granted i T v

structure Sim (c : Cluster ι) : Prop where
  nodes : ∀ i, NodeSim strict s i (c.nodes i)
  votes : ∀ call ∈ c.voteCalls, VoteSim s call
  appends : ∀ call ∈ c.appendCalls, AppendSim s call
  elections : ∀ i e, c.background i = .election e → Requested s i e.rpc
  ballots : ∀ b ∈ s.ballots, Voted c b.candidate b.term b.voter

end Relation

section Monotone

variable [Fintype ι] {strict : Prop} {s s' : Abstract ι} {c c' : Cluster ι} {i : ι}

theorem EventOk.mono (hext : Extends s s') {x : Event ι} (h : EventOk strict s i x) :
    EventOk strict s' i x := by
  cases x with
  | wrote d => trivial
  | candidate T => trivial
  | elected T l => exact hext.tenures _ h
  | committed T P => exact fun hs => (h hs).mono hext.acks (le_refl _)
  | applied k e =>
    intro hs
    obtain ⟨T, P, hP, hk⟩ := h hs
    exact ⟨T, P, hP.mono hext.acks (le_refl _), hk⟩

omit [Fintype ι] in
theorem Requested.mono (hext : Extends s s') {rpc : RequestVote ι} (h : Requested s i rpc) :
    Requested s' i rpc := by
  obtain ⟨L, hL, hrest⟩ := h
  exact ⟨L, hext.ballots _ hL, hrest⟩

omit [Fintype ι] in
theorem VoteSim.mono (hext : Extends s s') {call : VoteCall ι} (h : VoteSim s call) :
    VoteSim s' call where
  requested := h.requested.mono hext
  granted := fun resp hr hg =>
    Consensus.State.votersFor_mono hext.ballots (h.granted resp hr hg)

omit [Fintype ι] in
theorem AppendSim.mono (hext : Extends s s') {call : AppendCall ι} (h : AppendSim s call) :
    AppendSim s' call where
  sent := hext.sent _ h.sent
  wf := h.wf
  tenure := by
    intro hl
    obtain ⟨e, he, hrest⟩ := h.tenure hl
    exact ⟨e, hext.tenures e he, hrest⟩
  ack := fun resp hr hok => hext.acks _ (h.ack resp hr hok)

omit [Fintype ι] in
theorem Voted.mono (hg : Grows c c') {v : ι} {T : Nat} (h : Voted c i T v) : Voted c' i T v := by
  rcases h with ⟨rfl, hmem⟩ | hgr
  · exact Or.inl ⟨rfl, (hg.trace v).subset hmem⟩
  · exact Or.inr (hgr.mono hg)

end Monotone

/-! ## A change of one node -/

section Change

variable [Fintype ι] {strict : Prop} {s s' : Abstract ι} {i : ι} {n n' : RaftNode ι}

/-- A section that leaves the state machine alone and keeps the applied entries. -/
theorem NodeSim.change (h : NodeSim strict s i n) (hext : Extends s s')
    (hpeer : s'.peer i = n'.peer) (hwf : n'.store.Wf) {events : List (Event ι)}
    (htrace : n'.trace = n.trace ++ events) (hevents : ∀ x ∈ events, EventOk strict s' i x)
    (hreached : strict → n'.state = .leader → ∀ j, 0 < n'.matchIndex j →
      (n.state = .leader ∧ n'.store.term = n.store.term ∧ n'.matchIndex j ≤ n.matchIndex j) ∨
      ∃ a ∈ s'.acks, a.node = j ∧ a.term = n'.store.term ∧ n'.matchIndex j ≤ a.log.length)
    (hsm : n'.sm = n.sm) (hlast : n'.store.lastApplied = n.store.lastApplied)
    (hkeep : strict → n'.store.log.take n.store.lastApplied =
      n.store.log.take n.store.lastApplied)
    (hcommit : strict → n.store.commitIndex ≤ n'.store.commitIndex) :
    NodeSim strict s' i n' where
  peer := hpeer
  wf := hwf
  events := by
    intro x hx
    rw [htrace] at hx
    rcases List.mem_append.mp hx with hold | hnew
    · exact (h.events x hold).mono hext
    · exact hevents x hnew
  reached := by
    intro hs hl j hj
    rcases hreached hs hl j hj with ⟨hlead, hterm, hle⟩ | hnew
    · obtain ⟨a, ha, hnode, hat, hlen⟩ := h.reached hs hlead j (by omega)
      exact ⟨a, hext.acks a ha, hnode, hat.trans hterm.symm, hle.trans hlen⟩
    · exact hnew
  applied := by
    intro hs
    obtain ⟨hle, hfold⟩ := h.applied hs
    rw [hlast, hkeep hs, hsm]
    exact ⟨hle.trans (hcommit hs), hfold⟩

theorem NodeSim.mono (h : NodeSim strict s i n) (hext : Extends s s')
    (hpeer : s'.peer i = s.peer i) : NodeSim strict s' i n :=
  h.change hext (hpeer.trans h.peer) h.wf (List.append_nil _).symm (by simp)
    (fun _ hl _ _ => Or.inl ⟨hl, rfl, le_refl _⟩) rfl rfl (fun _ => rfl) (fun _ => le_refl _)

/-- The commit index of a node covers a committed prefix of its log. -/
theorem NodeSim.committed (h : NodeSim strict s i n) (hsafe : Safe LogEntry.term s) :
    n.store.commitIndex ≤ n.store.log.length ∧
      s.Committed LogEntry.term n.store.term (n.store.log.take n.store.commitIndex) := by
  have hc := hsafe.commit i
  rw [h.peer] at hc
  exact hc

/-- An applied entry stands in the part of the log it was read from. -/
theorem appliedEvents_ok (start : Nat) {L P : List LogEntry} {T : Nat}
    (hP : strict → s.Committed LogEntry.term T P)
    (hL : ∀ k e, L[k]? = some e → P[start + k]? = some e) :
    ∀ x ∈ RaftNode.appliedEvents (start + 1) L, EventOk strict s i x := by
  intro x hx
  obtain ⟨k, e, he, rfl⟩ := RaftNode.mem_appliedEvents.mp hx
  refine fun hs => ⟨T, P, hP hs, by omega, ?_⟩
  rw [show start + 1 + k - 1 = start + k by omega]
  exact hL k e he

theorem NodeSim.applyCommitted (h : NodeSim strict s i n)
    (hsafe : strict → Safe LogEntry.term s) : NodeSim strict s i n.applyCommitted := by
  by_cases hs : strict
  · obtain ⟨hle, hfold⟩ := h.applied hs
    obtain ⟨hlen, hc⟩ := h.committed (hsafe hs)
    obtain ⟨hlast, hsm, htrace⟩ := RaftNode.applyCommitted_spec h.wf hle hlen
    have hcut : (n.store.log.take n.store.commitIndex).take n.store.lastApplied =
        n.store.log.take n.store.lastApplied := by
      rw [List.take_take, Nat.min_eq_left hle]
    refine ⟨by rw [RaftNode.applyCommitted_peer]; exact h.peer,
      RaftNode.applyCommitted_wf h.wf, ?_, ?_, fun _ => ?_⟩
    · intro x hx
      rw [htrace] at hx
      rcases List.mem_append.mp hx with hold | hnew
      · exact h.events x hold
      · exact appliedEvents_ok _ (fun _ => hc) (by simp) x hnew
    · intro _ hl j hj
      rw [RaftNode.applyCommitted_state] at hl
      rw [RaftNode.applyCommitted_matchIndex] at hj ⊢
      rw [RaftNode.applyCommitted_term]
      exact h.reached hs hl j hj
    · rw [hlast, RaftNode.applyCommitted_commitIndex, RaftNode.applyCommitted_log, hsm, hfold]
      refine ⟨le_refl _, ?_⟩
      rw [← StateMachine.applyAll_append, ← List.map_append, ← hcut, List.take_append_drop]
  · refine ⟨by rw [RaftNode.applyCommitted_peer]; exact h.peer,
      RaftNode.applyCommitted_wf h.wf, ?_, fun h => absurd h hs, fun h => absurd h hs⟩
    obtain ⟨events, htrace, hevents⟩ := RaftNode.applyCommitted_events (n := n)
    intro x hx
    rw [htrace] at hx
    rcases List.mem_append.mp hx with hold | hnew
    · exact h.events x hold
    · obtain ⟨k, e, rfl⟩ := hevents x hnew
      exact fun h => absurd h hs

end Change

/-! ## A move of the cluster -/

variable [Fintype ι] [DecidableEq ι] {strict : Prop} {s s' : Abstract ι} {c c' : Cluster ι}
  {cfg : Config ι}

/-- The relation after a move, from what the move did to the nodes and added to the
remembered parts of the abstract state. -/
theorem Sim.moved (h : Sim strict s c) (hel : Elections LogEntry.term s) {m : Move ι}
    (hm : Moved cfg c m c') (hext : Extends s s')
    (hnodes : ∀ j, NodeSim strict s' j (c'.nodes j))
    (hrequest : ∀ i, m = .timeout i → Requested s' i ((c.nodes i).startElection i).2)
    (hgrant : ∀ k call, m = .deliverVote k → c.voteCalls[k]? = some call →
      ((c.nodes call.dst).handleRequestVote call.rpc).2.voteGranted = true →
        call.dst ∈ s'.votersFor call.rpc.term call.src)
    (hsend : ∀ t i l, m = .send t → c.sendLoop t = some (i, l) →
      (⟨i, (c.nodes i).peer⟩ : Message ι LogEntry) ∈ s'.sent)
    (hack : ∀ k call, m = .deliverAppend k → c.appendCalls[k]? = some call →
      ((c.nodes call.dst).handleAppendEntries call.rpc).2.success = true →
        (⟨call.dst, call.rpc.term, call.sender.store.log⟩ : Ack ι LogEntry) ∈ s'.acks)
    (hballots : ∀ b ∈ s'.ballots, b ∈ s.ballots ∨ Voted c' b.candidate b.term b.voter) :
    Sim strict s' c' where
  nodes := hnodes
  votes := by
    intro call' hcall'
    rcases hm.voteCalls hcall' with hold | ⟨votes, todo, hbg, hnone⟩ | ⟨k, call, rfl, hk, rfl⟩
    · exact (h.votes call' hold).mono hext
    · exact ⟨(h.elections _ _ hbg).mono hext, by intro resp hr; rw [hnone] at hr; cases hr⟩
    · refine ⟨((h.votes call (List.mem_of_getElem? hk)).mono hext).requested, ?_⟩
      intro resp hr hg
      cases hr
      exact hgrant k call rfl hk hg
  appends := by
    intro call' hcall'
    rcases hm.appendCalls hcall' with hold | ⟨t, i, p, todo, rfl, hloop, rfl⟩ |
      ⟨k, call, rfl, hk, rfl⟩
    · exact (h.appends call' hold).mono hext
    · refine ⟨hsend t i _ rfl hloop, (h.nodes i).wf, fun hl => ?_, by simp⟩
      have hpeer := (h.nodes i).peer
      obtain ⟨e, he, hleader, hterm⟩ := hel.leader i (by
        rw [hpeer]; simp [RaftNode.peer, show (c.nodes i).state = .leader from hl, NodeState.role])
      refine ⟨e, hext.tenures e he, hleader, ?_⟩
      rw [hterm, hpeer]; rfl
    · obtain ⟨hsent, hwf, htenure, -⟩ := (h.appends call (List.mem_of_getElem? hk)).mono hext
      refine ⟨hsent, hwf, htenure, ?_⟩
      intro resp hr hok
      cases hr
      exact hack k call rfl hk hok
  elections := by
    intro i e he
    rcases hm.elections he with hold | ⟨rfl, -, rfl⟩ | ⟨rpc, votes, p, todo, hold, rfl, -⟩ |
      ⟨rpc, votes, p, todo, k, votes', hold, rfl, -⟩
    · exact (h.elections i e hold).mono hext
    · exact hrequest i rfl
    · exact (h.elections i _ hold).mono hext
    · exact (h.elections i _ hold).mono hext
  ballots := by
    intro b hb
    rcases hballots b hb with hold | hnew
    · exact (h.ballots b hold).mono hm.grows
    · exact hnew

end Cluster

end RaftKv
