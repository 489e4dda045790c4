-- SUMMARY: The moves of an election are matched by the abstract protocol.
import RaftKv.Refinement.Simulation

/-!
# Elections

A timeout is a campaign, an answered vote request raises the term and grants, a reply
of a later term raises it, and a majority of counted votes is a majority of ballots.
-/

namespace RaftKv

open TermLog
open Consensus (Ballot Tenure Message Ack Elections Logs Safe)

namespace Cluster

variable {ι : Type} [Fintype ι] [DecidableEq ι] {strict : Prop} {s s' : Abstract ι}
  {c c' : Cluster ι} {cfg : Config ι}

/-- Only node `i` and its peer changed. -/
theorem Sim.nodes_update (h : Sim strict s c) (hext : Extends s s') {i : ι} {n : RaftNode ι}
    (hnodes : c'.nodes = (c.setNode i n).nodes)
    (hother : ∀ j, j ≠ i → s'.peer j = s.peer j) (hi : NodeSim strict s' i n) :
    ∀ j, NodeSim strict s' j (c'.nodes j) := by
  intro j
  rw [hnodes, setNode_nodes]
  split
  · rename_i hj; rw [hj]; exact hi
  · rename_i hj; exact (h.nodes j).mono hext (hother j hj)

/-- Nothing the protocol sees changed. -/
theorem Sim.moved_same (h : Sim strict s c) (hel : Elections LogEntry.term s) {m : Move ι}
    (hm : Moved cfg c m c') (hnodes : ∀ j, NodeSim strict s j (c'.nodes j))
    (hmove : (∀ i, m ≠ .timeout i) ∧ (∀ k, m ≠ .deliverVote k) ∧ (∀ t, m ≠ .send t) ∧
      ∀ k, m ≠ .deliverAppend k) : Sim strict s c' :=
  h.moved hel hm (.refl s) hnodes (fun i hi => absurd hi (hmove.1 i))
    (fun k _ hk => absurd hk (hmove.2.1 k)) (fun t _ _ ht => absurd ht (hmove.2.2.1 t))
    (fun k _ hk => absurd hk (hmove.2.2.2 k)) (fun _ hb => Or.inl hb)

/-! ## Later terms -/

/-- A node that steps down for a later term. -/
theorem NodeSim.stepDown {i : ι} {n : RaftNode ι} (h : NodeSim strict s i n) {t : Nat} :
    NodeSim strict (s.next (.raise i t none)) i (n.stepDown t) := by
  refine h.change (Extends.next s _) ?_ ((h.wf.setTerm t).setVoted none)
    (RaftNode.stepDown_trace n t) ?_ (by simp) rfl rfl (fun _ => rfl) (fun _ => le_refl _)
  · simp [Consensus.State.next, h.peer, RaftNode.stepDown_peer]
  · intro x hx
    simp only [List.mem_cons, List.not_mem_nil, or_false] at hx
    rcases hx with rfl | rfl <;> trivial

omit [DecidableEq ι] in
/-- The hint at the leader is no part of the relation. -/
theorem NodeSim.setLeaderId {i : ι} {n : RaftNode ι} (h : NodeSim strict s i n) (l : Option ι) :
    NodeSim strict s i { n with currentLeaderId := l } :=
  ⟨h.peer, h.wf, h.events, h.reached, h.applied⟩

/-! ## Campaigning -/

theorem Sim.timeout (h : Sim strict s c) (hel : Elections LogEntry.term s) {i : ι}
    (hidle : c.background i = .idle) (hstate : (c.nodes i).state ≠ .leader) :
    ∃ s', Follows strict s s' ∧ Sim strict s'
      ((c.setNode i ((c.nodes i).startElection i).1).setBackground i
        (.election ⟨((c.nodes i).startElection i).2, 1, cfg.peers i, none⟩)) := by
  have hm : Moved cfg c _ _ := .timeout hidle hstate
  have hi := h.nodes i
  have hterm : (s.peer i).term = (c.nodes i).store.term := by rw [hi.peer]; rfl
  have hlog : (s.peer i).log = (c.nodes i).store.log := by rw [hi.peer]; rfl
  refine ⟨s.next (.campaign i), Follows.single trivial fun _ => trivial,
    h.moved hel hm (Extends.next s _) ?_ ?_ (by simp) (by simp) (by simp) ?_⟩
  · refine h.nodes_update (Extends.next s _) rfl ?_ ?_
    · intro j hj; simp [Consensus.State.next, hj]
    · refine hi.change (Extends.next s _) ?_ (RaftNode.startElection_wf i hi.wf)
        (RaftNode.startElection_trace i _) ?_ (by simp) rfl rfl (fun _ => rfl) (fun _ => le_refl _)
      · rw [RaftNode.startElection_peer]
        simp [Consensus.State.next, hi.peer, RaftNode.peer]
      · intro x hx
        simp only [List.mem_cons, List.not_mem_nil, or_false] at hx
        rcases hx with rfl | rfl | rfl <;> trivial
  · intro j hj
    cases hj
    refine ⟨(s.peer i).log, ?_, ?_, ?_⟩
    · rw [hlog]
      exact Or.inl (by rw [hterm, hlog]; rfl)
    · rw [hlog]; exact hi.wf.length
    · rw [hlog]; exact hi.wf.lastTerm
  · rintro b (rfl | hb)
    · refine Or.inr (Or.inl ⟨rfl, ?_⟩)
      simp [RaftNode.startElection_trace, hterm]
    · exact Or.inl hb

/-! ## Voting -/

/-- Taking over the term of a vote request. -/
theorem NodeSim.heardVote {i : ι} {n : RaftNode ι} (h : NodeSim strict s i n)
    (rpc : RequestVote ι) (hterm : n.store.term ≤ rpc.term) :
    ∃ s', Follows strict s s' ∧ Extends s s' ∧ s'.ballots = s.ballots ∧
      (∀ j, j ≠ i → s'.peer j = s.peer j) ∧ (s'.peer i).term = rpc.term ∧
      NodeSim strict s' i (n.heardVote rpc) := by
  have hpterm : (s.peer i).term = n.store.term := by rw [h.peer]; rfl
  unfold RaftNode.heardVote
  split
  · rename_i hgt
    refine ⟨s.next (.raise i rpc.term none), Follows.single ?_ fun _ => trivial,
      Extends.next s _, rfl, ?_, ?_, h.stepDown.setLeaderId none⟩
    · rw [Consensus.State.Enabled, hpterm]; exact hgt
    · intro j hj; simp [Consensus.State.next, hj]
    · simp [Consensus.State.next]
  · exact ⟨s, TransitionSystem.Steps.refl s, Extends.refl s, rfl, fun _ _ => rfl,
      by omega, h⟩

theorem Sim.deliverVote (h : Sim strict s c) (hsound : Sound strict s) (hth : Threads cfg c)
    {k : Nat} {call : VoteCall ι} (hcall : c.voteCalls[k]? = some call)
    (hnew : call.reply = none) (hfree : c.locked call.dst = false) :
    ∃ s', Follows strict s s' ∧ Sim strict s'
      { c.setNode call.dst ((c.nodes call.dst).handleRequestVote call.rpc).1 with
        voteCalls := c.voteCalls.set k
          { call with reply := some ((c.nodes call.dst).handleRequestVote call.rpc).2 } } := by
  have hm : Moved cfg c _ _ := .deliverVote hcall hnew hfree
  have hmem := List.mem_of_getElem? hcall
  obtain ⟨hcand, hne⟩ := hth.voteCalls call hmem
  obtain ⟨L, hL, hlen, hlast⟩ := (h.votes call hmem).requested
  have hi := h.nodes call.dst
  rcases (c.nodes call.dst).handleRequestVote_cases call.rpc with
    ⟨-, heq⟩ | ⟨hterm, hgrants, heq⟩ | ⟨hterm, heq⟩
  · -- stale: nothing happens
    refine ⟨s, TransitionSystem.Steps.refl s,
      h.moved hsound.elections hm (.refl s) ?_ (by simp) ?_ (by simp) (by simp) fun _ hb => Or.inl hb⟩
    · refine h.nodes_update (.refl s) rfl (fun _ _ => rfl) ?_
      rw [heq]; exact hi
    · intro k' call' hk hcall' hgranted
      cases hk
      rw [hcall] at hcall'
      cases hcall'
      rw [heq] at hgranted
      cases hgranted
  · obtain ⟨s₁, hfol, hext, hbal, hother, hpt, hi₁⟩ := hi.heardVote call.rpc hterm
    have hpeer := hi₁.peer
    have hext₂ := hext.trans (Extends.next s₁ (.grant call.dst call.src L))
    have hvote : (⟨call.dst, call.rpc.term, call.src, (s₁.peer call.dst).log⟩ :
        Ballot ι LogEntry) ∈ (s₁.next (.grant call.dst call.src L)).ballots :=
      Or.inl (by rw [hpt])
    have hen : s₁.Enabled LogEntry.term (.grant call.dst call.src L) := by
      refine ⟨?_, hne.symm, ?_, ?_⟩
      · rw [← hcand]
        unfold Consensus.Peer.FreeFor
        rw [hpeer]
        exact hgrants.1
      · rw [hpt]; exact hext.ballots _ hL
      · rw [hpeer]
        rcases hgrants.2 with hgt | ⟨hlt, hge⟩
        · left
          rw [← hlast]
          exact hi₁.wf.lastTerm ▸ hgt
        · right
          rw [← hlast, ← hlen]
          exact ⟨hi₁.wf.lastTerm ▸ hlt.symm, hi₁.wf.length ▸ hge⟩
    refine ⟨_, hfol.trans (Follows.single hen fun _ => trivial),
      h.moved hsound.elections hm hext₂ ?_ (by simp) ?_ (by simp) (by simp) ?_⟩
    · refine h.nodes_update hext₂ rfl ?_ ?_
      · intro j hj; simp [Consensus.State.next, hj, hother j hj]
      · rw [heq]
        refine hi₁.change (Extends.next s₁ _) ?_ (hi₁.wf.setVoted _) rfl ?_ ?_ rfl rfl
          (fun _ => rfl) (fun _ => le_refl _)
        · simp [Consensus.State.next, hpeer, RaftNode.peer, RaftNode.persist, hcand]
        · intro x hx
          rw [List.mem_singleton.mp hx]
          trivial
        · exact fun _ hl _ _ => Or.inl ⟨hl, rfl, le_refl _⟩
    · intro k' call' hk hcall' _
      cases hk
      rw [hcall] at hcall'
      cases hcall'
      exact ⟨_, hvote⟩
    · rintro b (rfl | hb)
      · refine Or.inr (Or.inr ⟨{ call with
          reply := some ((c.nodes call.dst).handleRequestVote call.rpc).2 }, ?_, rfl, rfl, ?_,
          _, rfl, by rw [heq]⟩)
        · exact List.mem_of_getElem? (List.getElem?_set_self (List.getElem?_eq_some_iff.mp hcall).1)
        · exact hpt.symm
      · exact Or.inl (hbal ▸ hb)
  · obtain ⟨s₁, hfol, hext, hbal, hother, -, hi₁⟩ := hi.heardVote call.rpc hterm
    refine ⟨s₁, hfol, h.moved hsound.elections hm hext ?_ (by simp) ?_ (by simp) (by simp)
      fun _ hb => Or.inl (hbal ▸ hb)⟩
    · refine h.nodes_update hext rfl hother ?_
      rw [heq]; exact hi₁
    · intro k' call' hk hcall' hgranted
      cases hk
      rw [hcall] at hcall'
      cases hcall'
      rw [heq] at hgranted
      cases hgranted

theorem Sim.deposed (h : Sim strict s c) (hel : Elections LogEntry.term s) {i : ι} {votes : Nat}
    {resp : RequestVoteResponse} (hterm : (c.nodes i).store.term < resp.term)
    (hm : Moved cfg c (.voteReply i)
      ((c.setNode i ((c.nodes i).voteReply votes resp).1).setBackground i .idle)) :
    ∃ s', Follows strict s s' ∧ Sim strict s'
      ((c.setNode i ((c.nodes i).voteReply votes resp).1).setBackground i .idle) := by
  have hi := h.nodes i
  have hpterm : (s.peer i).term = (c.nodes i).store.term := by rw [hi.peer]; rfl
  refine ⟨s.next (.raise i resp.term none), Follows.single (by
      rw [Consensus.State.Enabled, hpterm]; exact hterm) fun _ => trivial,
    h.moved hel hm (Extends.next s _) ?_ (by simp) (by simp) (by simp) (by simp) fun _ hb => Or.inl hb⟩
  refine h.nodes_update (Extends.next s _) rfl ?_ ?_
  · intro j hj; simp [Consensus.State.next, hj]
  · rw [RaftNode.voteReply_deposed votes hterm]
    exact hi.stepDown.setLeaderId none

/-! ## Winning -/

omit [DecidableEq ι] in
theorem card_eq (cfg : Config ι) (i : ι) : Fintype.card ι = (cfg.peers i).length + 1 := by
  classical
  have huniv : (Finset.univ : Finset ι) = insert i (cfg.peers i).toFinset := by
    ext j
    simp only [Finset.mem_univ, Finset.mem_insert, List.mem_toFinset, cfg.mem_peers, true_iff]
    exact Classical.em _
  rw [← Finset.card_univ, huniv, Finset.card_insert_of_notMem]
  · rw [List.toFinset_card_of_nodup (cfg.nodup i)]
  · rw [List.mem_toFinset, cfg.mem_peers]
    exact fun h => h rfl

omit [DecidableEq ι] in
/-- `majority` votes of different nodes are a majority. -/
theorem majority_of_card (cfg : Config ι) {Q : Set ι} (i : ι) (F : Finset ι) (hF : ∀ v ∈ F, v ∈ Q)
    (hcard : RaftNode.majority (cfg.peers i) ≤ F.card) : Majority Q := by
  refine ⟨F, hF, ?_⟩
  have hn := card_eq cfg i
  unfold RaftNode.majority at hcard
  omega

omit [DecidableEq ι] in
/-- A candidate that counted a majority of votes may win its term. -/
theorem Sim.win_enabled (h : Sim strict s c) (hth : Threads cfg c) {i : ι} {rpc : RequestVote ι}
    {votes : Nat} (hbg : c.background i = .election ⟨rpc, votes, [], none⟩)
    (hvotes : votes ≥ RaftNode.majority (cfg.peers i)) (hstate : (c.nodes i).state = .candidate) :
    s.Enabled LogEntry.term (.win i (c.nodes i).noopEntry) := by
  have hi := h.nodes i
  have hok := hth.elections i _ hbg
  refine ⟨?_, ?_, ?_⟩
  · rw [hi.peer]; simp [RaftNode.peer, hstate, NodeState.role]
  · obtain ⟨F, -, hcard, hF⟩ := hok.votes
    refine majority_of_card cfg i F ?_ (hcard ▸ hvotes)
    have hpt : (s.peer i).term = rpc.term := by rw [hi.peer]; exact hok.term hstate
    intro v hv
    rw [hpt]
    rcases hF v hv with rfl | ⟨-, call, hmem, hsrc, hdst, hct, resp, hreply, hgranted⟩
    · obtain ⟨L, hL, -⟩ := h.elections v _ hbg
      exact ⟨L, hL⟩
    · have hgr := (h.votes call hmem).granted resp hreply hgranted
      rw [hdst, hct, hsrc] at hgr
      exact hgr
  · rw [hi.peer]; rfl

theorem NodeSim.becomeLeader {i : ι} {n : RaftNode ι} (h : NodeSim strict s i n)
    (hsafe : strict → Safe LogEntry.term s) (hstate : n.state = .candidate) :
    NodeSim strict (s.next (.win i n.noopEntry)) i (n.becomeLeader i) := by
  obtain ⟨hsm, hlast⟩ := RaftNode.becomeLeader_applied i hstate
  have hpeer := RaftNode.becomeLeader_peer i hstate
  have hlog : (n.becomeLeader i).store.log = n.store.log ++ [n.noopEntry] :=
    congrArg Consensus.Peer.log hpeer
  have hcommit : (n.becomeLeader i).store.commitIndex = n.store.commitIndex :=
    congrArg Consensus.Peer.commit hpeer
  refine h.change (Extends.next s _) ?_ (RaftNode.becomeLeader_wf i hstate h.wf)
    (RaftNode.becomeLeader_trace i hstate) ?_ ?_ hsm hlast ?_ (fun _ => hcommit.ge)
  · rw [hpeer]
    simp [Consensus.State.next, h.peer, RaftNode.peer]
  · intro x hx
    simp only [List.mem_cons, List.not_mem_nil, or_false] at hx
    rcases hx with rfl | rfl
    · exact Or.inl (by rw [h.peer]; rfl)
    · trivial
  · intro _ _ j hj
    rw [RaftNode.becomeLeader_matchIndex i hstate] at hj
    exact absurd hj (lt_irrefl _)
  · intro hs
    have hle := (h.applied hs).1.trans (h.committed (hsafe hs)).1
    rw [hlog, List.take_append_of_le_length hle]

theorem Sim.elected (h : Sim strict s c) (hsound : Sound strict s) (hth : Threads cfg c) {i : ι}
    {rpc : RequestVote ι} {votes : Nat} (hbg : c.background i = .election ⟨rpc, votes, [], none⟩)
    (hvotes : votes ≥ RaftNode.majority (cfg.peers i)) (hstate : (c.nodes i).state = .candidate) :
    ∃ s', Follows strict s s' ∧ Sim strict s'
      ((c.setNode i ((c.nodes i).becomeLeader i)).setBackground i
        (.leading ⟨cfg.peers i, none⟩)) := by
  have hm : Moved cfg c _ _ := .elected hbg hvotes hstate
  have hen := h.win_enabled hth hbg hvotes hstate
  refine ⟨_, Follows.single hen fun _ => trivial,
    h.moved hsound.elections hm (Extends.next s _) ?_ (by simp) (by simp) (by simp) (by simp)
      fun _ hb => Or.inl hb⟩
  refine h.nodes_update (Extends.next s _) rfl ?_ ((h.nodes i).becomeLeader hsound.safe hstate)
  intro j hj; simp [Consensus.State.next, hj]

end Cluster

end RaftKv
