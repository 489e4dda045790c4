-- SUMMARY: The moves of replication are matched by the abstract protocol: own appends, requests, accepted batches, replies and the commit rule.
import RaftKv.Refinement.Elections

/-!
# Replication

A request is a published snapshot, an accepted batch a graft of it, and the commit rule
a legal commit when the reply it follows was processed in the term of its request.
-/

namespace RaftKv

open TermLog
open Consensus (Ballot Tenure Message Ack Elections Logs Safe)

namespace Cluster

variable {ι : Type} [Fintype ι] [DecidableEq ι] {strict : Prop} {s s' : Abstract ι}
  {c c' : Cluster ι} {cfg : Config ι}

/-! ## Own appends -/

/-- `submit` and `get` append an entry of the leader's term. -/
theorem NodeSim.appendOwn {i : ι} {n : RaftNode ι} (h : NodeSim strict s i n)
    (hsound : Sound strict s) (hstate : n.state = .leader) (cmd : Command) :
    ∃ s', Follows strict s s' ∧ Extends s s' ∧ s'.ballots = s.ballots ∧
      (∀ j, j ≠ i → s'.peer j = s.peer j) ∧ NodeSim strict s' i (n.appendOwn cmd).1 := by
  have hen : s.Enabled LogEntry.term (.extend i (n.appendOwn cmd).2) := by
    refine ⟨?_, ?_⟩
    · rw [h.peer]; simp [RaftNode.peer, hstate, NodeState.role]
    · rw [h.peer]; rfl
  refine ⟨_, Follows.single hen fun _ => trivial, Extends.next s _, rfl, ?_, ?_⟩
  · intro j hj; simp [Consensus.State.next, hj]
  · have hidx : (n.appendOwn cmd).2.index = n.store.log.length + 1 := by
      simp [RaftNode.appendOwn, h.wf.length]
    refine h.change (Extends.next s _) ?_ (h.wf.append hidx) rfl ?_ ?_ rfl rfl ?_
      (fun _ => le_refl _)
    · simp [Consensus.State.next, h.peer, RaftNode.peer, RaftNode.appendOwn, RaftNode.persist]
    · intro x hx
      rw [List.mem_singleton.mp hx]
      trivial
    · exact fun _ hl _ _ => Or.inl ⟨hl, rfl, le_refl _⟩
    · intro hs
      have hle := (h.applied hs).1.trans (h.committed (hsound.safe hs)).1
      exact List.take_append_of_le_length hle

/-- A client call that appends at node `i`. -/
theorem Sim.appendOwn (h : Sim strict s c) (hsound : Sound strict s) {m : Move ι} {i : ι}
    {cmd : Command} (hstate : (c.nodes i).state = .leader) (hm : Moved cfg c m c')
    (hnodes : c'.nodes = (c.setNode i ((c.nodes i).appendOwn cmd).1).nodes)
    (hmove : (∀ i, m ≠ .timeout i) ∧ (∀ k, m ≠ .deliverVote k) ∧ (∀ t, m ≠ .send t) ∧
      ∀ k, m ≠ .deliverAppend k) : ∃ s', Follows strict s s' ∧ Sim strict s' c' := by
  obtain ⟨s', hfol, hext, hbal, hother, hi⟩ := (h.nodes i).appendOwn hsound hstate cmd
  exact ⟨s', hfol, h.moved hsound.elections hm hext (h.nodes_update hext hnodes hother hi)
    (fun i hi => absurd hi (hmove.1 i)) (fun k _ hk => absurd hk (hmove.2.1 k))
    (fun t _ _ ht => absurd ht (hmove.2.2.1 t)) (fun k _ hk => absurd hk (hmove.2.2.2 k))
    fun _ hb => Or.inl (hbal ▸ hb)⟩

/-! ## Requests -/

theorem Sim.send (h : Sim strict s c) (hsound : Sound strict s) {t : Thread ι} {i p : ι}
    {todo : List ι} (hloop : c.sendLoop t = some (i, ⟨p :: todo, none⟩))
    (hclean : strict → (c.nodes i).state = .leader)
    (hm : Moved cfg c (.send t) c') (hnodes : c'.nodes = c.nodes) :
    ∃ s', Follows strict s s' ∧ Sim strict s' c' := by
  have hi := h.nodes i
  have hlegal : strict → s.Legal LogEntry.term (.publish i) := by
    intro hs
    simp [Consensus.State.Legal, hi.peer, RaftNode.peer, hclean hs, NodeState.role]
  refine ⟨s.next (.publish i), Follows.single trivial hlegal,
    h.moved hsound.elections hm (Extends.next s _) ?_ (by simp) (by simp) ?_ (by simp) fun _ hb => Or.inl hb⟩
  · intro j
    rw [hnodes]
    exact (h.nodes j).mono (Extends.next s _) rfl
  · intro t' i' l' ht hloop'
    cases ht
    rw [hloop] at hloop'
    cases hloop'
    exact Or.inl (by rw [hi.peer])

/-! ## Batches -/

/-- Taking over the term of a request that is not stale, as a follower. -/
theorem NodeSim.followLeader {i : ι} {n : RaftNode ι} (h : NodeSim strict s i n)
    (rpc : AppendEntries ι) (hterm : n.store.term ≤ rpc.term) :
    ∃ s', Follows strict s s' ∧ Extends s s' ∧ s'.ballots = s.ballots ∧ s'.sent = s.sent ∧
      (∀ j, j ≠ i → s'.peer j = s.peer j) ∧ NodeSim strict s' i (n.followLeader rpc) := by
  have hpeer := n.followLeader_peer rpc hterm
  obtain ⟨hsm, hlast, -, -, -⟩ := n.followLeader_rest rpc
  have hlog : (n.followLeader rpc).store.log = n.store.log := congrArg Consensus.Peer.log hpeer
  have hcommit : (n.followLeader rpc).store.commitIndex = n.store.commitIndex :=
    congrArg Consensus.Peer.commit hpeer
  have hstate : (n.followLeader rpc).state = .follower := by
    have hrole := congrArg Consensus.Peer.role hpeer
    simp only [RaftNode.peer] at hrole
    cases hst : (n.followLeader rpc).state <;> simp [hst, NodeState.role] at hrole ⊢
  have hchange : ∀ s', Extends s s' → s'.peer i = (n.followLeader rpc).peer →
      NodeSim strict s' i (n.followLeader rpc) := by
    intro s' hext hp
    refine h.change hext hp (n.followLeader_wf rpc h.wf) (n.followLeader_trace rpc) ?_ ?_ hsm hlast
      (fun _ => by rw [hlog]) (fun _ => hcommit.ge)
    · intro x hx
      split at hx
      · simp only [List.mem_cons, List.not_mem_nil, or_false] at hx
        rcases hx with rfl | rfl <;> trivial
      · cases hx
    · intro _ hl; rw [hstate] at hl; cases hl
  rcases Nat.eq_or_lt_of_le hterm with heq | hlt
  · refine ⟨s.next (.demote i), Follows.single trivial fun _ => trivial, Extends.next s _, rfl, rfl,
      ?_, hchange _ (Extends.next s _) ?_⟩
    · intro j hj; simp [Consensus.State.next, hj]
    · rw [hpeer]; simp [Consensus.State.next, h.peer, RaftNode.peer, heq]
  · refine ⟨s.next (.raise i rpc.term none), Follows.single ?_ fun _ => trivial, Extends.next s _,
      rfl, rfl, ?_, hchange _ (Extends.next s _) ?_⟩
    · rw [Consensus.State.Enabled, h.peer]; exact hlt
    · intro j hj; simp [Consensus.State.next, hj]
    · rw [hpeer]; simp [Consensus.State.next, h.peer, RaftNode.peer, hlt]

omit [Fintype ι] in
omit [DecidableEq ι] in
/-- The batch of a request is a tail of the sender's log, and its previous entry stands
where the sender had it. -/
theorem AppendSim.carries {call : AppendCall ι} (h : AppendSim s call) (hth : Threads cfg c)
    (hmem : call ∈ c.appendCalls) : call.rpc.Carries call.sender.store.log ∧
      call.rpc.term = call.sender.store.term ∧
      call.rpc.leaderCommit = call.sender.store.commitIndex := by
  obtain ⟨hrpc, hnext, -⟩ := hth.appendCalls call hmem
  refine ⟨?_, ?_, ?_⟩
  · rw [hrpc]
    exact RaftNode.buildAppendEntries_carries _ _ _ h.wf hnext
  · rw [hrpc]; rfl
  · rw [hrpc]; rfl

omit [DecidableEq ι] in
/-- After the log matching check both loops together graft the sender's log. -/
theorem NodeSim.merged {i : ι} {n : RaftNode ι} {rpc : AppendEntries ι}
    (h : NodeSim strict s i (n.followLeader rpc)) (hsound : Sound strict s) {call : AppendCall ι}
    (hcall : AppendSim s call) (hcarries : rpc.Carries call.sender.store.log)
    (hprev : RaftNode.prevMatches (n.followLeader rpc).store rpc = true) :
    (n.merged rpc).store.log = graft (n.followLeader rpc).store.log call.sender.store.log ∧
      (n.merged rpc).store.Wf ∧
      RaftNode.Rewrote (fun L => L <+: (n.followLeader rpc).store.log ∨
        L <+: call.sender.store.log) (n.followLeader rpc) (n.merged rpc) := by
  have hF : Anchored LogEntry.term s.book (n.followLeader rpc).store.log := by
    have hanch := hsound.logs.peer i
    rw [h.peer] at hanch
    exact hanch
  have hS : Anchored LogEntry.term s.book call.sender.store.log :=
    hsound.logs.sent _ hcall.sent
  have hpos : ∀ x ∈ (n.followLeader rpc).store.log, 0 < x.term :=
    fun x hx => hsound.logs.positive hsound.elections hF hx
  have hmatch := hF.matching hS
  obtain ⟨hle, hagree⟩ := RaftNode.prevMatches_spec h.wf hmatch hpos hcarries hprev
  have hmerge := RaftNode.merge_spec (n.followLeader rpc) h.wf hmatch hcall.wf.indexed hle hagree
  rw [← hcarries.entries] at hmerge
  exact hmerge

/-- Both loops are a graft of the published log. -/
theorem NodeSim.graft {i : ι} {n : RaftNode ι} {rpc : AppendEntries ι}
    (h : NodeSim strict s i (n.followLeader rpc)) (hsound : Sound strict s) {call : AppendCall ι}
    (hcall : AppendSim s call) (hcarries : rpc.Carries call.sender.store.log)
    (hterm : call.sender.store.term = (s.peer i).term)
    (hstate : (n.followLeader rpc).state = .follower)
    (hprev : RaftNode.prevMatches (n.followLeader rpc).store rpc = true) :
    let s' := s.next (.accept i ⟨call.src, call.sender.peer⟩)
    Follows strict s s' ∧ NodeSim strict s' i (n.merged rpc) := by
  intro s'
  have hfol : Follows strict s s' := Follows.single ⟨hcall.sent, hterm⟩ fun _ => trivial
  obtain ⟨hlog, hwf, hrw⟩ := h.merged hsound hcall hcarries hprev
  obtain ⟨events, htrace, hevents⟩ := hrw.trace
  have hpeer := h.peer
  refine ⟨hfol, h.change (Extends.next s _) ?_ hwf htrace ?_ ?_ hrw.sm hrw.applied ?_
    fun _ => hrw.commit.ge⟩
  · simp only [s', Consensus.State.next, Consensus.State.setPeer_peer, if_true, hpeer]
    simp [RaftNode.peer, hlog, hrw.term, hrw.voted, hrw.commit, hrw.state, hstate, NodeState.role]
  · intro x hx
    obtain ⟨L, -, rfl⟩ := hevents x hx
    trivial
  · intro _ hl; rw [hrw.state, hstate] at hl; cases hl
  · intro hs
    -- the applied entries are committed, so the graft keeps them
    have hsafe := hsound.safe hs
    obtain ⟨hle, hc⟩ := h.committed hsafe
    obtain ⟨⟨e, he, -, heterm⟩, -, hpre, -, -⟩ := hsafe.sent _ hcall.sent
    have hpt : (s.peer i).term = (n.followLeader rpc).store.term := by rw [hpeer]; rfl
    have hst : call.sender.peer.term = (n.followLeader rpc).store.term := hterm.trans hpt
    have hkeep := hsafe.committed_graft hsound.logs hsound.elections hc
      ⟨e, he, heterm.trans hst⟩ (List.take_prefix _ _) (hst ▸ hpre)
    rw [hlog]
    exact take_eq_of_take_prefix (h.applied hs).1 hle hkeep

/-- The follower's commit update after an accepted batch. -/
theorem NodeSim.followCommit {i : ι} {n : RaftNode ι} (h : NodeSim strict s i n)
    (leaderCommit : Nat) (hstate : n.state = .follower)
    (hlegal : strict → leaderCommit > n.store.commitIndex →
      s.Legal LogEntry.term (.commit i (n.followedCommit leaderCommit)))
    (hle : strict → leaderCommit ≤ n.store.log.length) :
    ∃ s', Follows strict s s' ∧ Extends s s' ∧ s'.ballots = s.ballots ∧
      (∀ j, j ≠ i → s'.peer j = s.peer j) ∧ NodeSim strict s' i (n.followCommit leaderCommit) := by
  by_cases hgt : leaderCommit > n.store.commitIndex
  · refine ⟨s.next (.commit i (n.followedCommit leaderCommit)),
      Follows.single trivial fun hs => hlegal hs hgt, Extends.next s _, rfl, ?_, ?_⟩
    · intro j hj; simp [Consensus.State.next, hj]
    · obtain ⟨hsm, hlast, htrace⟩ := n.followCommit_rest leaderCommit
      have hpeer := n.followCommit_peer leaderCommit h.wf
      have hst : (n.followCommit leaderCommit).state = .follower := by
        simp [RaftNode.followCommit, hgt, hstate]
      refine h.change (Extends.next s _) ?_ (n.followCommit_wf leaderCommit h.wf)
        (htrace.trans (List.append_nil _).symm) (by simp) ?_ hsm hlast ?_ ?_
      · rw [hpeer]; simp [Consensus.State.next, h.peer]
      · intro _ hl; rw [hst] at hl; cases hl
      · intro _
        rw [show (n.followCommit leaderCommit).store.log = n.store.log from
          congrArg Consensus.Peer.log hpeer]
      · intro hs
        have hc : (n.followCommit leaderCommit).store.commitIndex = n.followedCommit leaderCommit :=
          congrArg Consensus.Peer.commit hpeer
        have hmin := hle hs
        rw [hc, RaftNode.followedCommit, if_pos hgt]
        omega
  · refine ⟨s, TransitionSystem.Steps.refl s, .refl s, rfl, fun _ _ => rfl, ?_⟩
    have hsame : n.followCommit leaderCommit = n := by simp [RaftNode.followCommit, hgt]
    rw [hsame]; exact h

/-- An accepted request: a graft, the commit index of the snapshot, and applying. -/
theorem NodeSim.accept {i : ι} {n : RaftNode ι} {rpc : AppendEntries ι}
    (h : NodeSim strict s i n) (hsound : Sound strict s) {call : AppendCall ι}
    (hcall : AppendSim s call) (hcarries : rpc.Carries call.sender.store.log)
    (hrterm : rpc.term = call.sender.store.term)
    (hrcommit : rpc.leaderCommit = call.sender.store.commitIndex)
    (hterm : n.store.term ≤ rpc.term)
    (hprev : RaftNode.prevMatches (n.followLeader rpc).store rpc = true) :
    ∃ s', Follows strict s s' ∧ Extends s s' ∧ s'.ballots = s.ballots ∧
      (∀ j, j ≠ i → s'.peer j = s.peer j) ∧
      (⟨i, rpc.term, call.sender.store.log⟩ : Ack ι LogEntry) ∈ s'.acks ∧
      NodeSim strict s' i ((n.merged rpc).followCommit rpc.leaderCommit).applyCommitted := by
  obtain ⟨s₁, hfol₁, hext₁, hbal₁, -, hother₁, h₁⟩ := h.followLeader rpc hterm
  have hsound₁ := hsound.follows hfol₁
  have hcall₁ := hcall.mono hext₁
  have hlpeer := n.followLeader_peer rpc hterm
  have hpt : (s₁.peer i).term = rpc.term := by rw [h₁.peer, hlpeer]
  have hstate : (n.followLeader rpc).state = .follower := by
    have hrole := congrArg Consensus.Peer.role hlpeer
    simp only [RaftNode.peer] at hrole
    cases hst : (n.followLeader rpc).state <;> simp [hst, NodeState.role] at hrole ⊢
  obtain ⟨hfol₂, h₂⟩ := h₁.graft hsound₁ hcall₁ hcarries (by rw [hpt, hrterm]) hstate hprev
  have hsound₂ := hsound₁.follows hfol₂
  have hrw := n.merged_rewrote rpc
  have hmstate : (n.merged rpc).state = .follower := hrw.state.trans hstate
  have hmlog := (h₁.merged hsound₁ hcall₁ hcarries hprev).1
  have hsub : call.sender.store.log <+: (n.merged rpc).store.log := by
    rw [hmlog]; exact prefix_graft _ _
  -- the commit index of a leader's snapshot lies within the snapshot
  have hle : strict → rpc.leaderCommit ≤ call.sender.store.log.length := by
    intro hs
    obtain ⟨-, -, -, hle, -⟩ := (hsound₁.safe hs).sent _ hcall₁.sent
    rw [hrcommit]; exact hle
  obtain ⟨s₃, hfol₃, hext₃, hbal₃, hother₃, h₃⟩ :=
    h₂.followCommit rpc.leaderCommit hmstate (fun hs hgt => by
      refine Or.inr (Or.inl ⟨_, hcall₁.sent, ?_, ?_, ?_⟩)
      · simp only [Consensus.State.next, Consensus.State.setPeer_peer, if_true, hpt]
        exact hrterm.symm
      · rw [h₂.peer]; exact hsub
      · have hlen := (hle hs).trans hsub.length_le
        rw [RaftNode.followedCommit, if_pos hgt, Nat.min_eq_left hlen]
        exact hrcommit) fun hs => (hle hs).trans hsub.length_le
  refine ⟨s₃, (hfol₁.trans hfol₂).trans hfol₃,
    (hext₁.trans (Extends.next s₁ _)).trans hext₃, hbal₃.trans hbal₁, ?_, ?_, ?_⟩
  · intro j hj
    rw [hother₃ j hj]
    simp [Consensus.State.next, hj, hother₁ j hj]
  · refine hext₃.acks _ (Or.inl ?_)
    rw [hpt]; rfl
  · exact h₃.applyCommitted (hsound₂.follows hfol₃).safe

theorem Sim.deliverAppend (h : Sim strict s c) (hsound : Sound strict s) (hth : Threads cfg c)
    {k : Nat} {call : AppendCall ι} (hcall : c.appendCalls[k]? = some call)
    (hnew : call.reply = none) (hfree : c.locked call.dst = false) :
    ∃ s', Follows strict s s' ∧ Sim strict s'
      { c.setNode call.dst ((c.nodes call.dst).handleAppendEntries call.rpc).1 with
        appendCalls := c.appendCalls.set k
          { call with reply := some ((c.nodes call.dst).handleAppendEntries call.rpc).2 } } := by
  have hm : Moved cfg c _ _ := .deliverAppend hcall hnew hfree
  have hmem := List.mem_of_getElem? hcall
  have happ := h.appends call hmem
  obtain ⟨hcarries, hrterm, hrcommit⟩ := happ.carries hth hmem
  have hi := h.nodes call.dst
  have hself : ∀ k' call', Move.deliverAppend k = Move.deliverAppend (ι := ι) k' →
      c.appendCalls[k']? = some call' → call' = call := by
    intro k' call' hk hcall'
    cases hk
    rw [hcall] at hcall'
    exact (Option.some.inj hcall').symm
  rcases (c.nodes call.dst).handleAppendEntries_cases call.rpc with
    ⟨-, heq⟩ | ⟨hterm, -, heq⟩ | ⟨hterm, hprev, heq⟩
  · refine ⟨s, TransitionSystem.Steps.refl s,
      h.moved hsound.elections hm (.refl s) ?_ (by simp) (by simp) (by simp) ?_ fun _ hb => Or.inl hb⟩
    · refine h.nodes_update (.refl s) rfl (fun _ _ => rfl) ?_
      rw [heq]; exact hi
    · intro k' call' hk hcall' hok
      rw [hself k' call' hk hcall', heq] at hok
      cases hok
  · obtain ⟨s', hfol, hext, hbal, -, hother, hi'⟩ := hi.followLeader call.rpc hterm
    refine ⟨s', hfol, h.moved hsound.elections hm hext ?_ (by simp) (by simp) (by simp) ?_
      fun _ hb => Or.inl (hbal ▸ hb)⟩
    · refine h.nodes_update hext rfl hother ?_
      rw [heq]; exact hi'
    · intro k' call' hk hcall' hok
      rw [hself k' call' hk hcall', heq] at hok
      cases hok
  · obtain ⟨s', hfol, hext, hbal, hother, hack, hi'⟩ :=
      hi.accept hsound happ hcarries hrterm hrcommit hterm hprev
    refine ⟨s', hfol, h.moved hsound.elections hm hext ?_ (by simp) (by simp) (by simp) ?_
      fun _ hb => Or.inl (hbal ▸ hb)⟩
    · refine h.nodes_update hext rfl hother ?_
      rw [heq]; exact hi'
    · intro k' call' hk hcall' _
      rw [hself k' call' hk hcall']
      exact hack

/-! ## Replies and the commit rule -/

/-- Counting `matchIndex` is counting acknowledgements of the leader's own term. -/
theorem NodeSim.chosen (cfg : Config ι) {i : ι} {n : RaftNode ι} (h : NodeSim strict s i n) (hs : strict)
    (hsound : Sound strict s) (hstate : n.state = .leader) {connected : ι → Bool} {k : Nat}
    (hpos : 0 < k) (hle : k ≤ n.store.log.length) (hterm : n.store.getTermAt k = n.store.term)
    (hcount : n.replicaCount (cfg.peers i) connected k ≥ RaftNode.majority (cfg.peers i)) :
    s.Chosen LogEntry.term n.store.term (n.store.log.take k) := by
  have hsafe := hsound.safe hs
  have hpt : (s.peer i).term = n.store.term := by rw [h.peer]; rfl
  have hpl : (s.peer i).log = n.store.log := by rw [h.peer]; rfl
  have hrole : (s.peer i).role = .leader := by
    rw [h.peer]; simp [RaftNode.peer, hstate, NodeState.role]
  have hbook : s.book n.store.term = n.store.log := by
    rw [← hpt, ← hpl]; exact (hsound.logs.leader i hrole).symm
  refine ⟨?_, ?_⟩
  · let served := (cfg.peers i).filter fun j => connected j && decide (n.matchIndex j ≥ k)
    have hnodup : served.Nodup := (cfg.nodup i).filter _
    have hfresh : i ∉ served.toFinset := by
      rw [List.mem_toFinset]
      intro hmem
      exact (cfg.mem_peers i i).mp (List.mem_of_mem_filter hmem) rfl
    refine majority_of_card cfg i (insert i served.toFinset) ?_ ?_
    · intro v hv
      rcases Finset.mem_insert.mp hv with rfl | hv
      · refine ⟨_, hsafe.leader v hrole, rfl, hpt, ?_⟩
        rw [hpl]; exact List.take_prefix _ _
      · rw [List.mem_toFinset, List.mem_filter] at hv
        have hge : n.matchIndex v ≥ k := by
          have hboth := hv.2
          simp only [Bool.and_eq_true, decide_eq_true_eq] at hboth
          exact hboth.2
        obtain ⟨a, ha, hnode, hat, hlen⟩ := h.reached hs hstate v (by omega)
        refine ⟨a, ha, hnode, hat, ?_⟩
        have hpre := (hsafe.ack a ha).2.1
        rw [hat, hbook] at hpre
        exact List.prefix_of_prefix_length_le (List.take_prefix _ _) hpre (by simp; omega)
    · rw [Finset.card_insert_of_notMem hfresh, List.toFinset_card_of_nodup hnodup]
      unfold RaftNode.replicaCount at hcount
      simp only [served]
      omega
  · have hlt : k - 1 < n.store.log.length := by omega
    refine ⟨n.store.log.take (k - 1), n.store.log[k - 1], ?_, ?_⟩
    · have hsucc : k = k - 1 + 1 := by omega
      conv_lhs => rw [hsucc]
      rw [List.take_add_one, List.getElem?_eq_getElem hlt]
      rfl
    · rw [h.wf.getTermAt hpos, List.getElem?_eq_getElem hlt] at hterm
      exact hterm

/-- The two vectors after a successful reply to a request of the current term. -/
theorem NodeSim.matched {i p : ι} {n : RaftNode ι} (h : NodeSim strict s i n)
    {ae : AppendEntries ι} {S : List LogEntry} (hcarries : ae.Carries S)
    (hne : ae.entries ≠ []) (hack : (⟨p, ae.term, S⟩ : Ack ι LogEntry) ∈ s.acks)
    (hterm : strict → n.store.term = ae.term) : NodeSim strict s i (n.matched p ae) := by
  refine h.change (.refl s) h.peer h.wf (List.append_nil _).symm (by simp) ?_ rfl rfl
    (fun _ => rfl) (fun _ => le_refl _)
  intro hs hl j hj
  rw [RaftNode.matched_matchIndex] at hj ⊢
  by_cases hjp : j = p
  · subst hjp
    rw [if_pos rfl] at hj ⊢
    have hlen : ae.prevLogIndex + ae.entries.length = S.length := by
      have hentries := hcarries.entries
      have hlt : ae.prevLogIndex < S.length := by
        by_contra hge
        rw [hentries] at hne
        exact hne (List.drop_eq_nil_of_le (by omega))
      rw [hentries, List.length_drop]
      omega
    rcases max_choice (n.matchIndex j) (ae.prevLogIndex + ae.entries.length) with hmax | hmax
    · rw [hmax]
      exact Or.inl ⟨hl, rfl, le_refl _⟩
    · rw [hmax, hlen]
      exact Or.inr ⟨_, hack, rfl, (hterm hs).symm, le_refl _⟩
  · rw [if_neg hjp]
    exact Or.inl ⟨hl, rfl, le_refl _⟩

/-- Taking a new commit index, and applying up to it. -/
theorem NodeSim.committing {i : ι} {n : RaftNode ι} (h : NodeSim strict s i n)
    (hsound : Sound strict s) {k : Nat} (hgt : n.store.commitIndex < k)
    (hlegal : strict → s.Legal LogEntry.term (.commit i k)) :
    ∃ s', Follows strict s s' ∧ Extends s s' ∧ s'.ballots = s.ballots ∧
      (∀ j, j ≠ i → s'.peer j = s.peer j) ∧ NodeSim strict s' i (n.committing k) := by
  have hfol : Follows strict s (s.next (.commit i k)) := Follows.single trivial hlegal
  have hsafe := (hsound.follows hfol).safe
  refine ⟨_, hfol, Extends.next s _, rfl, ?_, ?_⟩
  · intro j hj; simp [Consensus.State.next, hj]
  · refine NodeSim.applyCommitted ?_ hsafe
    refine h.change (Extends.next s _) ?_ (h.wf.setCommit k) rfl ?_ ?_ rfl rfl (fun _ => rfl)
      (fun _ => hgt.le)
    · simp [Consensus.State.next, h.peer, RaftNode.peer, RaftNode.emit, Store.setCommit]
    · intro x hx
      rw [List.mem_singleton.mp hx]
      intro hs
      have hc := ((hsafe hs).commit i).2
      simp only [Consensus.State.next, Consensus.State.setPeer_peer, if_true, h.peer] at hc
      exact hc
    · exact fun _ hl _ _ => Or.inl ⟨hl, rfl, le_refl _⟩

theorem NodeSim.backOff {i p : ι} {n : RaftNode ι} (h : NodeSim strict s i n)
    (ae : AppendEntries ι) : NodeSim strict s i (n.backOff p ae) := by
  obtain ⟨hmatch, hstate, hstore, hsm, htrace⟩ := n.backOff_rest p ae
  refine h.change (.refl s) ((n.backOff_peer p ae).symm ▸ h.peer) (hstore ▸ h.wf)
    (htrace.trans (List.append_nil _).symm) (by simp) ?_ hsm (by rw [hstore]) (fun _ => by rw [hstore])
    (fun _ => by rw [hstore])
  intro _ hl j hj
  rw [hstate] at hl
  rw [hmatch, hstore]
  exact Or.inl ⟨hl, rfl, le_refl _⟩

/-- The rest of `sendAppendEntries` after a reply. -/
theorem NodeSim.appendReply (cfg : Config ι) {i p : ι} {n : RaftNode ι} (h : NodeSim strict s i n)
    (hsound : Sound strict s) (connected : ι → Bool) {ae : AppendEntries ι}
    {resp : AppendEntriesResponse} {S : List LogEntry} (hcarries : ae.Carries S)
    (hack : resp.success = true → (⟨p, ae.term, S⟩ : Ack ι LogEntry) ∈ s.acks)
    (hclean : strict → resp.term ≤ n.store.term → resp.success = true → ae.entries ≠ [] →
      n.state = .leader ∧ n.store.term = ae.term) :
    ∃ s', Follows strict s s' ∧ Extends s s' ∧ s'.ballots = s.ballots ∧
      (∀ j, j ≠ i → s'.peer j = s.peer j) ∧
      NodeSim strict s' i (n.appendReply (cfg.peers i) connected p ae resp) := by
  have hsame : ∀ n', NodeSim strict s i n' → ∃ s', Follows strict s s' ∧ Extends s s' ∧
      s'.ballots = s.ballots ∧ (∀ j, j ≠ i → s'.peer j = s.peer j) ∧ NodeSim strict s' i n' :=
    fun n' hn' => ⟨s, TransitionSystem.Steps.refl s, .refl s, rfl, fun _ _ => rfl, hn'⟩
  rcases n.appendReply_cases (cfg.peers i) connected p ae resp with
    ⟨hgt, heq⟩ | ⟨hle, hok, hne, heq⟩ | ⟨-, heq⟩ <;> rw [heq]
  · refine ⟨s.next (.raise i resp.term none), Follows.single ?_ fun _ => trivial,
      Extends.next s _, rfl, ?_, h.stepDown⟩
    · rw [Consensus.State.Enabled, h.peer]; exact hgt
    · intro j hj; simp [Consensus.State.next, hj]
  · have hmatched := h.matched hcarries hne (hack hok) fun hs => (hclean hs hle hok hne).2
    rcases (n.matched p ae).advanceCommitIndex_cases (cfg.peers i) connected hmatched.wf with
      heq' | ⟨k, hgt, hlen, hterm, hcount, heq'⟩ <;> rw [heq']
    · exact hsame _ hmatched
    · refine hmatched.committing hsound hgt fun hs => ?_
      have hlead : (n.matched p ae).state = .leader := (hclean hs hle hok hne).1
      have hch := hmatched.chosen cfg hs hsound hlead (by omega) hlen hterm hcount
      refine Or.inl ⟨?_, ?_, ?_⟩
      · rw [hmatched.peer]; simp [RaftNode.peer, hlead, NodeState.role]
      · rw [hmatched.peer]; exact hlen
      · rw [hmatched.peer]; exact hch
  · exact hsame _ (h.backOff ae)

/-- The rest of `sendAppendEntries` without a reply. -/
theorem NodeSim.appendLost {i p : ι} {n : RaftNode ι} (h : NodeSim strict s i n)
    (ae : AppendEntries ι) : NodeSim strict s i (n.appendLost p ae) := by
  refine NodeSim.backOff ?_ ae
  refine h.change (.refl s) h.peer h.wf (List.append_nil _).symm (by simp) ?_ rfl rfl
    (fun _ => rfl) (fun _ => le_refl _)
  intro _ hl j _
  refine Or.inl ⟨hl, rfl, ?_⟩
  simp only [Function.update_apply]
  split <;> omega

theorem Sim.appendReply (h : Sim strict s c) (hsound : Sound strict s) (hth : Threads cfg c)
    {t : Thread ι} {connected : ι → Bool} {i p : ι} {k : Nat} {todo : List ι}
    {call : AppendCall ι} {resp : AppendEntriesResponse}
    (hloop : c.sendLoop t = some (i, ⟨p :: todo, some k⟩))
    (hcall : c.appendCalls[k]? = some call) (hreply : call.reply = some resp)
    (hclean : strict → resp.term ≤ (c.nodes i).store.term → resp.success = true →
      call.rpc.entries ≠ [] →
        (c.nodes i).state = .leader ∧ (c.nodes i).store.term = call.rpc.term) :
    ∃ s', Follows strict s s' ∧ Sim strict s'
      ((c.setNode i
        ((c.nodes i).appendReply (cfg.peers i) connected p call.rpc resp)).setSendLoop t
          ⟨todo, none⟩) := by
  have hm : Moved cfg c (.appendReply t connected) _ := .appendReply hloop hcall hreply
  have hmem := List.mem_of_getElem? hcall
  have happ := h.appends call hmem
  obtain ⟨p', todo', call', htodo, hcall', -, hdst⟩ := (hth.loops t i _ hloop).waiting k rfl
  cases htodo
  rw [hcall] at hcall'
  cases hcall'
  subst hdst
  obtain ⟨s', hfol, hext, hbal, hother, hi'⟩ := (h.nodes i).appendReply cfg hsound connected
    (happ.carries hth hmem).1 (fun hok => happ.ack resp hreply hok) hclean
  refine ⟨s', hfol, h.moved hsound.elections hm hext ?_ (by simp) (by simp) (by simp) (by simp)
    fun _ hb => Or.inl (hbal ▸ hb)⟩
  exact h.nodes_update hext (setSendLoop_nodes _ _ _) hother hi'

/-! ## Every move -/

/-- The conditions of a clean run, at a move. -/
theorem Sim.move (h : Sim strict s c) (hsound : Sound strict s) (hth : Threads cfg c)
    {m : Move ι} (hm : Moved cfg c m c')
    (hclean : strict → SendsAsLeader c (.move m) ∧ RepliesInTerm c (.move m)) :
    ∃ s', Follows strict s s' ∧ Sim strict s' c' := by
  have hsame : (∀ j, NodeSim strict s j (c'.nodes j)) → (∀ i, m ≠ .timeout i) ∧
      (∀ k, m ≠ .deliverVote k) ∧ (∀ t, m ≠ .send t) ∧ (∀ k, m ≠ .deliverAppend k) →
      ∃ s', Follows strict s s' ∧ Sim strict s' c' :=
    fun hnodes hmove =>
      ⟨s, TransitionSystem.Steps.refl s, h.moved_same hsound.elections hm hnodes hmove⟩
  have hnode : ∀ {i : ι} {n : RaftNode ι}, NodeSim strict s i n →
      c'.nodes = (c.setNode i n).nodes → ∀ j, NodeSim strict s j (c'.nodes j) :=
    fun hn hnodes => h.nodes_update (.refl s) hnodes (fun _ _ => rfl) hn
  have hm' := hm
  cases hm with
  | timeout hidle hstate => exact h.timeout hsound.elections hidle hstate
  | deliverVote hcall hnew hfree => exact h.deliverVote hsound hth hcall hnew hfree
  | deposed hbg hcall hreply hterm => exact h.deposed hsound.elections hterm hm'
  | elected hbg hvotes hstate => exact h.elected hsound hth hbg hvotes hstate
  | send hloop =>
    refine h.send hsound hloop (fun hs => ?_) hm' (setSendLoop_nodes _ _ _)
    exact (hclean hs).1 _ hloop
  | deliverAppend hcall hnew hfree => exact h.deliverAppend hsound hth hcall hnew hfree
  | appendReply hloop hcall hreply =>
    refine h.appendReply hsound hth hloop hcall hreply fun hs => ?_
    exact (hclean hs).2 _ hloop _ rfl _ hcall _ hreply
  | appendLost hloop hcall =>
    exact hsame (hnode ((h.nodes _).appendLost _) (setSendLoop_nodes _ _ _)) (by simp)
  | submit hfree hstate => exact h.appendOwn hsound hstate hm' rfl (by simp)
  | get hfree hstate => exact h.appendOwn hsound hstate hm' rfl (by simp)
  | finishSubmit hcall hfree hcommit =>
    exact hsame (hnode ((h.nodes _).applyCommitted hsound.safe) rfl) (by simp)
  | voteReply hbg hcall hreply hterm => exact hsame (hnode (h.nodes _) rfl) (by simp)
  | sendVote _ | voteLost _ | unelected _ | heartbeat _ _ | endLoop _ | finishGet _ _ _ _ _ =>
    exact hsame h.nodes (by simp)

end Cluster

end RaftKv
