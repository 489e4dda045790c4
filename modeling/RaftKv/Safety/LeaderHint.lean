-- SUMMARY: The leader hint of a node that is not the leader, and the one step that leaves it pointing at the node itself.
import RaftKv.Conditions
import RaftKv.Threads

/-!
# The leader hint

Role and `current_leader_id` are written in six places. Everywhere but in `sendAppendEntries` a
node that stops leading forgets that it was the leader.
-/

namespace RaftKv

namespace RaftNode

variable {ι : Type}

/-- Role and hint. -/
def standing (n : RaftNode ι) : NodeState × Option ι := (n.state, n.currentLeaderId)

/-- The hint names the node itself exactly while it leads. -/
def HintsLeader (self : ι) (n : RaftNode ι) : Prop :=
  n.state = .leader ↔ n.currentLeaderId = some self

theorem HintsLeader.of_standing {self : ι} {n n' : RaftNode ι} (h : n.HintsLeader self)
    (heq : n'.standing = n.standing) : n'.HintsLeader self := by
  obtain ⟨hstate, hhint⟩ := Prod.mk.inj heq
  rw [HintsLeader, hstate, hhint]
  exact h

theorem HintsLeader.of_elsewhere {self : ι} {n : RaftNode ι} {state : NodeState} {hint : Option ι}
    (heq : n.standing = (state, hint)) (hstate : state ≠ .leader) (hhint : hint ≠ some self) :
    n.HintsLeader self := by
  cases heq
  exact iff_of_false hstate hhint

/-! ## What the sections do to them -/

variable (n : RaftNode ι)

theorem start_standing (d : Disk ι) (trace : List (Event ι)) :
    (start d trace).standing = (.follower, none) := by
  unfold start replay
  simp only
  split <;> rfl

theorem applyCommitted_standing : n.applyCommitted.standing = n.standing := by
  unfold applyCommitted
  simp only
  split <;> rfl

theorem advanceCommitIndex_standing (peers : List ι) (connected : ι → Bool) :
    (n.advanceCommitIndex peers connected).standing = n.standing := by
  unfold advanceCommitIndex
  simp only
  split
  · exact applyCommitted_standing _
  · rfl

theorem resolveConflicts_standing (es : List LogEntry) (idx : Nat) :
    (n.resolveConflicts idx es).standing = n.standing := by
  induction es generalizing n idx with
  | nil => rfl
  | cons e es ih =>
    simp only [resolveConflicts]
    rw [ih]
    split <;> rfl

theorem appendNew_standing (es : List LogEntry) : (n.appendNew es).standing = n.standing := by
  induction es generalizing n with
  | nil => rfl
  | cons e es ih =>
    simp only [appendNew]
    rw [ih]
    split <;> rfl

theorem startElection_standing (self : ι) : (n.startElection self).1.standing = (.candidate, none) :=
  rfl

theorem voteReply_standing {resp : RequestVoteResponse} (votes : Nat)
    (hterm : n.store.term < resp.term) :
    (n.voteReply votes resp).1.standing = (.follower, none) := by
  rw [voteReply_deposed votes hterm]
  rfl

theorem becomeLeader_standing (self : ι) {n : RaftNode ι} (hcand : n.state = .candidate) :
    (n.becomeLeader self).standing = (.leader, some self) := by
  rw [becomeLeader, if_neg (not_not_intro hcand)]
  rfl

theorem followLeader_standing {rpc : AppendEntries ι} (hterm : n.store.term ≤ rpc.term) :
    (n.followLeader rpc).standing = (.follower, some rpc.leaderId) := by
  unfold followLeader
  rcases Nat.eq_or_lt_of_le hterm with heq | hlt
  · simp [heq, standing]
  · simp [hlt, standing, persist]

theorem handleAppendEntries_standing (rpc : AppendEntries ι) :
    (n.handleAppendEntries rpc).1.standing = n.standing ∨
      (n.handleAppendEntries rpc).1.standing = (.follower, some rpc.leaderId) := by
  rcases n.handleAppendEntries_cases rpc with ⟨-, heq⟩ | ⟨hterm, -, heq⟩ | ⟨hterm, -, heq⟩ <;>
    rw [heq]
  · exact .inl rfl
  · exact .inr (n.followLeader_standing hterm)
  · have hmerged : (n.merged rpc).standing = (n.followLeader rpc).standing :=
      (appendNew_standing _ _).trans (resolveConflicts_standing _ _ _)
    have hcommit : ((n.merged rpc).followCommit rpc.leaderCommit).standing = (n.merged rpc).standing := by
      unfold followCommit
      split <;> rfl
    rw [applyCommitted_standing, hcommit, hmerged]
    exact .inr (n.followLeader_standing hterm)

variable [DecidableEq ι]

theorem handleRequestVote_standing (rpc : RequestVote ι) :
    (n.handleRequestVote rpc).1.standing = n.standing ∨
      (n.handleRequestVote rpc).1.standing = (.follower, none) := by
  have hheard : (n.heardVote rpc).standing = n.standing ∨
      (n.heardVote rpc).standing = (.follower, none) := by
    unfold heardVote
    split
    · exact .inr rfl
    · exact .inl rfl
  rcases n.handleRequestVote_cases rpc with ⟨-, heq⟩ | ⟨-, -, heq⟩ | ⟨-, heq⟩ <;> rw [heq]
  · exact .inl rfl
  · exact hheard
  · exact hheard

theorem backOff_standing (p : ι) (ae : AppendEntries ι) :
    (n.backOff p ae).standing = n.standing := by
  unfold backOff
  split <;> rfl

theorem appendLost_standing (p : ι) (ae : AppendEntries ι) :
    (n.appendLost p ae).standing = n.standing := backOff_standing _ p ae

/-- A reply of a later term ends the leadership and leaves the hint as it is. -/
theorem appendReply_standing (peers : List ι) (connected : ι → Bool) (p : ι) (ae : AppendEntries ι)
    (resp : AppendEntriesResponse) :
    n.store.term < resp.term ∧
        (n.appendReply peers connected p ae resp).standing = (.follower, n.currentLeaderId) ∨
      resp.term ≤ n.store.term ∧
        (n.appendReply peers connected p ae resp).standing = n.standing := by
  rcases n.appendReply_cases peers connected p ae resp with
    ⟨hlt, heq⟩ | ⟨hle, -, -, heq⟩ | ⟨hle, heq⟩ <;> rw [heq]
  · exact .inl ⟨hlt, rfl⟩
  · exact .inr ⟨hle, advanceCommitIndex_standing _ peers connected⟩
  · exact .inr ⟨hle, backOff_standing n p ae⟩

end RaftNode

namespace Cluster

variable {ι : Type} [DecidableEq ι] {cfg : Config ι} {c c' : Cluster ι}

/-! ## The invariant -/

/-- No node refuses a client and sends it back to itself. -/
def HintsElsewhere (c : Cluster ι) : Prop :=
  ∀ i, (c.nodes i).state ≠ .leader → (c.nodes i).currentLeaderId ≠ some i

omit [DecidableEq ι] in
theorem notOutrun_appendReply {t : Thread ι} {connected : ι → Bool} {i p : ι} {k : Nat}
    {todo : List ι} {call : AppendCall ι} {resp : AppendEntriesResponse}
    (hloop : c.sendLoop t = some (i, ⟨p :: todo, some k⟩)) (hcall : c.appendCalls[k]? = some call)
    (hreply : call.reply = some resp) :
    NotOutrun c (.move (.appendReply t connected)) ↔
      ((c.nodes i).store.term < resp.term → (c.nodes i).state ≠ .leader) := by
  constructor
  · intro h
    exact h _ hloop k rfl call hcall resp hreply
  · intro h x hx k' hk' call' hcall' resp' hresp'
    cases hloop.symm.trans hx
    cases hk'
    cases hcall.symm.trans hcall'
    cases hreply.symm.trans hresp'
    exact h

theorem Moved.hintsLeader {m : Move ι} (hm : Moved cfg c m c') (hthreads : Threads cfg c)
    (hhints : ∀ i, (c.nodes i).HintsLeader i) (hok : NotOutrun c (.move m)) (j : ι) :
    (c'.nodes j).HintsLeader j := by
  have hset : ∀ (i : ι) (n : RaftNode ι), n.HintsLeader i →
      ((c.setNode i n).nodes j).HintsLeader j := by
    intro i n hn
    exact c.setNode_cases i j n (fun heq => heq ▸ hn) fun _ => hhints j
  cases hm with
  | timeout hidle hstate =>
    exact hset _ _ (.of_elsewhere (RaftNode.startElection_standing _ _) (by decide) (by simp))
  | sendVote _ | voteLost _ | unelected _ | heartbeat _ _ | endLoop _ | finishGet _ _ _ _ _ =>
    exact hhints j
  | @deliverVote k call hcall hnew hfree =>
    refine hset _ _ ?_
    rcases (c.nodes call.dst).handleRequestVote_standing call.rpc with hsame | hleft
    · exact (hhints call.dst).of_standing hsame
    · exact .of_elsewhere hleft (by decide) (by simp)
  | @voteReply i _ _ _ _ _ _ _ hbg hcall hreply hterm => exact hset _ _ (hhints i)
  | @deposed i p rpc votes k todo call resp hbg hcall hreply hterm =>
    refine hset _ _ ?_
    exact .of_elsewhere ((c.nodes i).voteReply_standing votes hterm) (by decide) (by simp)
  | @elected i rpc votes hbg hvotes hstate =>
    refine hset _ _ ?_
    obtain ⟨hleader, hself⟩ := Prod.mk.inj ((c.nodes i).becomeLeader_standing i hstate)
    exact iff_of_true hleader hself
  | send hloop =>
    rw [setSendLoop_nodes]
    exact hhints j
  | @deliverAppend k call hcall hnew hfree =>
    refine hset _ _ ?_
    obtain ⟨hrpc, -, hne⟩ := hthreads.appendCalls call (List.mem_of_getElem? hcall)
    rcases (c.nodes call.dst).handleAppendEntries_standing call.rpc with hsame | hleft
    · exact (hhints call.dst).of_standing hsame
    · refine .of_elsewhere hleft (by decide) ?_
      rw [hrpc]
      exact fun heq => hne (Option.some.inj heq).symm
  | @appendReply t connected i p k todo call resp hloop hcall hreply =>
    rw [setSendLoop_nodes]
    refine hset _ _ ?_
    rcases (c.nodes i).appendReply_standing (cfg.peers i) connected p call.rpc resp with
      ⟨hlt, hleft⟩ | ⟨-, hsame⟩
    · have hstate := (notOutrun_appendReply hloop hcall hreply).mp hok hlt
      exact .of_elsewhere hleft (by decide) fun hself => hstate ((hhints i).mpr hself)
    · exact (hhints i).of_standing hsame
  | @appendLost t i p k todo call hloop hcall =>
    rw [setSendLoop_nodes]
    exact hset _ _ ((hhints i).of_standing (RaftNode.appendLost_standing _ p call.rpc))
  | @submit i cmd connected hfree hstate => exact hset _ _ ((hhints i).of_standing rfl)
  | @get i key hfree hstate => exact hset _ _ ((hhints i).of_standing rfl)
  | @finishSubmit k i cmd entry hcall hfree hcommit =>
    exact hset _ _ ((hhints i).of_standing (RaftNode.applyCommitted_standing _))

theorem hintsLeader_restart (hhints : ∀ i, (c.nodes i).HintsLeader i) (i : ι) (d : Disk ι)
    (trace : List (Event ι)) (j : ι) : ((c.restart i d trace).nodes j).HintsLeader j := by
  simp only [restart, Function.update_apply]
  split
  · exact .of_elsewhere (RaftNode.start_standing d trace) (by decide) (by simp)
  · exact hhints j

theorem hintsLeader_step {a : Action ι} (hthreads : Threads cfg c)
    (hhints : ∀ i, (c.nodes i).HintsLeader i) (hok : NotOutrun c a) (hstep : c.step cfg a = some c')
    (j : ι) : (c'.nodes j).HintsLeader j := by
  rcases step_cases hstep with ⟨m, rfl, hm⟩ | ⟨i, -, rfl⟩ | ⟨m, i, cut, c₁, d, -, -, -, rfl⟩
  · exact hm.hintsLeader hthreads hhints hok j
  · exact hintsLeader_restart hhints i _ _ j
  · exact hintsLeader_restart hhints i _ _ j

theorem hintsLeader_reach (h : (system cfg).Reach NotOutrun c) (i : ι) :
    (c.nodes i).HintsLeader i := by
  have hrun : Threads cfg c ∧ ∀ i, (c.nodes i).HintsLeader i := by
    refine h.invariant (I := fun c => Threads cfg c ∧ ∀ i, (c.nodes i).HintsLeader i) ⟨.init, ?_⟩ ?_
    · intro i
      exact .of_elsewhere (RaftNode.start_standing _ _) (by decide) (by simp)
    · rintro c a c' - ⟨hthreads, hhints⟩ hok hstep
      exact ⟨hthreads.step hstep, hintsLeader_step hthreads hhints hok hstep⟩
  exact hrun.2 i

/-- A leader that a later term outruns keeps naming itself. -/
theorem notOutrun_of_hintsElsewhere {a : Action ι} (hhints : ∀ i, (c.nodes i).HintsLeader i)
    (hstep : c.step cfg a = some c') (helse : c'.HintsElsewhere) : NotOutrun c a := by
  rcases step_cases hstep with ⟨m, rfl, hm⟩ | ⟨i, rfl, -⟩ | ⟨m, i, cut, c₁, d, rfl, -, -, -⟩
  · cases hm with
    | @appendReply t connected i p k todo call resp hloop hcall hreply =>
      rw [notOutrun_appendReply hloop hcall hreply]
      intro hlt hleader
      have hnode := helse i
      rw [setSendLoop_nodes, setNode_nodes, if_pos rfl,
        RaftNode.appendReply_deposed _ _ _ _ _ hlt] at hnode
      exact hnode (by simp) ((hhints i).mp hleader)
    | _ => trivial
  · trivial
  · trivial

/-- For every cluster and every run in which no leader processes an AppendEntries reply of a later
term: no node that does not lead names itself, and this is so after the next step if and only if
that step is no such reply either. -/
theorem leader_hint (cfg : Config ι) :
    (∀ c a c', (system cfg).Reach NotOutrun c → c.step cfg a = some c' →
      (c'.HintsElsewhere ↔ NotOutrun c a)) ∧
    (∀ c, (system cfg).Reach NotOutrun c → c.HintsElsewhere) := by
  have helsewhere {c : Cluster ι} (hhints : ∀ i, (c.nodes i).HintsLeader i) : c.HintsElsewhere :=
    fun i hstate hhint => hstate ((hhints i).mpr hhint)
  refine ⟨fun c a c' h hstep => ⟨?_, fun hok => ?_⟩, fun c h => helsewhere (hintsLeader_reach h)⟩
  · exact notOutrun_of_hintsElsewhere (hintsLeader_reach h) hstep
  · exact helsewhere (hintsLeader_step (Threads.reach h) (hintsLeader_reach h) hok hstep)

/-- Node 0 leads term 1; node 1 starts an election in term 2 and asks node 0. -/
def challengedRun : List (Action (Fin 3)) := List.flatten
  [[.move (.timeout 0)], vote 0 0, noVote 0, [.move (.endElection 0)],
    unserved (.background 0), unserved (.background 0), [.move (.endLoop 0)],
    [.move (.timeout 1), .move (.sendVote 1)]]

/-- The vote request of term 2 makes node 0 step down, and its hint no longer names it. -/
theorem leader_hint_challenged : ∃ c c' : Cluster (Fin 3),
    (system (Config.complete 3)).Reach NotOutrun c ∧ (c.nodes 0).currentLeaderId = some 0 ∧
      c.step (Config.complete 3) (.move (.deliverVote 2)) = some c' ∧
      (c'.nodes 0).state = .follower ∧ (c'.nodes 0).currentLeaderId ≠ some 0 := by
  have hrun : (run (Config.complete 3) NotOutrun .init challengedRun).any (fun c =>
      decide ((c.nodes 0).currentLeaderId = some 0) &&
        (c.step (Config.complete 3) (.move (.deliverVote 2))).any fun c' =>
          decide ((c'.nodes 0).state = .follower)) = true := by decide +kernel
  obtain ⟨c, hreach, hp⟩ := exists_reach hrun
  rw [Bool.and_eq_true, Option.any_eq_true] at hp
  obtain ⟨hhint, c', hstep, hstate⟩ := hp
  have hfollower := of_decide_eq_true hstate
  have helse := ((leader_hint (Config.complete 3)).1 c _ c' hreach hstep).mpr trivial
  exact ⟨c, c', hreach, of_decide_eq_true hhint, hstep, hfollower, helse 0 (by rw [hfollower]; decide)⟩

/-- Node 0 leads term 1 and learns of term 2 from the reply of node 1 to its request. -/
def outrunRun : List (Action (Fin 3)) := List.flatten
  [[.move (.timeout 0)], vote 0 0, noVote 0, [.move (.endElection 0)],
    [.move (.send (.background 0)), .move (.timeout 1), .move (.deliverAppend 0),
      .move (.appendReply (.background 0) fun _ => true)]]

theorem leader_hint_outrun : ∃ c : Cluster (Fin 3),
    (system (Config.complete 3)).Reach CrashFree c ∧ (c.nodes 0).state = .follower ∧
      (c.nodes 0).currentLeaderId = some 0 := by
  have hrun : (run (Config.complete 3) CrashFree .init outrunRun).any (fun c =>
      decide ((c.nodes 0).state = .follower ∧ (c.nodes 0).currentLeaderId = some 0)) = true := by
    decide +kernel
  obtain ⟨c, hreach, hp⟩ := exists_reach hrun
  obtain ⟨hstate, hhint⟩ := of_decide_eq_true hp
  exact ⟨c, hreach, hstate, hhint⟩

end Cluster

end RaftKv
