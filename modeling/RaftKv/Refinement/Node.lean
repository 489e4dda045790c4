-- SUMMARY: One specification per section of RaftNode, in terms of the abstract peer, the events it adds and what it may leave on disk.
import RaftKv.Refinement.Merge
import RaftKv.Lib.Consensus

/-!
# The sections of a node

A node is seen by the abstract protocol as a peer: term, vote, role, log and commit
index. Each section of `RaftNode` is described once by the peer it leaves, the events
it adds to the history and, for the sections that can crash half-way, the disks it
writes.
-/

namespace RaftKv

open TermLog

def NodeState.role : NodeState → Consensus.Role
  | .follower => .follower
  | .candidate => .candidate
  | .leader => .leader

namespace RaftNode

variable {ι : Type}

/-- What the abstract protocol sees of a node. -/
def peer (n : RaftNode ι) : Consensus.Peer ι LogEntry where
  term := n.store.term
  vote := n.store.voted
  role := n.state.role
  log := n.store.log
  commit := n.store.commitIndex

/-- A section that changes role or term ends as a follower; it keeps `nextIndex`
positive and only adds to the history. -/
structure Steady (n n' : RaftNode ι) : Prop where
  role : n'.state ≠ .follower → n'.state = n.state ∧ n'.store.term = n.store.term
  next : (∀ j, 1 ≤ n.nextIndex j) → ∀ j, 1 ≤ n'.nextIndex j
  trace : n.trace <+: n'.trace

theorem Steady.of_eq {n n' : RaftNode ι} (hstate : n'.state = n.state)
    (hterm : n'.store.term = n.store.term) (hnext : n'.nextIndex = n.nextIndex)
    (htrace : n.trace <+: n'.trace) : Steady n n' :=
  ⟨fun _ => ⟨hstate, hterm⟩, fun h => by rw [hnext]; exact h, htrace⟩

theorem Steady.follower {n n' : RaftNode ι} (hstate : n'.state = .follower)
    (hnext : n'.nextIndex = n.nextIndex) (htrace : n.trace <+: n'.trace) : Steady n n' :=
  ⟨fun h => absurd hstate h, fun h => by rw [hnext]; exact h, htrace⟩

theorem Steady.refl (n : RaftNode ι) : Steady n n := .of_eq rfl rfl rfl (List.prefix_refl _)

theorem Steady.trans {n n' n'' : RaftNode ι} (h : Steady n n') (h' : Steady n' n'') :
    Steady n n'' where
  role := by
    intro hrole
    obtain ⟨hs, ht⟩ := h'.role hrole
    rw [hs] at hrole
    obtain ⟨hs', ht'⟩ := h.role hrole
    exact ⟨hs.trans hs', ht.trans ht'⟩
  next := fun hnext => h'.next (h.next hnext)
  trace := h.trace.trans h'.trace

theorem Rewrote.steady {P : List LogEntry → Prop} {n n' : RaftNode ι} (h : Rewrote P n n') :
    Steady n n' := by
  obtain ⟨events, htrace, -⟩ := h.trace
  exact .of_eq h.state h.term h.next (htrace ▸ List.prefix_append _ _)

/-! ## Applying entries -/

/-- The events of applying `entries`, the first of them at position `start`. -/
def appliedEvents (start : Nat) (entries : List LogEntry) : List (Event ι) :=
  entries.mapIdx fun k e => .applied (start + k) e

theorem mem_appliedEvents {start : Nat} {entries : List LogEntry} {x : Event ι} :
    x ∈ appliedEvents start entries ↔ ∃ k e, entries[k]? = some e ∧ x = .applied (start + k) e := by
  simp only [appliedEvents, List.mem_mapIdx]
  constructor
  · rintro ⟨k, hk, rfl⟩
    exact ⟨k, entries[k], List.getElem?_eq_getElem hk, rfl⟩
  · rintro ⟨k, e, he, rfl⟩
    obtain ⟨hk, rfl⟩ := List.getElem?_eq_some_iff.mp he
    exact ⟨k, hk, rfl⟩

@[simp] theorem applyEntries_store (n : RaftNode ι) (start : Nat) (es : List LogEntry) :
    (n.applyEntries start es).store = n.store := rfl
@[simp] theorem applyEntries_state (n : RaftNode ι) (start : Nat) (es : List LogEntry) :
    (n.applyEntries start es).state = n.state := rfl

section ApplyCommitted

variable (n : RaftNode ι)

@[simp] theorem applyCommitted_peer : n.applyCommitted.peer = n.peer := by
  unfold applyCommitted; simp only; split <;> rfl
@[simp] theorem applyCommitted_state : n.applyCommitted.state = n.state := by
  unfold applyCommitted; simp only; split <;> rfl
@[simp] theorem applyCommitted_nextIndex : n.applyCommitted.nextIndex = n.nextIndex := by
  unfold applyCommitted; simp only; split <;> rfl
@[simp] theorem applyCommitted_matchIndex : n.applyCommitted.matchIndex = n.matchIndex := by
  unfold applyCommitted; simp only; split <;> rfl
@[simp] theorem applyCommitted_term : n.applyCommitted.store.term = n.store.term :=
  congrArg Consensus.Peer.term (applyCommitted_peer n)
@[simp] theorem applyCommitted_log : n.applyCommitted.store.log = n.store.log :=
  congrArg Consensus.Peer.log (applyCommitted_peer n)
@[simp] theorem applyCommitted_commitIndex :
    n.applyCommitted.store.commitIndex = n.store.commitIndex :=
  congrArg Consensus.Peer.commit (applyCommitted_peer n)

variable {n}

theorem applyCommitted_wf (hwf : n.store.Wf) : n.applyCommitted.store.Wf := by
  unfold applyCommitted; simp only
  split
  · exact hwf.setApplied _
  · exact hwf

/-- Only applied events, and no write, come out of applying. -/
theorem applyCommitted_events : ∃ events, n.applyCommitted.trace = n.trace ++ events ∧
    ∀ x ∈ events, ∃ k e, x = .applied k e := by
  unfold applyCommitted; simp only
  split
  · refine ⟨_, rfl, fun x hx => ?_⟩
    obtain ⟨k, e, -, rfl⟩ := mem_appliedEvents.mp hx
    exact ⟨_, _, rfl⟩
  · exact ⟨[], by simp, by simp⟩

theorem applyCommitted_steady : Steady n n.applyCommitted := by
  obtain ⟨events, htrace, -⟩ := applyCommitted_events (n := n)
  exact .of_eq (by simp) (by simp) (by simp) (htrace ▸ List.prefix_append _ _)

/-- With the indices in order, everything up to the commit index gets applied. -/
theorem applyCommitted_spec (hwf : n.store.Wf)
    (happlied : n.store.lastApplied ≤ n.store.commitIndex)
    (hcommit : n.store.commitIndex ≤ n.store.log.length) :
    let fresh := (n.store.log.take n.store.commitIndex).drop n.store.lastApplied
    n.applyCommitted.store.lastApplied = n.store.commitIndex ∧
      n.applyCommitted.sm = n.sm.applyAll (fresh.map (·.command)) ∧
      n.applyCommitted.trace = n.trace ++ appliedEvents (n.store.lastApplied + 1) fresh := by
  intro fresh
  rcases Nat.eq_or_lt_of_le happlied with heq | hlt
  · have hfresh : fresh = [] := by simp [fresh, heq]
    have hskip : ¬ n.store.commitIndex > n.store.lastApplied := by omega
    simp only [applyCommitted, if_neg hskip, hfresh]
    exact ⟨heq, rfl, by simp [appliedEvents]⟩
  · have hread : n.store.readRange (n.store.lastApplied + 1) n.store.commitIndex = fresh :=
      hwf.readRange (a := n.store.lastApplied + 1) (by omega) hlt hcommit
    simp only [applyCommitted, if_pos (show n.store.commitIndex > n.store.lastApplied from hlt),
      hread]
    exact ⟨rfl, rfl, rfl⟩

end ApplyCommitted

/-! ## Restart -/

section Start

variable {d : Disk ι} (trace : List (Event ι)) (hd : Indexed d.log)

theorem start_trace : (start d trace).trace = trace ++ appliedEvents 1 d.log := by
  unfold start replay; simp only
  split <;> rfl

theorem start_state : (start d trace).state = .follower := by
  unfold start replay; simp only
  split <;> rfl

theorem start_sm :
    (start d trace).sm = StateMachine.empty.applyAll (d.log.map (·.command)) := by
  unfold start replay; simp only
  split <;> rfl

include hd

/-- A restarted node takes its whole log as committed and applied. -/
theorem start_store : (start d trace).store.Wf ∧
    (start d trace).peer = ⟨d.term, d.voted, .follower, d.log, d.log.length⟩ ∧
    (start d trace).store.lastApplied = d.log.length := by
  have hlast := hd.getLast?_index
  have hwf := Store.Wf.reopen (d := d) hd
  unfold start replay; simp only [applyEntries_store]
  split
  · rename_i hnone
    have hnil : d.log = [] := List.getLast?_eq_none_iff.mp hnone
    exact ⟨hwf, by simp [peer, Store.reopen, NodeState.role, hnil], by simp [Store.reopen, hnil]⟩
  · rename_i e he
    have he' : d.log.getLast? = some e := he
    rw [he'] at hlast
    simp only [Option.map_some, Option.getD_some] at hlast
    refine ⟨(hwf.setApplied _).setCommit _, ?_, hlast⟩
    simp [peer, Store.setCommit, Store.setApplied, Store.reopen, NodeState.role, hlast]

end Start

/-! ## Elections -/

section Elections

theorem startElection_trace (self : ι) (n : RaftNode ι) :
    (n.startElection self).1.trace = n.trace ++
      [.wrote ⟨n.store.term + 1, n.store.voted, n.store.log⟩,
        .wrote ⟨n.store.term + 1, some self, n.store.log⟩, .candidate (n.store.term + 1)] := by
  simp [startElection, persist, emit, Store.disk]

theorem startElection_peer (self : ι) (n : RaftNode ι) : (n.startElection self).1.peer =
    { n.peer with term := n.store.term + 1, vote := some self, role := .candidate } := rfl

@[simp] theorem startElection_state (self : ι) (n : RaftNode ι) :
    (n.startElection self).1.state = .candidate := rfl

theorem startElection_wf (self : ι) {n : RaftNode ι} (hwf : n.store.Wf) :
    (n.startElection self).1.store.Wf := (hwf.setTerm _).setVoted _

/-- A reply of a later term ends the candidacy or the leadership. -/
def stepDown (n : RaftNode ι) (t : Nat) : RaftNode ι :=
  { (n.persist (n.store.setTerm t)).persist ((n.store.setTerm t).setVoted none) with
    state := .follower }

theorem stepDown_trace (n : RaftNode ι) (t : Nat) : (n.stepDown t).trace = n.trace ++
    [.wrote ⟨t, n.store.voted, n.store.log⟩, .wrote ⟨t, none, n.store.log⟩] := by
  simp [stepDown, persist, Store.disk]

theorem stepDown_peer (n : RaftNode ι) (t : Nat) : (n.stepDown t).peer =
    { n.peer with term := t, vote := none, role := .follower } := rfl

@[simp] theorem stepDown_state (n : RaftNode ι) (t : Nat) : (n.stepDown t).state = .follower := rfl

theorem stepDown_steady (n : RaftNode ι) (t : Nat) : Steady n (n.stepDown t) :=
  .follower rfl rfl (stepDown_trace n t ▸ List.prefix_append _ _)

theorem voteReply_deposed {n : RaftNode ι} {resp : RequestVoteResponse} (votes : Nat)
    (hterm : n.store.term < resp.term) :
    (n.voteReply votes resp).1 = { n.stepDown resp.term with currentLeaderId := none } := by
  simp [voteReply, hterm, stepDown, persist]

/-- The entry a new leader writes. -/
def noopEntry (n : RaftNode ι) : LogEntry :=
  ⟨n.store.term, n.store.logLength + 1, { oper := .noop }⟩

section BecomeLeader

variable (self : ι) {n : RaftNode ι} (hcand : n.state = .candidate)

include hcand

theorem becomeLeader_trace : (n.becomeLeader self).trace = n.trace ++
    [.elected n.store.term n.store.log,
      .wrote ⟨n.store.term, n.store.voted, n.store.log ++ [n.noopEntry]⟩] := by
  simp [becomeLeader, hcand, persist, emit, Store.disk, noopEntry]

theorem becomeLeader_peer : (n.becomeLeader self).peer =
    { n.peer with role := .leader, log := n.store.log ++ [n.noopEntry] } := by
  simp [becomeLeader, hcand, persist, emit, noopEntry, peer, NodeState.role]

theorem becomeLeader_state : (n.becomeLeader self).state = .leader := by
  simp [becomeLeader, hcand, persist, emit]

theorem becomeLeader_wf (hwf : n.store.Wf) : (n.becomeLeader self).store.Wf := by
  have hnew : n.noopEntry.index = n.store.log.length + 1 := by simp [noopEntry, hwf.length]
  have happ := hwf.append hnew
  simpa [becomeLeader, hcand, persist, emit, noopEntry] using happ

theorem becomeLeader_nextIndex (j : ι) :
    (n.becomeLeader self).nextIndex j = n.store.logLength + 1 := by
  simp [becomeLeader, hcand, persist, emit]

theorem becomeLeader_matchIndex (j : ι) : (n.becomeLeader self).matchIndex j = 0 := by
  simp [becomeLeader, hcand, persist, emit]

theorem becomeLeader_applied : (n.becomeLeader self).sm = n.sm ∧
    (n.becomeLeader self).store.lastApplied = n.store.lastApplied := by
  simp [becomeLeader, hcand, persist, emit]

end BecomeLeader

/-- A vote request of a later term is first a step down. -/
def heardVote (n : RaftNode ι) (rpc : RequestVote ι) : RaftNode ι :=
  if rpc.term > n.store.term then { n.stepDown rpc.term with currentLeaderId := none } else n

theorem heardVote_steady (n : RaftNode ι) (rpc : RequestVote ι) : Steady n (n.heardVote rpc) := by
  unfold heardVote
  split
  · exact (stepDown_steady n rpc.term).trans (.of_eq rfl rfl rfl (List.prefix_refl _))
  · exact .refl n

/-- The conditions for a vote, after the term of the request was taken over. -/
def Grants (n : RaftNode ι) (rpc : RequestVote ι) : Prop :=
  (n.store.voted = none ∨ n.store.voted = some rpc.candidateId) ∧
    (rpc.lastLogTerm > n.store.lastLogTerm ∨
      (rpc.lastLogTerm = n.store.lastLogTerm ∧ rpc.lastLogIndex ≥ n.store.logLength))

variable [DecidableEq ι]

theorem handleRequestVote_cases (n : RaftNode ι) (rpc : RequestVote ι) :
    (rpc.term < n.store.term ∧
      n.handleRequestVote rpc = (n, ⟨n.store.term, false⟩)) ∨
    (n.store.term ≤ rpc.term ∧ (n.heardVote rpc).Grants rpc ∧
      n.handleRequestVote rpc =
        ((n.heardVote rpc).persist ((n.heardVote rpc).store.setVoted (some rpc.candidateId)),
          ⟨rpc.term, true⟩)) ∨
    (n.store.term ≤ rpc.term ∧
      n.handleRequestVote rpc = (n.heardVote rpc, ⟨rpc.term, false⟩)) := by
  rcases Nat.lt_trichotomy rpc.term n.store.term with hlt | heq | hgt
  · exact Or.inl ⟨hlt, by simp [handleRequestVote, hlt]⟩
  · right
    have hheard : n.heardVote rpc = n := by simp [heardVote, heq]
    rw [hheard]
    by_cases hg : n.Grants rpc
    · refine Or.inl ⟨by omega, hg, ?_⟩
      unfold Grants at hg
      simp [handleRequestVote, heq, hg]
    · refine Or.inr ⟨by omega, ?_⟩
      unfold Grants at hg
      simp only [handleRequestVote, heq, lt_irrefl, if_false, gt_iff_lt] at hg ⊢
      rw [if_neg hg]
  · right
    have hheard : n.heardVote rpc = { n.stepDown rpc.term with currentLeaderId := none } := by
      simp [heardVote, hgt]
    have hnot : ¬ rpc.term < n.store.term := by omega
    by_cases hg : (n.heardVote rpc).Grants rpc
    · refine Or.inl ⟨by omega, hg, ?_⟩
      rw [hheard] at hg ⊢
      unfold Grants at hg
      simp only [handleRequestVote, if_neg hnot, if_pos hgt]
      exact if_pos hg
    · refine Or.inr ⟨by omega, ?_⟩
      rw [hheard] at hg ⊢
      unfold Grants at hg
      simp only [handleRequestVote, if_neg hnot, if_pos hgt]
      exact if_neg hg

theorem handleRequestVote_steady (n : RaftNode ι) (rpc : RequestVote ι) :
    Steady n (n.handleRequestVote rpc).1 := by
  rcases n.handleRequestVote_cases rpc with ⟨-, heq⟩ | ⟨-, -, heq⟩ | ⟨-, heq⟩ <;> rw [heq]
  · exact .refl n
  · exact (heardVote_steady n rpc).trans (.of_eq rfl rfl rfl (List.prefix_append _ _))
  · exact heardVote_steady n rpc

end Elections

/-! ## Answering AppendEntries -/

section HandleAppendEntries

variable (n : RaftNode ι) (rpc : AppendEntries ι)

theorem resolveConflicts_rewrote (es : List LogEntry) (idx : Nat) :
    Rewrote (fun _ => True) n (n.resolveConflicts idx es) := by
  induction es generalizing n idx with
  | nil => exact Rewrote.refl n
  | cons e es ih =>
    simp only [resolveConflicts]
    split
    · refine Rewrote.trans ?_ (ih _ (idx + 1))
      have hkeep : (n.store.truncate (idx - 1)).term = n.store.term ∧
          (n.store.truncate (idx - 1)).voted = n.store.voted ∧
          (n.store.truncate (idx - 1)).commitIndex = n.store.commitIndex ∧
          (n.store.truncate (idx - 1)).lastApplied = n.store.lastApplied := by
        unfold Store.truncate; split
        · exact ⟨rfl, rfl, rfl, rfl⟩
        · split <;> exact ⟨rfl, rfl, rfl, rfl⟩
      obtain ⟨hterm, hvoted, hcommit, happlied⟩ := hkeep
      refine ⟨hterm, hvoted, hcommit, happlied, rfl, rfl, rfl, rfl, _, rfl, fun x hx => ?_⟩
      exact ⟨_, trivial, by rw [List.mem_singleton.mp hx, Store.disk, hterm, hvoted]⟩
    · exact ih _ (idx + 1)

theorem appendNew_rewrote (es : List LogEntry) :
    Rewrote (fun _ => True) n (n.appendNew es) := by
  induction es generalizing n with
  | nil => exact Rewrote.refl n
  | cons e es ih =>
    simp only [appendNew]
    split
    · exact (Rewrote.persist_append n e trivial).trans (ih _)
    · exact ih _

theorem followLeader_peer (hterm : n.store.term ≤ rpc.term) : (n.followLeader rpc).peer =
    { n.peer with
      term := rpc.term
      vote := if n.store.term < rpc.term then none else n.store.voted
      role := .follower } := by
  rcases Nat.eq_or_lt_of_le hterm with heq | hlt
  · simp [followLeader, heq, peer, NodeState.role]
  · simp [followLeader, hlt, peer, NodeState.role, persist]

theorem followLeader_trace : (n.followLeader rpc).trace = n.trace ++
    if n.store.term < rpc.term then
      [.wrote ⟨rpc.term, n.store.voted, n.store.log⟩, .wrote ⟨rpc.term, none, n.store.log⟩]
    else [] := by
  unfold followLeader
  by_cases hlt : rpc.term > n.store.term
  · simp only [if_pos hlt]
    split <;> simp [persist, Store.disk]
  · simp only [if_neg hlt]
    split <;> simp

/-- What a newer term leaves of the rest of the node. -/
theorem followLeader_rest : (n.followLeader rpc).sm = n.sm ∧
    (n.followLeader rpc).store.lastApplied = n.store.lastApplied ∧
    (n.followLeader rpc).nextIndex = n.nextIndex ∧
    (n.followLeader rpc).store.logLength = n.store.logLength ∧
    (n.followLeader rpc).store.lastLogTerm = n.store.lastLogTerm := by
  unfold followLeader; simp only
  split <;> split <;> exact ⟨rfl, rfl, rfl, rfl, rfl⟩

theorem followLeader_wf (hwf : n.store.Wf) : (n.followLeader rpc).store.Wf := by
  unfold followLeader; simp only
  split <;> split
  · exact (hwf.setTerm _).setVoted _
  · exact (hwf.setTerm _).setVoted _
  · exact hwf
  · exact hwf

theorem followLeader_steady (hterm : n.store.term ≤ rpc.term) :
    Steady n (n.followLeader rpc) := by
  refine .follower ?_ (followLeader_rest n rpc).2.2.1
    (followLeader_trace n rpc ▸ List.prefix_append _ _)
  have hrole := congrArg Consensus.Peer.role (followLeader_peer n rpc hterm)
  simp only [peer] at hrole
  cases hs : (n.followLeader rpc).state <;> simp [hs, NodeState.role] at hrole ⊢

theorem followCommit_steady (leaderCommit : Nat) : Steady n (n.followCommit leaderCommit) := by
  unfold followCommit
  split <;> exact .of_eq rfl rfl rfl (List.prefix_refl _)

theorem followCommit_wf (leaderCommit : Nat) (hwf : n.store.Wf) :
    (n.followCommit leaderCommit).store.Wf := by
  unfold followCommit
  split
  · exact hwf.setCommit _
  · exact hwf

/-- The commit index after the follower's update. -/
def followedCommit (leaderCommit : Nat) : Nat :=
  if leaderCommit > n.store.commitIndex then min leaderCommit n.store.log.length
  else n.store.commitIndex

theorem followCommit_peer (leaderCommit : Nat) (hwf : n.store.Wf) :
    (n.followCommit leaderCommit).peer =
      { n.peer with commit := n.followedCommit leaderCommit } := by
  unfold followCommit followedCommit
  split
  · simp [peer, Store.setCommit, hwf.length]
  · rfl

theorem followCommit_rest (leaderCommit : Nat) : (n.followCommit leaderCommit).sm = n.sm ∧
    (n.followCommit leaderCommit).store.lastApplied = n.store.lastApplied ∧
    (n.followCommit leaderCommit).trace = n.trace := by
  unfold followCommit
  split <;> exact ⟨rfl, rfl, rfl⟩

theorem followLeader_log : (n.followLeader rpc).store.log = n.store.log := by
  unfold followLeader; simp only
  split <;> split <;> rfl

theorem followCommit_log (leaderCommit : Nat) :
    (n.followCommit leaderCommit).store.log = n.store.log := by
  unfold followCommit
  split <;> rfl

theorem prevMatches_followLeader :
    prevMatches (n.followLeader rpc).store rpc = prevMatches n.store rpc := by
  unfold followLeader; simp only
  split <;> split <;> rfl

/-- The node after both loops over the entries. -/
def merged : RaftNode ι :=
  ((n.followLeader rpc).resolveConflicts (rpc.prevLogIndex + 1) rpc.entries).appendNew rpc.entries

theorem merged_rewrote : Rewrote (fun _ => True) (n.followLeader rpc) (n.merged rpc) :=
  (resolveConflicts_rewrote _ _ _).trans (appendNew_rewrote _ _)

variable {n rpc}

theorem merged_commitIndex (hterm : n.store.term ≤ rpc.term) :
    (n.merged rpc).store.commitIndex = n.store.commitIndex :=
  (merged_rewrote n rpc).commit.trans (congrArg Consensus.Peer.commit (followLeader_peer n rpc hterm))

theorem handleAppendEntries_refused (hterm : n.store.term ≤ rpc.term)
    (hprev : prevMatches n.store rpc = false) :
    n.handleAppendEntries rpc = (n.followLeader rpc, ⟨rpc.term, false⟩) := by
  rw [← prevMatches_followLeader] at hprev
  simp [handleAppendEntries, Nat.not_lt.mpr hterm, hprev]

theorem handleAppendEntries_accepted (hterm : n.store.term ≤ rpc.term)
    (hprev : prevMatches n.store rpc = true) :
    n.handleAppendEntries rpc =
      (((n.merged rpc).followCommit rpc.leaderCommit).applyCommitted, ⟨rpc.term, true⟩) := by
  rw [← prevMatches_followLeader] at hprev
  simp [handleAppendEntries, Nat.not_lt.mpr hterm, hprev, merged]

/-- A follower commits no further than the leader has and no further than its own log. -/
theorem accepted_commitIndex (hterm : n.store.term ≤ rpc.term) (hwf : (n.merged rpc).store.Wf) :
    ((n.merged rpc).followCommit rpc.leaderCommit).applyCommitted.store.commitIndex =
      if rpc.leaderCommit > n.store.commitIndex then min rpc.leaderCommit (n.merged rpc).store.log.length
      else n.store.commitIndex := by
  have hpeer := followCommit_peer (n.merged rpc) rpc.leaderCommit hwf
  have hcommit := congrArg Consensus.Peer.commit hpeer
  rw [applyCommitted_commitIndex, show ((n.merged rpc).followCommit _).store.commitIndex = _ from hcommit]
  simp only [followedCommit, merged_commitIndex hterm]

variable (n rpc)

theorem handleAppendEntries_cases :
    (rpc.term < n.store.term ∧ n.handleAppendEntries rpc = (n, ⟨n.store.term, false⟩)) ∨
    (n.store.term ≤ rpc.term ∧ prevMatches (n.followLeader rpc).store rpc = false ∧
      n.handleAppendEntries rpc = (n.followLeader rpc, ⟨rpc.term, false⟩)) ∨
    (n.store.term ≤ rpc.term ∧ prevMatches (n.followLeader rpc).store rpc = true ∧
      n.handleAppendEntries rpc =
        (((n.merged rpc).followCommit rpc.leaderCommit).applyCommitted, ⟨rpc.term, true⟩)) := by
  by_cases hstale : rpc.term < n.store.term
  · exact Or.inl ⟨hstale, by simp [handleAppendEntries, hstale]⟩
  · have hterm : n.store.term ≤ rpc.term := Nat.le_of_not_lt hstale
    rw [prevMatches_followLeader]
    right
    cases hprev : prevMatches n.store rpc with
    | true => exact Or.inr ⟨hterm, rfl, handleAppendEntries_accepted hterm hprev⟩
    | false => exact Or.inl ⟨hterm, rfl, handleAppendEntries_refused hterm hprev⟩

theorem handleAppendEntries_steady : Steady n (n.handleAppendEntries rpc).1 := by
  rcases n.handleAppendEntries_cases rpc with ⟨-, heq⟩ | ⟨hterm, -, heq⟩ | ⟨hterm, -, heq⟩ <;>
    rw [heq]
  · exact .refl n
  · exact followLeader_steady n rpc hterm
  · refine (followLeader_steady n rpc hterm).trans ((merged_rewrote n rpc).steady.trans ?_)
    exact (followCommit_steady _ _).trans applyCommitted_steady

end HandleAppendEntries

/-! ## Replies to AppendEntries, and the commit rule -/

section Replies

variable (n : RaftNode ι) (peers : List ι) (connected : ι → Bool)

/-- The loop ends where it started, or at an index of the current term that a majority
has reached. -/
theorem scanCommit_spec (idxs : List Nat) (c : Nat) :
    n.scanCommit peers connected idxs c = c ∨
    (n.scanCommit peers connected idxs c ∈ idxs ∧
      n.store.getTermAt (n.scanCommit peers connected idxs c) = n.store.term ∧
      n.replicaCount peers connected (n.scanCommit peers connected idxs c) ≥ majority peers) := by
  induction idxs generalizing c with
  | nil => exact Or.inl rfl
  | cons idx rest ih =>
    by_cases hterm : n.store.getTermAt idx = n.store.term
    · by_cases hcount : n.replicaCount peers connected idx ≥ majority peers
      · simp only [scanCommit, hterm, ne_eq, not_true, if_false, if_pos hcount]
        rcases ih idx with heq | ⟨hmem, hrest⟩
        · rw [heq]
          exact Or.inr ⟨List.mem_cons_self, hterm, hcount⟩
        · exact Or.inr ⟨List.mem_cons_of_mem _ hmem, hrest⟩
      · simp only [scanCommit, hterm, ne_eq, not_true, if_false, if_neg hcount]
        exact Or.inl trivial
    · simp only [scanCommit, if_pos hterm]
      rcases ih c with heq | ⟨hmem, hrest⟩
      · exact Or.inl heq
      · exact Or.inr ⟨List.mem_cons_of_mem _ hmem, hrest⟩

/-- Taking `c` as the new commit index of a leader. -/
def committing (c : Nat) : RaftNode ι :=
  ({ n with store := n.store.setCommit c }.emit
    (.committed n.store.term (n.store.log.take c))).applyCommitted

theorem committing_peer (c : Nat) : (n.committing c).peer = { n.peer with commit := c } := by
  simp only [committing, applyCommitted_peer]
  rfl

theorem advanceCommitIndex_cases (hwf : n.store.Wf) :
    n.advanceCommitIndex peers connected = n ∨
    ∃ c, n.store.commitIndex < c ∧ c ≤ n.store.log.length ∧
      n.store.getTermAt c = n.store.term ∧
      n.replicaCount peers connected c ≥ majority peers ∧
      n.advanceCommitIndex peers connected = n.committing c := by
  unfold advanceCommitIndex; simp only
  have hlen := hwf.length
  rcases n.scanCommit_spec peers connected
      (List.range' (n.store.commitIndex + 1) (n.store.logLength - n.store.commitIndex))
      n.store.commitIndex with heq | ⟨hmem, hterm, hcount⟩
  · rw [heq]
    exact Or.inl (if_neg (lt_irrefl _))
  · rw [List.mem_range'_1] at hmem
    refine Or.inr ⟨_, by omega, by omega, hterm, hcount, ?_⟩
    rw [if_pos (by omega)]
    rfl

theorem committing_steady (c : Nat) : Steady n (n.committing c) := by
  refine Steady.trans ?_ applyCommitted_steady
  exact .of_eq rfl rfl rfl (List.prefix_append _ _)

theorem advanceCommitIndex_steady : Steady n (n.advanceCommitIndex peers connected) := by
  unfold advanceCommitIndex; simp only
  split
  · exact committing_steady n _
  · exact .refl n

theorem advanceCommitIndex_log :
    (n.advanceCommitIndex peers connected).store.log = n.store.log := by
  unfold advanceCommitIndex; simp only
  split
  · exact applyCommitted_log _
  · rfl

theorem advanceCommitIndex_vectors :
    (n.advanceCommitIndex peers connected).nextIndex = n.nextIndex ∧
      (n.advanceCommitIndex peers connected).matchIndex = n.matchIndex := by
  unfold advanceCommitIndex; simp only
  split
  · exact ⟨applyCommitted_nextIndex _, applyCommitted_matchIndex _⟩
  · exact ⟨rfl, rfl⟩

theorem advanceCommitIndex_state : (n.advanceCommitIndex peers connected).state = n.state := by
  unfold advanceCommitIndex; simp only
  split
  · exact applyCommitted_state _
  · rfl

variable [DecidableEq ι] (p : ι) (ae : AppendEntries ι)

theorem backOff_peer : (n.backOff p ae).peer = n.peer := by
  unfold backOff; split <;> rfl

/-- `backOff` touches `nextIndex` only. -/
theorem backOff_rest : (n.backOff p ae).matchIndex = n.matchIndex ∧
    (n.backOff p ae).state = n.state ∧ (n.backOff p ae).store = n.store ∧
    (n.backOff p ae).sm = n.sm ∧ (n.backOff p ae).trace = n.trace := by
  unfold backOff; split <;> exact ⟨rfl, rfl, rfl, rfl, rfl⟩

theorem backOff_next (h : ∀ j, 1 ≤ n.nextIndex j) (j : ι) : 1 ≤ (n.backOff p ae).nextIndex j := by
  unfold backOff
  split
  · rename_i hg
    simp only [Function.update_apply]
    split
    · omega
    · exact h j
  · exact h j

/-- The two vectors after a successful reply, before the commit rule. -/
def matched : RaftNode ι :=
  let m := max (n.matchIndex p) (ae.prevLogIndex + ae.entries.length)
  { n with
    matchIndex := Function.update n.matchIndex p m
    nextIndex := Function.update n.nextIndex p (m + 1) }

theorem matched_matchIndex (j : ι) : (n.matched p ae).matchIndex j =
    if j = p then max (n.matchIndex p) (ae.prevLogIndex + ae.entries.length)
    else n.matchIndex j := Function.update_apply _ _ _ _

theorem matched_next (h : ∀ j, 1 ≤ n.nextIndex j) (j : ι) : 1 ≤ (n.matched p ae).nextIndex j := by
  simp only [matched, Function.update_apply]
  split
  · omega
  · exact h j

theorem appendReply_deposed {resp : AppendEntriesResponse} (hterm : n.store.term < resp.term) :
    n.appendReply peers connected p ae resp = n.stepDown resp.term := by
  simp [appendReply, hterm, stepDown, persist]

theorem acknowledge_eq : n.acknowledge peers connected p ae =
    (n.matched p ae).advanceCommitIndex peers connected := by
  simp [acknowledge, matched]

theorem appendReply_acknowledged {resp : AppendEntriesResponse} (hterm : resp.term ≤ n.store.term)
    (hok : resp.success = true) (hne : ae.entries ≠ []) :
    n.appendReply peers connected p ae resp = (n.matched p ae).advanceCommitIndex peers connected := by
  have hcond : resp.success = true ∧ ¬ ae.entries.isEmpty := ⟨hok, by simpa using hne⟩
  simp only [appendReply, gt_iff_lt, if_neg (Nat.not_lt.mpr hterm), if_pos hcond]
  exact n.acknowledge_eq peers connected p ae

theorem appendReply_rejected {resp : AppendEntriesResponse} (hterm : resp.term ≤ n.store.term)
    (hno : ¬ (resp.success = true ∧ ae.entries ≠ [])) :
    n.appendReply peers connected p ae resp = n.backOff p ae := by
  have hcond : ¬ (resp.success = true ∧ ¬ ae.entries.isEmpty) := by simpa using hno
  simp only [appendReply, gt_iff_lt, if_neg (Nat.not_lt.mpr hterm), if_neg hcond]

theorem appendReply_cases (resp : AppendEntriesResponse) :
    (n.store.term < resp.term ∧
      n.appendReply peers connected p ae resp = n.stepDown resp.term) ∨
    (resp.term ≤ n.store.term ∧ resp.success = true ∧ ae.entries ≠ [] ∧
      n.appendReply peers connected p ae resp =
        (n.matched p ae).advanceCommitIndex peers connected) ∨
    (resp.term ≤ n.store.term ∧ n.appendReply peers connected p ae resp = n.backOff p ae) := by
  by_cases hterm : n.store.term < resp.term
  · exact Or.inl ⟨hterm, appendReply_deposed n peers connected p ae hterm⟩
  · have hle : resp.term ≤ n.store.term := Nat.le_of_not_lt hterm
    right
    by_cases hok : resp.success = true ∧ ae.entries ≠ []
    · exact Or.inl ⟨hle, hok.1, hok.2, appendReply_acknowledged n peers connected p ae hle hok.1 hok.2⟩
    · exact Or.inr ⟨hle, appendReply_rejected n peers connected p ae hle hok⟩

theorem backOff_steady : Steady n (n.backOff p ae) where
  role := by
    obtain ⟨-, hstate, hstore, -⟩ := backOff_rest n p ae
    intro _
    exact ⟨hstate, by rw [hstore]⟩
  next := fun h j => backOff_next n p ae h j
  trace := by rw [(backOff_rest n p ae).2.2.2.2]

theorem matched_steady : Steady n (n.matched p ae) :=
  ⟨fun _ => ⟨rfl, rfl⟩, fun h j => matched_next n p ae h j, List.prefix_refl _⟩

theorem appendReply_steady (resp : AppendEntriesResponse) :
    Steady n (n.appendReply peers connected p ae resp) := by
  rcases n.appendReply_cases peers connected p ae resp with
    ⟨-, heq⟩ | ⟨-, -, -, heq⟩ | ⟨-, heq⟩ <;> rw [heq]
  · exact stepDown_steady n resp.term
  · exact (matched_steady n p ae).trans (advanceCommitIndex_steady _ _ _)
  · exact backOff_steady n p ae

theorem appendLost_store : (n.appendLost p ae).store = n.store :=
  (backOff_rest _ p ae).2.2.1

theorem appendLost_state : (n.appendLost p ae).state = n.state :=
  (backOff_rest _ p ae).2.1

theorem appendLost_steady : Steady n (n.appendLost p ae) := by
  refine Steady.trans ?_ (backOff_steady _ p ae)
  exact .of_eq rfl rfl rfl (List.prefix_refl _)

end Replies

theorem appendOwn_steady (n : RaftNode ι) (cmd : Command) : Steady n (n.appendOwn cmd).1 :=
  .of_eq rfl rfl rfl (List.prefix_append _ _)

end RaftNode

end RaftKv
