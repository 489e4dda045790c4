-- SUMMARY: handleAppendEntries against the log merge that Raft prescribes.
import RaftKv.Refinement.Node

/-!
# The log merge of Raft

`handleAppendEntries` on any log and any consecutively numbered batch, whoever sent it: when
it answers success, and which log it then leaves.
-/

namespace RaftKv.RaftNode

variable {ι : Type}

/-- What Raft prescribes for a log `F` and a batch `E` that starts behind position `p`. At the
first disagreement the log is cut, and takes over the rest of the batch. Without one nothing
is dropped, and the entries past the end of the log are added. -/
structure MergedLog (F : List LogEntry) (p : Nat) (E L : List LogEntry) : Prop where
  conflict : ∀ j, Disagree (F.drop p) E j → (∀ i < j, ¬ Disagree (F.drop p) E i) →
    L = F.take (p + j) ++ E.drop j
  extend : (∀ j, ¬ Disagree (F.drop p) E j) → L = F ++ E.drop (F.length - p)

variable (n : RaftNode ι) (rpc : AppendEntries ι)

theorem merged_mergedLog (hwf : n.store.Wf) (hidx : IndexedFrom rpc.prevLogIndex rpc.entries)
    (hprev : prevMatches n.store rpc = true) :
    MergedLog n.store.log rpc.prevLogIndex rpc.entries (n.merged rpc).store.log := by
  have hwf₁ := followLeader_wf n rpc hwf
  have hlog : (n.followLeader rpc).store.log = n.store.log := followLeader_log n rpc
  have hp : rpc.prevLogIndex ≤ n.store.log.length := by
    rcases (prevMatches_iff hwf rpc).mp hprev with hzero | ⟨x, -, hx, -⟩
    · omega
    · have hlt := (List.getElem?_eq_some_iff.mp hx).1
      omega
  rw [← hlog] at hp ⊢
  constructor
  · intro j hdis hfirst
    exact (merge_of_disagree _ hwf₁ hidx hdis hfirst).1
  · intro hagree
    exact (merge_of_agree _ hwf₁ hidx hp hagree).1

/-- For every follower and every consecutively numbered batch: success exactly when the term
is not stale and the previous entry is there, nothing of the log, the indices and the map is
changed without success, and with it the log is merged as Raft prescribes. -/
theorem handleAppendEntries_merges (hwf : n.store.Wf)
    (hidx : IndexedFrom rpc.prevLogIndex rpc.entries) :
    let n' := (n.handleAppendEntries rpc).1
    let resp := (n.handleAppendEntries rpc).2
    (resp.success = true ↔ n.store.term ≤ rpc.term ∧ (rpc.prevLogIndex = 0 ∨
      ∃ x, 0 < rpc.prevLogIndex ∧ n.store.log[rpc.prevLogIndex - 1]? = some x ∧
        x.term = rpc.prevLogTerm)) ∧
    (resp.success = false → n'.store.log = n.store.log ∧
      n'.store.commitIndex = n.store.commitIndex ∧ n'.store.lastApplied = n.store.lastApplied ∧
      n'.sm = n.sm) ∧
    (resp.success = true → MergedLog n.store.log rpc.prevLogIndex rpc.entries n'.store.log) := by
  intro n' resp
  rw [← prevMatches_iff hwf rpc]
  rcases n.handleAppendEntries_cases rpc with ⟨hstale, heq⟩ | ⟨hterm, hprev, heq⟩ | ⟨hterm, hprev, heq⟩
  · simp only [n', resp, heq]
    exact ⟨by simp [Nat.not_le.mpr hstale], by simp, by simp⟩
  · rw [prevMatches_followLeader] at hprev
    obtain ⟨hsm, happlied, -⟩ := followLeader_rest n rpc
    have hpeer := followLeader_peer n rpc hterm
    simp only [n', resp, heq, hprev]
    refine ⟨by simp, fun _ => ⟨followLeader_log n rpc, ?_, happlied, hsm⟩, by simp⟩
    exact congrArg Consensus.Peer.commit hpeer
  · rw [prevMatches_followLeader] at hprev
    simp only [n', resp, heq, hprev, applyCommitted_log, followCommit_log]
    exact ⟨by simp [hterm], by simp, fun _ => merged_mergedLog n rpc hwf hidx hprev⟩

/-- A follower in term 1 with three no-ops, the first of them committed. -/
def lateFollower : RaftNode Nat where
  store := {
    term := 1, lastLogTerm := 1, voted := none, logLength := 3
    log := [⟨1, 1, { oper := .noop }⟩, ⟨1, 2, { oper := .noop }⟩, ⟨1, 3, { oper := .noop }⟩]
    commitIndex := 1, lastApplied := 1 }
  sm := .empty
  state := .follower
  currentLeaderId := none
  nextIndex _ := 0
  matchIndex _ := 0
  trace := []

theorem lateFollower_wf : lateFollower.store.Wf where
  length := rfl
  lastTerm := rfl
  indexed := by decide

/-- A batch of term 2 that repeats the second no-op, disagrees with the third and adds one. -/
def lateBatch : AppendEntries Nat where
  term := 2
  leaderId := 0
  prevLogIndex := 1
  prevLogTerm := 1
  leaderCommit := 3
  entries :=
    [⟨1, 2, { oper := .noop }⟩, ⟨2, 3, { oper := .noop }⟩, ⟨2, 4, { oper := .put, key := [1] }⟩]

theorem handleAppendEntries_merges_lateBatch :
    let n' := (lateFollower.handleAppendEntries lateBatch).1
    (lateFollower.handleAppendEntries lateBatch).2.success = true ∧
      n'.store.log = [⟨1, 1, { oper := .noop }⟩, ⟨1, 2, { oper := .noop }⟩,
        ⟨2, 3, { oper := .noop }⟩, ⟨2, 4, { oper := .put, key := [1] }⟩] := by
  have hidx : IndexedFrom lateBatch.prevLogIndex lateBatch.entries := by
    intro i e he
    match i, he with
    | 0, rfl => rfl
    | 1, rfl => rfl
    | 2, rfl => rfl
  obtain ⟨hsuccess, -, hmerged⟩ :=
    handleAppendEntries_merges lateFollower lateBatch lateFollower_wf hidx
  have hok := hsuccess.mpr ⟨by decide, .inr ⟨_, by decide, rfl, rfl⟩⟩
  refine ⟨hok, (hmerged hok).conflict 1 ⟨_, _, rfl, rfl, by decide⟩ ?_⟩
  intro i hi
  obtain rfl : i = 0 := by omega
  rintro ⟨x, y, hx, hy, hne⟩
  cases hx
  cases hy
  exact hne rfl

end RaftKv.RaftNode
