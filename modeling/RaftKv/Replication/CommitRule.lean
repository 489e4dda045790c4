-- SUMMARY: advanceCommitIndex against Raft's commit rule: the greatest index of the current term on a majority, and what is applied when it moves.
import RaftKv.Refinement.Applying
import Mathlib.Order.Bounds.Defs

/-!
# The commit rule

The loop of `advanceCommitIndex` stops at the first index of the current term that is not on a
majority. Nothing is lost by that: an index further up is on no more nodes.
-/

namespace RaftKv.RaftNode

variable {ι : Type} (n : RaftNode ι) (peers : List ι) (connected : ι → Bool)

/-- The indices that Raft's rule lets a leader commit: new ones with an entry of its own term
that more than half of the nodes have, itself included. -/
def Committable (N : Nat) : Prop :=
  n.store.commitIndex < N ∧ N ≤ n.store.log.length ∧
    (∃ e, n.store.log[N - 1]? = some e ∧ e.term = n.store.term) ∧
    (peers.length + 1) / 2 < 1 + (peers.filter fun j => connected j && decide (N ≤ n.matchIndex j)).length

/-- A later index is on no more nodes. -/
theorem replicaCount_antitone {a b : Nat} (hab : a ≤ b) :
    n.replicaCount peers connected b ≤ n.replicaCount peers connected a := by
  have hsub := List.monotone_filter_right peers
    (p := fun j => connected j && decide (n.matchIndex j ≥ b))
    (q := fun j => connected j && decide (n.matchIndex j ≥ a)) ?_
  · exact Nat.add_le_add_left hsub.length_le 1
  · intro j hj
    simp only [Bool.and_eq_true, decide_eq_true_eq] at hj ⊢
    exact ⟨hj.1, hab.trans hj.2⟩

/-- What the loop looks for. -/
def OnMajority (N : Nat) : Prop :=
  n.store.getTermAt N = n.store.term ∧ n.replicaCount peers connected N ≥ majority peers

/-- The loop over increasing indices finds the greatest one on a majority; by induction on the
indices that are left, the early stop by `replicaCount_antitone`. -/
theorem scanCommit_greatest (idxs : List Nat) (hsorted : idxs.Pairwise (· < ·)) (c : Nat) :
    (∀ N ∈ idxs, ¬ n.OnMajority peers connected N) ∧ n.scanCommit peers connected idxs c = c ∨
      IsGreatest {N | N ∈ idxs ∧ n.OnMajority peers connected N} (n.scanCommit peers connected idxs c) := by
  induction idxs generalizing c with
  | nil => exact .inl ⟨by simp, rfl⟩
  | cons idx rest ih =>
    obtain ⟨habove, hrest⟩ := List.pairwise_cons.mp hsorted
    by_cases hterm : n.store.getTermAt idx = n.store.term
    · by_cases hcount : n.replicaCount peers connected idx ≥ majority peers
      · simp only [scanCommit, hterm, ne_eq, not_true, if_false, if_pos hcount]
        right
        rcases ih hrest idx with ⟨hnone, heq⟩ | ⟨⟨hmem, honMajority⟩, hgreatest⟩
        · rw [heq]
          refine ⟨⟨List.mem_cons_self, hterm, hcount⟩, ?_⟩
          rintro N ⟨hN, hNmajority⟩
          rcases List.mem_cons.mp hN with rfl | hN
          · exact le_refl _
          · exact absurd hNmajority (hnone N hN)
        · refine ⟨⟨List.mem_cons_of_mem idx hmem, honMajority⟩, ?_⟩
          rintro N ⟨hN, hNmajority⟩
          rcases List.mem_cons.mp hN with rfl | hN
          · exact (habove _ hmem).le
          · exact hgreatest ⟨hN, hNmajority⟩
      · -- the loop ends here, and no later index is on more nodes
        simp only [scanCommit, hterm, ne_eq, not_true, if_false, if_neg hcount]
        refine .inl ⟨?_, trivial⟩
        intro N hN honMajority
        rcases List.mem_cons.mp hN with rfl | hN
        · exact hcount honMajority.2
        · exact hcount (honMajority.2.trans (n.replicaCount_antitone peers connected (habove N hN).le))
    · simp only [scanCommit, if_pos hterm]
      have hskip : ∀ N, (N ∈ idx :: rest ∧ n.OnMajority peers connected N) ↔
          (N ∈ rest ∧ n.OnMajority peers connected N) := by
        intro N
        constructor
        · rintro ⟨hN, honMajority⟩
          rcases List.mem_cons.mp hN with rfl | hN
          · exact absurd honMajority.1 hterm
          · exact ⟨hN, honMajority⟩
        · rintro ⟨hN, honMajority⟩
          exact ⟨List.mem_cons_of_mem idx hN, honMajority⟩
      simp only [hskip]
      rcases ih hrest c with ⟨hnone, heq⟩ | hgreatest
      · refine .inl ⟨fun N hN honMajority => ?_, heq⟩
        exact hnone N ((hskip N).mp ⟨hN, honMajority⟩).1 honMajority
      · exact .inr hgreatest

variable {n peers connected}

/-- What the rule allows is what the loop looks for in its range. -/
theorem committable_iff (hwf : n.store.Wf) (N : Nat) :
    n.Committable peers connected N ↔
      N ∈ List.range' (n.store.commitIndex + 1) (n.store.logLength - n.store.commitIndex) ∧
        n.OnMajority peers connected N := by
  have hlen := hwf.length
  have hrange : N ∈ List.range' (n.store.commitIndex + 1) (n.store.logLength - n.store.commitIndex) ↔
      n.store.commitIndex < N ∧ N ≤ n.store.log.length := by
    rw [List.mem_range'_1]
    omega
  rw [hrange, Committable, OnMajority, majority, replicaCount, and_assoc]
  refine and_congr_right fun hlow => and_congr_right fun hhigh => and_congr ?_ ⟨id, id⟩
  have hget : n.store.log[N - 1]? = some n.store.log[N - 1] := List.getElem?_eq_getElem (by omega)
  rw [hwf.getTermAt (by omega), hget]
  simp

theorem committing_lastApplied (hwf : n.store.Wf) {c : Nat} (happlied : n.store.lastApplied ≤ c)
    (hc : c ≤ n.store.log.length) : (n.committing c).store.lastApplied = c := by
  let n₁ := { n with store := n.store.setCommit c }.emit (.committed n.store.term (n.store.log.take c))
  have hwf₁ : n₁.store.Wf := hwf.setCommit c
  exact (applyCommitted_spec hwf₁ happlied hc).1

theorem advanceCommitIndex_greatest (peers : List ι) (connected : ι → Bool) (hwf : n.store.Wf) :
    (¬ ∃ N, n.Committable peers connected N) ∧ n.advanceCommitIndex peers connected = n ∨
      ∃ c, IsGreatest {N | n.Committable peers connected N} c ∧
        n.advanceCommitIndex peers connected = n.committing c := by
  have hscan := n.scanCommit_greatest peers connected _
    (List.pairwise_lt_range' : (List.range' (n.store.commitIndex + 1)
      (n.store.logLength - n.store.commitIndex)).Pairwise (· < ·)) n.store.commitIndex
  unfold advanceCommitIndex
  simp only [← committable_iff hwf] at hscan ⊢
  rcases hscan with ⟨hnone, heq⟩ | hgreatest
  · refine .inl ⟨?_, by rw [heq, if_neg (Nat.lt_irrefl _)]⟩
    rintro ⟨N, hN⟩
    obtain ⟨hmem, honMajority⟩ := (committable_iff hwf N).mp hN
    exact hnone N hmem honMajority
  · refine .inr ⟨_, hgreatest, ?_⟩
    rw [if_pos hgreatest.1.1]
    rfl

/-- For every node with its indices in order, any peers and any set of connected ones: the new
commit index is the greatest that the rule allows, the node is as it was if there is none, and
when the index moves exactly the entries between `lastApplied` and it are applied, in order. -/
theorem advanceCommitIndex_rule (n : RaftNode ι) (peers : List ι) (connected : ι → Bool)
    (hwf : n.store.Wf) (happlied : n.store.lastApplied ≤ n.store.commitIndex)
    (hcommit : n.store.commitIndex ≤ n.store.log.length) :
    let n' := n.advanceCommitIndex peers connected
    let fresh := (n.store.log.take n'.store.commitIndex).drop n.store.lastApplied
    ((∃ N, n.Committable peers connected N) →
      IsGreatest {N | n.Committable peers connected N} n'.store.commitIndex) ∧
    ((¬ ∃ N, n.Committable peers connected N) → n' = n) ∧
    (n'.store.commitIndex ≠ n.store.commitIndex →
      n'.store.lastApplied = n'.store.commitIndex ∧
      n'.sm = n.sm.applyAll (fresh.map (·.command)) ∧
      n'.calls = n.calls ++ numbered (n.store.lastApplied + 1) fresh) := by
  intro n' fresh
  have hcases := advanceCommitIndex_greatest peers connected hwf
  rcases hcases with ⟨hnone, heq⟩ | ⟨c, hgreatest, heq⟩
  · have hn' : n' = n := heq
    exact ⟨fun hsome => absurd hsome hnone, fun _ => hn', fun hmoved => absurd (by rw [hn']) hmoved⟩
  · have hb : n.Bounded := ⟨happlied, hcommit⟩
    have hadvances : Advances n n' := advanceCommitIndex_advances hb hwf peers connected
    have hpeer : n'.peer = { n.peer with commit := c } := by
      rw [show n' = n.committing c from heq, committing_peer]
    have hlog : n'.store.log = n.store.log := congrArg Consensus.Peer.log hpeer
    have hindex : n'.store.commitIndex = c := congrArg Consensus.Peer.commit hpeer
    have hlast : n'.store.lastApplied = n'.store.commitIndex := by
      rw [hindex, show n' = n.committing c from heq]
      exact committing_lastApplied hwf (happlied.trans hgreatest.1.1.le) hgreatest.1.2.1
    have hfresh : RaftNode.fresh n n' = fresh := by
      simp only [RaftNode.fresh, fresh, hlog, hlast]
    refine ⟨fun _ => hindex ▸ hgreatest, fun hnone => absurd ⟨c, hgreatest.1⟩ hnone, fun _ => ⟨hlast, ?_, ?_⟩⟩
    · rw [← hfresh]
      exact hadvances.sm
    · rw [← hfresh]
      exact hadvances.calls

/-- A leader of term 2 among five nodes: its own no-op and one of term 1 before it. -/
def committingLeader : RaftNode Nat where
  store := {
    term := 2, lastLogTerm := 2, voted := some 0, logLength := 3
    log := [⟨1, 1, { oper := .noop }⟩, ⟨1, 2, { oper := .put, key := [1] }⟩, ⟨2, 3, { oper := .noop }⟩]
    commitIndex := 1, lastApplied := 1 }
  sm := .empty
  state := .leader
  currentLeaderId := some 0
  nextIndex _ := 4
  matchIndex j := if j = 1 then 3 else if j = 2 then 3 else 0
  trace := []

/-- Two of its four peers have everything: the entry of term 1 is committed with its own. -/
theorem advanceCommitIndex_rule_two :
    let n' := committingLeader.advanceCommitIndex [1, 2, 3, 4] (fun _ => true)
    n'.store.commitIndex = 3 ∧ n'.calls =
      committingLeader.calls ++ [(2, ⟨1, 2, { oper := .put, key := [1] }⟩), (3, ⟨2, 3, { oper := .noop }⟩)] := by
  have hwf : committingLeader.store.Wf := ⟨rfl, rfl, by decide⟩
  have hrule := advanceCommitIndex_rule committingLeader [1, 2, 3, 4] (fun _ => true) hwf (by decide)
    (by decide)
  have hthree : committingLeader.Committable [1, 2, 3, 4] (fun _ => true) 3 :=
    ⟨by decide, by decide, ⟨_, rfl, rfl⟩, by decide⟩
  have hgreatest := hrule.1 ⟨3, hthree⟩
  have hindex := Nat.le_antisymm hgreatest.1.2.1 (hgreatest.2 hthree)
  refine ⟨hindex, ?_⟩
  have happlied := (hrule.2.2 (by rw [hindex]; decide)).2.2
  rw [hindex] at happlied
  exact happlied

end RaftKv.RaftNode
