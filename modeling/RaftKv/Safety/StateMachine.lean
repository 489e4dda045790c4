-- SUMMARY: What nodes apply: the same entries everywhere in clean runs, and always the fold of the log while no batch reaches below a commit index.
import RaftKv.Refinement.Retention
import RaftKv.Safety.Elections

/-!
# State machines

`replay` takes the whole log as committed, so a restart can apply an entry that the
cluster then drops. Two nodes agree on what they apply as long as that does not happen,
and each state machine is the fold of its log as long as nothing applied is rewritten.
-/

namespace RaftKv

open TermLog
open Consensus (Elections Logs Safe)

namespace RaftNode

variable {ι : Type} {n n' : RaftNode ι}

/-- The state machine is the fold of the log up to `lastApplied`. -/
structure FoldOfLog (n : RaftNode ι) : Prop where
  applied : n.store.lastApplied ≤ n.store.commitIndex
  commit : n.store.commitIndex ≤ n.store.logLength
  length : n.store.logLength = n.store.log.length
  sm : n.sm = StateMachine.empty.applyAll ((n.store.log.take n.store.lastApplied).map (·.command))

theorem FoldOfLog.bounded (h : n.FoldOfLog) : n.Bounded := ⟨h.applied, h.length ▸ h.commit⟩

/-- Applying the next entries of the log folds a longer prefix. -/
theorem FoldOfLog.advances (h : n.FoldOfLog) (hadv : Advances n n')
    (hlen : n'.store.logLength = n'.store.log.length) : n'.FoldOfLog where
  applied := hadv.bounded.applied
  commit := hlen ▸ hadv.bounded.commit
  length := hlen
  sm := by
    have hsame : n'.store.log.take n.store.lastApplied = n.store.log.take n.store.lastApplied :=
      take_eq_of_take_prefix h.applied h.bounded.commit hadv.kept
    have hcut : (n'.store.log.take n'.store.lastApplied).take n.store.lastApplied =
        n.store.log.take n.store.lastApplied := by
      rw [List.take_take, Nat.min_eq_left hadv.applied, hsame]
    rw [hadv.sm, h.sm, ← StateMachine.applyAll_append, ← List.map_append, ← hcut, fresh,
      List.take_append_drop]

theorem start_log (d : Disk ι) (trace : List (Event ι)) : (start d trace).store.log = d.log := by
  unfold RaftNode.start replay; simp only
  split <;> rfl

/-- Nothing committed is left to apply, and every entry applied has its event. -/
structure Settled (n : RaftNode ι) : Prop where
  fold : n.FoldOfLog
  caughtUp : n.store.lastApplied = n.store.commitIndex
  events : ∀ k e, k < n.store.lastApplied → n.store.log[k]? = some e → .applied (k + 1) e ∈ n.trace

theorem Settled.advances (h : n.Settled) (hadv : Advances n n')
    (hlen : n'.store.logLength = n'.store.log.length) : n'.Settled where
  fold := h.fold.advances hadv hlen
  caughtUp := hadv.caughtUp h.caughtUp
  events := by
    intro k e hk he
    rw [← mem_calls, hadv.calls, List.mem_append]
    by_cases hold : k < n.store.lastApplied
    · refine Or.inl (mem_calls.mpr (h.events k e hold ?_))
      have hsame : n'.store.log.take n.store.lastApplied = n.store.log.take n.store.lastApplied :=
        take_eq_of_take_prefix h.fold.applied h.fold.bounded.commit hadv.kept
      rw [← he, ← List.getElem?_take_of_lt hold, ← hsame, List.getElem?_take_of_lt hold]
    · refine Or.inr (mem_numbered.mpr ⟨k - n.store.lastApplied, ?_, by omega⟩)
      rw [fresh, List.getElem?_drop, Nat.add_sub_cancel' (by omega), List.getElem?_take_of_lt hk, he]

/-- A restarted node has applied its whole log. -/
theorem Settled.start {d : Disk ι} (hd : Indexed d.log) (trace : List (Event ι)) :
    (RaftNode.start d trace).Settled := by
  obtain ⟨hwf, hpeer, hlast⟩ := start_store trace hd
  have hlog := start_log d trace
  have hcommit : (RaftNode.start d trace).store.commitIndex = d.log.length :=
    congrArg Consensus.Peer.commit hpeer
  refine ⟨⟨by rw [hlast, hcommit], by rw [hwf.length, hcommit, hlog], hwf.length, ?_⟩,
    by rw [hlast, hcommit], ?_⟩
  · rw [start_sm, hlast, hlog, List.take_length]
  · intro k e _ he
    rw [hlog] at he
    rw [start_trace]
    refine List.mem_append_right _ (mem_appliedEvents.mpr ⟨k, e, he, ?_⟩)
    rw [Nat.add_comm]

end RaftNode

namespace Cluster

variable {ι : Type} [Fintype ι] [DecidableEq ι] {cfg : Config ι} {c c' : Cluster ι}

/-! ## Agreement on what is applied -/

/-- State machine safety: in a clean run one index is applied with one entry. -/
theorem applied_agree (h : (system cfg).Reach Clean c) {i j : ι} {k : Nat} {e f : LogEntry}
    (he : .applied k e ∈ (c.nodes i).trace) (hf : .applied k f ∈ (c.nodes j).trace) : e = f := by
  obtain ⟨s, hsound, hsim⟩ := simulates_clean h
  obtain ⟨T, P, hP, -, hPe⟩ := (hsim.nodes i).events _ he trivial
  obtain ⟨U, Q, hQ, -, hQf⟩ := (hsim.nodes j).events _ hf trivial
  have hlenP := (List.getElem?_eq_some_iff.mp hPe).1
  have hlenQ := (List.getElem?_eq_some_iff.mp hQf).1
  rcases (hsound.safe trivial).committed_comparable hsound.logs hsound.elections hP hQ with
    ⟨K, rfl⟩ | ⟨K, rfl⟩
  · rw [List.getElem?_append_left hlenP, hPe] at hQf
    exact Option.some.inj hQf
  · rw [List.getElem?_append_left hlenQ, hQf] at hPe
    exact (Option.some.inj hPe).symm

/-- Node 0 commits and applies its first entry, crashes and applies it again; node 1
learns of it from a heartbeat. -/
def replayedRun : List (Action (Fin 3)) := List.flatten
  [[.move (.timeout 0)], vote 0 0, noVote 0, [.move (.endElection 0)],
    served (.background 0) 0, unserved (.background 0), [.move (.endLoop 0)],
    [.move (.heartbeat 0)], served (.background 0) 2, [.crash 0]]

theorem applied_agree_replayed : ∃ c : Cluster (Fin 3),
    (system (Config.complete 3)).Reach Clean c ∧
      .applied 1 ⟨1, 1, { oper := .noop }⟩ ∈ (c.nodes 0).trace ∧
      (∃ f, .applied 1 f ∈ (c.nodes 1).trace) ∧
      ∀ f, .applied 1 f ∈ (c.nodes 1).trace → ⟨1, 1, { oper := .noop }⟩ = f := by
  have hrun : (run (Config.complete 3) Clean .init replayedRun).any (fun c =>
      decide (.applied 1 ⟨1, 1, { oper := .noop }⟩ ∈ (c.nodes 0).trace ∧
        .applied 1 ⟨1, 1, { oper := .noop }⟩ ∈ (c.nodes 1).trace)) = true := by decide +kernel
  obtain ⟨c, hreach, hp⟩ := exists_reach hrun
  obtain ⟨hzero, hone⟩ := of_decide_eq_true hp
  exact ⟨c, hreach, hzero, ⟨_, hone⟩, fun f hf => applied_agree hreach hzero hf⟩

/-- Node 0 crashes as the leader of term 1 with an entry that nobody else has, and
applies it on restart. Node 1 wins term 2 and commits another entry in its place. -/
def uncommittedReplayRun : List (Action (Fin 3)) := List.flatten
  [firstLeader, [.crash 0], [.move (.timeout 1)], noVote 1, vote 1 3, [.move (.endElection 1)],
    unserved (.background 1), served (.background 1) 3]

theorem applied_disagree : ∃ c : Cluster (Fin 3),
    (system (Config.complete 3)).Reach Atomic c ∧
      ∃ e f, .applied 1 e ∈ (c.nodes 0).trace ∧ .applied 1 f ∈ (c.nodes 1).trace ∧
        e.term ≠ f.term := by
  have hrun : (run (Config.complete 3) Atomic .init uncommittedReplayRun).any (fun c =>
      decide (.applied 1 ⟨1, 1, { oper := .noop }⟩ ∈ (c.nodes 0).trace ∧
        .applied 1 ⟨2, 1, { oper := .noop }⟩ ∈ (c.nodes 1).trace)) = true := by decide +kernel
  obtain ⟨c, hreach, hp⟩ := exists_reach hrun
  obtain ⟨hzero, hone⟩ := of_decide_eq_true hp
  exact ⟨c, hreach, _, _, hzero, hone, by decide⟩

/-! ## The fold of the log -/

/-- While moves keep the committed entries, every node is settled. -/
theorem settled {ok : Cluster ι → Action ι → Prop}
    (hkeep : ∀ c m c', (system cfg).Reach ok c → ok c (.move m) → Moved cfg c m c' → ∀ j,
      (c.nodes j).store.log.take (c.nodes j).store.commitIndex <+: (c'.nodes j).store.log)
    (h : (system cfg).Reach ok c) (i : ι) : (c.nodes i).Settled := by
  refine h.invariant (I := fun c => ∀ i, (c.nodes i).Settled) ?_ ?_ i
  · exact fun i => RaftNode.Settled.start (d := ⟨0, none, []⟩) Indexed.nil []
  · intro c a c' hc hI hok hstep j
    have hwf' := reach_wf (hc.step hok hstep) j
    have hrestart : ∀ i d tr, c' = c.restart i d tr → (c'.nodes j).Settled := by
      rintro i d tr rfl
      simp only [restart, Function.update_apply] at hwf' ⊢
      split at hwf' <;> rename_i hj
      · rw [if_pos hj]
        exact RaftNode.Settled.start (RaftNode.start_log d tr ▸ hwf'.indexed) tr
      · rw [if_neg hj]; exact hI j
    rcases step_cases hstep with ⟨m, rfl, hm⟩ | ⟨i, -, heq⟩ | ⟨m, i, cut, c₁, d, -, -, -, heq⟩
    · exact (hI j).advances (hm.advances (hI j).fold.bounded (reach_wf hc j) hwf'
        (hkeep c m c' hc hok hm j)) hwf'.length
    · exact hrestart i _ _ heq
    · exact hrestart i _ _ heq

/-- A move that overwrites nothing committed keeps the committed entries. -/
theorem KeepsCommitted.kept {ok : Cluster ι → Action ι → Prop} (h : (system cfg).Reach ok c)
    {m : Move ι} (hok : KeepsCommitted c (.move m)) (hm : Moved cfg c m c') (j : ι) :
    (c.nodes j).store.log.take (c.nodes j).store.commitIndex <+: (c'.nodes j).store.log := by
  refine retains h hm j ?_
  rintro k call rfl hcall rfl
  exact hok call hcall

/-- Along a run in which no batch overwrites what its receiver has committed, every state
machine is the fold of its log, and every move applies the next entries of a log that
keeps those applied before. -/
theorem sm_is_fold (h : (system cfg).Reach KeepsCommitted c) (i : ι) : (c.nodes i).FoldOfLog ∧
    ∀ m c', KeepsCommitted c (.move m) → c.step cfg (.move m) = some c' →
      (c.nodes i).Advances (c'.nodes i) := by
  have hfold := (settled (fun c m c' hc hok hm j => hok.kept hc hm j) h i).fold
  refine ⟨hfold, fun m c' hok hstep => ?_⟩
  have hm := moved_of_move hstep
  exact hm.advances hfold.bounded (reach_wf h i) (reach_wf (h.step hok hstep) i) (hok.kept h hm i)

/-- Node 0 commits a write with the help of node 1, crashes and replays it. -/
def replayedWriteRun : List (Action (Fin 3)) := List.flatten
  [[.move (.timeout 0)], vote 0 0, noVote 0, [.move (.endElection 0)],
    served (.background 0) 0, unserved (.background 0), [.move (.endLoop 0)],
    [.move (.submit 0 ⟨.put, [1], [7]⟩ fun _ => true)], served (.client 0) 2, [.crash 0]]

theorem sm_is_fold_replayed : ∃ c : Cluster (Fin 3),
    (system (Config.complete 3)).Reach KeepsCommitted c ∧ (c.nodes 0).sm.get [1] = [7] ∧
      (c.nodes 0).store.lastApplied = 2 ∧ (c.nodes 0).FoldOfLog := by
  have hrun : (run (Config.complete 3) KeepsCommitted .init replayedWriteRun).any (fun c =>
      decide ((c.nodes 0).sm.get [1] = [7] ∧ (c.nodes 0).store.lastApplied = 2)) = true := by
    decide +kernel
  obtain ⟨c, hreach, hp⟩ := exists_reach hrun
  obtain ⟨hget, hlast⟩ := of_decide_eq_true hp
  exact ⟨c, hreach, hget, hlast, (sm_is_fold hreach 0).1⟩

/-- Node 0 crashes as a leader with two entries of its own and applies both on restart.
Node 1 wins term 2, and its first batch cuts the log of node 0 down to one entry. -/
def cutReplayRun : List (Action (Fin 3)) := List.flatten
  [firstLeader, [.move (.submit 0 ⟨.put, [1], [7]⟩ fun _ => true), .crash 0],
    [.move (.timeout 1)], noVote 1, vote 1 3, [.move (.endElection 1)],
    [.move (.send (.background 1)), .move (.deliverAppend 2)]]

theorem sm_not_fold : ∃ c : Cluster (Fin 3), (system (Config.complete 3)).Reach Atomic c ∧
    (c.nodes 0).store.logLength < (c.nodes 0).store.commitIndex ∧
      ¬ (c.nodes 0).FoldOfLog := by
  have hrun : (run (Config.complete 3) Atomic .init cutReplayRun).any (fun c =>
      decide ((c.nodes 0).store.logLength < (c.nodes 0).store.commitIndex)) = true := by
    decide +kernel
  obtain ⟨c, hreach, hp⟩ := exists_reach hrun
  have hlt := of_decide_eq_true hp
  exact ⟨c, hreach, hlt, fun hfold => absurd hfold.commit (Nat.not_le_of_lt hlt)⟩

/-- In a clean run no such batch arrives. -/
theorem clean_sm_is_fold (h : (system cfg).Reach Clean c) (i : ι) : (c.nodes i).FoldOfLog :=
  (settled (fun _ _ _ hc _ hm j => keeps_committed hc hm j) h i).fold

end Cluster

end RaftKv
