-- SUMMARY: The committed log of a clean run: it only grows, a majority always holds it, and the state machines are replicas of one another.
import RaftKv.Safety.AppendOnly
import Mathlib.Data.Finset.Max

/-!
# The committed log

In a clean run the committed parts of all logs are prefixes of one list. That list is
never cut, a majority of the nodes has it on disk at every later moment, and a state
machine is determined by how far the node has applied it.
-/

namespace RaftKv

open TermLog
open Consensus (Elections Logs Safe)

namespace RaftNode

variable {ι : Type}

/-- The committed part of the log. -/
def committed (n : RaftNode ι) : List LogEntry := n.store.log.take n.store.commitIndex

end RaftNode

namespace Cluster

variable {ι : Type} [Fintype ι] [DecidableEq ι] {s s' : Abstract ι} {c c' : Cluster ι}
  {cfg : Config ι}

/-! ## What was committed is there for good -/

omit [DecidableEq ι] in
theorem majority_univ (i : ι) : Majority (Set.univ : Set ι) :=
  ⟨Finset.univ, fun _ _ => Set.mem_univ _, by
    have := Fintype.card_pos_iff.mpr ⟨i⟩
    rw [Finset.card_univ]; omega⟩

omit [DecidableEq ι] in
/-- A committed prefix is in the logs of a majority. -/
theorem Sim.committed_majority (h : Sim True s c) (hsound : Sound True s) {T : Nat}
    {P : List LogEntry} (hP : s.Committed LogEntry.term T P) (i : ι) :
    Majority { v | P <+: (c.nodes v).store.log } := by
  have hsafe := hsound.safe trivial
  rcases hP with rfl | ⟨t, -, Q, hQ, hPQ⟩
  · exact (majority_univ i).mono fun _ _ => List.nil_prefix
  · refine hQ.1.mono ?_
    rintro v ⟨a, ha, rfl, rfl, hQa⟩
    have hlog : (s.peer a.node).log = (c.nodes a.node).store.log := by rw [(h.nodes _).peer]; rfl
    rcases (hsafe.ack a ha).2.2.2 Q hQa with hkeep | ⟨e, he, hlo, -, hnot⟩
    · rw [hlog] at hkeep
      exact hPQ.trans hkeep
    · exact absurd (hsafe.completeness hsound.logs hsound.elections hQ e he hlo) hnot

omit [DecidableEq ι] in
/-- The committed part of a log, at any later moment of the abstract run. -/
theorem Sim.committed (h : Sim True s c) (hsound : Sound True s) (hext : Extends s s') (i : ι) :
    s'.Committed LogEntry.term (c.nodes i).store.term (c.nodes i).committed :=
  ((h.nodes i).committed (hsound.safe trivial)).2.mono hext.acks (le_refl _)

/-- In a clean run, what some node has committed is in the logs of a majority at every
later moment, whichever nodes crash in between. -/
theorem committed_on_majority (h : (system cfg).Reach Clean c)
    (hsteps : (system cfg).Steps Clean c c') (i : ι) :
    Majority { v | (c.nodes i).committed <+: (c'.nodes v).store.log } := by
  obtain ⟨s, hsound, hsim⟩ := simulates_clean h
  obtain ⟨s', hfol, hsim'⟩ := hsim.steps hsound (fun _ _ hok _ => hok) h hsteps
  exact hsim'.committed_majority (hsound.follows hfol)
    (hsim.committed hsound (Follows.remembers hfol) i) i

/-- Node 0 commits a write with the help of node 1 and crashes. -/
theorem committed_on_majority_crashed : ∃ c c' : Cluster (Fin 3),
    (system (Config.complete 3)).Reach Clean c ∧ (c.nodes 0).committed.length = 2 ∧
      (system (Config.complete 3)).Steps Clean c c' ∧ (c'.nodes 0).state = .follower ∧
      Majority { v | (c.nodes 0).committed <+: (c'.nodes v).store.log } := by
  have hrun : (run (Config.complete 3) Clean .init acknowledgedRun).any (fun c =>
      (run (Config.complete 3) Clean c [.crash 0]).any fun c' =>
        decide ((c.nodes 0).committed.length = 2 ∧ (c'.nodes 0).state = .follower)) = true := by
    decide +kernel
  obtain ⟨c, hreach, hp⟩ := exists_reach hrun
  obtain ⟨c', hsteps, hp⟩ := (Option.any_eq_true _ _).mp hp
  obtain ⟨hlen, hstate⟩ := of_decide_eq_true hp
  exact ⟨c, c', hreach, hlen, steps_of_run hsteps, hstate,
    committed_on_majority hreach (steps_of_run hsteps) 0⟩

/-- Any two committed parts, at any two moments of a clean run, are one a prefix of the
other. -/
theorem committed_parts_comparable (h : (system cfg).Reach Clean c)
    (hsteps : (system cfg).Steps Clean c c') (i j : ι) :
    (c.nodes i).committed <+: (c'.nodes j).committed ∨
      (c'.nodes j).committed <+: (c.nodes i).committed := by
  obtain ⟨s, hsound, hsim⟩ := simulates_clean h
  obtain ⟨s', hfol, hsim'⟩ := hsim.steps hsound (fun _ _ hok _ => hok) h hsteps
  have hsound' := hsound.follows hfol
  exact (hsound'.safe trivial).committed_comparable hsound'.logs hsound'.elections
    (hsim.committed hsound (Follows.remembers hfol) i) (hsim'.committed hsound' (.refl _) j)

/-! ## Replicas -/

theorem clean_settled (h : (system cfg).Reach Clean c) (i : ι) : (c.nodes i).Settled :=
  settled (fun _ _ _ hc _ hm j => keeps_committed hc hm j) h i

omit [Fintype ι] [DecidableEq ι] in
theorem committed_length {n : RaftNode ι} (h : n.Settled) :
    n.committed.length = n.store.commitIndex := by
  rw [RaftNode.committed, List.length_take, Nat.min_eq_left h.fold.bounded.commit]

omit [Fintype ι] [DecidableEq ι] in
theorem committed_sm {n : RaftNode ι} (h : n.Settled) :
    n.sm = StateMachine.empty.applyAll (n.committed.map (·.command)) := by
  rw [h.fold.sm, h.caughtUp]; rfl

/-- The state machines are replicas: at any two moments of a clean run, the one that has
applied more is the other after the entries it still lacks. -/
theorem replicas_agree (h : (system cfg).Reach Clean c) (hsteps : (system cfg).Steps Clean c c')
    {i j : ι} (hle : (c.nodes i).store.lastApplied ≤ (c'.nodes j).store.lastApplied) :
    (c'.nodes j).sm = (c.nodes i).sm.applyAll
      (((c'.nodes j).store.log.take (c'.nodes j).store.lastApplied).drop
        (c.nodes i).store.lastApplied |>.map (·.command)) := by
  have hi := clean_settled h i
  have hj := clean_settled (h.trans hsteps) j
  have hpre : (c.nodes i).committed <+: (c'.nodes j).committed := by
    rcases committed_parts_comparable h hsteps i j with hpre | hpre
    · exact hpre
    · -- the lengths leave only equality
      have hlen := hpre.length_le
      rw [committed_length hi, committed_length hj, ← hi.caughtUp, ← hj.caughtUp] at hlen
      rw [hpre.eq_of_length (by
        rw [committed_length hi, committed_length hj, ← hi.caughtUp, ← hj.caughtUp]; omega)]
  have htake : (c.nodes i).committed = (c'.nodes j).committed.take (c.nodes i).store.lastApplied := by
    rw [hi.caughtUp, ← committed_length hi]
    exact List.prefix_iff_eq_take.mp hpre
  have happlied : (c'.nodes j).store.log.take (c'.nodes j).store.lastApplied =
      (c'.nodes j).committed := by
    rw [hj.caughtUp]; rfl
  rw [committed_sm hi, committed_sm hj, happlied, htake, ← StateMachine.applyAll_append,
    ← List.map_append, List.take_append_drop]

/-- Node 1 learns of the write that node 0 has committed and applied. -/
theorem replicas_agree_heartbeat : ∃ c c' : Cluster (Fin 3),
    (system (Config.complete 3)).Reach Clean c ∧ (c.nodes 0).store.lastApplied = 1 ∧
      (system (Config.complete 3)).Steps Clean c c' ∧ (c'.nodes 1).sm.get [1] = [7] ∧
      (c'.nodes 1).sm = (c.nodes 0).sm.applyAll [⟨.put, [1], [7]⟩] := by
  have hrun : (run (Config.complete 3) Clean .init (List.flatten [[.move (.timeout 0)], vote 0 0,
      noVote 0, [.move (.endElection 0)], served (.background 0) 0, unserved (.background 0),
      [.move (.endLoop 0)]])).any (fun c =>
        (run (Config.complete 3) Clean c (List.flatten
          [[.move (.submit 0 ⟨.put, [1], [7]⟩ fun _ => true)], served (.client 0) 2,
            [.move (.heartbeat 0)], served (.background 0) 3])).any fun c' =>
          decide ((c.nodes 0).store.lastApplied = 1 ∧ (c'.nodes 1).sm.get [1] = [7] ∧
            (c.nodes 0).store.lastApplied ≤ (c'.nodes 1).store.lastApplied ∧
            (((c'.nodes 1).store.log.take (c'.nodes 1).store.lastApplied).drop
              (c.nodes 0).store.lastApplied |>.map (·.command)) = [⟨.put, [1], [7]⟩])) = true := by
    decide +kernel
  obtain ⟨c, hreach, hp⟩ := exists_reach hrun
  obtain ⟨c', hsteps, hp⟩ := (Option.any_eq_true _ _).mp hp
  obtain ⟨hlast, hget, hle, hrest⟩ := of_decide_eq_true hp
  refine ⟨c, c', hreach, hlast, steps_of_run hsteps, hget, ?_⟩
  rw [← hrest]
  exact replicas_agree hreach (steps_of_run hsteps) hle

/-! ## The longest committed part -/

/-- `P` is the longest committed part of a log. -/
structure CommittedLog (c : Cluster ι) (P : List LogEntry) : Prop where
  reached : P = [] ∨ ∃ i, P = (c.nodes i).committed
  covers : ∀ i, (c.nodes i).committed <+: P

theorem exists_committedLog (h : (system cfg).Reach Clean c) : ∃ P, CommittedLog c P := by
  cases isEmpty_or_nonempty ι with
  | inl hempty => exact ⟨[], Or.inl rfl, fun i => hempty.elim i⟩
  | inr hne =>
    obtain ⟨i, -, hmax⟩ := Finset.exists_max_image Finset.univ
      (fun i => (c.nodes i).committed.length) Finset.univ_nonempty
    refine ⟨_, Or.inr ⟨i, rfl⟩, fun j => ?_⟩
    rcases committed_parts_comparable h (.refl c) i j with hle | hle
    · rw [hle.eq_of_length_le (hmax j (Finset.mem_univ j))]
    · exact hle

/-- In a clean run the committed part of a log is never cut. -/
theorem committed_step (h : (system cfg).Reach Clean c) {a : Action ι} (hok : Clean c a)
    (hstep : c.step cfg a = some c') (i : ι) :
    (c.nodes i).committed <+: (c'.nodes i).committed := by
  have hi := clean_settled h i
  have hi' := clean_settled (h.step hok hstep) i
  have hkept : (c.nodes i).committed <+: (c'.nodes i).store.log ∧
      (c.nodes i).store.commitIndex ≤ (c'.nodes i).store.commitIndex := by
    rcases step_cases hstep with ⟨m, rfl, hm⟩ | ⟨j, rfl, rfl⟩ | ⟨m, j, cut, c₁, d, rfl, -, -, -⟩
    · have hkept := keeps_committed h hm i
      exact ⟨hkept, (hm.advances hi.fold.bounded (reach_wf h i)
        (reach_wf (h.step hok hstep) i) hkept).commit⟩
    · by_cases hij : i = j
      · subst hij
        obtain ⟨-, hpeer, -⟩ := RaftNode.start_store (c.nodes i).trace
          (d := (c.nodes i).store.disk) (reach_wf h i).indexed
        have hnode : (c.restart i (c.nodes i).store.disk (c.nodes i).trace).nodes i =
            .start (c.nodes i).store.disk (c.nodes i).trace := by simp [restart]
        rw [hnode, RaftNode.start_log, show (RaftNode.start (c.nodes i).store.disk
          (c.nodes i).trace).store.commitIndex = _ from congrArg Consensus.Peer.commit hpeer]
        exact ⟨List.take_prefix _ _, hi.fold.bounded.commit⟩
      · have hnode : (c.restart j (c.nodes j).store.disk (c.nodes j).trace).nodes i =
            c.nodes i := by simp [restart, hij]
        rw [hnode]
        exact ⟨List.take_prefix _ _, le_refl _⟩
    · exact hok.1.elim
  refine List.prefix_of_prefix_length_le hkept.1 (List.take_prefix _ _) ?_
  rw [committed_length hi]
  exact (committed_length hi').symm ▸ hkept.2

theorem CommittedLog.grows {P P' : List LogEntry} (hP : CommittedLog c P)
    (hP' : CommittedLog c' P') (h : (system cfg).Reach Clean c) {a : Action ι} (hok : Clean c a)
    (hstep : c.step cfg a = some c') : P <+: P' := by
  rcases hP.reached with rfl | ⟨i, rfl⟩
  · exact List.nil_prefix
  · exact (committed_step h hok hstep i).trans (hP'.covers i)

/-- The next entry of a leader is not committed. -/
theorem CommittedLog.next {P : List LogEntry} (hP : CommittedLog c P)
    (h : (system cfg).Reach Clean c) {i : ι} (hlead : (c.nodes i).state = .leader) {e : LogEntry}
    (hterm : e.term = (c.nodes i).store.term) : P[(c.nodes i).store.log.length]? ≠ some e := by
  intro he
  obtain ⟨s, hsound, hsim⟩ := simulates_clean h
  rcases hP.reached with rfl | ⟨j, rfl⟩
  · simp at he
  have hanch : Anchored LogEntry.term s.book (c.nodes j).store.log := by
    have hlog := hsound.logs.peer j
    rw [(hsim.nodes j).peer] at hlog
    exact hlog
  -- `e` would be in the book of its term behind the log of its leader, which is the whole book
  have hcut : (c.nodes j).committed.take ((c.nodes i).store.log.length + 1) =
      (c.nodes j).committed.take (c.nodes i).store.log.length ++ [e] := by
    rw [List.take_add_one, he]; rfl
  have hbook := hanch _ e (hcut ▸ (List.take_prefix _ _).trans (List.take_prefix _ _))
  rw [hterm, hsim.leader_book hsound hlead, ← hcut] at hbook
  have hlen := hbook.length_le
  have := (List.getElem?_eq_some_iff.mp he).1
  rw [List.length_take] at hlen
  omega

end Cluster

end RaftKv
