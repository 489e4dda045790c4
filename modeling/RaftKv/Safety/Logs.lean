-- SUMMARY: Well-formed logs and log matching in every run; leader completeness in orderly runs, and a run where a late reply breaks it.
import RaftKv.Safety.Elections

/-!
# Logs

Log matching needs nothing but election safety, so it survives crashes and requests of
deposed leaders. That leaders keep what was committed also needs `matchIndex` to be
right, and `sendAppendEntries` does not look at the term a reply answers to.
-/

namespace RaftKv

open Consensus (Elections Logs Safe)

namespace Cluster

variable {ι : Type} [Fintype ι] [DecidableEq ι] {cfg : Config ι} {c : Cluster ι}

/-! ## Well-formed logs -/

/-- What `Storage` and the vote check take for granted about the log of a node in `term`. -/
structure WellFormed (log : List LogEntry) (term : Nat) : Prop where
  indexed : Indexed log
  positive : ∀ e ∈ log, 1 ≤ e.term
  sorted : log.Pairwise fun e f => e.term ≤ f.term
  bounded : ∀ e ∈ log, e.term ≤ term

omit [DecidableEq ι] in
theorem node_wellFormed {s : Abstract ι} (hsound : Sound False s) (hsim : Sim False s c) (i : ι) :
    WellFormed (c.nodes i).store.log (c.nodes i).store.term := by
  have hpeer : s.peer i = (c.nodes i).peer := (hsim.nodes i).peer
  have hanchored : TermLog.Anchored LogEntry.term s.book (c.nodes i).store.log := by
    have hlog := hsound.logs.peer i
    rwa [hpeer] at hlog
  have hbounded := hsound.logs.peer_le i
  rw [hpeer] at hbounded
  exact {
    indexed := (hsim.nodes i).wf.indexed
    positive := fun e he => hsound.logs.positive hsound.elections hanchored he
    sorted := hanchored.pairwise hsound.logs.book_le
    bounded := hbounded }

omit [DecidableEq ι] in
/-- A request carries a tail of the log that its sender had, in the sender's term of then. -/
theorem appendCall_wellFormed {s : Abstract ι} (hsound : Sound False s) (hsim : Sim False s c)
    (hthreads : Threads cfg c) {call : AppendCall ι} (hcall : call ∈ c.appendCalls) :
    RaftNode.IndexedFrom call.rpc.prevLogIndex call.rpc.entries ∧
      ∀ e ∈ call.rpc.entries, e.term ≤ call.rpc.term := by
  have hsent := hsim.appends call hcall
  obtain ⟨hcarries, hterm, -⟩ := hsent.carries hthreads hcall
  rw [hcarries.entries, hterm]
  refine ⟨RaftNode.indexedFrom_drop hsent.wf.indexed call.rpc.prevLogIndex, fun e he => ?_⟩
  exact hsound.logs.sent_le _ hsent.sent e (List.mem_of_mem_drop he)

/-- In every run: each node's log is well formed in the node's term, and each request in flight has
the entries from `prevLogIndex + 1` on, none of a later term than its own. -/
theorem logs_wellFormed (h : (system cfg).Reach Any c) :
    (∀ i, WellFormed (c.nodes i).store.log (c.nodes i).store.term) ∧
      ∀ call ∈ c.appendCalls, RaftNode.IndexedFrom call.rpc.prevLogIndex call.rpc.entries ∧
        ∀ e ∈ call.rpc.entries, e.term ≤ call.rpc.term := by
  obtain ⟨s, hsound, hsim⟩ := simulates_any h
  exact ⟨node_wellFormed hsound hsim,
    fun call hcall => appendCall_wellFormed hsound hsim (.reach h) hcall⟩

/-- The request that node 0 built after its term had moved on carries an entry of term 1. -/
theorem logs_wellFormed_deposedSender : ∃ c : Cluster (Fin 3),
    (system (Config.complete 3)).Reach Any c ∧
      (∃ call ∈ c.appendCalls, ∃ e ∈ call.rpc.entries, e.term < call.rpc.term ∧
        RaftNode.IndexedFrom call.rpc.prevLogIndex call.rpc.entries) ∧
      (c.nodes 1).store.log ≠ [] ∧ WellFormed (c.nodes 1).store.log (c.nodes 1).store.term := by
  have hrun : (run (Config.complete 3) Any .init
      (deposedSenderRun ++ [.move (.deliverAppend 2)])).any (fun c =>
        decide ((∃ call ∈ c.appendCalls, ∃ e ∈ call.rpc.entries, e.term < call.rpc.term) ∧
          (c.nodes 1).store.log ≠ [])) = true := by decide +kernel
  obtain ⟨c, hreach, hp⟩ := exists_reach hrun
  obtain ⟨⟨call, hcall, e, he, hlt⟩, hne⟩ := of_decide_eq_true hp
  obtain ⟨hnodes, hcalls⟩ := logs_wellFormed hreach
  exact ⟨c, hreach, ⟨call, hcall, e, he, hlt, (hcalls call hcall).1⟩, hne, hnodes 1⟩

/-! ## Log matching -/

/-- Entries of one index and one term stand in their place in both logs, with the same
entries below them. -/
theorem log_matching (h : (system cfg).Reach Any c) {i j : ι} {e f : LogEntry}
    (he : e ∈ (c.nodes i).store.log) (hf : f ∈ (c.nodes j).store.log)
    (hindex : e.index = f.index) (hterm : e.term = f.term) :
    e = f ∧ (c.nodes i).store.log[e.index - 1]? = some e ∧
      (c.nodes i).store.log.take e.index = (c.nodes j).store.log.take e.index := by
  obtain ⟨s, hsound, hsim⟩ := simulates_any h
  obtain ⟨k, hk⟩ := List.mem_iff_getElem?.mp he
  obtain ⟨k', hk'⟩ := List.mem_iff_getElem?.mp hf
  have hek : e.index = k + 1 := (hsim.nodes i).wf.indexed k e hk
  have hfk : f.index = k' + 1 := (hsim.nodes j).wf.indexed k' f hk'
  obtain rfl : k' = k := by omega
  have hi : (s.peer i).log = (c.nodes i).store.log := by rw [(hsim.nodes i).peer]; rfl
  have hj : (s.peer j).log = (c.nodes j).store.log := by rw [(hsim.nodes j).peer]; rfl
  have htake := hsound.logs.matching (i := i) (j := j) (hi ▸ hk) (hj ▸ hk') hterm
  rw [hi, hj] at htake
  refine ⟨?_, by rw [hek]; exact hk, by rw [hek]; exact htake⟩
  have hsame := congrArg (fun L => L[k']?) htake
  simp only [List.getElem?_take, Nat.lt_succ_self, if_true, hk, hk'] at hsame
  exact Option.some.inj hsame

/-- The request of the deposed node 0 is delivered under term 2. -/
theorem log_matching_deposedSender : ∃ c : Cluster (Fin 3),
    (system (Config.complete 3)).Reach Any c ∧ (c.nodes 1).store.term = 2 ∧
      ∃ e ∈ (c.nodes 0).store.log, e ∈ (c.nodes 1).store.log ∧
        (c.nodes 0).store.log.take e.index = (c.nodes 1).store.log.take e.index := by
  have hrun : (run (Config.complete 3) Any .init
      (deposedSenderRun ++ [.move (.deliverAppend 2)])).any (fun c =>
        decide ((c.nodes 1).store.term = 2 ∧ ∃ e ∈ (c.nodes 0).store.log,
          e ∈ (c.nodes 1).store.log)) = true := by decide +kernel
  obtain ⟨c, hreach, hp⟩ := exists_reach hrun
  obtain ⟨hterm, e, he, he'⟩ := of_decide_eq_true hp
  exact ⟨c, hreach, hterm, e, he, he', (log_matching hreach he he' rfl rfl).2.2⟩

/-! ## Leader completeness -/

/-- In an orderly run a leader starts with every log committed in an earlier term. -/
theorem leader_completeness (h : (system cfg).Reach Orderly c) {i j : ι} {T T' : Nat}
    {P l : List LogEntry} (hi : .committed T P ∈ (c.nodes i).trace)
    (hj : .elected T' l ∈ (c.nodes j).trace) (hlt : T < T') : P <+: l := by
  obtain ⟨s, hsound, hsim⟩ := simulates_clean (h.mono fun _ _ hok => hok.clean)
  have htenure := (hsim.nodes j).events _ hj
  rcases (hsim.nodes i).events _ hi trivial with rfl | ⟨u, hu, Q, hQ, hPQ⟩
  · exact List.nil_prefix
  · exact hPQ.trans ((hsound.safe trivial).completeness hsound.logs hsound.elections hQ _ htenure
      (lt_of_le_of_lt hu hlt))

/-- Node 0 commits its first entry in term 1; node 1 wins term 2. -/
def committedRun : List (Action (Fin 3)) := List.flatten
  [[.move (.timeout 0)], vote 0 0, noVote 0, [.move (.endElection 0)],
    served (.background 0) 0, unserved (.background 0), [.move (.endLoop 0)],
    [.move (.timeout 1)], noVote 1, vote 1 3, [.move (.endElection 1)]]

theorem leader_completeness_committed : ∃ c : Cluster (Fin 3),
    (system (Config.complete 3)).Reach Orderly c ∧
      .committed 1 [⟨1, 1, { oper := .noop }⟩] ∈ (c.nodes 0).trace ∧
      (∃ l, .elected 2 l ∈ (c.nodes 1).trace) ∧
      ∀ l, .elected 2 l ∈ (c.nodes 1).trace → [⟨1, 1, { oper := .noop }⟩] <+: l := by
  have hrun : (run (Config.complete 3) Orderly .init committedRun).any (fun c =>
      decide (.committed 1 [⟨1, 1, { oper := .noop }⟩] ∈ (c.nodes 0).trace ∧
        .elected 2 [⟨1, 1, { oper := .noop }⟩] ∈ (c.nodes 1).trace)) = true := by
    decide +kernel
  obtain ⟨c, hreach, hp⟩ := exists_reach hrun
  obtain ⟨hcommitted, helected⟩ := of_decide_eq_true hp
  exact ⟨c, hreach, hcommitted, ⟨_, helected⟩,
    fun l hl => leader_completeness hreach hcommitted hl (by decide)⟩

/-- Node 0 leads terms 1 and 3 of a cluster of five, node 3 terms 2 and 4. A reply of
node 1 to a request of term 1 arrives in term 3, when node 0 holds another log, and
node 0 commits its second entry with only node 2 behind it. Node 3 wins term 4 with the
votes of nodes 1 and 4 and without that entry. -/
def lateReplyRun : List (Action (Fin 5)) := List.flatten
  [[.move (.timeout 0)], vote 0 0, vote 0 1, vote 0 2, vote 0 3, [.move (.endElection 0)],
    unserved (.background 0), unserved (.background 0), unserved (.background 0),
    unserved (.background 0), [.move (.endLoop 0)],
    [.move (.submit 0 ⟨.put, [1], [7]⟩ fun _ => true), .move (.send (.client 0)),
      .move (.deliverAppend 4)],
    [.move (.timeout 3)], noVote 3, noVote 3, vote 3 6, vote 3 7, [.move (.endElection 3)],
    served (.background 3) 5, unserved (.background 3), served (.background 3) 7,
    unserved (.background 3), [.move (.endLoop 3)],
    [.move (.timeout 0)], noVote 0, vote 0 9, vote 0 10, vote 0 11, [.move (.endElection 0)],
    unserved (.background 0), [.move (.appendReply (.client 0) fun _ => true)],
    served (.background 0) 10,
    [.move (.timeout 3)], noVote 3, vote 3 13, noVote 3, vote 3 15, [.move (.endElection 3)]]

theorem leader_without_committed : ∃ c : Cluster (Fin 5),
    (system (Config.complete 5)).Reach CrashFree c ∧
      ∃ P l, .committed 3 P ∈ (c.nodes 0).trace ∧ .elected 4 l ∈ (c.nodes 3).trace ∧
        ¬ P <+: l := by
  have hrun : (run (Config.complete 5) CrashFree .init lateReplyRun).any (fun c => decide
      (.committed 3 [⟨2, 1, { oper := .noop }⟩, ⟨3, 2, { oper := .noop }⟩] ∈ (c.nodes 0).trace ∧
        .elected 4 [⟨2, 1, { oper := .noop }⟩] ∈ (c.nodes 3).trace)) = true := by
    decide +kernel
  obtain ⟨c, hreach, hp⟩ := exists_reach hrun
  obtain ⟨hcommitted, helected⟩ := of_decide_eq_true hp
  exact ⟨c, hreach, _, _, hcommitted, helected, by decide⟩

end Cluster

end RaftKv
