-- SUMMARY: A read returns what was committed when it started, as long as runs are orderly and no batch overwrites the entry it waits for.
import RaftKv.Safety.Clients

/-!
# Reads

`get` appends a no-op, waits for the commit index and then reads the state machine. If
the no-op is still in its place then everything committed before it is below it.
-/

namespace RaftKv

open TermLog
open Consensus (Elections Logs Safe)

/-- The log that an event commits. -/
def Event.log? {ι : Type} : Event ι → Option (List LogEntry)
  | .committed _ P => some P
  | _ => none

namespace Cluster

variable {ι : Type} [Fintype ι] [DecidableEq ι] {cfg : Config ι} {c c' : Cluster ι}

/-! ## Committed logs have an event -/

omit [DecidableEq ι] [Fintype ι] in
/-- `P` is part of a log that `advanceCommitIndex` of some node committed. -/
def Announced (c : Cluster ι) (P : List LogEntry) : Prop :=
  P = [] ∨ ∃ j T Q, .committed T Q ∈ (c.nodes j).trace ∧ P <+: Q

omit [DecidableEq ι] [Fintype ι] in
theorem Announced.mono {P : List LogEntry} (h : Announced c P) (hg : Grows c c') :
    Announced c' P := by
  rcases h with rfl | ⟨j, T, Q, hQ, hPQ⟩
  · exact Or.inl rfl
  · exact Or.inr ⟨j, T, Q, (hg.trace j).subset hQ, hPQ⟩

omit [Fintype ι] in
theorem Moved.delivered {k : Nat} (h : Moved cfg c (.deliverAppend k) c') :
    ∃ call, c.appendCalls[k]? = some call ∧ ∀ j, c'.nodes j =
      if j = call.dst then ((c.nodes call.dst).handleAppendEntries call.rpc).1 else c.nodes j := by
  cases h with
  | @deliverAppend _ call hcall hnew hfree => exact ⟨call, hcall, fun j => setNode_nodes _ _ _ _⟩

/-- A batch leaves the commit index, or takes over what the sender had committed. -/
theorem delivered_commit (h : (system cfg).Reach Clean c) {call : AppendCall ι}
    (hcall : call ∈ c.appendCalls) :
    let n' := ((c.nodes call.dst).handleAppendEntries call.rpc).1
    n'.store.commitIndex = (c.nodes call.dst).store.commitIndex ∨
      n'.store.log.take n'.store.commitIndex =
        call.sender.store.log.take call.sender.store.commitIndex := by
  intro n'
  obtain ⟨s, hsound, hsim⟩ := simulates_clean h
  have hth := Threads.reach h
  rcases (c.nodes call.dst).handleAppendEntries_cases call.rpc with
    ⟨-, heq⟩ | ⟨hterm, -, heq⟩ | ⟨hterm, hprev, heq⟩ <;> simp only [n', heq]
  · exact Or.inl trivial
  · exact Or.inl (congrArg Consensus.Peer.commit (RaftNode.followLeader_peer _ _ hterm))
  · obtain ⟨-, hwf, hlog⟩ := hsim.accepted_log hsound hth hcall hterm hprev
    obtain ⟨-, -, hcommit⟩ := (hsim.appends call hcall).carries hth hcall
    have hpeer := ((c.nodes call.dst).merged call.rpc).followCommit_peer call.rpc.leaderCommit hwf
    have hnew := congrArg Consensus.Peer.commit hpeer
    have hold : ((c.nodes call.dst).merged call.rpc).store.commitIndex =
        (c.nodes call.dst).store.commitIndex :=
      (RaftNode.merged_rewrote _ _).commit.trans
        (congrArg Consensus.Peer.commit (RaftNode.followLeader_peer _ _ hterm))
    have hS : call.sender.store.log <+: ((c.nodes call.dst).merged call.rpc).store.log := by
      rw [hlog]; exact prefix_graft _ _
    obtain ⟨-, -, -, hle, -⟩ := (hsound.safe trivial).sent _ (hsim.appends call hcall).sent
    have hle : call.sender.store.commitIndex ≤ call.sender.store.log.length := hle
    simp only [RaftNode.applyCommitted_commitIndex, RaftNode.applyCommitted_log,
      RaftNode.followCommit_log]
    rw [show ((((c.nodes call.dst).merged call.rpc).followCommit
      call.rpc.leaderCommit).store.commitIndex) = _ from hnew]
    unfold RaftNode.followedCommit
    split
    · right
      have hlen := hS.length_le
      simp only [hcommit, Nat.min_eq_left (hle.trans hlen)]
      exact take_eq_of_take_prefix (le_refl _) hle ((List.take_prefix _ _).trans hS)
    · exact Or.inl hold

/-- In an orderly run what a node or the sender of a request takes as committed has been
committed by the commit rule. -/
theorem announced (h : (system cfg).Reach Orderly c) :
    (∀ i, Announced c ((c.nodes i).store.log.take (c.nodes i).store.commitIndex)) ∧
      ∀ call ∈ c.appendCalls,
        Announced c (call.sender.store.log.take call.sender.store.commitIndex) := by
  refine h.invariant (I := fun c =>
    (∀ i, Announced c ((c.nodes i).store.log.take (c.nodes i).store.commitIndex)) ∧
      ∀ call ∈ c.appendCalls,
        Announced c (call.sender.store.log.take call.sender.store.commitIndex))
    ⟨fun _ => Or.inl rfl, by intro call hcall; cases hcall⟩ ?_
  rintro c a c' hc ⟨hnodes, hcalls⟩ hok hstep
  have hclean := hc.mono fun _ _ hok => Orderly.clean hok
  rcases step_cases hstep with ⟨m, rfl, hm⟩ | ⟨i, rfl, -⟩ | ⟨m, i, cut, c₁, d, rfl, -, -, -⟩
  · have hg := hm.grows
    constructor
    · intro j
      have hkept := keeps_committed hclean hm j
      have hbounded := (settled (fun _ _ _ hc _ hm j => keeps_committed hc hm j)
        hclean j).fold.bounded
      have hsame : (c'.nodes j).store.commitIndex = (c.nodes j).store.commitIndex →
          Announced c' ((c'.nodes j).store.log.take (c'.nodes j).store.commitIndex) := by
        intro heq
        rw [heq, take_eq_of_take_prefix (le_refl _) hbounded.commit hkept]
        exact (hnodes j).mono hg
      by_cases hdeliver : ∃ k, m = .deliverAppend k
      · obtain ⟨k, rfl⟩ := hdeliver
        obtain ⟨call, hcall, hnode⟩ := hm.delivered
        by_cases hj : call.dst = j
        · subst hj
          rcases delivered_commit hclean (List.mem_of_getElem? hcall) with heq | heq
          · exact hsame (by rw [hnode, if_pos rfl]; exact heq)
          · rw [hnode, if_pos rfl, heq]
            exact (hcalls call (List.mem_of_getElem? hcall)).mono hg
        · exact hsame (by rw [hnode, if_neg (Ne.symm hj)])
      · rcases hm.commits (fun k hk => hdeliver ⟨k, hk⟩) (reach_wf hc j) with heq | ⟨T, hev⟩
        · exact hsame heq
        · exact Or.inr ⟨j, T, _, hev, List.prefix_refl _⟩
    · intro call' hcall'
      rcases hm.appendCalls hcall' with hold | ⟨t, i, p, todo, -, -, rfl⟩ | ⟨k, call, -, hk, rfl⟩
      · exact (hcalls call' hold).mono hg
      · exact (hnodes i).mono hg
      · exact (hcalls call (List.mem_of_getElem? hk)).mono hg
  · exact hok.1.elim
  · exact hok.1.elim

/-! ## Reads -/

omit [Fintype ι] in
/-- A call keeps its place in the list of calls, and what it is about. -/
theorem call_continues {ok : Cluster ι → Action ι → Prop} {k : Nat} {call : ClientCall ι}
    (hok : ∀ c a, ok c a → CrashFree c a) (hcall : c.clients[k]? = some call)
    (h : (system cfg).Steps ok c c') :
    k < c'.clients.length ∧ ∀ call', c'.clients[k]? = some call' → Continues call call' := by
  refine TransitionSystem.Steps.preserves (I := fun d => k < d.clients.length ∧
    ∀ call', d.clients[k]? = some call' → Continues call call') h ?_ ⟨?_, ?_⟩
  · rintro d a d' - ⟨hlen, hcont⟩ ha hstep
    have hfree := hok d a ha
    rcases step_cases hstep with ⟨m, rfl, hm⟩ | ⟨i, rfl, -⟩ | ⟨m, i, cut, c₁, d, rfl, -, -, -⟩
    · refine ⟨hlen.trans_le hm.clients_length, fun call' hcall' => ?_⟩
      rcases hm.clients hcall' with ⟨old, hold, hsame⟩ | ⟨hk, -⟩
      · exact (hcont old hold).trans hsame
      · omega
    · exact hfree.elim
    · exact hfree.elim
  · exact (List.getElem?_eq_some_iff.mp hcall).1
  · intro call' hcall'
    rw [hcall] at hcall'
    cases hcall'
    exact .refl _

omit [Fintype ι] in
/-- Histories only grow along a run. -/
theorem trace_grows {ok : Cluster ι → Action ι → Prop} (h : (system cfg).Steps ok c c') (j : ι) :
    (c.nodes j).trace <+: (c'.nodes j).trace := by
  refine TransitionSystem.Steps.preserves (I := fun d => (c.nodes j).trace <+: (d.nodes j).trace)
    h ?_ (List.prefix_refl _)
  intro d a d' _ hpre _ hstep
  rcases step_cases hstep with ⟨m, -, hm⟩ | ⟨i, -, rfl⟩ | ⟨m, i, cut, c₁, e, -, -, -, rfl⟩
  · exact hpre.trans (hm.trace j)
  · exact hpre.trans ((Grows.restart d i _ (List.prefix_refl _)).trace j)
  · exact hpre.trans ((Grows.restart d i _ (List.prefix_append _ _)).trace j)

/-- What was committed while `i` was leader does not have the next entry of `i`. -/
theorem committed_before (h : (system cfg).Reach Clean c) {i j : ι} {T : Nat} {Q : List LogEntry}
    (hlead : (c.nodes i).state = .leader) (hQ : .committed T Q ∈ (c.nodes j).trace) {e : LogEntry}
    (hterm : e.term = (c.nodes i).store.term) : Q[(c.nodes i).store.log.length]? ≠ some e := by
  intro he
  obtain ⟨s, hsound, hsim⟩ := simulates_clean h
  have hpeer := (hsim.nodes i).peer
  have hbook := hsound.logs.leader i (by
    rw [hpeer]; simp [RaftNode.peer, hlead, NodeState.role])
  rcases (hsim.nodes j).events _ hQ trivial with rfl | ⟨u, -, R, hR, hQR⟩
  · simp at he
  · -- the books have `e` right behind the log of its leader, which is the whole book
    obtain ⟨v, a, ha, -, hau, hRa⟩ := hR.1.nonempty
    have hQbook := hQR.trans (hRa.trans ((hsound.safe trivial).ack a ha).2.1)
    have hcut : Q.take ((c.nodes i).store.log.length + 1) =
        Q.take (c.nodes i).store.log.length ++ [e] := by
      rw [List.take_add_one, he]; rfl
    have hanch := hsound.logs.book a.term (Q.take (c.nodes i).store.log.length) e
      (hcut ▸ (List.take_prefix _ _).trans hQbook)
    have hlog : s.book e.term = (c.nodes i).store.log := by
      rw [hpeer] at hbook
      rw [hterm]
      exact hbook.symm
    rw [hlog, ← hcut] at hanch
    have hlen := hanch.length_le
    have := (List.getElem?_eq_some_iff.mp he).1
    rw [List.length_take] at hlen
    omega

/-- A value that `get` returns is read from a committed log that has everything that was
committed when the call started, in every orderly run that overwrites no entry a `get`
waits for. -/
theorem get_fresh {c₀ c₁ c₂ c₃ : Cluster ι} {i : ι} {key v : Bytes}
    (h : (system cfg).Reach KeepsReads c₀) (hget : c₀.step cfg (.move (.get i key)) = some c₁)
    (hrun : (system cfg).Steps KeepsReads c₁ c₂)
    (hfinish : c₂.step cfg (.move (.finish c₀.clients.length)) = some c₃)
    (hvalue : c₃.clients[c₀.clients.length]?.map (·.outcome) = some (.value v)) :
    ∃ P, Announced c₂ P ∧ v = (StateMachine.empty.applyAll (P.map (·.command))).get key ∧
      ∀ j T Q, .committed T Q ∈ (c₀.nodes j).trace → Q <+: P := by
  obtain ⟨hlead, hcall₁⟩ : (c₀.nodes i).state = .leader ∧ c₁.clients[c₀.clients.length]? =
      some ⟨i, .get key, ((c₀.nodes i).appendOwn { oper := .noop }).2, ⟨cfg.peers i, none⟩,
        .running⟩ := by
    have hm : Moved cfg c₀ (.get i key) c₁ := moved_of_move hget
    cases hm with
    | get hfree hstate => exact ⟨hstate, by simp⟩
  have hstart : KeepsReads c₀ (.move (.get i key)) := ⟨⟨trivial, trivial, trivial⟩, trivial⟩
  have hsteps := (TransitionSystem.Steps.single hstart hget).trans hrun
  have hreach := h.trans hsteps
  have horderly := hreach.mono fun _ _ hok => hok.1
  have hclean := horderly.mono fun _ _ hok => Orderly.clean hok
  have hclean₀ := h.mono fun _ _ hok => Orderly.clean hok.1
  obtain ⟨-, hsame⟩ := call_continues (fun c a (hok : KeepsReads c a) => hok.1.1) hcall₁ hrun
  have hm : Moved cfg c₂ (.finish c₀.clients.length) c₃ := moved_of_move hfinish
  generalize hmove : Move.finish c₀.clients.length = m at hm
  cases hm with
  | @finishGet k i' key' entry outcome hcall hfree hcommit hleader hrefused =>
    cases hmove
    obtain ⟨hnode, hop, hentry, -⟩ := hsame _ hcall
    simp only at hnode hop hentry
    cases hop
    subst hnode
    have hset : outcome = .value v := by
      have hlen := (List.getElem?_eq_some_iff.mp hcall).1
      simpa [List.getElem?_set, hlen] using hvalue
    have hstate : (c₂.nodes i').state = .leader := by
      by_contra hnot
      rw [hrefused hnot] at hset
      cases hset
    rw [hleader hstate] at hset
    cases hset
    obtain ⟨hfold, hcaught, -⟩ := settled (fun _ _ _ hc _ hm j => keeps_committed hc hm j) hclean i'
    refine ⟨_, (announced horderly).1 i', by rw [hfold.sm, hcaught], fun j T Q hQ => ?_⟩
    have hstands := awaited_stand (fun c a (ha : KeepsReads c a) => ⟨ha.1.1, ha.2⟩) hreach _
      (List.mem_of_getElem? hcall) rfl rfl
    have hindex : entry.index = (c₀.nodes i').store.log.length + 1 := by
      rw [hentry, ← (reach_wf h i').length]; rfl
    have hat : (c₂.nodes i').store.log[(c₀.nodes i').store.log.length]? = some entry := by
      have hplace := hstands.entry
      simp only [hindex, Nat.add_sub_cancel] at hplace
      exact hplace
    obtain ⟨s, hsound, hsim⟩ := simulates_clean hclean
    have hsafe := hsound.safe trivial
    have hQ₂ := (hsim.nodes j).events _ ((trace_grows hsteps j).subset hQ) trivial
    rcases hsafe.committed_comparable hsound.logs hsound.elections hQ₂
      ((hsim.nodes i').committed hsafe).2 with hle | ⟨K, hK⟩
    · exact hle
    · -- otherwise `Q` has the no-op, which did not exist when `Q` was committed
      refine absurd ?_ (committed_before hclean₀ hlead hQ (e := entry) (by rw [hentry]; rfl))
      have hlen : (c₀.nodes i').store.log.length < (c₂.nodes i').store.commitIndex := by omega
      rw [← hK, List.getElem?_append_left, List.getElem?_take_of_lt hlen, hat]
      have := (List.getElem?_eq_some_iff.mp hat).1
      rw [List.length_take]
      omega
  | finishSubmit hcall _ _ =>
    cases hmove
    cases (hsame _ hcall).op
  | _ => cases hmove

/-- Node 0 reads the write that it has committed and acknowledged. -/
theorem get_fresh_write : ∃ c₀ c₂ : Cluster (Fin 3),
    (system (Config.complete 3)).Reach KeepsReads c₀ ∧
      (system (Config.complete 3)).Reach KeepsReads c₂ ∧
      .committed 1 [⟨1, 1, { oper := .noop }⟩, ⟨1, 2, ⟨.put, [1], [7]⟩⟩] ∈ (c₀.nodes 0).trace ∧
      ∃ P, Announced c₂ P ∧ [7] = (StateMachine.empty.applyAll (P.map (·.command))).get [1] ∧
        ∀ j T Q, .committed T Q ∈ (c₀.nodes j).trace → Q <+: P := by
  have hrun : (run (Config.complete 3) KeepsReads .init acknowledgedRun).any (fun c₀ =>
      decide (c₀.clients.length = 1 ∧ .committed 1 [⟨1, 1, { oper := .noop }⟩,
        ⟨1, 2, ⟨.put, [1], [7]⟩⟩] ∈ (c₀.nodes 0).trace) &&
      (c₀.step (Config.complete 3) (.move (.get 0 [1]))).any fun c₁ =>
        (run (Config.complete 3) KeepsReads c₁
          (served (.client 1) 4 ++ unserved (.client 1))).any fun c₂ =>
          (c₂.step (Config.complete 3) (.move (.finish 1))).any fun c₃ =>
            decide (c₃.clients[1]?.map (·.outcome) = some (.value [7]))) = true := by
    decide +kernel
  obtain ⟨c₀, hreach, hp⟩ := exists_reach hrun
  obtain ⟨hdec, hget⟩ := Bool.and_eq_true_iff.mp hp
  obtain ⟨hlen, hcommitted⟩ := of_decide_eq_true hdec
  obtain ⟨c₁, hget, hp⟩ := (Option.any_eq_true _ _).mp hget
  obtain ⟨c₂, hsteps, hp⟩ := (Option.any_eq_true _ _).mp hp
  obtain ⟨c₃, hfinish, hp⟩ := (Option.any_eq_true _ _).mp hp
  have hstart : KeepsReads c₀ (.move (.get 0 [1])) := ⟨⟨trivial, trivial, trivial⟩, trivial⟩
  rw [← hlen] at hfinish hp
  exact ⟨c₀, c₂, hreach, (hreach.step hstart hget).trans (steps_of_run hsteps), hcommitted,
    get_fresh hreach hget (steps_of_run hsteps) hfinish (of_decide_eq_true hp)⟩

/-- Node 1 leads term 2 and commits a write at index 3 that node 0, still the leader of
term 1, has not heard of. -/
def unheardWriteRun : List (Action (Fin 3)) := List.flatten
  [firstLeader, [.move (.timeout 1)], noVote 1, vote 1 3, [.move (.endElection 1)],
    unserved (.background 1), served (.background 1) 3, [.move (.endLoop 1)],
    [.move (.submit 1 ⟨.put, [5], [5]⟩ fun _ => true)], unserved (.client 0),
    served (.client 0) 5,
    [.move (.submit 1 ⟨.put, [1], [7]⟩ fun _ => true)], unserved (.client 1),
    served (.client 1) 7]

/-- While a `get` of node 0 waits for index 2, a request of node 1 from before that commit
replaces the log of node 0 and commits index 2; node 0 then wins term 3. -/
def regainedRun : List (Action (Fin 3)) := List.flatten
  [unserved (.client 2), unserved (.client 2), [.move (.deliverAppend 6)],
    [.move (.timeout 0)], noVote 0, vote 0 5, [.move (.endElection 0)],
    unserved (.background 0), unserved (.background 0), [.move (.endLoop 0)]]

theorem get_stale : ∃ c₀ c₁ c₂ c₃ : Cluster (Fin 3),
    (system (Config.complete 3)).Reach CrashFree c₀ ∧
      c₀.step (Config.complete 3) (.move (.get 0 [1])) = some c₁ ∧
      (system (Config.complete 3)).Steps CrashFree c₁ c₂ ∧
      c₂.step (Config.complete 3) (.move (.finish c₀.clients.length)) = some c₃ ∧
      c₃.clients[c₀.clients.length]?.map (·.outcome) = some (.value []) ∧
      ¬ ∃ P, Announced c₂ P ∧
        [] = (StateMachine.empty.applyAll (P.map (·.command))).get [1] ∧
        ∀ j T Q, .committed T Q ∈ (c₀.nodes j).trace → Q <+: P := by
  have hrun : (run (Config.complete 3) CrashFree .init unheardWriteRun).any (fun c₀ =>
      decide (c₀.clients.length = 2 ∧ .committed 2 [⟨2, 1, { oper := .noop }⟩,
        ⟨2, 2, ⟨.put, [5], [5]⟩⟩, ⟨2, 3, ⟨.put, [1], [7]⟩⟩] ∈ (c₀.nodes 1).trace) &&
      (c₀.step (Config.complete 3) (.move (.get 0 [1]))).any fun c₁ =>
        (run (Config.complete 3) CrashFree c₁ regainedRun).any fun c₂ =>
          (decide (∀ j, ∀ x ∈ (c₂.nodes j).trace.filterMap Event.log?, x.length ≤ 3)) &&
          (c₂.step (Config.complete 3) (.move (.finish 2))).any fun c₃ =>
            decide (c₃.clients[2]?.map (·.outcome) = some (.value []))) = true := by
    decide +kernel
  obtain ⟨c₀, hreach, hp⟩ := exists_reach hrun
  obtain ⟨hdec, hget⟩ := Bool.and_eq_true_iff.mp hp
  obtain ⟨hlen, hcommitted⟩ := of_decide_eq_true hdec
  obtain ⟨c₁, hget, hp⟩ := (Option.any_eq_true _ _).mp hget
  obtain ⟨c₂, hsteps, hp⟩ := (Option.any_eq_true _ _).mp hp
  obtain ⟨hshort, hp⟩ := Bool.and_eq_true_iff.mp hp
  obtain ⟨c₃, hfinish, hp⟩ := (Option.any_eq_true _ _).mp hp
  rw [← hlen] at hfinish hp
  refine ⟨c₀, c₁, c₂, c₃, hreach, hget, steps_of_run hsteps, hfinish, of_decide_eq_true hp, ?_⟩
  rintro ⟨P, hP, hvalue, hall⟩
  -- the write is in `P`, and no longer log has been committed
  have hQ := hall 1 2 _ hcommitted
  have hle : P.length ≤ 3 := by
    rcases hP with rfl | ⟨j, T, Q, hQ, hPQ⟩
    · simp
    · exact hPQ.length_le.trans (of_decide_eq_true hshort j Q (List.mem_filterMap.mpr ⟨_, hQ, rfl⟩))
  rw [← hQ.eq_of_length_le hle] at hvalue
  revert hvalue
  decide

end Cluster

end RaftKv
