-- SUMMARY: What a move does to the applied part of a node: applied entries stay, and what is newly applied are the next entries of the log.
import RaftKv.Threads

/-!
# The applied part of a node

`sm` is only ever changed by applying the entries between two values of `lastApplied`.
This file says so for every move, provided the move keeps the committed part of the
log: whether it does is a question of safety, and is answered elsewhere.
-/

namespace RaftKv

/-- The call of `StateMachine::apply` that an event stands for. -/
def Event.call? {ι : Type} : Event ι → Option (Nat × LogEntry)
  | .applied k e => some (k, e)
  | _ => none

/-- The entries with their positions, the first of them at `start`. -/
def numbered (start : Nat) (es : List LogEntry) : List (Nat × LogEntry) :=
  es.mapIdx fun k e => (start + k, e)

namespace RaftNode

variable {ι : Type}

/-- The calls of `StateMachine::apply` over the whole history of the node. -/
def calls (n : RaftNode ι) : List (Nat × LogEntry) := n.trace.filterMap Event.call?

theorem calls_of_trace {n n' : RaftNode ι} {events : List (Event ι)}
    (h : n'.trace = n.trace ++ events) : n'.calls = n.calls ++ events.filterMap Event.call? := by
  simp only [calls, h, List.filterMap_append]

theorem mem_calls {n : RaftNode ι} {k : Nat} {e : LogEntry} :
    (k, e) ∈ n.calls ↔ .applied k e ∈ n.trace := by
  simp only [calls, List.mem_filterMap]
  constructor
  · rintro ⟨x, hx, hcall⟩
    cases x with
    | applied k' e' => cases hcall; exact hx
    | _ => cases hcall
  · exact fun h => ⟨_, h, rfl⟩

theorem appliedEvents_calls (start : Nat) (es : List LogEntry) :
    (appliedEvents start es : List (Event ι)).filterMap Event.call? = numbered start es := by
  have hmap : (appliedEvents start es : List (Event ι)) =
      (numbered start es).map fun x => .applied x.1 x.2 := by
    simp [appliedEvents, numbered, List.mapIdx_eq_zipIdx_map]
  rw [hmap, List.filterMap_map]
  exact List.filterMap_some

theorem mem_numbered {start k : Nat} {e : LogEntry} {es : List LogEntry} :
    (k, e) ∈ numbered start es ↔ ∃ m, es[m]? = some e ∧ k = start + m := by
  simp only [numbered, List.mem_mapIdx, Prod.mk.injEq]
  constructor
  · rintro ⟨m, hm, rfl, rfl⟩
    exact ⟨m, List.getElem?_eq_getElem hm, rfl⟩
  · rintro ⟨m, hm, rfl⟩
    obtain ⟨hlt, rfl⟩ := List.getElem?_eq_some_iff.mp hm
    exact ⟨m, hlt, rfl, rfl⟩

/-- The two volatile indices are in order and within the log. -/
structure Bounded (n : RaftNode ι) : Prop where
  applied : n.store.lastApplied ≤ n.store.commitIndex
  commit : n.store.commitIndex ≤ n.store.log.length

/-- The entries that `n'` has applied and `n` has not. -/
def fresh (n n' : RaftNode ι) : List LogEntry :=
  (n'.store.log.take n'.store.lastApplied).drop n.store.lastApplied

/-- `n'` keeps the committed entries of `n`, and applied the ones that follow those
applied by `n`, in order and without a gap. -/
structure Advances (n n' : RaftNode ι) : Prop where
  kept : n.store.log.take n.store.commitIndex <+: n'.store.log
  commit : n.store.commitIndex ≤ n'.store.commitIndex
  applied : n.store.lastApplied ≤ n'.store.lastApplied
  bounded : n'.Bounded
  caughtUp : n.store.lastApplied = n.store.commitIndex →
    n'.store.lastApplied = n'.store.commitIndex
  sm : n'.sm = n.sm.applyAll ((fresh n n').map (·.command))
  calls : n'.calls = n.calls ++ numbered (n.store.lastApplied + 1) (fresh n n')

/-- `n'` has applied nothing that `n` has not. -/
structure Quiet (n n' : RaftNode ι) : Prop where
  applied : n'.store.lastApplied = n.store.lastApplied
  sm : n'.sm = n.sm
  calls : n'.calls = n.calls

theorem Quiet.of_trace {n n' : RaftNode ι} (events : List (Event ι))
    (happlied : n'.store.lastApplied = n.store.lastApplied) (hsm : n'.sm = n.sm)
    (htrace : n'.trace = n.trace ++ events) (hevents : events.filterMap Event.call? = []) :
    Quiet n n' :=
  ⟨happlied, hsm, by rw [calls_of_trace htrace, hevents, List.append_nil]⟩

theorem Quiet.trans {n n' n'' : RaftNode ι} (h : Quiet n n') (h' : Quiet n' n'') : Quiet n n'' :=
  ⟨h'.applied.trans h.applied, h'.sm.trans h.sm, h'.calls.trans h.calls⟩

variable {n n' : RaftNode ι}

theorem Rewrote.quiet {P : List LogEntry → Prop} (h : Rewrote P n n') : Quiet n n' := by
  obtain ⟨events, htrace, hevents⟩ := h.trace
  refine .of_trace _ h.applied h.sm htrace (List.filterMap_eq_nil_iff.mpr fun x hx => ?_)
  obtain ⟨L, -, rfl⟩ := hevents x hx
  rfl

/-- A section that applies nothing and only adds to the log. -/
theorem Advances.quiet (hb : n.Bounded) (h : Quiet n n') (hlog : n.store.log <+: n'.store.log)
    (hcommit : n'.store.commitIndex = n.store.commitIndex) : Advances n n' := by
  have hfresh : fresh n n' = [] := by simp [fresh, h.applied]
  refine ⟨(List.take_prefix _ _).trans hlog, hcommit.ge, h.applied.ge, ⟨?_, ?_⟩, ?_, ?_, ?_⟩
  · rw [h.applied, hcommit]; exact hb.applied
  · rw [hcommit]; exact hb.commit.trans hlog.length_le
  · rw [h.applied, hcommit]; exact id
  · simp [hfresh, h.sm]
  · simp [hfresh, h.calls, numbered]

theorem Advances.refl (hb : n.Bounded) : Advances n n :=
  .quiet hb ⟨rfl, rfl, rfl⟩ (List.prefix_refl _) rfl

/-- A section that ends with `applyCommitted`. -/
theorem Advances.applyCommitted {n₁ : RaftNode ι} (hb : n.Bounded) (hwf : n₁.store.Wf)
    (h : Quiet n n₁) (hkept : n.store.log.take n.store.commitIndex <+: n₁.store.log)
    (hcommit : n.store.commitIndex ≤ n₁.store.commitIndex)
    (hlen : n₁.store.commitIndex ≤ n₁.store.log.length) : Advances n n₁.applyCommitted := by
  have hle : n₁.store.lastApplied ≤ n₁.store.commitIndex := by
    rw [h.applied]; exact hb.applied.trans hcommit
  obtain ⟨hlast, hsm, htrace⟩ := applyCommitted_spec hwf hle hlen
  have hfresh : fresh n n₁.applyCommitted =
      (n₁.store.log.take n₁.store.commitIndex).drop n₁.store.lastApplied := by
    simp only [fresh, applyCommitted_log, hlast, h.applied]
  refine ⟨by rw [applyCommitted_log]; exact hkept, by rw [applyCommitted_commitIndex]; exact hcommit,
    ?_, ⟨?_, ?_⟩, ?_, ?_, ?_⟩
  · rw [hlast, ← h.applied]; exact hle
  · rw [hlast, applyCommitted_commitIndex]
  · rw [applyCommitted_commitIndex, applyCommitted_log]; exact hlen
  · rw [hlast, applyCommitted_commitIndex]; exact fun _ => rfl
  · rw [hfresh, hsm, h.sm]
  · rw [hfresh, calls_of_trace htrace, appliedEvents_calls, h.calls, h.applied]

/-! ## The sections that apply nothing -/

theorem stepDown_quiet (n : RaftNode ι) (t : Nat) : Quiet n (n.stepDown t) :=
  .of_trace _ rfl rfl (stepDown_trace n t) rfl

theorem startElection_quiet (self : ι) (n : RaftNode ι) : Quiet n (n.startElection self).1 :=
  .of_trace _ rfl rfl (startElection_trace self n) rfl

theorem becomeLeader_quiet (self : ι) (hcand : n.state = .candidate) :
    Quiet n (n.becomeLeader self) := by
  obtain ⟨hsm, hlast⟩ := becomeLeader_applied self hcand
  exact .of_trace _ hlast hsm (becomeLeader_trace self hcand) rfl

theorem heardVote_quiet (n : RaftNode ι) (rpc : RequestVote ι) : Quiet n (n.heardVote rpc) := by
  unfold heardVote
  split
  · exact (stepDown_quiet n rpc.term).trans ⟨rfl, rfl, rfl⟩
  · exact ⟨rfl, rfl, rfl⟩

theorem appendOwn_quiet (n : RaftNode ι) (cmd : Command) : Quiet n (n.appendOwn cmd).1 :=
  .of_trace [.wrote _] rfl rfl rfl rfl

theorem followLeader_quiet (n : RaftNode ι) (rpc : AppendEntries ι) :
    Quiet n (n.followLeader rpc) := by
  obtain ⟨hsm, hlast, -⟩ := followLeader_rest n rpc
  refine .of_trace _ hlast hsm (followLeader_trace n rpc) ?_
  split <;> rfl

theorem followCommit_quiet (n : RaftNode ι) (leaderCommit : Nat) :
    Quiet n (n.followCommit leaderCommit) := by
  obtain ⟨hsm, hlast, htrace⟩ := followCommit_rest n leaderCommit
  exact .of_trace _ hlast hsm (htrace.trans (List.append_nil _).symm) rfl

section Handlers

variable [DecidableEq ι]

theorem handleRequestVote_quiet (n : RaftNode ι) (rpc : RequestVote ι) :
    Quiet n (n.handleRequestVote rpc).1 := by
  rcases n.handleRequestVote_cases rpc with ⟨-, heq⟩ | ⟨-, -, heq⟩ | ⟨-, heq⟩ <;> rw [heq]
  · exact ⟨rfl, rfl, rfl⟩
  · exact (heardVote_quiet n rpc).trans (.of_trace [.wrote _] rfl rfl rfl rfl)
  · exact heardVote_quiet n rpc

theorem handleRequestVote_log (n : RaftNode ι) (rpc : RequestVote ι) :
    (n.handleRequestVote rpc).1.store.log = n.store.log ∧
      (n.handleRequestVote rpc).1.store.commitIndex = n.store.commitIndex := by
  have hheard : (n.heardVote rpc).store.log = n.store.log ∧
      (n.heardVote rpc).store.commitIndex = n.store.commitIndex := by
    unfold heardVote
    split <;> exact ⟨rfl, rfl⟩
  rcases n.handleRequestVote_cases rpc with ⟨-, heq⟩ | ⟨-, -, heq⟩ | ⟨-, heq⟩ <;> rw [heq]
  · exact ⟨rfl, rfl⟩
  · exact hheard
  · exact hheard

end Handlers

theorem wf_of_applyCommitted (h : n.applyCommitted.store.Wf) : n.store.Wf := by
  unfold RaftNode.applyCommitted at h
  simp only at h
  split at h
  · exact ⟨h.length, h.lastTerm, h.indexed⟩
  · exact h

/-! ## The sections that may commit -/

/-- Committing leaves an event behind. -/
theorem committing_event (n : RaftNode ι) (k : Nat) :
    .committed n.store.term ((n.committing k).store.log.take (n.committing k).store.commitIndex) ∈
      (n.committing k).trace := by
  obtain ⟨events, htrace, -⟩ := applyCommitted_events
    (n := { n with store := n.store.setCommit k }.emit (.committed n.store.term (n.store.log.take k)))
  have hpeer := committing_peer n k
  rw [show (n.committing k).store.log = n.store.log from congrArg Consensus.Peer.log hpeer,
    show (n.committing k).store.commitIndex = k from congrArg Consensus.Peer.commit hpeer,
    show (n.committing k).trace = _ from htrace]
  exact List.mem_append_left _ (List.mem_append_right _ (List.mem_singleton_self _))

theorem advanceCommitIndex_advances (hb : n.Bounded) (hwf : n.store.Wf) (peers : List ι)
    (connected : ι → Bool) : Advances n (n.advanceCommitIndex peers connected) := by
  rcases n.advanceCommitIndex_cases peers connected hwf with heq | ⟨k, hlt, hle, -, -, heq⟩
  · rw [heq]; exact .refl hb
  · rw [heq]
    exact .applyCommitted hb (hwf.setCommit _) (.of_trace [.committed _ _] rfl rfl rfl rfl)
      (List.take_prefix _ _) (Nat.le_of_lt hlt) hle

variable [DecidableEq ι]

theorem backOff_advances (hb : n.Bounded) (p : ι) (ae : AppendEntries ι) :
    Advances n (n.backOff p ae) := by
  obtain ⟨-, -, hstore, hsm, htrace⟩ := backOff_rest n p ae
  refine .quiet hb ⟨by rw [hstore], hsm, by simp only [RaftNode.calls, htrace]⟩ ?_ (by rw [hstore])
  rw [hstore]

theorem appendLost_advances (hb : n.Bounded) (p : ι) (ae : AppendEntries ι) :
    Advances n (n.appendLost p ae) := by
  have h := backOff_advances
    (n := { n with matchIndex := Function.update n.matchIndex p 0 }) ⟨hb.applied, hb.commit⟩ p ae
  exact ⟨h.kept, h.commit, h.applied, h.bounded, h.caughtUp, h.sm, h.calls⟩

theorem appendReply_advances (hb : n.Bounded) (hwf : n.store.Wf) (peers : List ι)
    (connected : ι → Bool) (p : ι) (ae : AppendEntries ι) (resp : AppendEntriesResponse) :
    Advances n (n.appendReply peers connected p ae resp) := by
  rcases n.appendReply_cases peers connected p ae resp with
    ⟨-, heq⟩ | ⟨-, -, -, heq⟩ | ⟨-, heq⟩ <;> rw [heq]
  · exact .quiet hb (stepDown_quiet n resp.term) (List.prefix_refl _) rfl
  · have h := advanceCommitIndex_advances (n := n.matched p ae) ⟨hb.applied, hb.commit⟩ hwf
      peers connected
    exact ⟨h.kept, h.commit, h.applied, h.bounded, h.caughtUp, h.sm, h.calls⟩
  · exact backOff_advances hb p ae

theorem appendReply_commit (hwf : n.store.Wf) (peers : List ι) (connected : ι → Bool) (p : ι)
    (ae : AppendEntries ι) (resp : AppendEntriesResponse) :
    let n' := n.appendReply peers connected p ae resp
    n'.store.commitIndex = n.store.commitIndex ∨
      ∃ T, .committed T (n'.store.log.take n'.store.commitIndex) ∈ n'.trace := by
  intro n'
  rcases n.appendReply_cases peers connected p ae resp with
    ⟨-, heq⟩ | ⟨-, -, -, heq⟩ | ⟨-, heq⟩ <;> simp only [n', heq]
  · exact Or.inl rfl
  · rcases (n.matched p ae).advanceCommitIndex_cases peers connected hwf with heq' | ⟨k, -, -, -, -, heq'⟩
    · rw [heq']; exact Or.inl rfl
    · rw [heq']; exact Or.inr ⟨_, committing_event _ k⟩
  · exact Or.inl (by rw [(backOff_rest n p ae).2.2.1])

theorem appendReply_log (n : RaftNode ι) (peers : List ι) (connected : ι → Bool) (p : ι)
    (ae : AppendEntries ι) (resp : AppendEntriesResponse) :
    (n.appendReply peers connected p ae resp).store.log = n.store.log := by
  rcases n.appendReply_cases peers connected p ae resp with
    ⟨-, heq⟩ | ⟨-, -, -, heq⟩ | ⟨-, heq⟩ <;> rw [heq]
  · rfl
  · exact advanceCommitIndex_log _ _ _
  · rw [(backOff_rest n p ae).2.2.1]

omit [DecidableEq ι] in
theorem handleAppendEntries_advances (hb : n.Bounded) (rpc : AppendEntries ι)
    (hwf : (n.handleAppendEntries rpc).1.store.Wf)
    (hkept : n.store.log.take n.store.commitIndex <+: (n.handleAppendEntries rpc).1.store.log) :
    Advances n (n.handleAppendEntries rpc).1 := by
  rcases n.handleAppendEntries_cases rpc with ⟨-, heq⟩ | ⟨hterm, -, heq⟩ | ⟨hterm, -, heq⟩ <;>
    rw [heq] at hwf hkept ⊢
  · exact .refl hb
  · have hpeer := n.followLeader_peer rpc hterm
    refine .quiet hb (followLeader_quiet n rpc) ?_ (congrArg Consensus.Peer.commit hpeer)
    rw [show (n.followLeader rpc).store.log = n.store.log from congrArg Consensus.Peer.log hpeer]
  · have hpeer := n.followLeader_peer rpc hterm
    have hcommit := merged_commitIndex hterm
    have hwf₁ := wf_of_applyCommitted hwf
    have hquiet := (followLeader_quiet n rpc).trans
      ((merged_rewrote n rpc).quiet.trans (followCommit_quiet _ rpc.leaderCommit))
    rw [applyCommitted_log] at hkept
    have hlog : ((n.merged rpc).followCommit rpc.leaderCommit).store.log = (n.merged rpc).store.log := by
      unfold followCommit; split <;> rfl
    have hlen := hkept.length_le
    rw [List.length_take, Nat.min_eq_left hb.commit, hlog] at hlen
    have hlength : (n.merged rpc).store.logLength = (n.merged rpc).store.log.length := by
      have := hwf₁.length
      unfold followCommit at this
      split at this <;> exact this
    have hmin : n.store.commitIndex ≤
        ((n.merged rpc).followCommit rpc.leaderCommit).store.commitIndex ∧
        ((n.merged rpc).followCommit rpc.leaderCommit).store.commitIndex ≤
          (n.merged rpc).store.log.length := by
      unfold followCommit
      split
      · rename_i hgt
        simp only [Store.setCommit]
        omega
      · omega
    exact .applyCommitted hb hwf₁ hquiet hkept hmin.1 (hlog ▸ hmin.2)

end RaftNode

namespace Cluster

open RaftNode

variable {ι : Type} [DecidableEq ι] {cfg : Config ι} {c c' : Cluster ι}

/-- Every move but the delivery of a batch keeps the whole log of every node. -/
theorem Moved.log_grows {m : Move ι} (h : Moved cfg c m c') (hm : ∀ k, m ≠ .deliverAppend k)
    (j : ι) : (c.nodes j).store.log <+: (c'.nodes j).store.log := by
  have hset : ∀ (i : ι) (n : RaftNode ι), (c.nodes i).store.log <+: n.store.log →
      (c.nodes j).store.log <+: ((c.setNode i n).nodes j).store.log := by
    intro i n hn
    exact c.setNode_cases i j n (P := fun n' => (c.nodes j).store.log <+: n'.store.log)
      (fun heq => heq ▸ hn) fun _ => List.prefix_refl _
  cases h with
  | timeout _ _ | voteReply _ _ _ _ => exact hset _ _ (List.prefix_refl _)
  | deliverVote _ _ _ =>
    exact hset _ _ (by rw [((c.nodes _).handleRequestVote_log _).1])
  | deposed hbg hcall hreply hterm =>
    exact hset _ _ (by rw [voteReply_deposed _ hterm]; exact List.prefix_refl _)
  | @elected i rpc votes hbg hvotes hstate =>
    refine hset _ _ ?_
    rw [show ((c.nodes i).becomeLeader i).store.log = _ from
      congrArg Consensus.Peer.log (becomeLeader_peer i hstate)]
    exact List.prefix_append _ _
  | deliverAppend _ _ _ => exact absurd rfl (hm _)
  | appendReply _ _ _ =>
    rw [setSendLoop_nodes]
    exact hset _ _ (by rw [appendReply_log])
  | appendLost _ _ =>
    rw [setSendLoop_nodes]
    exact hset _ _ (by rw [appendLost_store])
  | submit _ _ | get _ _ => exact hset _ _ (List.prefix_append _ _)
  | finishSubmit _ _ _ => exact hset _ _ (by rw [applyCommitted_log])
  | send _ => rw [setSendLoop_nodes]
  | sendVote _ | voteLost _ | unelected _ | heartbeat _ _ | endLoop _ | finishGet _ _ _ _ _ =>
    exact List.prefix_refl _

/-- A commit index changes by the commit rule, which leaves an event, or by a batch. -/
theorem Moved.commits {m : Move ι} (h : Moved cfg c m c') (hm : ∀ k, m ≠ .deliverAppend k) {j : ι}
    (hwf : (c.nodes j).store.Wf) :
    (c'.nodes j).store.commitIndex = (c.nodes j).store.commitIndex ∨
    ∃ T, .committed T ((c'.nodes j).store.log.take (c'.nodes j).store.commitIndex) ∈
      (c'.nodes j).trace := by
  have hset : ∀ (i : ι) (n : RaftNode ι),
      (i = j → n.store.commitIndex = (c.nodes j).store.commitIndex) →
      ((c.setNode i n).nodes j).store.commitIndex = (c.nodes j).store.commitIndex := by
    intro i n hn
    exact c.setNode_cases i j n (P := fun n' => n'.store.commitIndex = (c.nodes j).store.commitIndex)
      (fun heq => hn heq.symm) fun _ => rfl
  cases h with
  | timeout _ _ | voteReply _ _ _ _ => exact Or.inl (hset _ _ fun heq => heq ▸ rfl)
  | deliverVote _ _ _ =>
    exact Or.inl (hset _ _ fun heq => heq ▸ (handleRequestVote_log _ _).2)
  | deposed hbg hcall hreply hterm =>
    exact Or.inl (hset _ _ fun heq => by rw [voteReply_deposed _ hterm]; exact heq ▸ rfl)
  | @elected i rpc votes hbg hvotes hstate =>
    exact Or.inl (hset _ _ fun heq =>
      heq ▸ congrArg Consensus.Peer.commit (becomeLeader_peer i hstate))
  | deliverAppend _ _ _ => exact absurd rfl (hm _)
  | @appendReply t connected i p k todo call resp hloop hcall hreply =>
    rw [setSendLoop_nodes, setNode_nodes]
    split
    · rename_i hj
      subst hj
      exact appendReply_commit hwf _ _ _ _ _
    · exact Or.inl rfl
  | appendLost _ _ =>
    rw [setSendLoop_nodes]
    exact Or.inl (hset _ _ fun heq => by rw [appendLost_store]; exact heq ▸ rfl)
  | submit _ _ | get _ _ => exact Or.inl (hset _ _ fun heq => heq ▸ rfl)
  | finishSubmit _ _ _ =>
    exact Or.inl (hset _ _ fun heq => by rw [applyCommitted_commitIndex]; exact heq ▸ rfl)
  | send _ => rw [setSendLoop_nodes]; exact Or.inl rfl
  | sendVote _ | voteLost _ | unelected _ | heartbeat _ _ | endLoop _ | finishGet _ _ _ _ _ =>
    exact Or.inl rfl

theorem Moved.advances {m : Move ι} (h : Moved cfg c m c') {j : ι} (hb : (c.nodes j).Bounded)
    (hwf : (c.nodes j).store.Wf) (hwf' : (c'.nodes j).store.Wf)
    (hkept : (c.nodes j).store.log.take (c.nodes j).store.commitIndex <+: (c'.nodes j).store.log) :
    Advances (c.nodes j) (c'.nodes j) := by
  have hset : ∀ (i : ι) (n : RaftNode ι), (i = j → Advances (c.nodes j) n) →
      Advances (c.nodes j) ((c.setNode i n).nodes j) := by
    intro i n hn
    exact c.setNode_cases i j n (fun heq => hn heq.symm) fun _ => .refl hb
  cases h with
  | timeout _ _ =>
    refine hset _ _ fun heq => ?_
    subst heq
    exact .quiet hb (startElection_quiet _ _) (List.prefix_refl _) rfl
  | @deliverVote k call hcall hnew hfree =>
    refine hset _ _ fun heq => ?_
    subst heq
    obtain ⟨hlog, hcommit⟩ := (c.nodes call.dst).handleRequestVote_log call.rpc
    exact .quiet hb (handleRequestVote_quiet _ _) (by rw [hlog]) hcommit
  | deposed hbg hcall hreply hterm =>
    refine hset _ _ fun heq => ?_
    subst heq
    rw [voteReply_deposed _ hterm]
    exact .quiet hb ((stepDown_quiet _ _).trans ⟨rfl, rfl, rfl⟩) (List.prefix_refl _) rfl
  | @elected i rpc votes hbg hvotes hstate =>
    refine hset _ _ fun heq => ?_
    subst heq
    have hpeer := becomeLeader_peer i hstate
    refine .quiet hb (becomeLeader_quiet i hstate) ?_ (congrArg Consensus.Peer.commit hpeer)
    rw [show ((c.nodes i).becomeLeader i).store.log = _ from congrArg Consensus.Peer.log hpeer]
    exact List.prefix_append _ _
  | @deliverAppend k call hcall hnew hfree =>
    by_cases hj : call.dst = j
    · subst hj
      simp only [setNode_nodes, if_true] at hwf' hkept ⊢
      exact handleAppendEntries_advances hb call.rpc hwf' hkept
    · exact hset _ _ fun heq => absurd heq hj
  | @appendReply t connected i p k todo call resp hloop hcall hreply =>
    rw [setSendLoop_nodes]
    refine hset _ _ fun heq => ?_
    subst heq
    exact appendReply_advances hb hwf _ _ _ _ _
  | @appendLost t i p k todo call hloop hcall =>
    rw [setSendLoop_nodes]
    refine hset _ _ fun heq => ?_
    subst heq
    exact appendLost_advances hb _ _
  | submit hfree hstate =>
    refine hset _ _ fun heq => ?_
    subst heq
    exact .quiet hb (appendOwn_quiet _ _) (List.prefix_append _ _) rfl
  | get hfree hstate =>
    refine hset _ _ fun heq => ?_
    subst heq
    exact .quiet hb (appendOwn_quiet _ _) (List.prefix_append _ _) rfl
  | finishSubmit hcall hfree hcommit =>
    refine hset _ _ fun heq => ?_
    subst heq
    exact .applyCommitted hb hwf ⟨rfl, rfl, rfl⟩ (List.take_prefix _ _) (le_refl _) hb.commit
  | voteReply hbg hcall hreply hterm =>
    refine hset _ _ fun heq => ?_
    subst heq
    exact .refl hb
  | send hloop =>
    rw [setSendLoop_nodes]; exact .refl hb
  | sendVote _ | voteLost _ | unelected _ | heartbeat _ _ | endLoop _ | finishGet _ _ _ _ _ =>
    exact .refl hb

end Cluster

end RaftKv
