-- SUMMARY: What a follower has acknowledged to the leader of a term stays in its log, in whatever order the leader's messages arrive.
import RaftKv.Refinement.Node

/-!
# Acknowledged entries

The leader of a term sends tails of its growing log. Whatever a follower makes of them, in
any order and any number of times, its log matches the leader's, and the entries it has
acknowledged stay: a later message is a graft of a log that is comparable with them.
-/

namespace RaftKv

open TermLog

variable {ι : Type}

/-- `prevLogIndex + entries.size()`: the last position a batch covers. -/
def AppendEntries.lastSent (rpc : AppendEntries ι) : Nat := rpc.prevLogIndex + rpc.entries.length

namespace RaftNode

/-- `rpc` was built by `leader` in term `T`, when its log was a part of `L`, the log it has at
the end of its term, and `nextIndex` was between 1 and one past its log. -/
def SentIn (leader : ι) (T : Nat) (L : List LogEntry) (rpc : AppendEntries ι) : Prop :=
  ∃ (l : RaftNode ι) (peer : ι), l.store.Wf ∧ l.store.term = T ∧ l.store.log <+: L ∧
    1 ≤ l.nextIndex peer ∧ l.nextIndex peer ≤ l.store.log.length + 1 ∧
    rpc = l.buildAppendEntries leader peer

/-- The follower after handling these messages, one after the other. -/
def handleAll (n : RaftNode ι) (rpcs : List (AppendEntries ι)) : RaftNode ι :=
  rpcs.foldl (fun n rpc => (n.handleAppendEntries rpc).1) n

/-! ## One message -/

/-- A message is a tail of a part of the leader's log, and reaches its end. -/
theorem SentIn.carries {leader : ι} {T : Nat} {L : List LogEntry} {rpc : AppendEntries ι}
    (h : SentIn leader T L rpc) :
    ∃ S, S <+: L ∧ Indexed S ∧ rpc.Carries S ∧ rpc.prevLogIndex ≤ S.length ∧ rpc.lastSent = S.length := by
  obtain ⟨l, peer, hwf, -, hpre, hlow, hhigh, rfl⟩ := h
  have hcarries := buildAppendEntries_carries leader peer l hwf hlow
  have hprev : (l.buildAppendEntries leader peer).prevLogIndex = l.nextIndex peer - 1 := rfl
  refine ⟨l.store.log, hpre, hwf.indexed, hcarries, by omega, ?_⟩
  rw [AppendEntries.lastSent, hcarries.entries, List.length_drop]
  omega

section

variable {n : RaftNode ι} {S : List LogEntry} {rpc : AppendEntries ι} (hwf : n.store.Wf)
  (hmatch : Matching LogEntry.term n.store.log S) (hS : Indexed S) (hcarries : rpc.Carries S)
  (hle : rpc.prevLogIndex ≤ S.length)

include hwf hmatch hS hcarries hle

/-- An accepted tail of the log `S` is a graft of `S`. -/
theorem merged_graft (hprev : prevMatches n.store rpc = true) :
    (n.merged rpc).store.log = graft n.store.log S ∧ (n.merged rpc).store.Wf := by
  have hlog : (n.followLeader rpc).store.log = n.store.log := followLeader_log n rpc
  have hmatch₁ : Matching LogEntry.term (n.followLeader rpc).store.log S := by rwa [hlog]
  obtain ⟨hp, hagree⟩ := agree_of_prevMatches hwf hmatch hcarries hle hprev
  rw [← hlog] at hp hagree
  obtain ⟨hgraft, hwf', -⟩ := merge_spec _ (followLeader_wf n rpc hwf) hmatch₁ hS hp hagree
  rw [← hcarries.entries] at hgraft hwf'
  exact ⟨hlog ▸ hgraft, hwf'⟩

theorem handleAppendEntries_graft :
    (n.handleAppendEntries rpc).1.store.Wf ∧
      ((n.handleAppendEntries rpc).2.success = false ∧
          (n.handleAppendEntries rpc).1.store.log = n.store.log ∨
        (n.handleAppendEntries rpc).2.success = true ∧
          (n.handleAppendEntries rpc).1.store.log = graft n.store.log S) := by
  rcases n.handleAppendEntries_cases rpc with ⟨-, heq⟩ | ⟨-, -, heq⟩ | ⟨-, hprev, heq⟩
  · rw [heq]
    exact ⟨hwf, .inl ⟨rfl, rfl⟩⟩
  · rw [heq]
    exact ⟨followLeader_wf n rpc hwf, .inl ⟨rfl, followLeader_log n rpc⟩⟩
  · rw [prevMatches_followLeader] at hprev
    obtain ⟨hgraft, hwf'⟩ := merged_graft hwf hmatch hS hcarries hle hprev
    rw [heq]
    refine ⟨applyCommitted_wf (followCommit_wf _ _ hwf'), .inr ⟨rfl, ?_⟩⟩
    rw [applyCommitted_log, followCommit_log]
    exact hgraft

end

/-! ## Any sequence of messages -/

variable {leader : ι} {T : Nat} {L : List LogEntry}

/-- The follower's log matches the leader's, and has its first `m` entries. -/
structure HasFirst (n : RaftNode ι) (L : List LogEntry) (m : Nat) : Prop where
  wf : n.store.Wf
  matching : Matching LogEntry.term n.store.log L
  held : L.take m <+: n.store.log

theorem HasFirst.handle {n : RaftNode ι} {m : Nat} (h : n.HasFirst L m) {rpc : AppendEntries ι}
    (hsent : SentIn leader T L rpc) : (n.handleAppendEntries rpc).1.HasFirst L m := by
  obtain ⟨S, hS, hidx, hcarries, hle, -⟩ := hsent.carries
  obtain ⟨hwf, ⟨-, hlog⟩ | ⟨-, hlog⟩⟩ :=
    handleAppendEntries_graft h.wf (h.matching.isPrefix_right hS) hidx hcarries hle
  · exact ⟨hwf, hlog ▸ h.matching, hlog ▸ h.held⟩
  · refine ⟨hwf, hlog ▸ h.matching.graft hS, ?_⟩
    rw [hlog]
    exact prefix_graft_of_comparable h.held (List.take_prefix _ _) hS

/-- By induction on the sequence. -/
theorem HasFirst.handleAll {n : RaftNode ι} {m : Nat} {rpcs : List (AppendEntries ι)}
    (h : n.HasFirst L m) (hsent : ∀ rpc ∈ rpcs, SentIn leader T L rpc) :
    (n.handleAll rpcs).HasFirst L m := by
  induction rpcs generalizing n with
  | nil => exact h
  | cons rpc rpcs ih =>
    have hstep := h.handle (hsent rpc List.mem_cons_self)
    exact ih hstep fun r hr => hsent r (List.mem_cons_of_mem rpc hr)

/-- With an answer of success the follower has everything up to the end of the batch. -/
theorem HasFirst.acknowledge {n : RaftNode ι} {m : Nat} (h : n.HasFirst L m) {rpc : AppendEntries ι}
    (hsent : SentIn leader T L rpc) (hack : (n.handleAppendEntries rpc).2.success = true) :
    rpc.lastSent ≤ L.length ∧ (n.handleAppendEntries rpc).1.HasFirst L rpc.lastSent := by
  have hnext := h.handle hsent
  obtain ⟨S, hS, hidx, hcarries, hle, hlast⟩ := hsent.carries
  obtain ⟨-, ⟨hfail, -⟩ | ⟨-, hlog⟩⟩ :=
    handleAppendEntries_graft h.wf (h.matching.isPrefix_right hS) hidx hcarries hle
  · rw [hfail] at hack
    cases hack
  · refine ⟨hlast ▸ hS.length_le, hnext.wf, hnext.matching, ?_⟩
    rw [hlast, ← List.prefix_iff_eq_take.mp hS, hlog]
    exact prefix_graft _ _

/-- For a leader whose log grows to `L` in its term and a follower whose log matches it: after
any messages of that term, one that is answered with success and any further ones, the
follower's log agrees with the leader's up to the end of the acknowledged batch. -/
theorem acknowledged_kept (n : RaftNode ι) (rpc : AppendEntries ι) (before after : List (AppendEntries ι))
    (hwf : n.store.Wf) (hmatch : Matching LogEntry.term n.store.log L)
    (hsent : ∀ r ∈ before ++ rpc :: after, SentIn leader T L r)
    (hack : ((n.handleAll before).handleAppendEntries rpc).2.success = true) :
    rpc.prevLogIndex + rpc.entries.length ≤ L.length ∧
      (n.handleAll (before ++ rpc :: after)).store.log.take (rpc.prevLogIndex + rpc.entries.length) =
        L.take (rpc.prevLogIndex + rpc.entries.length) := by
  have hstart : n.HasFirst L 0 := ⟨hwf, hmatch, by simp⟩
  have hbefore : (n.handleAll before).HasFirst L 0 :=
    hstart.handleAll fun r hr => hsent r (List.mem_append_left _ hr)
  obtain ⟨hle, hmid⟩ := hbefore.acknowledge (hsent rpc (by simp)) hack
  have hend : (n.handleAll (before ++ rpc :: after)).HasFirst L rpc.lastSent := by
    rw [RaftNode.handleAll, List.foldl_append, List.foldl_cons]
    exact hmid.handleAll fun r hr => hsent r (by simp [hr])
  refine ⟨hle, ?_⟩
  obtain ⟨K, hK⟩ := hend.held
  have hlen : (L.take rpc.lastSent).length = rpc.lastSent := List.length_take_of_le hle
  rw [← hK]
  exact List.take_left' hlen

/-- The log of a leader of term 1, in the order in which it grows. -/
def growingLog : List LogEntry :=
  [⟨1, 1, { oper := .noop }⟩, ⟨1, 2, { oper := .put, key := [1] }⟩, ⟨1, 3, { oper := .delete, key := [1] }⟩]

theorem growingLog_indexed : Indexed growingLog := by decide

/-- A node of term 1 that holds the first `k` of these entries. -/
def growingNode (k next : Nat) : RaftNode Nat where
  store := {
    term := 1, lastLogTerm := lastTerm LogEntry.term (growingLog.take k), voted := none
    logLength := (growingLog.take k).length, log := growingLog.take k
    commitIndex := 0, lastApplied := 0 }
  sm := .empty
  state := .leader
  currentLeaderId := some 0
  nextIndex _ := next
  matchIndex _ := 0
  trace := []

theorem growingNode_wf (k next : Nat) : (growingNode k next).store.Wf :=
  ⟨rfl, rfl, growingLog_indexed.of_isPrefix (List.take_prefix _ _)⟩

/-- The whole log is acknowledged; two older and shorter messages arrive late. -/
theorem acknowledged_kept_late :
    ((growingNode 0 0).handleAll
      [(growingNode 3 1).buildAppendEntries 0 1, (growingNode 2 1).buildAppendEntries 0 1,
        (growingNode 1 1).buildAppendEntries 0 1]).store.log.take 3 = growingLog := by
  have hsent : ∀ k, 1 ≤ k → SentIn 0 1 growingLog ((growingNode k 1).buildAppendEntries 0 1) :=
    fun k hk => ⟨growingNode k 1, 1, growingNode_wf k 1, rfl, List.take_prefix _ _, le_refl _,
      Nat.le_add_left _ _, rfl⟩
  have hall : ∀ r ∈ [] ++ (growingNode 3 1).buildAppendEntries 0 1 ::
      [(growingNode 2 1).buildAppendEntries 0 1, (growingNode 1 1).buildAppendEntries 0 1],
      SentIn 0 1 growingLog r := by
    intro r hr
    simp only [List.nil_append, List.mem_cons, List.not_mem_nil, or_false] at hr
    rcases hr with rfl | rfl | rfl
    · exact hsent 3 (by decide)
    · exact hsent 2 (by decide)
    · exact hsent 1 (by decide)
  exact (acknowledged_kept (growingNode 0 0) ((growingNode 3 1).buildAppendEntries 0 1) []
    [(growingNode 2 1).buildAppendEntries 0 1, (growingNode 1 1).buildAppendEntries 0 1]
    (growingNode_wf 0 0) (.of_isPrefix (List.nil_prefix)) hall rfl).2

end RaftNode

end RaftKv
