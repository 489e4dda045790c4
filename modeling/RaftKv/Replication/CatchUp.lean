-- SUMMARY: A new leader and one follower: repeating sendAppendEntries repairs the follower's log within as many calls as the leader has entries.
import RaftKv.Replication.Acknowledged

/-!
# Catching up

One new leader and one of its followers, with every request and reply delivered. `nextIndex`
goes down by one with every refused batch, which is never empty, and at 1 the batch is
accepted whatever the follower has. The accepted batch reaches the end of the leader's log, so
the bound that the follower puts on its commit index, its own last index, is never the one
that decides.
-/

namespace RaftKv

open TermLog

/-- A leader and one of its followers. -/
structure Link (ι : Type) where
  leader : RaftNode ι
  follower : RaftNode ι

namespace Link

variable {ι : Type} [DecidableEq ι] (self peer : ι) (peers : List ι)

/-- What the next call of `sendAppendEntries` for the follower sends. -/
def request (link : Link ι) : AppendEntries ι := link.leader.buildAppendEntries self peer

/-- What it does to the follower and gets back. -/
def answer (link : Link ι) : RaftNode ι × AppendEntriesResponse :=
  link.follower.handleAppendEntries (link.request self peer)

/-- Both nodes after the call. -/
def call (connected : ι → Bool) (link : Link ι) : Link ι where
  leader := link.leader.appendReply peers connected peer (link.request self peer) (link.answer self peer).2
  follower := (link.answer self peer).1

/-- Both nodes after `k` calls. Which other peers are connected may change between them. -/
def calls (connected : ℕ → ι → Bool) (link : Link ι) : ℕ → Link ι
  | 0 => link
  | k + 1 => (calls connected link k).call self peer peers (connected k)

/-- Call number `k`, counted from 0, is answered with success. -/
def Succeeds (connected : ℕ → ι → Bool) (link : Link ι) (k : ℕ) : Prop :=
  ((link.calls self peer peers connected k).answer self peer).2.success = true

/-! ## The invariant of the refused calls -/

/-- After `k` refused calls only `nextIndex`, the follower's term and its role have changed. -/
structure Probing (start : Link ι) (k : ℕ) (link : Link ι) : Prop where
  store : link.leader.store = start.leader.store
  next : link.leader.nextIndex peer = start.leader.store.log.length - k
  matched : link.leader.matchIndex peer = 0
  wf : link.follower.store.Wf
  term : link.follower.store.term ≤ start.leader.store.term
  log : link.follower.store.log = start.follower.store.log
  commit : link.follower.store.commitIndex = start.follower.store.commitIndex

/-- The follower has the leader's log, the leader knows it, and what the follower has newly
taken as committed is the leader's. -/
structure CaughtUp (start link : Link ι) : Prop where
  log : link.follower.store.log.take start.leader.store.log.length = start.leader.store.log
  matched : link.leader.matchIndex peer = start.leader.store.log.length
  next : link.leader.nextIndex peer = start.leader.store.log.length + 1
  committed : ∀ i, start.follower.store.commitIndex < i → i ≤ link.follower.store.commitIndex →
    i ≤ start.leader.store.log.length ∧
      link.follower.store.log[i - 1]? = start.leader.store.log[i - 1]?

variable {self peer peers} {start link : Link ι} {connected : ι → Bool} {k : ℕ}

omit [DecidableEq ι] in
variable (self) in
/-- What the request of such a call is. -/
theorem Probing.request (h : Probing peer start k link) (hwf : start.leader.store.Wf)
    (hk : k < start.leader.store.log.length) :
    let rpc := link.request self peer
    rpc.Carries start.leader.store.log ∧ rpc.prevLogIndex = start.leader.store.log.length - k - 1 ∧
      rpc.entries ≠ [] ∧ rpc.term = start.leader.store.term ∧
      rpc.leaderCommit = start.leader.store.commitIndex := by
  intro rpc
  have hnext := h.next
  have hcarries : rpc.Carries link.leader.store.log :=
    RaftNode.buildAppendEntries_carries self peer link.leader (h.store ▸ hwf) (by omega)
  rw [h.store] at hcarries
  have hprev : rpc.prevLogIndex = start.leader.store.log.length - k - 1 := by
    rw [← hnext]
    rfl
  refine ⟨hcarries, hprev, ?_, congrArg Store.term h.store, congrArg Store.commitIndex h.store⟩
  rw [hcarries.entries, ne_eq, List.drop_eq_nil_iff]
  omega

/-- A refused call moves `nextIndex` down by one, and can only be refused above 1. -/
theorem Probing.refused (h : Probing peer start k link) (hwf : start.leader.store.Wf)
    (hk : k < start.leader.store.log.length)
    (hprev : RaftNode.prevMatches link.follower.store (link.request self peer) = false) :
    k + 1 < start.leader.store.log.length ∧ (link.answer self peer).2.success = false ∧
      Probing peer start (k + 1) (link.call self peer peers connected) := by
  obtain ⟨-, hindex, hne, hterm, -⟩ := h.request self hwf hk
  have hle : link.follower.store.term ≤ (link.request self peer).term := hterm ▸ h.term
  have hanswer := RaftNode.handleAppendEntries_refused hle hprev
  have hlow : k + 1 < start.leader.store.log.length := by
    by_contra hge
    have hzero : (link.request self peer).prevLogIndex = 0 := by omega
    rw [(RaftNode.prevMatches_iff h.wf _).mpr (.inl hzero)] at hprev
    cases hprev
  have hreply : (link.request self peer).term ≤ link.leader.store.term := by
    rw [hterm, h.store]
  have hleader : (link.call self peer peers connected).leader =
      link.leader.backOff peer (link.request self peer) := by
    simp only [call, answer, hanswer]
    exact RaftNode.appendReply_rejected _ _ _ _ _ hreply (by simp)
  have hfollower : (link.call self peer peers connected).follower =
      link.follower.followLeader (link.request self peer) := by
    simp only [call, answer, hanswer]
  have hpeer := RaftNode.followLeader_peer link.follower _ hle
  obtain ⟨hmatched, -, hstore, -⟩ := RaftNode.backOff_rest link.leader peer (link.request self peer)
  refine ⟨hlow, by simp only [answer, hanswer], ?_, ?_, ?_, ?_, ?_, ?_, ?_⟩
  · rw [hleader, hstore, h.store]
  · have hnext := h.next
    have hcond : ¬ (link.request self peer).entries.isEmpty ∧ link.leader.nextIndex peer > 1 :=
      ⟨by simpa using hne, by omega⟩
    rw [hleader, RaftNode.backOff, if_pos hcond]
    show Function.update link.leader.nextIndex peer _ peer = _
    rw [Function.update_self]
    omega
  · rw [hleader, hmatched, h.matched]
  · rw [hfollower]
    exact RaftNode.followLeader_wf _ _ h.wf
  · rw [hfollower, show (link.follower.followLeader _).store.term = _ from
      congrArg Consensus.Peer.term hpeer]
    exact hterm.le
  · rw [hfollower, RaftNode.followLeader_log, h.log]
  · rw [hfollower, show (link.follower.followLeader _).store.commitIndex = _ from
      congrArg Consensus.Peer.commit hpeer]
    exact h.commit

/-- An accepted call ends the search. -/
theorem Probing.accepted (h : Probing peer start k link) (hwf : start.leader.store.Wf)
    (hmatch : Matching LogEntry.term start.follower.store.log start.leader.store.log)
    (hcommit : start.leader.store.commitIndex ≤ start.leader.store.log.length)
    (hk : k < start.leader.store.log.length)
    (hprev : RaftNode.prevMatches link.follower.store (link.request self peer) = true) :
    (link.answer self peer).2.success = true ∧
      CaughtUp peer start (link.call self peer peers connected) := by
  obtain ⟨hcarries, hindex, hne, hterm, hlc⟩ := h.request self hwf hk
  have hle : link.follower.store.term ≤ (link.request self peer).term := hterm ▸ h.term
  have hanswer := RaftNode.handleAppendEntries_accepted hle hprev
  have hmatch' : Matching LogEntry.term link.follower.store.log start.leader.store.log := by
    rwa [h.log]
  obtain ⟨hgraft, hwf'⟩ := RaftNode.merged_graft h.wf hmatch' hwf.indexed hcarries (by omega) hprev
  have hreply : (link.request self peer).term ≤ link.leader.store.term := by
    rw [hterm, h.store]
  have hlast : (link.request self peer).prevLogIndex + (link.request self peer).entries.length =
      start.leader.store.log.length := by
    rw [hcarries.entries, List.length_drop]
    omega
  have hleader : (link.call self peer peers connected).leader =
      (link.leader.matched peer (link.request self peer)).advanceCommitIndex peers connected := by
    simp only [call, answer, hanswer]
    exact RaftNode.appendReply_acknowledged _ _ _ _ _ hreply rfl hne
  have hfollower : (link.call self peer peers connected).follower =
      ((link.follower.merged (link.request self peer)).followCommit
        (link.request self peer).leaderCommit).applyCommitted := by
    simp only [call, answer, hanswer]
  obtain ⟨hnext, hmatched⟩ := RaftNode.advanceCommitIndex_vectors
    (link.leader.matched peer (link.request self peer)) peers connected
  have hlog : (link.call self peer peers connected).follower.store.log =
      graft link.follower.store.log start.leader.store.log := by
    rw [hfollower, RaftNode.applyCommitted_log, RaftNode.followCommit_log, hgraft]
  obtain ⟨K, hK⟩ := prefix_graft link.follower.store.log start.leader.store.log
  have hmax : max (link.leader.matchIndex peer)
      ((link.request self peer).prevLogIndex + (link.request self peer).entries.length) =
        start.leader.store.log.length := by
    rw [hlast, h.matched, Nat.zero_max]
  refine ⟨by simp only [answer, hanswer], ?_, ?_, ?_, ?_⟩
  · rw [hlog, ← hK, List.take_left]
  · rw [hleader, hmatched, RaftNode.matched_matchIndex, if_pos rfl, hmax]
  · rw [hleader, hnext]
    simp only [RaftNode.matched, Function.update_self, hmax]
  · intro i hold hnew
    have hbound : i ≤ start.leader.store.log.length := by
      rw [hfollower, RaftNode.accepted_commitIndex hle hwf', hlc, h.commit] at hnew
      split at hnew
      · omega
      · omega
    refine ⟨hbound, ?_⟩
    rw [hlog, ← hK, List.getElem?_append_left (by omega)]

/-! ## The search ends -/

/-- Call number `k` is the first that succeeds, and the follower has caught up after it. -/
def Found (self peer : ι) (peers : List ι) (connected : ℕ → ι → Bool) (start : Link ι) (k : ℕ) : Prop :=
  (∀ j < k, ¬ start.Succeeds self peer peers connected j) ∧
    start.Succeeds self peer peers connected k ∧
      CaughtUp peer start (start.calls self peer peers connected (k + 1))

variable (self peers) in
/-- Up to any call, the search is over or the invariant holds; by induction on the number of
calls, with one of the two step lemmas for each. -/
theorem found_or_probing (connected : ℕ → ι → Bool) (hwf : start.leader.store.Wf)
    (hmatch : Matching LogEntry.term start.follower.store.log start.leader.store.log)
    (hcommit : start.leader.store.commitIndex ≤ start.leader.store.log.length)
    (hpos : 0 < start.leader.store.log.length) (hstart : Probing peer start 0 start) (k : ℕ) :
    (∃ j < k, Found self peer peers connected start j) ∨
      (k < start.leader.store.log.length ∧
        (∀ j < k, ¬ start.Succeeds self peer peers connected j) ∧
        Probing peer start k (start.calls self peer peers connected k)) := by
  induction k with
  | zero => exact .inr ⟨hpos, fun j hj => absurd hj (Nat.not_lt_zero j), hstart⟩
  | succ k ih =>
    rcases ih with ⟨j, hj, hfound⟩ | ⟨hk, hnone, hprobing⟩
    · exact .inl ⟨j, Nat.lt_succ_of_lt hj, hfound⟩
    · let link := start.calls self peer peers connected k
      cases hprev : RaftNode.prevMatches link.follower.store (link.request self peer) with
      | true =>
        obtain ⟨hok, hdone⟩ := hprobing.accepted hwf hmatch hcommit hk hprev
        exact .inl ⟨k, Nat.lt_succ_self k, hnone, hok, hdone⟩
      | false =>
        obtain ⟨hlow, hfail, hnext⟩ := hprobing.refused hwf hk hprev
        refine .inr ⟨hlow, fun j hj => ?_, hnext⟩
        rcases Nat.lt_succ_iff_lt_or_eq.mp hj with hlt | rfl
        · exact hnone j hlt
        · intro hok
          rw [Succeeds, hfail] at hok
          cases hok

/-- For every node that becomes leader and every follower of no later term whose log matches
the new leader's: with every request and reply delivered, one of the first `|L|` calls is the
first that succeeds, and after it the follower has caught up. -/
theorem catches_up (self peer : ι) (peers : List ι) (connected : ℕ → ι → Bool) (n f : RaftNode ι)
    (hcand : n.state = .candidate) (hwf : n.store.Wf)
    (hcommit : (n.becomeLeader self).store.commitIndex ≤ (n.becomeLeader self).store.log.length)
    (hfollower : f.store.Wf) (hterm : f.store.term ≤ (n.becomeLeader self).store.term)
    (hmatch : Matching LogEntry.term f.store.log (n.becomeLeader self).store.log) :
    let start : Link ι := ⟨n.becomeLeader self, f⟩
    ∃ k < start.leader.store.log.length,
      (∀ j < k, ¬ start.Succeeds self peer peers connected j) ∧
      start.Succeeds self peer peers connected k ∧
      CaughtUp peer start (start.calls self peer peers connected (k + 1)) := by
  intro start
  have hlog : start.leader.store.log = n.store.log ++ [n.noopEntry] :=
    congrArg Consensus.Peer.log (RaftNode.becomeLeader_peer self hcand)
  have hlen : start.leader.store.log.length = n.store.log.length + 1 := by
    rw [hlog, List.length_append, List.length_singleton]
  have hstart : Probing peer start 0 start := by
    refine ⟨rfl, ?_, RaftNode.becomeLeader_matchIndex self hcand peer, hfollower, hterm, rfl, rfl⟩
    rw [hlen, ← hwf.length]
    exact RaftNode.becomeLeader_nextIndex self hcand peer
  have hsearch := found_or_probing self peers connected (RaftNode.becomeLeader_wf self hcand hwf)
    hmatch hcommit (by omega) hstart start.leader.store.log.length
  rcases hsearch with hfound | ⟨hlt, -⟩
  · exact hfound
  · exact absurd hlt (Nat.lt_irrefl _)

/-- A candidate of term 2 with two no-ops of term 1. -/
def newCandidate : RaftNode Nat where
  store := {
    term := 2, lastLogTerm := 1, voted := some 0, logLength := 2
    log := [⟨1, 1, { oper := .noop }⟩, ⟨1, 2, { oper := .noop }⟩]
    commitIndex := 1, lastApplied := 1 }
  sm := .empty
  state := .candidate
  currentLeaderId := none
  nextIndex _ := 0
  matchIndex _ := 0
  trace := []

/-- A follower of term 1 with nothing in its log. -/
def newFollower : RaftNode Nat where
  store := {
    term := 1, lastLogTerm := 0, voted := none, logLength := 0, log := []
    commitIndex := 0, lastApplied := 0 }
  sm := .empty
  state := .follower
  currentLeaderId := none
  nextIndex _ := 0
  matchIndex _ := 0
  trace := []

/-- The empty follower refuses the batches from positions 3 and 2 and accepts the third. -/
theorem catches_up_empty :
    ∃ k < 3, (⟨newCandidate.becomeLeader 0, newFollower⟩ : Link Nat).Succeeds 0 1 [1, 2]
      (fun _ _ => true) k := by
  have hwf : newCandidate.store.Wf := ⟨rfl, rfl, by decide⟩
  obtain ⟨k, hk, -, hok, -⟩ := catches_up 0 1 [1, 2] (fun _ _ => true) newCandidate newFollower rfl hwf
    (by decide) ⟨rfl, rfl, Indexed.nil⟩ (by decide) (.of_isPrefix List.nil_prefix)
  exact ⟨k, hk, hok⟩

end Link

end RaftKv
