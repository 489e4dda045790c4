-- SUMMARY: What the election timers give: how often a node can start an election, and how fast terms can grow.
import RaftKv.Timing
import RaftKv.Threads
import RaftKv.Refinement.Crash
import Mathlib.Algebra.Order.BigOperators.Group.Finset
import Mathlib.Data.Fin.VecNotation

/-!
# Timers

Only a timeout raises a term above all others, and a timeout needs three seconds of the clock
of its node since anything last set `last_heartbeat`. So elections are rare and terms are
bounded by time, whatever the nodes and the network do.
-/

namespace RaftKv

variable {ι : Type}

/-! ## Sections that start no election -/

/-- Not a candidacy, and no term above `B` on disk. -/
def Event.Calm (B : Nat) : Event ι → Prop
  | .wrote d => d.term ≤ B
  | .candidate _ => False
  | _ => True

def Event.isCandidate : Event ι → Bool
  | .candidate _ => true
  | _ => false

theorem Event.Calm.not_isCandidate {B : Nat} {x : Event ι} (h : x.Calm B) :
    x.isCandidate = false := by
  cases x <;> first | rfl | exact h.elim

namespace RaftNode

/-- How many elections the node has started, over all its incarnations. -/
def candidacies (n : RaftNode ι) : Nat := n.trace.countP Event.isCandidate

/-- From `n` to `n'` no election was started, and no term above `B` was taken over. -/
structure Calm (B : Nat) (n n' : RaftNode ι) : Prop where
  term : n'.store.term ≤ B
  events : ∃ events, n'.trace = n.trace ++ events ∧ ∀ x ∈ events, x.Calm B

namespace Calm

variable {B : Nat} {n n' n'' : RaftNode ι}

theorem of_trace (events : List (Event ι)) (hterm : n'.store.term ≤ B)
    (htrace : n'.trace = n.trace ++ events) (hevents : ∀ x ∈ events, x.Calm B) : Calm B n n' :=
  ⟨hterm, events, htrace, hevents⟩

/-- A section that leaves the term and adds nothing to the history. -/
theorem of_eq (hB : n.store.term ≤ B) (hterm : n'.store.term = n.store.term)
    (htrace : n'.trace = n.trace) : Calm B n n' :=
  .of_trace [] (hterm ▸ hB) (by rw [htrace, List.append_nil]) (by simp)

theorem refl (hB : n.store.term ≤ B) : Calm B n n := .of_eq hB rfl rfl

theorem trans (h : Calm B n n') (h' : Calm B n' n'') : Calm B n n'' := by
  obtain ⟨xs, htrace, hxs⟩ := h.events
  obtain ⟨ys, htrace', hys⟩ := h'.events
  refine .of_trace (xs ++ ys) h'.term (by rw [htrace', htrace, List.append_assoc]) ?_
  intro x hx
  rcases List.mem_append.mp hx with hx | hx
  · exact hxs x hx
  · exact hys x hx

theorem candidacies (h : Calm B n n') : n'.candidacies = n.candidacies := by
  obtain ⟨events, htrace, hevents⟩ := h.events
  have hnone : events.countP Event.isCandidate = 0 :=
    List.countP_eq_zero.mpr fun x hx => by simp [(hevents x hx).not_isCandidate]
  rw [RaftNode.candidacies, htrace, List.countP_append, hnone]
  rfl

end Calm

variable {B : Nat} {n n' : RaftNode ι}

theorem startElection_candidacies (self : ι) (n : RaftNode ι) :
    (n.startElection self).1.candidacies = n.candidacies + 1 := by
  rw [candidacies, startElection_trace, List.countP_append]
  rfl

theorem persist_calm (n : RaftNode ι) {s : Store ι} (hs : s.term ≤ B) : Calm B n (n.persist s) := by
  refine .of_trace [.wrote s.disk] hs rfl fun x hx => ?_
  rw [List.mem_singleton.mp hx]
  exact hs

theorem start_term (d : Disk ι) (tr : List (Event ι)) : (start d tr).store.term = d.term := by
  unfold start replay; simp only
  split <;> rfl

/-- A restart starts no election. -/
theorem start_candidacies (d : Disk ι) (tr : List (Event ι)) :
    (start d tr).candidacies = tr.countP Event.isCandidate := by
  have hnone : (appliedEvents 1 d.log : List (Event ι)).countP Event.isCandidate = 0 := by
    refine List.countP_eq_zero.mpr fun x hx => ?_
    obtain ⟨k, e, -, rfl⟩ := mem_appliedEvents.mp hx
    simp [Event.isCandidate]
  rw [candidacies, start_trace, List.countP_append, hnone]
  rfl

theorem Rewrote.calm {P : List LogEntry → Prop} (h : Rewrote P n n') (hB : n.store.term ≤ B) :
    Calm B n n' := by
  obtain ⟨events, htrace, hevents⟩ := h.trace
  refine .of_trace events (h.term ▸ hB) htrace fun x hx => ?_
  obtain ⟨L, -, rfl⟩ := hevents x hx
  exact hB

theorem applyCommitted_calm (hB : n.store.term ≤ B) : Calm B n n.applyCommitted := by
  obtain ⟨events, htrace, hevents⟩ := applyCommitted_events (n := n)
  refine .of_trace events (by rw [applyCommitted_term]; exact hB) htrace fun x hx => ?_
  obtain ⟨k, e, rfl⟩ := hevents x hx
  trivial

theorem stepDown_calm (n : RaftNode ι) {t : Nat} (ht : t ≤ B) : Calm B n (n.stepDown t) :=
  .of_trace _ ht (stepDown_trace n t) (by simpa [Event.Calm] using ht)

theorem heardVote_calm {rpc : RequestVote ι} (hB : n.store.term ≤ B) (hrpc : rpc.term ≤ B) :
    Calm B n (n.heardVote rpc) := by
  unfold heardVote
  split
  · exact (stepDown_calm n hrpc).trans (.of_eq hrpc rfl rfl)
  · exact .refl hB

theorem becomeLeader_calm (self : ι) (hcand : n.state = .candidate) (hB : n.store.term ≤ B) :
    Calm B n (n.becomeLeader self) := by
  have hterm := congrArg Consensus.Peer.term (becomeLeader_peer self hcand)
  exact .of_trace _ (hterm.le.trans hB) (becomeLeader_trace self hcand) (by simpa [Event.Calm] using hB)

theorem appendOwn_calm (cmd : Command) (hB : n.store.term ≤ B) : Calm B n (n.appendOwn cmd).1 :=
  persist_calm n hB

theorem advanceCommitIndex_calm (peers : List ι) (connected : ι → Bool) (hB : n.store.term ≤ B) :
    Calm B n (n.advanceCommitIndex peers connected) := by
  unfold advanceCommitIndex; simp only
  split
  · refine Calm.trans ?_ (applyCommitted_calm hB)
    exact .of_trace [.committed _ _] hB rfl (by simp [Event.Calm])
  · exact .refl hB

section Handlers

variable [DecidableEq ι]

theorem handleRequestVote_calm {rpc : RequestVote ι} (hB : n.store.term ≤ B)
    (hrpc : rpc.term ≤ B) : Calm B n (n.handleRequestVote rpc).1 ∧
      (n.handleRequestVote rpc).2.term ≤ B := by
  have hheard := heardVote_calm hB hrpc
  rcases n.handleRequestVote_cases rpc with ⟨-, heq⟩ | ⟨-, -, heq⟩ | ⟨-, heq⟩ <;> rw [heq]
  · exact ⟨.refl hB, hB⟩
  · exact ⟨hheard.trans (persist_calm _ hheard.term), hrpc⟩
  · exact ⟨hheard, hrpc⟩

omit [DecidableEq ι] in
theorem followLeader_calm {rpc : AppendEntries ι} (hterm : n.store.term ≤ rpc.term)
    (hrpc : rpc.term ≤ B) : Calm B n (n.followLeader rpc) := by
  have hnew := congrArg Consensus.Peer.term (followLeader_peer n rpc hterm)
  refine .of_trace _ (hnew.le.trans hrpc) (followLeader_trace n rpc) ?_
  split
  · simpa [Event.Calm] using hrpc
  · simp

omit [DecidableEq ι] in
theorem handleAppendEntries_calm {rpc : AppendEntries ι} (hB : n.store.term ≤ B)
    (hrpc : rpc.term ≤ B) : Calm B n (n.handleAppendEntries rpc).1 ∧
      (n.handleAppendEntries rpc).2.term ≤ B := by
  rcases n.handleAppendEntries_cases rpc with ⟨-, heq⟩ | ⟨hterm, -, heq⟩ | ⟨hterm, -, heq⟩ <;>
    rw [heq]
  · exact ⟨.refl hB, hB⟩
  · exact ⟨followLeader_calm hterm hrpc, hrpc⟩
  · refine ⟨?_, hrpc⟩
    have hfollowed := followLeader_calm hterm hrpc
    have hmerged := hfollowed.trans ((merged_rewrote n rpc).calm hfollowed.term)
    have hcommit : ((n.merged rpc).followCommit rpc.leaderCommit).store.term =
        (n.merged rpc).store.term := by unfold followCommit; split <;> rfl
    have hcommitted : Calm B (n.merged rpc) ((n.merged rpc).followCommit rpc.leaderCommit) :=
      .of_eq hmerged.term hcommit (followCommit_rest _ _).2.2
    exact hmerged.trans (hcommitted.trans (applyCommitted_calm hcommitted.term))

theorem backOff_calm (p : ι) (ae : AppendEntries ι) (hB : n.store.term ≤ B) :
    Calm B n (n.backOff p ae) := by
  obtain ⟨-, -, hstore, -, htrace⟩ := backOff_rest n p ae
  exact .of_eq hB (by rw [hstore]) htrace

theorem appendReply_calm (peers : List ι) (connected : ι → Bool) (p : ι) (ae : AppendEntries ι)
    {resp : AppendEntriesResponse} (hB : n.store.term ≤ B) (hresp : resp.term ≤ B) :
    Calm B n (n.appendReply peers connected p ae resp) := by
  rcases n.appendReply_cases peers connected p ae resp with
    ⟨-, heq⟩ | ⟨-, -, -, heq⟩ | ⟨-, heq⟩ <;> rw [heq]
  · exact stepDown_calm n hresp
  · exact (Calm.of_eq hB rfl rfl : Calm B n (n.matched p ae)).trans (advanceCommitIndex_calm _ _ hB)
  · exact backOff_calm p ae hB

theorem appendLost_calm (p : ι) (ae : AppendEntries ι) (hB : n.store.term ≤ B) :
    Calm B n (n.appendLost p ae) := by
  have hreset : Calm B n { n with matchIndex := Function.update n.matchIndex p 0 } :=
    .of_eq hB rfl rfl
  exact hreset.trans (backOff_calm p ae hB)

end Handlers

end RaftNode

/-! ## Terms and elections of a cluster -/

def Background.Within (B : Nat) : Background ι → Prop
  | .election e => e.rpc.term ≤ B
  | _ => True

instance (B : Nat) (b : Background ι) : Decidable (b.Within B) := by
  unfold Background.Within; split <;> infer_instance

namespace Cluster

variable {cfg : Config ι} {c c' : Cluster ι} {B B' : Nat}

/-- No term in the cluster, in flight or not, is above `B`. -/
structure TermsWithin (B : Nat) (c : Cluster ι) : Prop where
  nodes : ∀ i, (c.nodes i).store.term ≤ B
  votes : ∀ call ∈ c.voteCalls, call.rpc.term ≤ B ∧ ∀ resp ∈ call.reply, resp.term ≤ B
  appends : ∀ call ∈ c.appendCalls, call.rpc.term ≤ B ∧ ∀ resp ∈ call.reply, resp.term ≤ B
  elections : ∀ i e, c.background i = .election e → e.rpc.term ≤ B

instance [Fintype ι] (B : Nat) (c : Cluster ι) : Decidable (TermsWithin B c) :=
  decidable_of_iff ((∀ i, (c.nodes i).store.term ≤ B) ∧
      (∀ call ∈ c.voteCalls, call.rpc.term ≤ B ∧ ∀ resp ∈ call.reply, resp.term ≤ B) ∧
      (∀ call ∈ c.appendCalls, call.rpc.term ≤ B ∧ ∀ resp ∈ call.reply, resp.term ≤ B) ∧
      ∀ i, (c.background i).Within B)
    ⟨fun ⟨hnodes, hvotes, happends, helections⟩ =>
      ⟨hnodes, hvotes, happends, fun i e he => by
        simpa only [he, Background.Within] using helections i⟩,
    fun h => ⟨h.nodes, h.votes, h.appends, fun i => by
      unfold Background.Within
      split
      · exact h.elections i _ ‹_›
      · trivial⟩⟩

theorem TermsWithin.init : TermsWithin 0 (Cluster.init : Cluster ι) where
  nodes := fun _ => le_refl _
  votes := by intro call hcall; cases hcall
  appends := by intro call hcall; cases hcall
  elections := by intro i e he; cases he

theorem TermsWithin.mono (hB : B ≤ B') (h : TermsWithin B c) : TermsWithin B' c where
  nodes := fun i => (h.nodes i).trans hB
  votes := fun call hcall =>
    ⟨(h.votes call hcall).1.trans hB, fun r hr => ((h.votes call hcall).2 r hr).trans hB⟩
  appends := fun call hcall =>
    ⟨(h.appends call hcall).1.trans hB, fun r hr => ((h.appends call hcall).2 r hr).trans hB⟩
  elections := fun i e he => (h.elections i e he).trans hB

variable [DecidableEq ι]

/-- Only a timeout is not calm. -/
theorem Moved.calm {m : Move ι} (hm : Moved cfg c m c') (h : TermsWithin B c) (j : ι) :
    (c.nodes j).Calm B (c'.nodes j) ∨
      (m = .timeout j ∧ c'.nodes j = ((c.nodes j).startElection j).1) := by
  have hsame : (c.nodes j).Calm B (c.nodes j) := .refl (h.nodes j)
  have hset : ∀ (i : ι) (n : RaftNode ι), (c.nodes i).Calm B n →
      (c.nodes j).Calm B ((c.setNode i n).nodes j) := by
    intro i n hn
    exact c.setNode_cases i j n (fun heq => heq ▸ hn) fun _ => hsame
  cases hm with
  | @timeout i hidle hstate =>
    simp only [setBackground_nodes, setNode_nodes]
    split
    · rename_i heq
      subst heq
      exact Or.inr ⟨rfl, rfl⟩
    · exact Or.inl hsame
  | @elected i rpc votes hbg hvotes hstate =>
    exact Or.inl (hset _ _ (RaftNode.becomeLeader_calm i hstate (h.nodes i)))
  | @deliverVote k call hcall hnew hfree =>
    have hrpc := (h.votes call (List.mem_of_getElem? hcall)).1
    exact Or.inl (hset _ _ (RaftNode.handleRequestVote_calm (h.nodes _) hrpc).1)
  | @deliverAppend k call hcall hnew hfree =>
    have hrpc := (h.appends call (List.mem_of_getElem? hcall)).1
    exact Or.inl (hset _ _ (RaftNode.handleAppendEntries_calm (h.nodes _) hrpc).1)
  | voteReply hbg hcall hreply hterm => exact Or.inl (hset _ _ (.refl (h.nodes _)))
  | @deposed i p rpc votes k todo call resp hbg hcall hreply hterm =>
    have hresp := (h.votes call (List.mem_of_getElem? hcall)).2 resp hreply
    refine Or.inl (hset _ _ ?_)
    rw [RaftNode.voteReply_deposed votes hterm]
    exact (RaftNode.stepDown_calm _ hresp).trans (.of_eq hresp rfl rfl)
  | @appendReply t connected i p k todo call resp hloop hcall hreply =>
    have hresp := (h.appends call (List.mem_of_getElem? hcall)).2 resp hreply
    rw [setSendLoop_nodes]
    exact Or.inl (hset _ _ (RaftNode.appendReply_calm _ _ _ _ (h.nodes _) hresp))
  | appendLost hloop hcall =>
    rw [setSendLoop_nodes]
    exact Or.inl (hset _ _ (RaftNode.appendLost_calm _ _ (h.nodes _)))
  | submit hfree hstate => exact Or.inl (hset _ _ (RaftNode.appendOwn_calm _ (h.nodes _)))
  | get hfree hstate => exact Or.inl (hset _ _ (RaftNode.appendOwn_calm _ (h.nodes _)))
  | finishSubmit hcall hfree hcommit =>
    exact Or.inl (hset _ _ (RaftNode.applyCommitted_calm (h.nodes _)))
  | send hloop => rw [setSendLoop_nodes]; exact Or.inl hsame
  | sendVote _ | voteLost _ | unelected _ | heartbeat _ _ | endLoop _ | finishGet _ _ _ _ _ =>
    exact Or.inl hsame

/-- A move raises the bound by one at most, and only a timeout does. -/
theorem TermsWithin.moved {m : Move ι} (h : TermsWithin B c) (hm : Moved cfg c m c')
    (hB : B ≤ B') (hcamp : ∀ i, m = .timeout i → B + 1 ≤ B') : TermsWithin B' c' where
  nodes := by
    intro j
    rcases hm.calm h j with hcalm | ⟨rfl, heq⟩
    · exact hcalm.term.trans hB
    · have hterm : (c'.nodes j).store.term = (c.nodes j).store.term + 1 := by rw [heq]; rfl
      have := h.nodes j
      have := hcamp j rfl
      omega
  votes := by
    intro call hcall
    rcases hm.voteCalls hcall with hold | ⟨votes, todo, hbg, hnone⟩ | ⟨k, old, -, hold, rfl⟩
    · exact (h.mono hB).votes call hold
    · refine ⟨(h.elections _ _ hbg).trans hB, fun r hr => ?_⟩
      rw [hnone] at hr
      cases hr
    · have hrpc := (h.votes old (List.mem_of_getElem? hold)).1
      refine ⟨hrpc.trans hB, fun r hr => ?_⟩
      cases hr
      exact (RaftNode.handleRequestVote_calm (h.nodes _) hrpc).2.trans hB
  appends := by
    intro call hcall
    rcases hm.appendCalls hcall with hold | ⟨t, i, p, todo, -, -, rfl⟩ | ⟨k, old, -, hold, rfl⟩
    · exact (h.mono hB).appends call hold
    · exact ⟨(h.nodes i).trans hB, fun r hr => by cases hr⟩
    · have hrpc := (h.appends old (List.mem_of_getElem? hold)).1
      refine ⟨hrpc.trans hB, fun r hr => ?_⟩
      cases hr
      exact (RaftNode.handleAppendEntries_calm (h.nodes _) hrpc).2.trans hB
  elections := by
    intro i e he
    rcases hm.elections he with hold | ⟨rfl, hnode, rfl⟩ | ⟨rpc, votes, p, todo, hbg, rfl, -⟩ |
      ⟨rpc, votes, p, todo, k, votes', hbg, rfl, -⟩
    · exact (h.elections i e hold).trans hB
    · exact (Nat.add_le_add_right (h.nodes i) 1).trans (hcamp i rfl)
    · exact (h.elections i _ hbg).trans hB
    · exact (h.elections i _ hbg).trans hB

/-- The action makes node `j` start an election, at least in part. -/
def Campaigns (j : ι) : Action ι → Prop
  | .move m => m = .timeout j
  | .crash _ => False
  | .crashIn m i _ => m = .timeout j ∧ i = j

/-- What a move that is cut short leaves on disk. -/
theorem Moved.cut_term {m : Move ι} {i : ι} (hm : Moved cfg c m c') (h : TermsWithin B c)
    (hB : B ≤ B') (hcamp : m = .timeout i → B + 1 ≤ B') {cut : Cut} {d : Disk ι}
    (hd : cutDisk (c.nodes i).store.disk (c.newEvents c' i) cut = some d) : d.term ≤ B' := by
  rcases cutDisk_cases hd with rfl | ⟨d', hnew, hsame, -, -⟩
  · exact (h.nodes i).trans hB
  · rw [hsame]
    rcases hm.calm h i with hcalm | ⟨rfl, heq⟩
    · obtain ⟨events, htrace, hevents⟩ := hcalm.events
      rw [newEvents, htrace, List.drop_left] at hnew
      exact le_trans (hevents _ hnew) hB
    · rw [newEvents, heq, RaftNode.startElection_trace, List.drop_left] at hnew
      have hterm : d'.term = (c.nodes i).store.term + 1 := by
        rcases List.mem_cons.mp hnew with hd | hnew
        · rw [Event.wrote.inj hd]
        · rcases List.mem_cons.mp hnew with hd | hnew
          · rw [Event.wrote.inj hd]
          · cases List.mem_singleton.mp hnew
      have := h.nodes i
      have := hcamp rfl
      omega

theorem TermsWithin.restart (h : TermsWithin B c) {i : ι} {d : Disk ι} (hd : d.term ≤ B)
    (tr : List (Event ι)) : TermsWithin B (c.restart i d tr) where
  nodes := by
    intro j
    simp only [Cluster.restart, Function.update_apply]
    split
    · rw [RaftNode.start_term]
      exact hd
    · exact h.nodes j
  votes := h.votes
  appends := h.appends
  elections := by
    intro j e he
    simp only [Cluster.restart, Function.update_apply] at he
    split at he
    · cases he
    · exact h.elections j e he

theorem TermsWithin.step {a : Action ι} (h : TermsWithin B c) (hstep : c.step cfg a = some c')
    (hB : B ≤ B') (hcamp : ∀ i, Campaigns i a → B + 1 ≤ B') : TermsWithin B' c' := by
  rcases step_cases hstep with ⟨m, rfl, hm⟩ | ⟨i, rfl, rfl⟩ | ⟨m, i, cut, c₁, d, rfl, hm, hd, rfl⟩
  · exact h.moved hm hB hcamp
  · exact ((h.mono hB).restart ((h.nodes i).trans hB) _)
  · exact (h.mono hB).restart (hm.cut_term h hB (fun heq => hcamp i ⟨heq, rfl⟩) hd) _

/-- An action adds at most one candidacy, and only by a timeout. -/
theorem step_candidacies {a : Action ι} (h : TermsWithin B c) (hstep : c.step cfg a = some c')
    (j : ι) : (c'.nodes j).candidacies = (c.nodes j).candidacies ∨
      Campaigns j a ∧ (c'.nodes j).candidacies ≤ (c.nodes j).candidacies + 1 := by
  rcases step_cases hstep with ⟨m, rfl, hm⟩ | ⟨i, rfl, rfl⟩ | ⟨m, i, cut, c₁, d, rfl, hm, -, rfl⟩
  · rcases hm.calm h j with hcalm | ⟨rfl, heq⟩
    · exact Or.inl hcalm.candidacies
    · exact Or.inr ⟨rfl, by rw [heq, RaftNode.startElection_candidacies]⟩
  · left
    simp only [restart, Function.update_apply]
    split
    · rename_i hj
      rw [hj, RaftNode.start_candidacies]
      rfl
    · rfl
  · simp only [restart, Function.update_apply]
    split
    · rename_i hj
      subst hj
      rw [RaftNode.start_candidacies, List.countP_append]
      have hcut : (cutEvents (c.newEvents c₁ j) cut).countP Event.isCandidate ≤
          (c.newEvents c₁ j).countP Event.isCandidate :=
        (cutEvents_isPrefix _ cut).sublist.countP_le
      rcases hm.calm h j with hcalm | ⟨rfl, heq⟩
      · obtain ⟨events, htrace, hevents⟩ := hcalm.events
        have hnone : events.countP Event.isCandidate = 0 :=
          List.countP_eq_zero.mpr fun x hx => by simp [(hevents x hx).not_isCandidate]
        rw [show c.newEvents c₁ j = events by rw [newEvents, htrace, List.drop_left]] at hcut ⊢
        rw [hnone, Nat.le_zero] at hcut
        rw [hcut]
        exact Or.inl rfl
      · rw [show (c.newEvents c₁ j).countP Event.isCandidate = _ from by
          rw [newEvents, heq, RaftNode.startElection_trace, List.drop_left]] at hcut
        exact Or.inr ⟨⟨rfl, rfl⟩, Nat.add_le_add_left hcut _⟩
    · exact Or.inl rfl

end Cluster

/-! ## Timers -/

/-- The timer stays, or is set to the present and to no shorter a timeout than the least. -/
def Timer.SetAt (now : Nat) (t t' : Timer) : Prop :=
  t' = t ∨ t'.lastHeartbeat = now ∧ (3000 ≤ t.currentTimeout → 3000 ≤ t'.currentTimeout)

namespace Timed

/-- Three seconds, the least timeout. -/
@[irreducible] def leastTimeout : Nat := 3000 * millisecond

/-- A timer was last set in the past, with a timeout of at least three seconds. -/
def Paced (s : Timed ι) : Prop :=
  ∀ i, (s.timer i).lastHeartbeat ≤ s.clock i ∧ 3000 ≤ (s.timer i).currentTimeout

theorem Paced.init (rand : ι → Nat) : Paced (Timed.init rand) :=
  fun _ => ⟨le_refl _, Nat.le_add_right _ _⟩

variable [DecidableEq ι] {cfg : Config ι} {rand : ι → Nat} {s s' s₁ : Timed ι}

theorem setAt_update {i : ι} {t : Timer} (h : Timer.SetAt (s.clock i) (s.timer i) t) (j : ι) :
    Timer.SetAt (s.clock j) (s.timer j) (Function.update s.timer i t j) := by
  by_cases hj : j = i
  · subst hj
    rw [Function.update_self]
    exact h
  · exact Or.inl (Function.update_of_ne hj _ _)

theorem setAt_timersAfter (m : Move ι) (draw : ι → Nat) (j : ι) :
    Timer.SetAt (s.clock j) (s.timer j) (s.timersAfter m draw j) := by
  have hbeat : ∀ i, Timer.SetAt (s.clock i) (s.timer i) ((s.timer i).beat (s.clock i)) :=
    fun _ => Or.inr ⟨rfl, id⟩
  unfold timersAfter
  split
  · exact setAt_update (hbeat _) j
  · cases s.cluster.resets m with
    | none => exact Or.inl rfl
    | some i => exact setAt_update (Or.inr ⟨rfl, fun _ => Nat.le_add_right _ _⟩) j

theorem setAt_actTimers (a : Action ι) (draw : ι → Nat) (j : ι) :
    Timer.SetAt (s.clock j) (s.timer j) (s.actTimers draw a j) := by
  cases a with
  | move m => exact setAt_timersAfter m draw j
  | crash i => exact setAt_update (Or.inr ⟨rfl, fun _ => Nat.le_add_right _ _⟩) j
  | crashIn m i k => exact setAt_update (Or.inr ⟨rfl, fun _ => Nat.le_add_right _ _⟩) j

/-- No step sets a clock or a timer back. -/
theorem step_forward {a : TimedAction ι} (hp : Paced s) (h : s.step cfg a = some s') :
    Paced s' ∧ ∀ j, s.clock j ≤ s'.clock j ∧
      (s.timer j).lastHeartbeat ≤ (s'.timer j).lastHeartbeat := by
  have hset : ∀ timer : ι → Timer, (∀ j, Timer.SetAt (s.clock j) (s.timer j) (timer j)) →
      ∀ j, ((timer j).lastHeartbeat ≤ s.clock j ∧ 3000 ≤ (timer j).currentTimeout) ∧
        (s.timer j).lastHeartbeat ≤ (timer j).lastHeartbeat := by
    intro timer htimer j
    rcases htimer j with heq | ⟨hlast, htimeout⟩
    · rw [heq]
      exact ⟨hp j, le_refl _⟩
    · rw [hlast]
      exact ⟨⟨le_refl _, htimeout (hp j).2⟩, (hp j).1⟩
  rcases step_cases h with ⟨i, d, rfl, rfl⟩ | ⟨i, rfl, -, rfl⟩ | ⟨b, draw, c, rfl, -, -, rfl⟩
  · have hclock : ∀ j, s.clock j ≤ Function.update s.clock i (s.clock i + d) j := by
      intro j
      rw [Function.update_apply]
      split
      · rename_i hj
        rw [hj]
        exact Nat.le_add_right _ _
      · exact le_refl _
    exact ⟨fun j => ⟨(hp j).1.trans (hclock j), (hp j).2⟩, fun j => ⟨hclock j, le_refl _⟩⟩
  · have hnew := hset _ (setAt_update (i := i) (t := (s.timer i).startBackground (s.clock i))
      (Or.inr ⟨rfl, id⟩))
    exact ⟨fun j => (hnew j).1, fun j => ⟨le_refl _, (hnew j).2⟩⟩
  · have hnew := hset _ (setAt_actTimers b draw)
    exact ⟨fun j => (hnew j).1, fun j => ⟨le_refl _, (hnew j).2⟩⟩

/-- A node that starts an election has waited for its timeout, and starts to wait anew. -/
theorem campaign_timer (draw : ι → Nat) {a : Action ι} {j : ι} (hp : Paced s) (hdue : s.actDue a)
    (hcamp : Cluster.Campaigns j a) :
    (s.timer j).lastHeartbeat + leastTimeout ≤ s.clock j ∧
      (s.actTimers draw a j).lastHeartbeat = s.clock j := by
  have hwait : s.due (.timeout j) → (s.timer j).lastHeartbeat + leastTimeout ≤ s.clock j := by
    rintro ⟨-, hwait⟩
    have hmin : 3000 ≤ (s.clock j - (s.timer j).lastHeartbeat) / millisecond :=
      (hp j).2.trans hwait
    rw [Nat.le_div_iff_mul_le (by decide)] at hmin
    have := (hp j).1
    unfold leastTimeout
    omega
  cases a with
  | move m =>
    obtain rfl : m = .timeout j := hcamp
    exact ⟨hwait hdue, by simp [actTimers, timersAfter, Cluster.resets, Timer.reset]⟩
  | crash i => exact hcamp.elim
  | crashIn m i k =>
    obtain ⟨rfl, rfl⟩ : m = .timeout j ∧ i = j := hcamp
    exact ⟨hwait hdue, by simp [actTimers, Timer.start]⟩

/-! ## Terms against time -/

section Terms

variable [Fintype ι]

/-- How many timeouts fit before the last time each timer was set. -/
def periods (s : Timed ι) : Nat := ∑ j, (s.timer j).lastHeartbeat / leastTimeout

theorem periods_step {a : TimedAction ι} (hp : Paced s) (h : s.step cfg a = some s') :
    periods s ≤ periods s' :=
  Finset.sum_le_sum fun j _ => Nat.div_le_div_right ((step_forward hp h).2 j).2

theorem leastTimeout_pos : 0 < leastTimeout := by unfold leastTimeout; decide

theorem periods_campaign {a : Action ι} {draw : ι → Nat} {j : ι} (hp : Paced s)
    (h : s.step cfg (.act a draw) = some s') (hcamp : Cluster.Campaigns j a) :
    periods s + 1 ≤ periods s' := by
  obtain ⟨hdue, htimer⟩ : s.actDue a ∧ s'.timer = s.actTimers draw a := by
    rcases step_cases h with ⟨i, d, hb, -⟩ | ⟨i, hb, -⟩ | ⟨b, dr, c, hb, hdue, -, rfl⟩
    · cases hb
    · cases hb
    · cases hb
      exact ⟨hdue, rfl⟩
  obtain ⟨hwait, hlast⟩ := campaign_timer draw hp hdue hcamp
  refine Finset.sum_lt_sum (fun k _ => Nat.div_le_div_right ((step_forward hp h).2 k).2)
    ⟨j, Finset.mem_univ j, ?_⟩
  rw [htimer, hlast]
  calc (s.timer j).lastHeartbeat / leastTimeout
      < (s.timer j).lastHeartbeat / leastTimeout + 1 := Nat.lt_succ_self _
    _ = ((s.timer j).lastHeartbeat + leastTimeout) / leastTimeout :=
      (Nat.add_div_right _ leastTimeout_pos).symm
    _ ≤ s.clock j / leastTimeout := Nat.div_le_div_right hwait

/-- The timers of every run are in order, and no term is above the number of timeouts that
fit into it. -/
theorem reach_paced (h : (system cfg rand).Reach (Under Cluster.Any) s) :
    Paced s ∧ Cluster.TermsWithin (periods s) s.cluster := by
  refine h.invariant (I := fun s => Paced s ∧ Cluster.TermsWithin (periods s) s.cluster)
    ⟨.init rand, ?_⟩ ?_
  · have hzero : periods (Timed.init rand) = 0 :=
      Finset.sum_eq_zero fun j _ => Nat.zero_div _
    exact hzero ▸ Cluster.TermsWithin.init
  · rintro s a s' - ⟨hp, hterms⟩ - hst
    refine ⟨(step_forward hp hst).1, ?_⟩
    have hmono := periods_step hp hst
    rcases step_cases hst with ⟨i, d, rfl, rfl⟩ | ⟨i, rfl, -, rfl⟩ | ⟨b, draw, c, rfl, -, hb, rfl⟩
    · exact hterms.mono hmono
    · exact hterms.mono hmono
    · exact hterms.step hb hmono fun i hi => periods_campaign hp hst hi

/-- Terms are bounded by time: each node raises the term at most once in three seconds of its
clock, whatever is lost, delayed or crashes. -/
theorem terms_bounded (h : (system cfg rand).Reach (Under Cluster.Any) s) (i : ι) :
    (s.cluster.nodes i).store.term ≤ ∑ j, s.clock j / leastTimeout := by
  obtain ⟨hp, hterms⟩ := reach_paced h
  exact (hterms.nodes i).trans (Finset.sum_le_sum fun j _ => Nat.div_le_div_right (hp j).1)

/-- Node 0 starts an election after three seconds of sleep and 3.2 seconds of silence. -/
theorem terms_bounded_timeout : ∃ s : Timed (Fin 3),
    (system (Config.complete 3) fun _ => 200).Reach (Under Cluster.Any) s ∧
      (s.cluster.nodes 0).store.term = 1 ∧ s.clock = ![6200 * millisecond, 0, 0] ∧
      (s.cluster.nodes 0).store.term ≤ ∑ j, s.clock j / leastTimeout := by
  have hrun : (TransitionSystem.runFrom (Timed.step (Config.complete 3)) (Under Cluster.Any)
      (.init fun _ => 200) [.tick 0 (3000 * millisecond), .startBackground 0,
        .tick 0 (3200 * millisecond), .act (.move (.timeout 0)) fun _ => 0]).any (fun s =>
      decide ((s.cluster.nodes 0).store.term = 1 ∧ s.clock = ![6200 * millisecond, 0, 0])) =
      true := by decide +kernel
  obtain ⟨s, hs, hp⟩ := (Option.any_eq_true _ _).mp hrun
  have hreach : (system (Config.complete 3) fun _ => 200).Reach (Under Cluster.Any) s :=
    TransitionSystem.steps_of_runFrom (fun _ _ _ => id) hs
  obtain ⟨hterm, hclock⟩ := of_decide_eq_true hp
  exact ⟨s, hreach, hterm, hclock, terms_bounded hreach 0⟩

/-! ## Elections against time -/

/-- The action sets the timer of node `j`, by a section of the node or by its restart. -/
def Rearms (s : Timed ι) (j : ι) : Action ι → Prop
  | .move m => s.cluster.resets m = some j
  | .crash i | .crashIn _ i _ => i = j

instance (s : Timed ι) (j : ι) : DecidablePred (s.Rearms j)
  | .move m => inferInstanceAs (Decidable (s.cluster.resets m = some j))
  | .crash i | .crashIn _ i _ => inferInstanceAs (Decidable (i = j))

omit [Fintype ι] in
theorem rearms_timer {a : Action ι} {j : ι} (h : s.Rearms j a) (draw : ι → Nat) :
    (s.actTimers draw a j).lastHeartbeat = s.clock j := by
  cases a with
  | move m =>
    have hres : s.cluster.resets m = some j := h
    cases m with
    | heartbeat i => cases hres
    | _ => simp [actTimers, timersAfter, hres, Timer.reset]
  | crash i =>
    obtain rfl : i = j := h
    simp [actTimers, Timer.start]
  | crashIn m i k =>
    obtain rfl : i = j := h
    simp [actTimers, Timer.start]

/-- Every election costs the timer of its node three seconds. -/
theorem candidacies_paced (h : (system cfg rand).Reach (Under Cluster.Any) s)
    (hsteps : (system cfg rand).Steps (Under Cluster.Any) s s') (j : ι) :
    (s'.cluster.nodes j).candidacies * leastTimeout + (s.timer j).lastHeartbeat ≤
      (s.cluster.nodes j).candidacies * leastTimeout + (s'.timer j).lastHeartbeat := by
  refine hsteps.preserves (I := fun t =>
    (t.cluster.nodes j).candidacies * leastTimeout + (s.timer j).lastHeartbeat ≤
      (s.cluster.nodes j).candidacies * leastTimeout + (t.timer j).lastHeartbeat) ?_ (Nat.le_refl _)
  rintro t a t' ht hle - hst
  obtain ⟨hp, hterms⟩ := reach_paced (h.trans ht)
  have hlast := ((step_forward hp hst).2 j).2
  rcases step_cases hst with ⟨i, d, rfl, rfl⟩ | ⟨i, rfl, -, rfl⟩ | ⟨b, draw, c, rfl, hdue, hb, rfl⟩
  · dsimp only
    exact hle
  · dsimp only at hlast ⊢
    omega
  · rcases Cluster.step_candidacies hterms hb j with hsame | ⟨hcamp, hone⟩
    · dsimp only at hlast ⊢
      rw [hsame]
      omega
    · obtain ⟨hwait, hnow⟩ := campaign_timer draw hp hdue hcamp
      have hmul := Nat.mul_le_mul_right leastTimeout hone
      rw [Nat.add_mul, Nat.one_mul] at hmul
      simp only [hnow] at hlast ⊢
      omega

/-- After anything that sets its timer (an AppendEntries that is not stale, a vote, a later
term, a restart, an election) a node starts at most one election per three seconds of its
clock, and none before three seconds are over. -/
theorem elections_after_reset (h : (system cfg rand).Reach (Under Cluster.Any) s) {a : Action ι}
    {draw : ι → Nat} {j : ι} (hreset : s.Rearms j a) (hact : s.step cfg (.act a draw) = some s₁)
    (hsteps : (system cfg rand).Steps (Under Cluster.Any) s₁ s') :
    (s'.cluster.nodes j).candidacies ≤
      (s₁.cluster.nodes j).candidacies + (s'.clock j - s.clock j) / leastTimeout := by
  have hreach₁ : (system cfg rand).Reach (Under Cluster.Any) s₁ := h.step (a := .act a draw) trivial hact
  have hlast : (s₁.timer j).lastHeartbeat = s.clock j := by
    rcases step_cases hact with ⟨i, d, hb, -⟩ | ⟨i, hb, -⟩ | ⟨b, dr, c, hb, -, -, rfl⟩
    · cases hb
    · cases hb
    · cases hb
      exact rearms_timer hreset draw
  have hpaced := candidacies_paced hreach₁ hsteps j
  have hpast := ((reach_paced (hreach₁.trans hsteps)).1 j).1
  rw [hlast] at hpaced
  have hmul : ((s'.cluster.nodes j).candidacies - (s₁.cluster.nodes j).candidacies) * leastTimeout ≤
      s'.clock j - s.clock j := by
    rw [Nat.sub_mul]
    omega
  rw [← Nat.le_div_iff_mul_le leastTimeout_pos] at hmul
  omega

/-- Node 1 votes for node 0 and, three seconds later, starts an election of its own. -/
theorem elections_after_reset_vote : ∃ s s₁ s' : Timed (Fin 3),
    (system (Config.complete 3) fun _ => 0).Reach (Under Cluster.Any) s ∧
      s.step (Config.complete 3) (.act (.move (.deliverVote 0)) fun _ => 0) = some s₁ ∧
      (system (Config.complete 3) fun _ => 0).Steps (Under Cluster.Any) s₁ s' ∧
      s'.clock 1 - s.clock 1 = 3000 * millisecond ∧ (s'.cluster.nodes 1).candidacies = 1 ∧
      (s'.cluster.nodes 1).candidacies ≤
        (s₁.cluster.nodes 1).candidacies + (s'.clock 1 - s.clock 1) / leastTimeout := by
  let run := TransitionSystem.runFrom (Timed.step (Config.complete 3)) (Under Cluster.Any)
  have hrun : (run (.init fun _ => 0) [.tick 0 (3000 * millisecond), .tick 1 (3000 * millisecond),
      .startBackground 0, .startBackground 1, .tick 0 (3000 * millisecond),
      .act (.move (.timeout 0)) fun _ => 0, .act (.move (.sendVote 0)) fun _ => 0]).any (fun s =>
      decide (s.Rearms 1 (.move (.deliverVote 0))) &&
        (s.step (Config.complete 3) (.act (.move (.deliverVote 0)) fun _ => 0)).any fun s₁ =>
          (run s₁ [.tick 1 (3000 * millisecond), .act (.move (.timeout 1)) fun _ => 0]).any
            fun s' => decide (s'.clock 1 - s.clock 1 = 3000 * millisecond ∧
              (s'.cluster.nodes 1).candidacies = 1)) = true := by decide +kernel
  obtain ⟨s, hs, hp⟩ := (Option.any_eq_true _ _).mp hrun
  rw [Bool.and_eq_true] at hp
  obtain ⟨s₁, hact, hp'⟩ := (Option.any_eq_true _ _).mp hp.2
  obtain ⟨s', hs', hq⟩ := (Option.any_eq_true _ _).mp hp'
  have hreach : (system (Config.complete 3) fun _ => 0).Reach (Under Cluster.Any) s :=
    TransitionSystem.steps_of_runFrom (fun _ _ _ => id) hs
  have hsteps : (system (Config.complete 3) fun _ => 0).Steps (Under Cluster.Any) s₁ s' :=
    TransitionSystem.steps_of_runFrom (fun _ _ _ => id) hs'
  obtain ⟨hclock, hone⟩ := of_decide_eq_true hq
  exact ⟨s, s₁, s', hreach, hact, hsteps, hclock, hone,
    elections_after_reset hreach (of_decide_eq_true hp.1) hact hsteps⟩

end Terms

end Timed

end RaftKv
