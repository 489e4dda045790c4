-- SUMMARY: A leader whose term is the latest stays leader as long as no other node has to wait three seconds.
import RaftKv.Safety.Timers
import RaftKv.Safety.AppendOnly
import RaftKv.Conditions

/-!
# Stable leaders

A leader is deposed by a vote request, an AppendEntries or a reply, each of its term or a later
one. While all timers are set in time nobody campaigns, so there is no later term; and the
requests of its own term are its own.
-/

namespace RaftKv

theorem RaftNode.advanceCommitIndex_term {ι : Type} (n : RaftNode ι) (peers : List ι)
    (connected : ι → Bool) : (n.advanceCommitIndex peers connected).store.term = n.store.term := by
  unfold advanceCommitIndex; simp only
  split
  · exact applyCommitted_term _
  · rfl

namespace Cluster

variable {ι : Type} [DecidableEq ι] {c c' : Cluster ι} {cfg : Config ι}

/-! ## What deposes a leader -/

/-- The request or reply that makes a leader `l` step down in the move. -/
inductive Deposes (c : Cluster ι) (l : ι) : Move ι → Prop where
  | vote {k : Nat} {call : VoteCall ι} (hcall : c.voteCalls[k]? = some call) (hdst : call.dst = l)
      (hterm : (c.nodes l).store.term < call.rpc.term) : Deposes c l (.deliverVote k)
  | append {k : Nat} {call : AppendCall ι} (hcall : c.appendCalls[k]? = some call)
      (hdst : call.dst = l) (hterm : (c.nodes l).store.term ≤ call.rpc.term) :
      Deposes c l (.deliverAppend k)
  | reply {t : Thread ι} {connected : ι → Bool} {k : Nat} {call : AppendCall ι}
      {resp : AppendEntriesResponse} (hcall : c.appendCalls[k]? = some call)
      (hreply : call.reply = some resp) (hterm : (c.nodes l).store.term < resp.term) :
      Deposes c l (.appendReply t connected)

/-- A leader stays leader of its term unless something deposes it. -/
theorem Moved.leads_or_deposes {m : Move ι} (hm : Moved cfg c m c') (hth : Threads cfg c) {l : ι}
    (hlead : (c.nodes l).state = .leader) :
    ((c'.nodes l).state = .leader ∧ (c'.nodes l).store.term = (c.nodes l).store.term) ∨
      Deposes c l m := by
  have hsame : ∀ n : RaftNode ι, n.state = (c.nodes l).state →
      n.store.term = (c.nodes l).store.term →
      n.state = .leader ∧ n.store.term = (c.nodes l).store.term :=
    fun n hs ht => ⟨hs.trans hlead, ht⟩
  have hset : ∀ (j : ι) (n : RaftNode ι), (j = l → n.state = .leader ∧
      n.store.term = (c.nodes l).store.term) →
      ((c.setNode j n).nodes l).state = .leader ∧
        ((c.setNode j n).nodes l).store.term = (c.nodes l).store.term := by
    intro j n hn
    exact c.setNode_cases j l n (P := fun n' => n'.state = .leader ∧
      n'.store.term = (c.nodes l).store.term) (fun heq => hn heq.symm) fun _ => hsame _ rfl rfl
  cases hm with
  | @timeout j hidle hstate =>
    exact Or.inl (hset _ _ fun heq => absurd (heq ▸ hlead) hstate)
  | @deliverVote k call hcall hnew hfree =>
    by_cases hl : call.dst = l
    · subst hl
      by_cases hterm : (c.nodes call.dst).store.term < call.rpc.term
      · exact Or.inr (.vote hcall rfl hterm)
      · refine Or.inl (hset _ _ fun _ => ?_)
        have hheard : (c.nodes call.dst).heardVote call.rpc = c.nodes call.dst := if_neg hterm
        rcases (c.nodes call.dst).handleRequestVote_cases call.rpc with
          ⟨-, h⟩ | ⟨-, -, h⟩ | ⟨-, h⟩ <;> rw [h]
        · exact hsame _ rfl rfl
        · rw [hheard]
          exact hsame _ rfl rfl
        · rw [hheard]
          exact hsame _ rfl rfl
    · exact Or.inl (hset _ _ fun heq => absurd heq hl)
  | @deliverAppend k call hcall hnew hfree =>
    by_cases hl : call.dst = l
    · subst hl
      by_cases hterm : (c.nodes call.dst).store.term ≤ call.rpc.term
      · exact Or.inr (.append hcall rfl hterm)
      · refine Or.inl (hset _ _ fun _ => ?_)
        rcases (c.nodes call.dst).handleAppendEntries_cases call.rpc with
          ⟨-, h⟩ | ⟨hge, -⟩ | ⟨hge, -⟩
        · rw [h]
          exact hsame _ rfl rfl
        · exact absurd hge hterm
        · exact absurd hge hterm
    · exact Or.inl (hset _ _ fun heq => absurd heq hl)
  | @deposed j p rpc votes k todo call resp hbg hcall hreply hterm =>
    exact Or.inl (hset _ _ fun heq => absurd (heq ▸ hlead) (hth.elections j _ hbg).role)
  | @elected j rpc votes hbg hvotes hstate =>
    refine Or.inl (hset _ _ fun heq => ?_)
    subst heq
    rw [hlead] at hstate
    cases hstate
  | @appendReply t connected j p k todo call resp hloop hcall hreply =>
    rw [setSendLoop_nodes]
    by_cases hterm : (c.nodes l).store.term < resp.term
    · exact Or.inr (.reply hcall hreply hterm)
    · refine Or.inl (hset _ _ fun heq => ?_)
      subst heq
      rcases (c.nodes j).appendReply_cases (cfg.peers j) connected p call.rpc resp with
        ⟨hlt, -⟩ | ⟨-, -, -, h⟩ | ⟨-, h⟩
      · exact absurd hlt hterm
      · rw [h]
        exact hsame _ (RaftNode.advanceCommitIndex_state _ _ _)
          (RaftNode.advanceCommitIndex_term _ _ _)
      · obtain ⟨-, hstate, hstore, -⟩ := RaftNode.backOff_rest (c.nodes j) p call.rpc
        rw [h]
        exact hsame _ hstate (by rw [hstore])
  | @appendLost t j p k todo call hloop hcall =>
    rw [setSendLoop_nodes]
    refine Or.inl (hset _ _ fun heq => ?_)
    subst heq
    exact hsame _ (RaftNode.appendLost_state _ _ _) (by rw [RaftNode.appendLost_store])
  | voteReply hbg hcall hreply hterm =>
    exact Or.inl (hset _ _ fun heq => heq ▸ hsame _ rfl rfl)
  | submit hfree hstate => exact Or.inl (hset _ _ fun heq => heq ▸ hsame _ rfl rfl)
  | get hfree hstate => exact Or.inl (hset _ _ fun heq => heq ▸ hsame _ rfl rfl)
  | finishSubmit hcall hfree hcommit =>
    exact Or.inl (hset _ _ fun heq => heq ▸ hsame _ (RaftNode.applyCommitted_state _)
      (RaftNode.applyCommitted_term _))
  | send hloop =>
    rw [setSendLoop_nodes]
    exact Or.inl (hsame _ rfl rfl)
  | sendVote _ | voteLost _ | unelected _ | heartbeat _ _ | endLoop _ | finishGet _ _ _ _ _ =>
    exact Or.inl (hsame _ rfl rfl)

/-! ## Requests of a leader's term -/

/-- If send loops send as leaders, every request was built by a leader. -/
theorem built_by_leader (h : (system cfg).Reach SendsAsLeader c) :
    ∀ call ∈ c.appendCalls, call.sender.state = .leader := by
  refine h.invariant (I := fun c => ∀ call ∈ c.appendCalls, call.sender.state = .leader) ?_ ?_
  · intro call hcall
    cases hcall
  · rintro c a c' - hsent hok hstep
    rcases step_cases hstep with ⟨m, rfl, hm⟩ | ⟨i, rfl, rfl⟩ | ⟨m, i, cut, c₁, d, rfl, hm, -, rfl⟩
    · intro call' hcall'
      rcases hm.appendCalls hcall' with hold | ⟨t, i, p, todo, rfl, hloop, rfl⟩ | ⟨k, call, -, hk, rfl⟩
      · exact hsent call' hold
      · exact hok _ hloop
      · exact hsent call (List.mem_of_getElem? hk)
    · exact hsent
    · exact hsent

variable [Fintype ι]

/-- The requests of the term of a leader are its own. -/
theorem own_request (h : (system cfg).Reach SendsAsLeader c) {l : ι}
    (hlead : (c.nodes l).state = .leader) {call : AppendCall ι} (hcall : call ∈ c.appendCalls)
    (hterm : call.rpc.term = (c.nodes l).store.term) : call.src = l := by
  obtain ⟨s, hsound, hsim⟩ := simulates_any (h.mono fun _ _ _ => trivial)
  obtain ⟨hrpc, -, -⟩ := (Threads.reach h).appendCalls call hcall
  obtain ⟨e, he, hsrc, het⟩ := (hsim.appends call hcall).tenure (built_by_leader h call hcall)
  obtain ⟨f, hf, hfl, hft⟩ := hsim.leader_tenure hsound hlead
  have hsender : call.rpc.term = call.sender.store.term := by rw [hrpc]; rfl
  rw [← hsrc, ← hfl]
  exact congrArg (·.leader) (hsound.elections.tenure_unique he hf (by omega))

/-- Node `i` crashes in the action. -/
def Crashes (i : ι) : Action ι → Prop
  | .move _ => False
  | .crash j | .crashIn _ j _ => j = i

instance (i : ι) : DecidablePred (Crashes i)
  | .move _ => .isFalse id
  | .crash j | .crashIn _ j _ => inferInstanceAs (Decidable (j = i))

/-- While no term is later than its own, only a crash ends the leadership of a node. -/
theorem leads_step (h : (system cfg).Reach SendsAsLeader c) {l : ι}
    (hlead : (c.nodes l).state = .leader) (hmax : TermsWithin (c.nodes l).store.term c)
    {a : Action ι} (hcrash : ¬ Crashes l a) (hstep : c.step cfg a = some c') :
    (c'.nodes l).state = .leader ∧ (c'.nodes l).store.term = (c.nodes l).store.term := by
  rcases step_cases hstep with ⟨m, rfl, hm⟩ | ⟨i, rfl, rfl⟩ | ⟨m, i, cut, c₁, d, rfl, hm, -, rfl⟩
  · rcases hm.leads_or_deposes (Threads.reach h) hlead with hkept | hdep
    · exact hkept
    · cases hdep with
      | vote hcall hdst hterm =>
        have := (hmax.votes _ (List.mem_of_getElem? hcall)).1
        omega
      | @append k call hcall hdst hterm =>
        have hmem := List.mem_of_getElem? hcall
        have hsrc := own_request h hlead hmem (le_antisymm (hmax.appends call hmem).1 hterm)
        exact absurd (hdst.trans hsrc.symm) ((Threads.reach h).appendCalls call hmem).2.2
      | reply hcall hreply hterm =>
        have := (hmax.appends _ (List.mem_of_getElem? hcall)).2 _ hreply
        omega
  · have hl : l ≠ i := fun heq => hcrash heq.symm
    simp only [restart, Function.update_of_ne hl]
    exact ⟨hlead, trivial⟩
  · have hl : l ≠ i := fun heq => hcrash heq.symm
    simp only [restart, Function.update_of_ne hl]
    exact ⟨hlead, trivial⟩

omit [Fintype ι] in
/-- A leader starts no election. -/
theorem leader_not_campaigns {a : Action ι} (hstep : c.step cfg a = some c') {l : ι}
    (hlead : (c.nodes l).state = .leader) (hcrash : ¬ Crashes l a) : ¬ Campaigns l a := by
  intro hcamp
  rcases step_cases hstep with ⟨m, rfl, hm⟩ | ⟨i, rfl, rfl⟩ | ⟨m, i, cut, c₁, d, rfl, hm, -, rfl⟩
  · obtain rfl : m = .timeout l := hcamp
    cases hm with
    | timeout hidle hstate => exact hstate hlead
  · exact hcamp
  · exact hcrash hcamp.2

end Cluster

/-! ## Leaders in time -/

namespace Timed

open Cluster (SendsAsLeader TermsWithin Crashes)

variable {ι : Type} [DecidableEq ι] {cfg : Config ι} {rand : ι → Nat} {s s' : Timed ι}

/-- Send loops send as leaders, node `l` does not crash, and the timer of no other node has
gone without being set for three seconds. -/
def HeardFrom (l : ι) (s : Timed ι) : TimedAction ι → Prop
  | .act a _ => SendsAsLeader s.cluster a ∧ ¬ Crashes l a ∧
      ∀ j, j ≠ l → s.clock j < (s.timer j).lastHeartbeat + leastTimeout
  | _ => True

variable [Fintype ι]

instance (l : ι) (s : Timed ι) : DecidablePred (HeardFrom l s)
  | .act a _ => inferInstanceAs (Decidable (SendsAsLeader s.cluster a ∧ ¬ Crashes l a ∧
      ∀ j, j ≠ l → s.clock j < (s.timer j).lastHeartbeat + leastTimeout))
  | .tick _ _ | .startBackground _ => .isTrue trivial

/-- A leader of the latest term leads it as long as everybody is heard from in time, and
nobody starts an election. -/
theorem leader_stays (h : (system cfg rand).Reach (Under SendsAsLeader) s) {l : ι}
    (hlead : (s.cluster.nodes l).state = .leader)
    (hmax : TermsWithin (s.cluster.nodes l).store.term s.cluster)
    (hsteps : (system cfg rand).Steps (HeardFrom l) s s') :
    (s'.cluster.nodes l).state = .leader ∧
      (s'.cluster.nodes l).store.term = (s.cluster.nodes l).store.term ∧
      ∀ j, (s'.cluster.nodes j).candidacies = (s.cluster.nodes j).candidacies := by
  have hweaken : ∀ (t : Timed ι) (a : TimedAction ι), HeardFrom l t a →
      Under SendsAsLeader t a := by
    intro t a hok
    cases a with
    | act b draw => exact hok.1
    | tick i d => trivial
    | startBackground i => trivial
  refine (TransitionSystem.Steps.preserves (I := fun t => (TermsWithin (s.cluster.nodes l).store.term
      t.cluster) ∧ (t.cluster.nodes l).state = .leader ∧
      (t.cluster.nodes l).store.term = (s.cluster.nodes l).store.term ∧
      ∀ j, (t.cluster.nodes j).candidacies = (s.cluster.nodes j).candidacies) hsteps ?_
    ⟨hmax, hlead, rfl, fun _ => rfl⟩).2
  rintro t a t' ht ⟨hwithin, hleads, hterm, hcount⟩ hok hst
  have hreach := h.trans (ht.mono hweaken)
  have hpaced := (reach_paced (hreach.mono fun _ a _ => by cases a <;> trivial)).1
  rcases step_cases hst with ⟨i, d, rfl, rfl⟩ | ⟨i, rfl, -, rfl⟩ | ⟨b, draw, c, rfl, hdue, hb, rfl⟩
  · exact ⟨hwithin, hleads, hterm, hcount⟩
  · exact ⟨hwithin, hleads, hterm, hcount⟩
  · obtain ⟨-, hcrash, htimers⟩ := hok
    have hquiet : ∀ j, ¬ Cluster.Campaigns j b := by
      intro j hcamp
      by_cases hj : j = l
      · exact Cluster.leader_not_campaigns hb hleads hcrash (hj ▸ hcamp)
      · have := (campaign_timer draw hpaced hdue hcamp).1
        have := htimers j hj
        omega
    obtain ⟨hleads', hterm'⟩ := Cluster.leads_step (reach_cluster hreach) hleads
      (hterm ▸ hwithin) hcrash hb
    refine ⟨hwithin.step hb (le_refl _) fun i hi => absurd hi (hquiet i), hleads',
      hterm'.trans hterm, fun j => ?_⟩
    rcases Cluster.step_candidacies hwithin hb j with hsame | ⟨hcamp, -⟩
    · exact hsame.trans (hcount j)
    · exact absurd hcamp (hquiet j)

/-- Three nodes are up for three seconds, and node 0 wins term 1 with the vote of node 1. -/
def timedLeader : List (TimedAction (Fin 3)) := List.flatten
  [[.tick 0 (3000 * millisecond), .tick 1 (3000 * millisecond), .tick 2 (3000 * millisecond),
      .startBackground 0, .startBackground 1, .startBackground 2, .tick 0 (3000 * millisecond)],
    (List.flatten [[.move (.timeout 0)], Cluster.vote 0 0, Cluster.noVote 0,
      [.move (.endElection 0)]]).map fun a => .act a fun _ => 0]

/-- It sends to node 1, and again after 2.9 seconds. -/
def timedHeartbeat : List (TimedAction (Fin 3)) := List.flatten
  [(List.flatten [Cluster.served (.background 0) 0, Cluster.unserved (.background 0),
      [.move (.endLoop 0)]]).map fun a => .act a fun _ => 0,
    [.tick 0 (2900 * millisecond), .tick 1 (2900 * millisecond)],
    (.move (.heartbeat 0) :: Cluster.served (.background 0) 2).map fun a => .act a fun _ => 0,
    [.tick 1 (2900 * millisecond), .act (.move (.send (.background 0))) fun _ => 0]]

theorem leader_stays_heartbeat : ∃ s s' : Timed (Fin 3),
    (system (Config.complete 3) fun _ => 0).Reach (Under SendsAsLeader) s ∧
      (s.cluster.nodes 0).store.term = 1 ∧
      (system (Config.complete 3) fun _ => 0).Steps (HeardFrom 0) s s' ∧
      s'.clock 1 = s.clock 1 + 5800 * millisecond ∧ (s'.cluster.nodes 0).state = .leader := by
  have hrun : (TransitionSystem.runFrom (Timed.step (Config.complete 3)) (Under SendsAsLeader)
      (.init fun _ => 0) timedLeader).any (fun s =>
        decide ((s.cluster.nodes 0).state = .leader ∧ (s.cluster.nodes 0).store.term = 1 ∧
          TermsWithin (s.cluster.nodes 0).store.term s.cluster) &&
        (TransitionSystem.runFrom (Timed.step (Config.complete 3)) (HeardFrom 0) s
          timedHeartbeat).any fun s' =>
            decide (s'.clock 1 = s.clock 1 + 5800 * millisecond)) = true := by decide +kernel
  obtain ⟨s, hs, hp⟩ := (Option.any_eq_true _ _).mp hrun
  rw [Bool.and_eq_true] at hp
  obtain ⟨hlead, hone, hmax⟩ := of_decide_eq_true hp.1
  obtain ⟨s', hs', hq⟩ := (Option.any_eq_true _ _).mp hp.2
  have hreach : (system (Config.complete 3) fun _ => 0).Reach (Under SendsAsLeader) s :=
    TransitionSystem.steps_of_runFrom (fun _ _ _ => id) hs
  have hsteps : (system (Config.complete 3) fun _ => 0).Steps (HeardFrom 0) s s' :=
    TransitionSystem.steps_of_runFrom (fun _ _ _ => id) hs'
  exact ⟨s, s', hreach, hone, hsteps, of_decide_eq_true hq, (leader_stays hreach hlead hmax hsteps).1⟩

end Timed

end RaftKv
