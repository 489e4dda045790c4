-- SUMMARY: Crashes are matched by the abstract protocol: between steps, after any number of the events of one step, and inside a truncation.
import RaftKv.Refinement.Replication

/-!
# Crashes

A crash inside a step leaves the disk of one of its writes, with the log cut short if the write
was a truncation. Whatever step it was, the abstract peer can get there: it raises its term, marks
a vote that is never handed over, or ends with a torn log.
-/

namespace RaftKv

open TermLog
open Consensus (Ballot Tenure Message Ack Elections Logs Safe)

namespace Cluster

variable {ι : Type} [Fintype ι] [DecidableEq ι] {strict : Prop} {s s₁ : Abstract ι}
  {c c₁ : Cluster ι} {cfg : Config ι}

/-! ## Coming back -/

/-- Peer `i` came down to what is on the disk `d`. -/
structure Landed (strict : Prop) (s s₁ : Abstract ι) (i : ι) (d : Disk ι) : Prop where
  follows : Follows strict s s₁
  more : Extends s s₁
  ballots : s₁.ballots = s.ballots
  other : ∀ j, j ≠ i → s₁.peer j = s.peer j
  peer : ∃ k, s₁.peer i = ⟨d.term, d.voted, .follower, d.log, k⟩

theorem Sim.restart (h : Sim strict s c) (hsound : Sound strict s) {i : ι} {d : Disk ι}
    (events : List (Event ι)) (hland : Landed strict s s₁ i d) (hd : Indexed d.log)
    (hevents : ∀ x ∈ events, EventOk strict s₁ i x)
    (hlegal : strict → s₁.Legal LogEntry.term (.commit i d.log.length)) :
    ∃ s', Follows strict s s' ∧
      Sim strict s' (c.restart i d ((c.nodes i).trace ++ events)) := by
  obtain ⟨k, hpeer⟩ := hland.peer
  have hfol : Follows strict s₁ (s₁.next (.commit i d.log.length)) :=
    Follows.single trivial hlegal
  have hfol' := hland.follows.trans hfol
  have hext := hland.more.trans (Extends.next s₁ (.commit i d.log.length))
  have hg : Grows c (c.restart i d ((c.nodes i).trace ++ events)) :=
    Grows.restart c i d (List.prefix_append _ _)
  have hself : (s₁.next (.commit i d.log.length)).peer i =
      ⟨d.term, d.voted, .follower, d.log, d.log.length⟩ := by
    simp [Consensus.State.next, hpeer]
  refine ⟨_, hfol', ?_, ?_, ?_, ?_, ?_⟩
  · intro j
    by_cases hj : j = i
    · subst hj
      obtain ⟨hwf, hnpeer, hlast⟩ := RaftNode.start_store ((c.nodes j).trace ++ events) hd
      have hnode : (c.restart j d ((c.nodes j).trace ++ events)).nodes j =
          .start d ((c.nodes j).trace ++ events) := by simp [Cluster.restart]
      rw [hnode]
      refine ⟨by rw [hnpeer, hself], hwf, ?_, ?_, ?_⟩
      · intro x hx
        rw [RaftNode.start_trace] at hx
        rcases List.mem_append.mp hx with hold | happ
        · rcases List.mem_append.mp hold with hold | hnew
          · exact ((h.nodes j).events x hold).mono hext
          · exact (hevents x hnew).mono (Extends.next s₁ _)
        · -- what replay applies is committed, in a run that may crash here
          refine appliedEvents_ok 0 (T := d.term) (P := d.log) (fun hs => ?_)
            (by simp) x happ
          have hc := (((hsound.follows hfol').safe hs).commit j).2
          rw [hself, List.take_length] at hc
          exact hc
      · intro _ hl; rw [RaftNode.start_state] at hl; cases hl
      · intro _
        have hcommit : (RaftNode.start d ((c.nodes j).trace ++ events)).store.commitIndex =
            d.log.length := congrArg Consensus.Peer.commit hnpeer
        have hlog : (RaftNode.start d ((c.nodes j).trace ++ events)).store.log = d.log :=
          congrArg Consensus.Peer.log hnpeer
        rw [hlast, hcommit, hlog, List.take_length, RaftNode.start_sm]
        exact ⟨le_refl _, rfl⟩
    · have hnode : (c.restart i d ((c.nodes i).trace ++ events)).nodes j = c.nodes j := by
        simp [Cluster.restart, hj]
      rw [hnode]
      refine (h.nodes j).mono hext ?_
      simp [Consensus.State.next, hj, hland.other j hj]
  · exact fun call hcall => (h.votes call hcall).mono hext
  · exact fun call hcall => (h.appends call hcall).mono hext
  · intro j e he
    have hj : j ≠ i := by
      rintro rfl
      simp [Cluster.restart] at he
    have hold : c.background j = .election e := by simpa [Cluster.restart, hj] using he
    exact (h.elections j e hold).mono hext
  · intro b hb
    exact (h.ballots b (hland.ballots ▸ hb)).mono hg

/-- A crash between steps. -/
theorem Sim.crash (h : Sim strict s c) (hsound : Sound strict s) {i : ι}
    (hclean : strict → RestartsCommitted c (.crash i)) :
    ∃ s', Follows strict s s' ∧
      Sim strict s' (c.restart i (c.nodes i).store.disk (c.nodes i).trace) := by
  have hi := h.nodes i
  have hland : Landed strict s (s.next (.demote i)) i (c.nodes i).store.disk := by
    refine ⟨Follows.single trivial fun _ => trivial, Extends.next s _, rfl, ?_,
      (c.nodes i).store.commitIndex, ?_⟩
    · intro j hj; simp [Consensus.State.next, hj]
    · simp [Consensus.State.next, hi.peer, RaftNode.peer, Store.disk]
  have hrestart := h.restart hsound [] hland hi.wf.indexed (by simp) (fun hs => ?_)
  · rwa [List.append_nil] at hrestart
  · obtain ⟨m, hterm, hpre⟩ := hclean hs
    refine Or.inr (Or.inr ⟨m, ?_⟩)
    have hm : (s.next (.demote i)).peer m = s.peer m ∨ m = i := by
      by_cases hmi : m = i
      · exact Or.inr hmi
      · exact Or.inl (by simp [Consensus.State.next, hmi])
    have hself : (s.next (.demote i)).peer i = { (c.nodes i).peer with role := .follower } := by
      simp [Consensus.State.next, hi.peer]
    rcases hm with hm | rfl
    · rw [hm, hself, (h.nodes m).peer]
      exact ⟨hterm, hpre, rfl⟩
    · rw [hself]
      exact ⟨le_refl _, hpre, rfl⟩

/-! ## Inside a step -/

/-- A disk that node `n` can come down to. -/
def Kept (s : Abstract ι) (n : RaftNode ι) (d : Disk ι) : Prop :=
  (n.store.term < d.term ∨ d.term = n.store.term ∧
    (d.voted = n.store.voted ∨ ∃ v, d.voted = some v ∧ n.peer.FreeFor v)) ∧
  (d.log <+: n.store.log ∨ ∃ m ∈ s.sent, m.state.term ≤ d.term ∧ d.log <+: m.state.log) ∧
  Indexed d.log

def EventKept (s : Abstract ι) (n : RaftNode ι) : Event ι → Prop
  | .wrote d => Kept s n d
  | .elected _ _ => False
  | _ => True

/-- A section that wins no election and writes only disks a peer can come down to. -/
def Harmless (s : Abstract ι) (n n' : RaftNode ι) : Prop :=
  ∃ events, n'.trace = n.trace ++ events ∧ ∀ x ∈ events, EventKept s n x

omit [Fintype ι] [DecidableEq ι] in
theorem diskAfter_eq_or_mem (d : Disk ι) (events : List (Event ι)) :
    diskAfter d events = d ∨ .wrote (diskAfter d events) ∈ events := by
  induction events generalizing d with
  | nil => exact Or.inl rfl
  | cons x xs ih =>
    cases x with
    | wrote d' =>
      rcases ih d' with heq | hmem
      · exact Or.inr (by rw [diskAfter, heq]; exact List.mem_cons_self)
      · exact Or.inr (List.mem_cons_of_mem _ hmem)
    | candidate _ | elected _ _ | committed _ _ | applied _ _ =>
      exact (ih d).imp_right (List.mem_cons_of_mem _)

omit [Fintype ι] [DecidableEq ι] in
/-- The disk of a crash is the one before, or that of a write with its log cut short. -/
theorem cutDisk_cases {d d₁ : Disk ι} {events : List (Event ι)} {cut : Cut}
    (h : cutDisk d events cut = some d₁) :
    d₁ = d ∨ ∃ d', .wrote d' ∈ events ∧ d₁.term = d'.term ∧ d₁.voted = d'.voted ∧
      d₁.log <+: d'.log := by
  cases cut with
  | after j =>
    cases h
    rcases diskAfter_eq_or_mem d (events.take j) with heq | hmem
    · exact Or.inl heq
    · exact Or.inr ⟨_, List.mem_of_mem_take hmem, rfl, rfl, List.prefix_refl _⟩
  | truncating j kept =>
    simp only [cutDisk] at h
    split at h
    · rename_i d' hd'
      split at h
      · cases h
        exact Or.inr ⟨d', List.mem_of_getElem? hd', rfl, rfl, List.take_prefix _ _⟩
      · cases h
    · cases h

omit [Fintype ι] [DecidableEq ι] in
theorem cutEvents_isPrefix (events : List (Event ι)) (cut : Cut) :
    cutEvents events cut <+: events := by
  cases cut <;> exact List.take_prefix _ _

omit [Fintype ι] [DecidableEq ι] in
/-- A shorter log is one a peer can come down to as well. -/
theorem Kept.of_isPrefix {n : RaftNode ι} {d d' : Disk ι} (h : Kept s n d')
    (hterm : d.term = d'.term) (hvoted : d.voted = d'.voted) (hlog : d.log <+: d'.log) :
    Kept s n d := by
  obtain ⟨hraised, hkept, hidx⟩ := h
  rw [← hterm, ← hvoted] at hraised
  rw [← hterm] at hkept
  exact ⟨hraised, hkept.imp hlog.trans fun ⟨m, hm, hle, hpre⟩ => ⟨m, hm, hle, hlog.trans hpre⟩,
    hidx.of_isPrefix hlog⟩

theorem Landed.of_kept {i : ι} {n : RaftNode ι} {d : Disk ι} (hpeer : s.peer i = n.peer)
    (hd : Kept s n d) : ∃ s₁, Landed False s s₁ i d := by
  obtain ⟨hterm, hlog, -⟩ := hd
  have hraise : ∃ s₁, Follows False s s₁ ∧ Extends s s₁ ∧ s₁.ballots = s.ballots ∧
      s₁.sent = s.sent ∧ (∀ j, j ≠ i → s₁.peer j = s.peer j) ∧ (s₁.peer i).term = d.term ∧
      (s₁.peer i).vote = d.voted ∧ (s₁.peer i).log = n.store.log := by
    rcases hterm with hlt | ⟨heq, hsame | ⟨v, hv, hfree⟩⟩
    · refine ⟨s.next (.raise i d.term d.voted), Follows.single ?_ False.elim, Extends.next s _, rfl,
        rfl, ?_, ?_, ?_, ?_⟩
      · rw [Consensus.State.Enabled, hpeer]; exact hlt
      · intro j hj; simp [Consensus.State.next, hj]
      all_goals simp [Consensus.State.next, hpeer, RaftNode.peer]
    · refine ⟨s, TransitionSystem.Steps.refl s, .refl s, rfl, rfl, fun _ _ => rfl, ?_, ?_, ?_⟩
      all_goals rw [hpeer]
      · exact heq.symm
      · exact hsame.symm
      · rfl
    · refine ⟨s.next (.mark i v), Follows.single ?_ False.elim, Extends.next s _, rfl,
        rfl, ?_, ?_, ?_, ?_⟩
      · rw [Consensus.State.Enabled, hpeer]; exact hfree
      · intro j hj; simp [Consensus.State.next, hj]
      all_goals simp [Consensus.State.next, hpeer, RaftNode.peer, heq, hv]
  obtain ⟨s₁, hfol, hext, hbal, hsent, hother, hpt, hpv, hpl⟩ := hraise
  have hen : s₁.Enabled LogEntry.term (.tear i d.log) := by
    rw [Consensus.State.Enabled, hpl, hsent, hpt]
    exact hlog
  refine ⟨s₁.next (.tear i d.log), hfol.trans (Follows.single hen False.elim),
    hext.trans (Extends.next s₁ _), hbal, ?_, (s₁.peer i).commit, ?_⟩
  · intro j hj; simp [Consensus.State.next, hj, hother j hj]
  · simp [Consensus.State.next, hpt, hpv]

omit [DecidableEq ι] in
/-- The disk a node has is one it can come down to. -/
theorem NodeSim.kept_self {i : ι} {n : RaftNode ι} (h : NodeSim strict s i n) :
    Kept s n n.store.disk :=
  ⟨Or.inr ⟨rfl, Or.inl rfl⟩, Or.inl (List.prefix_refl _), h.wf.indexed⟩

/-- Any cut through the events of a harmless section can be landed on. -/
theorem NodeSim.land_harmless {i : ι} {n : RaftNode ι} (h : NodeSim False s i n)
    {events : List (Event ι)} (hevents : ∀ x ∈ events, EventKept s n x) {cut : Cut} {d : Disk ι}
    (hd : cutDisk n.store.disk events cut = some d) :
    ∃ s₁, Landed False s s₁ i d ∧ Indexed d.log ∧ ∀ x ∈ cutEvents events cut, EventOk False s₁ i x := by
  have hkept : Kept s n d := by
    rcases cutDisk_cases hd with rfl | ⟨d', hmem, hterm, hvoted, hlog⟩
    · exact h.kept_self
    · exact Kept.of_isPrefix (hevents _ hmem) hterm hvoted hlog
  obtain ⟨s₁, hland⟩ := Landed.of_kept h.peer hkept
  refine ⟨s₁, hland, hkept.2.2, ?_⟩
  intro x hx
  have hx' := hevents x ((cutEvents_isPrefix events cut).subset hx)
  cases x with
  | elected T l => exact hx'.elim
  | wrote _ | candidate _ => trivial
  | committed _ _ | applied _ _ => exact False.elim

theorem Landed.after {s₀ : Abstract ι} {i : ι} {d : Disk ι} (hland : Landed strict s₀ s₁ i d)
    (hfol : Follows strict s s₀) (hext : Extends s s₀) (hbal : s₀.ballots = s.ballots)
    (hother : ∀ j, j ≠ i → s₀.peer j = s.peer j) : Landed strict s s₁ i d :=
  ⟨hfol.trans hland.follows, hext.trans hland.more, hland.ballots.trans hbal,
    fun j hj => (hland.other j hj).trans (hother j hj), hland.peer⟩

/-- A section that only appends to the log, in the state `s'` after it: what is on disk of it is
part of its log, and what it did is done there. -/
theorem NodeSim.land_appended {s' : Abstract ι} {i : ι} {n n' : RaftNode ι}
    (h' : NodeSim False s' i n') (hfol : Follows False s s') (hext : Extends s s')
    (hbal : s'.ballots = s.ballots) (hother : ∀ j, j ≠ i → s'.peer j = s.peer j)
    {events : List (Event ι)} (htrace : n'.trace = n.trace ++ events)
    (hwrote : ∀ d', .wrote d' ∈ events → d' = n'.store.disk)
    (hterm : n.store.term = n'.store.term) (hvoted : n.store.voted = n'.store.voted)
    (hlog : n.store.log <+: n'.store.log) {cut : Cut} {d : Disk ι}
    (hd : cutDisk n.store.disk events cut = some d) :
    ∃ s₁, Landed False s s₁ i d ∧ Indexed d.log ∧ ∀ x ∈ cutEvents events cut, EventOk False s₁ i x := by
  have hkept : Kept s' n' d := by
    rcases cutDisk_cases hd with rfl | ⟨d', hmem, ht, hv, hpre⟩
    · exact h'.kept_self.of_isPrefix hterm hvoted hlog
    · rw [hwrote d' hmem] at ht hv hpre
      exact h'.kept_self.of_isPrefix ht hv hpre
  obtain ⟨s₁, hland⟩ := Landed.of_kept h'.peer hkept
  refine ⟨s₁, hland.after hfol hext hbal hother, hkept.2.2, ?_⟩
  intro x hx
  have hmem : x ∈ n'.trace := by
    rw [htrace]
    exact List.mem_append_right _ ((cutEvents_isPrefix events cut).subset hx)
  exact (h'.events x hmem).mono hland.more

/-! ## Section by section -/

section Harmless

omit [Fintype ι] [DecidableEq ι] in
theorem Harmless.refl (n : RaftNode ι) : Harmless s n n := ⟨[], by simp, by simp⟩

variable {i : ι} {n : RaftNode ι}

omit [DecidableEq ι] in
theorem NodeSim.kept_raised (h : NodeSim strict s i n) {t : Nat} (ht : n.store.term < t)
    (v : Option ι) : Kept s n ⟨t, v, n.store.log⟩ :=
  ⟨Or.inl ht, Or.inl (List.prefix_refl _), h.wf.indexed⟩

omit [DecidableEq ι] in
theorem NodeSim.harmless_startElection (h : NodeSim strict s i n) :
    Harmless s n (n.startElection i).1 := by
  refine ⟨_, RaftNode.startElection_trace i n, ?_⟩
  intro x hx
  simp only [List.mem_cons, List.not_mem_nil, or_false] at hx
  rcases hx with rfl | rfl | rfl
  · exact h.kept_raised (Nat.lt_succ_self _) _
  · exact h.kept_raised (Nat.lt_succ_self _) _
  · trivial

omit [DecidableEq ι] in
theorem NodeSim.harmless_stepDown (h : NodeSim strict s i n) {t : Nat} (ht : n.store.term < t) :
    Harmless s n (n.stepDown t) := by
  refine ⟨_, RaftNode.stepDown_trace n t, ?_⟩
  intro x hx
  simp only [List.mem_cons, List.not_mem_nil, or_false] at hx
  rcases hx with rfl | rfl <;> exact h.kept_raised ht _

omit [DecidableEq ι] in
theorem NodeSim.harmless_heardVote (h : NodeSim strict s i n) (rpc : RequestVote ι) :
    Harmless s n (n.heardVote rpc) := by
  unfold RaftNode.heardVote
  split
  · rename_i hgt
    obtain ⟨events, htrace, hevents⟩ := h.harmless_stepDown hgt
    exact ⟨events, htrace, hevents⟩
  · exact Harmless.refl n

theorem NodeSim.harmless_handleRequestVote (h : NodeSim strict s i n) (rpc : RequestVote ι) :
    Harmless s n (n.handleRequestVote rpc).1 := by
  rcases n.handleRequestVote_cases rpc with ⟨-, heq⟩ | ⟨hterm, hgrants, heq⟩ | ⟨-, heq⟩ <;>
    rw [heq]
  · exact Harmless.refl n
  · obtain ⟨events, htrace, hevents⟩ := h.harmless_heardVote rpc
    refine ⟨events ++ [.wrote ((n.heardVote rpc).store.setVoted (some rpc.candidateId)).disk],
      by simp [RaftNode.persist, htrace], ?_⟩
    intro x hx
    rcases List.mem_append.mp hx with hold | hnew
    · exact hevents x hold
    · rw [List.mem_singleton.mp hnew]
      -- the vote is written in the term of the request, raised or not
      unfold RaftNode.heardVote at hgrants ⊢
      split
      · rename_i hgt
        exact h.kept_raised hgt _
      · rename_i hgt
        rw [if_neg hgt] at hgrants
        exact ⟨Or.inr ⟨rfl, Or.inr ⟨_, rfl, hgrants.1⟩⟩, Or.inl (List.prefix_refl _),
          h.wf.indexed⟩
  · exact h.harmless_heardVote rpc

omit [DecidableEq ι] in
theorem NodeSim.harmless_followLeader (h : NodeSim strict s i n) (rpc : AppendEntries ι) :
    Harmless s n (n.followLeader rpc) := by
  refine ⟨_, n.followLeader_trace rpc, ?_⟩
  intro x hx
  split at hx
  · rename_i hlt
    simp only [List.mem_cons, List.not_mem_nil, or_false] at hx
    rcases hx with rfl | rfl <;> exact h.kept_raised hlt _
  · cases hx

omit [Fintype ι] [DecidableEq ι] in
/-- Applying writes nothing. -/
theorem Harmless.applied {n₀ : RaftNode ι} (h : Harmless s n₀ n) :
    Harmless s n₀ n.applyCommitted := by
  obtain ⟨events, htrace, hevents⟩ := h
  obtain ⟨fresh, htrace', hfresh⟩ := RaftNode.applyCommitted_events (n := n)
  refine ⟨events ++ fresh, by rw [htrace', htrace, List.append_assoc], ?_⟩
  intro x hx
  rcases List.mem_append.mp hx with hold | hnew
  · exact hevents x hold
  · obtain ⟨k, e, rfl⟩ := hfresh x hnew
    trivial

theorem NodeSim.harmless_handleAppendEntries (h : NodeSim False s i n) (hsound : Sound False s)
    {call : AppendCall ι} {rpc : AppendEntries ι} (hcall : AppendSim s call)
    (hcarries : rpc.Carries call.sender.store.log) (hrterm : rpc.term = call.sender.store.term) :
    Harmless s n (n.handleAppendEntries rpc).1 := by
  rcases n.handleAppendEntries_cases rpc with ⟨-, heq⟩ | ⟨-, -, heq⟩ | ⟨hterm, hprev, heq⟩ <;>
    rw [heq]
  · exact Harmless.refl n
  · exact h.harmless_followLeader rpc
  · obtain ⟨s', hfol, hext, -, -, -, h'⟩ := h.followLeader rpc hterm
    obtain ⟨-, -, hrw⟩ := h'.merged (hsound.follows hfol) (hcall.mono hext) hcarries hprev
    obtain ⟨events, htrace, hevents⟩ := h.harmless_followLeader rpc
    obtain ⟨writes, hwtrace, hwrites⟩ := hrw.trace
    have hpeer := n.followLeader_peer rpc hterm
    refine Harmless.applied ⟨events ++ writes, ?_, ?_⟩
    · rw [((n.merged rpc).followCommit_rest _).2.2, hwtrace, htrace, List.append_assoc]
    · intro x hx
      rcases List.mem_append.mp hx with hold | hnew
      · exact hevents x hold
      · obtain ⟨L, hL, rfl⟩ := hwrites x hnew
        have hft : (n.followLeader rpc).store.term = rpc.term :=
          congrArg Consensus.Peer.term hpeer
        have hfv : (n.followLeader rpc).store.voted =
            if n.store.term < rpc.term then none else n.store.voted :=
          congrArg Consensus.Peer.vote hpeer
        have hfl : (n.followLeader rpc).store.log = n.store.log :=
          congrArg Consensus.Peer.log hpeer
        rw [hfl] at hL
        refine ⟨?_, ?_, ?_⟩
        · rcases Nat.eq_or_lt_of_le hterm with heq | hlt
          · refine Or.inr ⟨hft.trans heq.symm, Or.inl ?_⟩
            rw [show (⟨(n.followLeader rpc).store.term, (n.followLeader rpc).store.voted, L⟩ :
              Disk ι).voted = (n.followLeader rpc).store.voted from rfl, hfv, if_neg (by omega)]
          · exact Or.inl (hft.symm ▸ hlt)
        · rcases hL with hold | hnew
          · exact Or.inl hold
          · exact Or.inr ⟨_, hcall.sent, by rw [hft, hrterm]; exact le_refl _, hnew⟩
        · rcases hL with hold | hnew
          · exact h.wf.indexed.of_isPrefix hold
          · exact hcall.wf.indexed.of_isPrefix hnew

theorem NodeSim.harmless_appendReply (h : NodeSim strict s i n) (peers : List ι)
    (connected : ι → Bool) (p : ι) (ae : AppendEntries ι) (resp : AppendEntriesResponse) :
    Harmless s n (n.appendReply peers connected p ae resp) := by
  rcases n.appendReply_cases peers connected p ae resp with ⟨hgt, heq⟩ | ⟨-, -, -, heq⟩ | ⟨-, heq⟩ <;>
    rw [heq]
  · exact h.harmless_stepDown hgt
  · unfold RaftNode.advanceCommitIndex; simp only
    split
    · refine Harmless.applied ⟨[_], rfl, ?_⟩
      intro x hx
      rw [List.mem_singleton.mp hx]
      trivial
    · exact ⟨[], by simp [RaftNode.matched], by simp⟩
  · exact ⟨[], by rw [(n.backOff_rest p ae).2.2.2.2, List.append_nil], by simp⟩

end Harmless

/-! ## Any step -/

/-- All moves are harmless for every node but for winning and for a leader's append. -/
theorem Sim.harmless (h : Sim False s c) (hsound : Sound False s) (hth : Threads cfg c)
    {m : Move ι} (hm : Moved cfg c m c₁) (j : ι) :
    Harmless s (c.nodes j) (c₁.nodes j) ∨
    ((c.nodes j).state = .candidate ∧ c₁.nodes j = (c.nodes j).becomeLeader j ∧
      s.Enabled LogEntry.term (.win j (c.nodes j).noopEntry)) ∨
    ((c.nodes j).state = .leader ∧ ∃ cmd, c₁.nodes j = ((c.nodes j).appendOwn cmd).1) := by
  have hset : ∀ (i : ι) (n : RaftNode ι), Harmless s (c.nodes i) n →
      Harmless s (c.nodes j) ((c.setNode i n).nodes j) := by
    intro i n hn
    exact c.setNode_cases i j n (fun heq => heq ▸ hn) fun _ => Harmless.refl _
  cases hm with
  | timeout hidle hstate => exact Or.inl (hset _ _ (h.nodes _).harmless_startElection)
  | deliverVote hcall hnew hfree =>
    exact Or.inl (hset _ _ ((h.nodes _).harmless_handleRequestVote _))
  | @deposed i p rpc votes k todo call resp hbg hcall hreply hterm =>
    refine Or.inl (hset _ _ ?_)
    rw [RaftNode.voteReply_deposed votes hterm]
    obtain ⟨events, htrace, hevents⟩ := (h.nodes i).harmless_stepDown hterm
    exact ⟨events, htrace, hevents⟩
  | @elected i rpc votes hbg hvotes hstate =>
    simp only [setBackground_nodes, setNode_nodes]
    split
    · rename_i heq
      subst heq
      exact Or.inr (Or.inl ⟨hstate, rfl, h.win_enabled hth hbg hvotes hstate⟩)
    · exact Or.inl (Harmless.refl _)
  | @deliverAppend k call hcall hnew hfree =>
    have hmem := List.mem_of_getElem? hcall
    have happ := h.appends call hmem
    obtain ⟨hcarries, hrterm, -⟩ := happ.carries hth hmem
    exact Or.inl (hset _ _
      ((h.nodes _).harmless_handleAppendEntries hsound happ hcarries hrterm))
  | appendReply hloop hcall hreply =>
    rw [setSendLoop_nodes]
    exact Or.inl (hset _ _ ((h.nodes _).harmless_appendReply _ _ _ _ _))
  | @appendLost t i p k todo call hloop hcall =>
    rw [setSendLoop_nodes]
    refine Or.inl (hset _ _ ⟨[], ?_, by simp⟩)
    rw [List.append_nil]
    exact (RaftNode.backOff_rest _ p call.rpc).2.2.2.2
  | @submit i cmd connected hfree hstate =>
    simp only [setNode_nodes]
    split
    · rename_i heq
      subst heq
      exact Or.inr (Or.inr ⟨hstate, cmd, rfl⟩)
    · exact Or.inl (Harmless.refl _)
  | @get i key hfree hstate =>
    simp only [setNode_nodes]
    split
    · rename_i heq
      subst heq
      exact Or.inr (Or.inr ⟨hstate, _, rfl⟩)
    · exact Or.inl (Harmless.refl _)
  | finishSubmit hcall hfree hcommit =>
    exact Or.inl (hset _ _ (Harmless.applied (Harmless.refl _)))
  | voteReply hbg hcall hreply hterm => exact Or.inl (hset _ _ (Harmless.refl _))
  | send hloop => rw [setSendLoop_nodes]; exact Or.inl (Harmless.refl _)
  | sendVote _ | voteLost _ | unelected _ | heartbeat _ _ | endLoop _ | finishGet _ _ _ _ _ =>
    exact Or.inl (Harmless.refl _)

theorem Sim.land (h : Sim False s c) (hsound : Sound False s) (hth : Threads cfg c)
    {m : Move ι} (hm : Moved cfg c m c₁) {i : ι} {cut : Cut} {d : Disk ι}
    (hd : cutDisk (c.nodes i).store.disk (c.newEvents c₁ i) cut = some d) :
    ∃ s₁, Landed False s s₁ i d ∧ Indexed d.log ∧
      ∀ x ∈ cutEvents (c.newEvents c₁ i) cut, EventOk False s₁ i x := by
  have hi := h.nodes i
  have hnew : ∀ {n : RaftNode ι} {events : List (Event ι)}, c₁.nodes i = n →
      n.trace = (c.nodes i).trace ++ events → c.newEvents c₁ i = events := by
    intro n events hn htrace
    rw [newEvents, hn, htrace, List.drop_left]
  rcases h.harmless hsound hth hm i with ⟨events, htrace, hevents⟩ | ⟨hstate, heq, hen⟩ |
    ⟨hstate, cmd, heq⟩
  · rw [hnew rfl htrace] at hd ⊢
    exact hi.land_harmless hevents hd
  · -- the term may count as won even where the crash came first
    rw [hnew heq (RaftNode.becomeLeader_trace i hstate)] at hd ⊢
    have hwon := hi.becomeLeader False.elim hstate
    have hpeer := RaftNode.becomeLeader_peer i hstate
    have hterm : ((c.nodes i).becomeLeader i).store.term = (c.nodes i).store.term :=
      congrArg Consensus.Peer.term hpeer
    have hvoted : ((c.nodes i).becomeLeader i).store.voted = (c.nodes i).store.voted :=
      congrArg Consensus.Peer.vote hpeer
    have hlog : ((c.nodes i).becomeLeader i).store.log =
        (c.nodes i).store.log ++ [(c.nodes i).noopEntry] := congrArg Consensus.Peer.log hpeer
    refine hwon.land_appended (Follows.single hen False.elim) (Extends.next s _) rfl ?_
      (RaftNode.becomeLeader_trace i hstate) ?_ hterm.symm hvoted.symm ?_ hd
    · intro j hj
      simp [Consensus.State.next, hj]
    · intro d' hd'
      simp only [List.mem_cons, reduceCtorEq, List.not_mem_nil, or_false, false_or,
        Event.wrote.injEq] at hd'
      rw [hd', Store.disk, hterm, hvoted, hlog]
    · rw [hlog]
      exact List.prefix_append _ _
  · obtain ⟨s', hfol, hext, hbal, hother, hi'⟩ := hi.appendOwn hsound hstate cmd
    have htrace : ((c.nodes i).appendOwn cmd).1.trace =
        (c.nodes i).trace ++ [.wrote ((c.nodes i).appendOwn cmd).1.store.disk] := rfl
    rw [hnew heq htrace] at hd ⊢
    refine hi'.land_appended hfol hext hbal hother htrace ?_ rfl rfl (List.prefix_append _ _) hd
    intro d' hd'
    exact Event.wrote.inj (List.mem_singleton.mp hd')

/-- A crash inside a step. -/
theorem Sim.crashIn (h : Sim False s c) (hsound : Sound False s) (hth : Threads cfg c)
    {m : Move ι} (hm : Moved cfg c m c₁) {i : ι} {cut : Cut} {d : Disk ι}
    (hd : cutDisk (c.nodes i).store.disk (c.newEvents c₁ i) cut = some d) :
    ∃ s', Follows False s s' ∧
      Sim False s' (c.restart i d ((c.nodes i).trace ++ cutEvents (c.newEvents c₁ i) cut)) := by
  obtain ⟨s₁, hland, hidx, hevents⟩ := h.land hsound hth hm hd
  exact h.restart hsound _ hland hidx hevents False.elim

/-! ## Every run -/

omit [DecidableEq ι] in
theorem Sim.init : Sim strict Consensus.State.init (Cluster.init : Cluster ι) where
  nodes := by
    intro i
    have hnil : Indexed ([] : List LogEntry) := Indexed.nil
    obtain ⟨hwf, hpeer, hlast⟩ := RaftNode.start_store (d := ⟨0, (none : Option ι), []⟩) [] hnil
    refine ⟨hpeer.symm, hwf, ?_, ?_, ?_⟩
    · intro x hx
      rw [show (Cluster.init.nodes i).trace = _ from RaftNode.start_trace _] at hx
      simp [RaftNode.appliedEvents] at hx
    · intro _ hl
      rw [show (Cluster.init.nodes i).state = _ from RaftNode.start_state _] at hl
      cases hl
    · intro _
      exact ⟨by rw [show (Cluster.init.nodes i).store.lastApplied = _ from hlast]; exact Nat.zero_le _,
        by rw [show (Cluster.init.nodes i).sm = _ from RaftNode.start_sm _,
          show (Cluster.init.nodes i).store.log = _ from congrArg Consensus.Peer.log hpeer]; simp⟩
  votes := by intro call hcall; cases hcall
  appends := by intro call hcall; cases hcall
  elections := by intro i e he; cases he
  ballots := fun _ hb => hb.elim

/-- Which actions a run may take in the two readings. -/
def Permitted (strict : Prop) (c : Cluster ι) (a : Action ι) : Prop := strict → Clean c a

theorem Sim.step (h : Sim strict s c) (hsound : Sound strict s) (hth : Threads cfg c)
    {a : Action ι} {c' : Cluster ι} (hok : Permitted strict c a)
    (hstep : c.step cfg a = some c') : ∃ s', Follows strict s s' ∧ Sim strict s' c' := by
  rcases step_cases hstep with ⟨m, rfl, hm⟩ | ⟨i, rfl, rfl⟩ | ⟨m, i, cut, c₁, d, rfl, hm, hd, rfl⟩
  · exact h.move hsound hth hm fun hs => ⟨(hok hs).2.1, (hok hs).2.2.1⟩
  · exact h.crash hsound fun hs => (hok hs).2.2.2
  · -- a clean run never crashes inside a step
    by_cases hs : strict
    · exact ((hok hs).1).elim
    · have hfalse : strict = False := propext ⟨hs, False.elim⟩
      subst hfalse
      exact h.crashIn hsound hth hm hd

/-- Every reachable cluster state is related to a state of the abstract protocol. -/
theorem simulates {ok : Cluster ι → Action ι → Prop} (hok : ∀ c a, ok c a → Permitted strict c a)
    (h : (system cfg).Reach ok c) : ∃ s : Abstract ι, Sound strict s ∧ Sim strict s c := by
  obtain ⟨s, hs, hsim⟩ := h.simulate (Consensus.system LogEntry.term) (Allowed strict)
    (R := fun c s => Sim strict s c) Sim.init (by
      intro c a c' s hc hs hsim hpermit hstep
      exact hsim.step (Sound.init.follows hs) (Threads.reach hc) (hok c a hpermit) hstep)
  exact ⟨s, Sound.init.follows hs, hsim⟩

/-- The weak reading, along every run. -/
theorem simulates_any {ok : Cluster ι → Action ι → Prop} (h : (system cfg).Reach ok c) :
    ∃ s : Abstract ι, Sound False s ∧ Sim False s c :=
  simulates (fun _ _ _ => False.elim) h

/-- The strong reading, along clean runs. -/
theorem simulates_clean (h : (system cfg).Reach Clean c) :
    ∃ s : Abstract ι, Sound True s ∧ Sim True s c :=
  simulates (fun _ _ hok _ => hok) h

end Cluster

end RaftKv
