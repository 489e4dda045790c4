-- SUMMARY: The step-downs of sendAppendEntries, which run without the lock, against the RPC handlers: when the term never goes back and no vote is lost.
import RaftKv.Refinement.Node
import RaftKv.Lib.TransitionSystem

/-!
# Stepping down without the lock

`sendAppendEntries` compares the term of a reply and writes term, role and vote with the lock
free. Here these are steps of their own, for any number of replies at once, and the two
handlers run between them.
-/

namespace RaftKv

variable {ι : Type}

/-! ## The steps -/

/-- How far the processing of a reply has come that found a later term in it. -/
inductive Phase where
  /-- `store.setTerm(resp.term)` is next. -/
  | term
  /-- `state = NodeState::FOLLOWER` is next. -/
  | role
  /-- `store.setVoted("")` is next. -/
  | vote
  deriving DecidableEq, Repr

/-- A step-down under way, for the term of its reply. `since` counts the votes that the node had
given when `resp.term > store.getTerm()` held. -/
structure StepDown where
  term : Nat
  phase : Phase
  since : Nat
  deriving DecidableEq, Repr

/-- One node, the step-downs under way in it, and the votes it has given with their terms. No
step reads `ballots` or `since`. -/
structure Unlocked (ι : Type) where
  node : RaftNode ι
  downs : List StepDown
  ballots : List (Nat × ι)

inductive UnlockedMove (ι : Type) where
  | requestVote (rpc : RequestVote ι)
  | appendEntries (rpc : AppendEntries ι)
  /-- `resp.term > store.getTerm()` holds for a reply. -/
  | deposed (resp : AppendEntriesResponse)
  /-- The next step of the step-down number `k`. -/
  | down (k : Nat)
  /-- The branch of a successful batch, of any other reply, and of no reply. -/
  | acknowledge (peers : List ι) (connected : ι → Bool) (p : ι) (ae : AppendEntries ι)
  | backOff (p : ι) (ae : AppendEntries ι)
  | lost (p : ι) (ae : AppendEntries ι)

namespace RaftNode

def downTerm (n : RaftNode ι) (term : Nat) : RaftNode ι := n.persist (n.store.setTerm term)

def downRole (n : RaftNode ι) : RaftNode ι := { n with state := .follower }

def downVote (n : RaftNode ι) : RaftNode ι := n.persist (n.store.setVoted none)

/-- With nothing in between they are the step-down of `sendAppendEntries`. -/
theorem downs_eq_stepDown (n : RaftNode ι) (term : Nat) :
    (n.downTerm term).downRole.downVote = n.stepDown term := rfl

end RaftNode

/-- The vote that a vote request gets, if any. -/
def castBallot (resp : RequestVoteResponse) (rpc : RequestVote ι) : List (Nat × ι) :=
  if resp.voteGranted then [(rpc.term, rpc.candidateId)] else []

inductive UnlockedStep [DecidableEq ι] (s : Unlocked ι) : UnlockedMove ι → Unlocked ι → Prop where
  | requestVote {rpc : RequestVote ι} :
      UnlockedStep s (.requestVote rpc)
        { s with
          node := (s.node.handleRequestVote rpc).1
          ballots := s.ballots ++ castBallot (s.node.handleRequestVote rpc).2 rpc }
  | appendEntries {rpc : AppendEntries ι} :
      UnlockedStep s (.appendEntries rpc) { s with node := (s.node.handleAppendEntries rpc).1 }
  | deposed {resp : AppendEntriesResponse} (hterm : s.node.store.term < resp.term) :
      UnlockedStep s (.deposed resp)
        { s with downs := s.downs ++ [⟨resp.term, .term, s.ballots.length⟩] }
  | downTerm {k term since : Nat} (hdown : s.downs[k]? = some ⟨term, .term, since⟩) :
      UnlockedStep s (.down k)
        { s with node := s.node.downTerm term, downs := s.downs.set k ⟨term, .role, since⟩ }
  | downRole {k term since : Nat} (hdown : s.downs[k]? = some ⟨term, .role, since⟩) :
      UnlockedStep s (.down k)
        { s with node := s.node.downRole, downs := s.downs.set k ⟨term, .vote, since⟩ }
  | downVote {k term since : Nat} (hdown : s.downs[k]? = some ⟨term, .vote, since⟩) :
      UnlockedStep s (.down k) { s with node := s.node.downVote, downs := s.downs.eraseIdx k }
  | acknowledge {peers : List ι} {connected : ι → Bool} {p : ι} {ae : AppendEntries ι} :
      UnlockedStep s (.acknowledge peers connected p ae)
        { s with node := s.node.acknowledge peers connected p ae }
  | backOff {p : ι} {ae : AppendEntries ι} :
      UnlockedStep s (.backOff p ae) { s with node := s.node.backOff p ae }
  | lost {p : ι} {ae : AppendEntries ι} :
      UnlockedStep s (.lost p ae) { s with node := s.node.appendLost p ae }

/-- The node as it starts: no step-down under way, its vote on disk. -/
def unlocked (n : RaftNode ι) : Unlocked ι where
  node := n
  downs := []
  ballots := (n.store.voted.map fun v => (n.store.term, v)).toList

def unlockedSystem [DecidableEq ι] (n : RaftNode ι) : TransitionSystem (Unlocked ι) (UnlockedMove ι) where
  init := unlocked n
  step := UnlockedStep

/-! ## What is to stand, and the condition on a step -/

/-- From `s` to `s'` the term has not gone back, and no vote given up to `s` has been cleared or
changed if its term is the one persisted in `s'`. -/
def Unlocked.Stands (s s' : Unlocked ι) : Prop :=
  s.node.store.term ≤ s'.node.store.term ∧
    ∀ b ∈ s.ballots, b.1 = s'.node.store.term → s'.node.store.voted = some b.2

/-- A step-down takes over no term that the node has left behind, and it clears the vote only
if the node has not voted in its present term since the check. -/
def InTurn (s : Unlocked ι) : UnlockedMove ι → Prop
  | .down k => ∀ d, s.downs[k]? = some d →
      (d.phase = .term → s.node.store.term ≤ d.term) ∧
      (d.phase = .vote → ∀ b ∈ s.ballots.drop d.since, b.1 ≠ s.node.store.term)
  | _ => True

/-! ## The changes that take the vote along -/

namespace RaftNode

/-- The term does not go back, and the vote changes only with it. -/
structure Forward (n n' : RaftNode ι) : Prop where
  term : n.store.term ≤ n'.store.term
  voted : n'.store.term = n.store.term → n'.store.voted = n.store.voted

theorem Forward.of_eq {n n' : RaftNode ι} (hterm : n'.store.term = n.store.term)
    (hvoted : n'.store.voted = n.store.voted) : Forward n n' :=
  ⟨hterm.ge, fun _ => hvoted⟩

theorem Forward.trans {n n' n'' : RaftNode ι} (h : Forward n n') (h' : Forward n' n'') :
    Forward n n'' where
  term := h.term.trans h'.term
  voted heq := by
    have hmid : n'.store.term = n.store.term := Nat.le_antisymm (heq ▸ h'.term) h.term
    exact (h'.voted (heq.trans hmid.symm)).trans (h.voted hmid)

variable (n : RaftNode ι)

theorem heardVote_term {rpc : RequestVote ι} (hterm : n.store.term ≤ rpc.term) :
    (n.heardVote rpc).store.term = rpc.term := by
  unfold heardVote
  split
  · rfl
  · omega

theorem heardVote_forward (rpc : RequestVote ι) : Forward n (n.heardVote rpc) := by
  unfold heardVote
  split
  · rename_i hgt
    exact ⟨hgt.le, fun heq => absurd heq (Nat.ne_of_gt hgt)⟩
  · exact ⟨le_refl _, fun _ => rfl⟩

theorem handleAppendEntries_forward (rpc : AppendEntries ι) :
    Forward n (n.handleAppendEntries rpc).1 := by
  have hfollow (hterm : n.store.term ≤ rpc.term) : Forward n (n.followLeader rpc) := by
    have hpeer := n.followLeader_peer rpc hterm
    have hnew : (n.followLeader rpc).store.term = rpc.term := congrArg Consensus.Peer.term hpeer
    refine ⟨hnew ▸ hterm, fun heq => ?_⟩
    have hvote := congrArg Consensus.Peer.vote hpeer
    rwa [if_neg (Nat.not_lt.mpr (hnew.symm.trans heq).le)] at hvote
  rcases n.handleAppendEntries_cases rpc with ⟨-, heq⟩ | ⟨hterm, -, heq⟩ | ⟨hterm, -, heq⟩ <;>
    rw [heq]
  · exact .of_eq rfl rfl
  · exact hfollow hterm
  · have hmerged := merged_rewrote n rpc
    refine (hfollow hterm).trans ((Forward.of_eq hmerged.term hmerged.voted).trans ?_)
    have hcommit : Forward (n.merged rpc) ((n.merged rpc).followCommit rpc.leaderCommit) := by
      unfold followCommit
      split <;> exact .of_eq rfl rfl
    exact hcommit.trans (.of_eq (applyCommitted_term _)
      (congrArg Consensus.Peer.vote (applyCommitted_peer _)))

theorem advanceCommitIndex_forward (peers : List ι) (connected : ι → Bool) :
    Forward n (n.advanceCommitIndex peers connected) := by
  unfold advanceCommitIndex; simp only
  split
  · exact .of_eq (applyCommitted_term _) (congrArg Consensus.Peer.vote (applyCommitted_peer _))
  · exact .of_eq rfl rfl

section Replies

variable [DecidableEq ι] (p : ι) (ae : AppendEntries ι)

theorem acknowledge_forward (peers : List ι) (connected : ι → Bool) :
    Forward n (n.acknowledge peers connected p ae) := by
  rw [acknowledge_eq]
  have hmatched : Forward n (n.matched p ae) := .of_eq rfl rfl
  exact hmatched.trans ((n.matched p ae).advanceCommitIndex_forward peers connected)

theorem backOff_forward : Forward n (n.backOff p ae) := by
  have hstore := (n.backOff_rest p ae).2.2.1
  exact .of_eq (by rw [hstore]) (by rw [hstore])

theorem appendLost_forward : Forward n (n.appendLost p ae) := by
  have hstore := n.appendLost_store p ae
  exact .of_eq (by rw [hstore]) (by rw [hstore])

end Replies

end RaftNode

/-! ## The invariant -/

/-- Every vote is of no later term and stands while its term lasts. Those given before the check
of a step-down are of a term before its own, which is reached once it is written. -/
structure Unlocked.Sound (s : Unlocked ι) : Prop where
  past : ∀ b ∈ s.ballots, b.1 ≤ s.node.store.term
  stands : ∀ b ∈ s.ballots, b.1 = s.node.store.term → s.node.store.voted = some b.2
  since : ∀ d ∈ s.downs, d.since ≤ s.ballots.length
  before : ∀ d ∈ s.downs, ∀ b ∈ s.ballots.take d.since, b.1 < d.term
  written : ∀ d ∈ s.downs, d.phase ≠ .term → d.term ≤ s.node.store.term

variable {s s' : Unlocked ι} {m : UnlockedMove ι}

theorem Unlocked.Sound.init (n : RaftNode ι) : (unlocked n).Sound := by
  have hballot : ∀ b ∈ (unlocked n).ballots, n.store.voted = some b.2 ∧ b.1 = n.store.term := by
    intro b hb
    cases hv : n.store.voted with
    | none =>
      simp [unlocked, hv] at hb
    | some v =>
      simp only [unlocked, hv, Option.map_some, Option.toList_some, List.mem_singleton] at hb
      simp [hb]
  have hdowns : (unlocked n).downs = [] := rfl
  exact ⟨fun b hb => (hballot b hb).2.le, fun b hb _ => (hballot b hb).1,
    by simp [hdowns], by simp [hdowns], by simp [hdowns]⟩

/-- A change of the node that takes its vote along with its term. -/
theorem Unlocked.Sound.change (h : s.Sound) {n : RaftNode ι} (hn : s.node.Forward n) :
    ({ s with node := n } : Unlocked ι).Sound where
  past b hb := (h.past b hb).trans hn.term
  stands b hb hterm := by
    have heq : n.store.term = s.node.store.term := Nat.le_antisymm (hterm ▸ h.past b hb) hn.term
    exact (hn.voted heq).trans (h.stands b hb (hterm.trans heq))
  since := h.since
  before := h.before
  written d hd hphase := (h.written d hd hphase).trans hn.term

theorem Unlocked.Sound.grant (h : s.Sound) {rpc : RequestVote ι}
    (hterm : s.node.store.term ≤ rpc.term) (hgrants : (s.node.heardVote rpc).Grants rpc) :
    ({ s with
      node := (s.node.heardVote rpc).persist
        ((s.node.heardVote rpc).store.setVoted (some rpc.candidateId))
      ballots := s.ballots ++ [(rpc.term, rpc.candidateId)] } : Unlocked ι).Sound := by
  have hheard := h.change (s.node.heardVote_forward rpc)
  have hnew := s.node.heardVote_term hterm
  refine ⟨fun b hb => ?_, fun b hb heq => ?_, fun d hd => ?_, fun d hd b hb => ?_, hheard.written⟩
  · rcases List.mem_append.mp hb with hold | hnow
    · exact hheard.past b hold
    · rw [List.mem_singleton.mp hnow]
      exact hnew.ge
  · rcases List.mem_append.mp hb with hold | hnow
    · -- Two votes of one term: the second is granted to the holder of the first only.
      have hvoted : (s.node.heardVote rpc).store.voted = some b.2 := hheard.stands b hold heq
      rcases hgrants.1 with hnone | hsame
      · rw [hvoted] at hnone
        cases hnone
      · exact hsame.symm.trans hvoted
    · rw [List.mem_singleton.mp hnow]
      rfl
  · rw [List.length_append]
    exact (h.since d hd).trans (Nat.le_add_right _ _)
  · rw [List.take_append_of_le_length (h.since d hd)] at hb
    exact h.before d hd b hb

theorem Unlocked.Sound.started (h : s.Sound) {term : Nat} (hterm : s.node.store.term < term) :
    ({ s with downs := s.downs ++ [⟨term, .term, s.ballots.length⟩] } : Unlocked ι).Sound := by
  refine ⟨h.past, h.stands, fun d hd => ?_, fun d hd b hb => ?_, fun d hd hphase => ?_⟩ <;>
    rcases List.mem_append.mp hd with hold | hnew
  · exact h.since d hold
  · rw [List.mem_singleton.mp hnew]
  · exact h.before d hold b hb
  · rw [List.mem_singleton.mp hnew]
    exact (h.past b (List.mem_of_mem_take hb)).trans_lt hterm
  · exact h.written d hold hphase
  · rw [List.mem_singleton.mp hnew] at hphase
    exact absurd rfl hphase

/-- The next phase of a step-down whose term the node has reached. -/
theorem Unlocked.Sound.advanced (h : s.Sound) {k term since : Nat} {phase phase' : Phase}
    (hdown : s.downs[k]? = some ⟨term, phase, since⟩) (hterm : term ≤ s.node.store.term) :
    ({ s with downs := s.downs.set k ⟨term, phase', since⟩ } : Unlocked ι).Sound := by
  have hmem := List.mem_of_getElem? hdown
  have hsince : since ≤ s.ballots.length := h.since _ hmem
  have hbefore : ∀ b ∈ s.ballots.take since, b.1 < term := h.before _ hmem
  refine ⟨h.past, h.stands, fun d hd => ?_, fun d hd b hb => ?_, fun d hd hphase => ?_⟩ <;>
    rcases List.mem_or_eq_of_mem_set hd with hold | rfl
  · exact h.since d hold
  · exact hsince
  · exact h.before d hold b hb
  · exact hbefore b hb
  · exact h.written d hold hphase
  · exact hterm

/-- Votes given before the check are of an earlier term than the present one. -/
theorem Unlocked.Sound.current (h : s.Sound) {d : StepDown} (hd : d ∈ s.downs)
    (hphase : d.phase ≠ .term) {b : Nat × ι} (hb : b ∈ s.ballots) (hterm : b.1 = s.node.store.term) :
    b ∈ s.ballots.drop d.since := by
  rw [← List.take_append_drop d.since s.ballots] at hb
  rcases List.mem_append.mp hb with hearlier | hlater
  · have hlt := h.before d hd b hearlier
    have hle := h.written d hd hphase
    omega
  · exact hlater

theorem Unlocked.Sound.cleared (h : s.Sound) {k term since : Nat}
    (hdown : s.downs[k]? = some ⟨term, .vote, since⟩)
    (hnone : ∀ b ∈ s.ballots.drop since, b.1 ≠ s.node.store.term) :
    ({ s with node := s.node.downVote, downs := s.downs.eraseIdx k } : Unlocked ι).Sound := by
  refine ⟨h.past, fun b hb hterm => ?_, fun d hd => h.since d (List.mem_of_mem_eraseIdx hd),
    fun d hd => h.before d (List.mem_of_mem_eraseIdx hd),
    fun d hd => h.written d (List.mem_of_mem_eraseIdx hd)⟩
  have hdrop := h.current (List.mem_of_getElem? hdown) (by simp) hb hterm
  exact absurd hterm (hnone b hdrop)

variable [DecidableEq ι]

theorem Unlocked.Sound.step (h : s.Sound) (hturn : InTurn s m) (hstep : UnlockedStep s m s') :
    s'.Sound ∧ s.node.store.term ≤ s'.node.store.term := by
  cases hstep with
  | @requestVote rpc =>
    have hheard := s.node.heardVote_forward rpc
    rcases s.node.handleRequestVote_cases rpc with ⟨-, heq⟩ | ⟨hterm, hgrants, heq⟩ | ⟨-, heq⟩
    · simpa [heq, castBallot] using h
    · rw [heq]
      exact ⟨h.grant hterm hgrants, hheard.term⟩
    · simpa [heq, castBallot] using And.intro (h.change hheard) hheard.term
  | @appendEntries rpc =>
    have hhandled := s.node.handleAppendEntries_forward rpc
    exact ⟨h.change hhandled, hhandled.term⟩
  | deposed hterm => exact ⟨h.started hterm, le_refl _⟩
  | @downTerm k term since hdown =>
    have hle : s.node.store.term ≤ term := (hturn _ hdown).1 rfl
    have hwritten := h.change (n := s.node.downTerm term) ⟨hle, fun _ => rfl⟩
    exact ⟨hwritten.advanced hdown (le_refl _), hle⟩
  | @downRole k term since hdown =>
    have hreached : term ≤ s.node.store.term :=
      h.written _ (List.mem_of_getElem? hdown) (by simp)
    have hsame := h.change (n := s.node.downRole) (.of_eq rfl rfl)
    exact ⟨hsame.advanced hdown hreached, le_refl _⟩
  | downVote hdown => exact ⟨h.cleared hdown ((hturn _ hdown).2 rfl), le_refl _⟩
  | @acknowledge peers connected p ae =>
    have hacked := s.node.acknowledge_forward p ae peers connected
    exact ⟨h.change hacked, hacked.term⟩
  | @backOff p ae =>
    have hbacked := s.node.backOff_forward p ae
    exact ⟨h.change hbacked, hbacked.term⟩
  | @lost p ae =>
    have hlost := s.node.appendLost_forward p ae
    exact ⟨h.change hlost, hlost.term⟩

theorem UnlockedStep.ballots_subset (hstep : UnlockedStep s m s') : s.ballots ⊆ s'.ballots := by
  cases hstep with
  | requestVote => exact List.subset_append_left _ _
  | _ => exact List.Subset.refl _

theorem Unlocked.Sound.stands_iff (h : s.Sound) (hstep : UnlockedStep s m s') :
    s.Stands s' ↔ InTurn s m := by
  refine ⟨fun hstands => ?_, fun hturn => ?_⟩
  · cases hstep with
    | @downTerm k term since hdown =>
      rintro d hd
      cases hdown.symm.trans hd
      exact ⟨fun _ => hstands.1, by simp⟩
    | @downRole k term since hdown =>
      rintro d hd
      cases hdown.symm.trans hd
      exact ⟨by simp, by simp⟩
    | @downVote k term since hdown =>
      rintro d hd
      cases hdown.symm.trans hd
      refine ⟨by simp, fun _ b hb hterm => ?_⟩
      have hvoted := hstands.2 b (List.mem_of_mem_drop hb) hterm
      cases hvoted
    | _ => trivial
  · obtain ⟨hsound, hle⟩ := h.step hturn hstep
    exact ⟨hle, fun b hb => hsound.stands b (hstep.ballots_subset hb)⟩

/-- For every node and every interleaving: after a run whose steps are in turn, the next step
keeps term and votes exactly if it is in turn too; and along such a run the term never goes back
and every vote stands while its term lasts. -/
theorem votes_stand (n : RaftNode ι) :
    (∀ s m s', (unlockedSystem n).Reach InTurn s → UnlockedStep s m s' →
      (s.Stands s' ↔ InTurn s m)) ∧
    (∀ s s', (unlockedSystem n).Reach InTurn s → (unlockedSystem n).Steps InTurn s s' →
      s.Stands s') := by
  have hsound : ∀ s, (unlockedSystem n).Reach InTurn s → s.Sound := by
    intro s hs
    exact hs.invariant (.init n) fun _ _ _ _ h hturn hstep => (h.step hturn hstep).1
  refine ⟨fun s m s' hs hstep => (hsound s hs).stands_iff hstep, fun s s' hs hsteps => ?_⟩
  have hrun : s.node.store.term ≤ s'.node.store.term ∧ s.ballots ⊆ s'.ballots := by
    refine hsteps.preserves
      (I := fun t => s.node.store.term ≤ t.node.store.term ∧ s.ballots ⊆ t.ballots) ?_
      ⟨le_refl _, List.Subset.refl _⟩
    rintro t a t' ht ⟨hterm, hballots⟩ hturn hstep
    have hle := ((hsound t (hs.trans ht)).step hturn hstep).2
    exact ⟨hterm.trans hle, List.Subset.trans hballots hstep.ballots_subset⟩
  exact ⟨hrun.1, fun b hb => (hsound s' (hs.trans hsteps)).stands b (hrun.2 hb)⟩

/-- A node of term 1 that has nothing yet. -/
def firstTerm : RaftNode Nat where
  store := {
    term := 1, lastLogTerm := 0, voted := none, logLength := 0, log := []
    commitIndex := 0, lastApplied := 0 }
  sm := .empty
  state := .follower
  currentLeaderId := none
  nextIndex _ := 1
  matchIndex _ := 0
  trace := []

/-- An AppendEntries of term 2 lands between the writes of a step-down to term 2; node 5 gets the
vote after them and keeps it while the next step-down begins. -/
theorem votes_stand_between : ∃ s s' : Unlocked Nat,
    (unlockedSystem firstTerm).Reach InTurn s ∧ (2, 5) ∈ s.ballots ∧ s'.downs ≠ [] ∧
      s'.node.store.term = 2 ∧ s'.node.store.voted = some 5 := by
  have hinit : (unlockedSystem firstTerm).Reach InTurn _ := .init
  have hcheck := hinit.step (a := UnlockedMove.deposed ⟨2, false⟩) trivial (UnlockedStep.deposed (by decide))
  have hterm := hcheck.step (a := UnlockedMove.down 0) (by rintro d ⟨⟩; decide) (UnlockedStep.downTerm rfl)
  have hlanded := hterm.step (a := UnlockedMove.appendEntries ⟨2, 5, 0, 0, 0, []⟩) trivial
    UnlockedStep.appendEntries
  have hrole := hlanded.step (a := UnlockedMove.down 0) (by rintro d ⟨⟩; decide) (UnlockedStep.downRole rfl)
  have hvote := hrole.step (a := UnlockedMove.down 0) (by rintro d ⟨⟩; decide) (UnlockedStep.downVote rfl)
  have hgrant := hvote.step (a := UnlockedMove.requestVote ⟨2, 5, 0, 0⟩) trivial UnlockedStep.requestVote
  have hnext (s : Unlocked Nat) (hlt : s.node.store.term < 3) :
      (unlockedSystem firstTerm).Steps InTurn s
        { s with downs := s.downs ++ [⟨3, .term, s.ballots.length⟩] } :=
    .single (a := UnlockedMove.deposed ⟨3, false⟩) trivial (UnlockedStep.deposed hlt)
  have hstands := (votes_stand firstTerm).2 _ _ hgrant (hnext _ (by decide))
  have hmem : (2, 5) ∈ [((2 : Nat), (5 : Nat))] := by decide
  exact ⟨_, _, hgrant, hmem, by decide, rfl, hstands.2 _ hmem rfl⟩

/-- The check for term 2 passes in term 1. If a vote of term 3 is given before the writes, the
term goes back to 2. If a vote of term 2 is given, it is cleared, and a second one of term 2
follows. -/
theorem votes_overtaken :
    (∃ s s' : Unlocked Nat, (unlockedSystem firstTerm).Reach (fun _ _ => True) s ∧
      (unlockedSystem firstTerm).Steps (fun _ _ => True) s s' ∧
      s'.node.store.term < s.node.store.term) ∧
    (∃ s : Unlocked Nat, (unlockedSystem firstTerm).Reach (fun _ _ => True) s ∧
      (2, 5) ∈ s.ballots ∧ (2, 6) ∈ s.ballots) := by
  have hinit : (unlockedSystem firstTerm).Reach (fun _ _ => True) _ := .init
  have hcheck := hinit.step (a := UnlockedMove.deposed ⟨2, false⟩) trivial
    (UnlockedStep.deposed (by decide))
  refine ⟨?_, ?_⟩
  · have hgrant := hcheck.step (a := UnlockedMove.requestVote ⟨3, 5, 0, 0⟩) trivial
      UnlockedStep.requestVote
    have hback (s : Unlocked Nat) (hdown : s.downs[0]? = some ⟨2, .term, 0⟩) :
        (unlockedSystem firstTerm).Steps (fun _ _ => True) s
          { s with node := s.node.downTerm 2, downs := s.downs.set 0 ⟨2, .role, 0⟩ } :=
      .single (a := UnlockedMove.down 0) trivial (UnlockedStep.downTerm hdown)
    exact ⟨_, _, hgrant, hback _ rfl, by decide⟩
  · have hgrant := hcheck.step (a := UnlockedMove.requestVote ⟨2, 5, 0, 0⟩) trivial
      UnlockedStep.requestVote
    have hterm := hgrant.step (a := UnlockedMove.down 0) trivial (UnlockedStep.downTerm rfl)
    have hrole := hterm.step (a := UnlockedMove.down 0) trivial (UnlockedStep.downRole rfl)
    have hvote := hrole.step (a := UnlockedMove.down 0) trivial (UnlockedStep.downVote rfl)
    have hagain := hvote.step (a := UnlockedMove.requestVote ⟨2, 6, 0, 0⟩) trivial
      UnlockedStep.requestVote
    exact ⟨_, hagain, by decide, by decide⟩

end RaftKv
