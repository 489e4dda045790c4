-- SUMMARY: From which states of a leader a fully successful round of sendAppendEntries commits the whole log, and which runs of a leader stay in such states.
import RaftKv.Replication.CommitRule
import RaftKv.Lib.TransitionSystem

/-!
# A successful round

One leader from `becomeLeader` on: its appends, the requests it has in flight and what comes
back for them. A reply to a batch raises `matchIndex` and runs the commit rule. A reply to an
empty heartbeat does neither, and a lost RPC sets `matchIndex` to 0. So a peer whose
`nextIndex` is past the log, but whose `matchIndex` is not at its end, is not counted again
until the next entry. A commit index past the log, which a node has when entries it had
committed were cut off, stays there until the log has grown to it.
-/

namespace RaftKv

variable {ι : Type}

namespace RaftNode

/-! ## A leader in office -/

/-- What holds of a leader throughout its term. -/
structure InOffice (l : RaftNode ι) : Prop where
  wf : l.store.Wf
  own : ∃ e, l.store.log.getLast? = some e ∧ e.term = l.store.term
  next_pos : ∀ j, 1 ≤ l.nextIndex j
  next_le : ∀ j, l.nextIndex j ≤ l.store.log.length + 1
  match_le : ∀ j, l.matchIndex j ≤ l.store.log.length

variable {l : RaftNode ι}

theorem InOffice.pos (h : l.InOffice) : 0 < l.store.log.length := by
  obtain ⟨e, he, -⟩ := h.own
  exact List.length_pos_of_mem (List.mem_of_getLast? he)

/-- Other vectors within the log. -/
theorem InOffice.vectors (h : l.InOffice) {l' : RaftNode ι} (hstore : l'.store = l.store)
    (hpos : ∀ j, 1 ≤ l'.nextIndex j) (hnext : ∀ j, l'.nextIndex j ≤ l.store.log.length + 1)
    (hmatch : ∀ j, l'.matchIndex j ≤ l.store.log.length) : l'.InOffice := by
  refine ⟨?_, ?_, hpos, ?_, ?_⟩ <;> rw [hstore]
  · exact h.wf
  · exact h.own
  · exact hnext
  · exact hmatch

theorem InOffice.advance (h : l.InOffice) (peers : List ι) (connected : ι → Bool) :
    (l.advanceCommitIndex peers connected).InOffice := by
  obtain ⟨hnext, hmatch⟩ := advanceCommitIndex_vectors l peers connected
  rcases l.advanceCommitIndex_cases peers connected h.wf with heq | ⟨c, -, hc, -, -, heq⟩
  · rwa [heq]
  · have hpeer := committing_peer l c
    have hlog : (l.committing c).store.log = l.store.log := congrArg Consensus.Peer.log hpeer
    have hterm : (l.committing c).store.term = l.store.term := congrArg Consensus.Peer.term hpeer
    rw [heq] at hnext hmatch ⊢
    refine ⟨applyCommitted_wf (h.wf.setCommit c), ?_, ?_, ?_, ?_⟩
    · rw [hlog, hterm]; exact h.own
    · rw [hnext]; exact h.next_pos
    · rw [hnext, hlog]; exact h.next_le
    · rw [hmatch, hlog]; exact h.match_le

/-- A commit index past the log stays there. -/
theorem InOffice.advance_commit_le (h : l.InOffice) (peers : List ι) (connected : ι → Bool) :
    (l.advanceCommitIndex peers connected).store.commitIndex ≤ l.store.log.length ↔
      l.store.commitIndex ≤ l.store.log.length := by
  rcases l.advanceCommitIndex_cases peers connected h.wf with heq | ⟨c, hlt, hc, -, -, heq⟩
  · rw [heq]
  · have hcommit : (l.committing c).store.commitIndex = c :=
      congrArg Consensus.Peer.commit (committing_peer l c)
    rw [heq, hcommit]
    exact ⟨fun _ => (Nat.le_of_lt hlt).trans hc, fun _ => hc⟩

/-- The last entry is of the leader's term, so it is committed as soon as it is counted on a
majority, unless the commit index is past it. -/
theorem InOffice.advance_eq_last (h : l.InOffice) (peers : List ι) (connected : ι → Bool) :
    (l.advanceCommitIndex peers connected).store.commitIndex = l.store.log.length ↔
      l.store.commitIndex = l.store.log.length ∨ l.store.commitIndex ≤ l.store.log.length ∧
        majority peers ≤ l.replicaCount peers connected l.store.log.length := by
  have hlast : majority peers ≤ l.replicaCount peers connected l.store.log.length →
      l.store.commitIndex < l.store.log.length → l.Committable peers connected l.store.log.length := by
    intro hcount hlt
    obtain ⟨e, he, hterm⟩ := h.own
    rw [List.getLast?_eq_getElem?] at he
    exact ⟨hlt, le_refl _, ⟨e, he, hterm⟩, hcount⟩
  rcases advanceCommitIndex_greatest peers connected h.wf with ⟨hnone, heq⟩ | ⟨c, hgreatest, heq⟩
  · rw [heq]
    refine ⟨.inl, ?_⟩
    rintro (hcommit | ⟨hle, hcount⟩)
    · exact hcommit
    · by_contra hne
      exact hnone ⟨_, hlast hcount (lt_of_le_of_ne hle hne)⟩
  · have hcommit : (l.committing c).store.commitIndex = c :=
      congrArg Consensus.Peer.commit (committing_peer l c)
    have hlow := hgreatest.1.1
    have hhigh := hgreatest.1.2.1
    rw [heq, hcommit]
    constructor
    · rintro rfl
      exact .inr ⟨Nat.le_of_lt hlow, hgreatest.1.2.2.2⟩
    · rintro (hall | ⟨-, hcount⟩)
      · omega
      · exact Nat.le_antisymm hhigh (hgreatest.2 (hlast hcount (by omega)))

/-! ## One call of a round -/

variable [DecidableEq ι] (self : ι) (peers : List ι)

/-- `sendAppendEntries` for the peer `p`, with every peer connected and `p` answering success
in the leader's own term. -/
def answeredCall (l : RaftNode ι) (p : ι) : RaftNode ι :=
  l.appendReply peers (fun _ => true) p (l.buildAppendEntries self p) ⟨l.store.term, true⟩

/-- One pass over all peers in which every call goes like that. -/
def successfulRound (l : RaftNode ι) : RaftNode ι :=
  peers.foldl (answeredCall self peers) l

omit [DecidableEq ι] in
/-- A request reaches the end of the log. -/
theorem InOffice.request (h : l.InOffice) (p : ι) :
    let ae := l.buildAppendEntries self p
    (l.nextIndex p ≤ l.store.log.length ↔ ae.entries ≠ []) ∧
      ae.prevLogIndex + ae.entries.length = l.store.log.length := by
  intro ae
  have hpos := h.next_pos p
  have hle := h.next_le p
  have hcarries : ae.Carries l.store.log := buildAppendEntries_carries self p l h.wf hpos
  have hprev : ae.prevLogIndex = l.nextIndex p - 1 := rfl
  rw [hcarries.entries, List.length_drop, ne_eq, List.drop_eq_nil_iff]
  omega

variable {self peers}

/-- An empty heartbeat changes nothing. -/
theorem InOffice.answered_empty (h : l.InOffice) {p : ι} (hnext : ¬ l.nextIndex p ≤ l.store.log.length) :
    l.answeredCall self peers p = l := by
  have hempty : (l.buildAppendEntries self p).entries = [] :=
    not_not.mp (mt (h.request self p).1.mpr hnext)
  rw [answeredCall, appendReply_rejected _ _ _ _ _ (le_refl _) (by simp [hempty]), backOff]
  exact if_neg (by simp [hempty])

omit [DecidableEq ι] in
theorem InOffice.of_becomeLeader {n : RaftNode ι} (hcand : n.state = .candidate)
    (hwf : n.store.Wf) : (n.becomeLeader self).InOffice := by
  have hpeer := becomeLeader_peer self hcand
  have hlog : (n.becomeLeader self).store.log = n.store.log ++ [n.noopEntry] :=
    congrArg Consensus.Peer.log hpeer
  have hnext : ∀ j, (n.becomeLeader self).nextIndex j = n.store.log.length + 1 :=
    fun j => hwf.length ▸ becomeLeader_nextIndex self hcand j
  refine ⟨becomeLeader_wf self hcand hwf, ?_, ?_, ?_, ?_⟩
  · rw [show (n.becomeLeader self).store.term = _ from congrArg Consensus.Peer.term hpeer, hlog]
    exact ⟨_, List.getLast?_concat, rfl⟩
  · intro j
    rw [hnext]
    exact Nat.le_add_left _ _
  · intro j
    rw [hnext, hlog, List.length_append, List.length_singleton]
    exact Nat.le_succ _
  · intro j
    rw [becomeLeader_matchIndex self hcand]
    exact Nat.zero_le _

omit [DecidableEq ι] in
theorem InOffice.appendOwn (h : l.InOffice) (cmd : Command) : (l.appendOwn cmd).1.InOffice := by
  have hlog : (l.appendOwn cmd).1.store.log.length = l.store.log.length + 1 := by
    simp [RaftNode.appendOwn, persist]
  refine ⟨h.wf.append (congrArg (· + 1) h.wf.length), ⟨_, List.getLast?_concat, rfl⟩, h.next_pos, ?_, ?_⟩
  · intro j
    rw [hlog]
    exact Nat.le_succ_of_le (h.next_le j)
  · intro j
    rw [hlog]
    exact Nat.le_succ_of_le (h.match_le j)

/-- A batch within the log, acknowledged by whatever reply. -/
theorem InOffice.acknowledged (h : l.InOffice) (p : ι) {ae : AppendEntries ι}
    (hae : ae.prevLogIndex + ae.entries.length ≤ l.store.log.length) : (l.matched p ae).InOffice := by
  have hmax := Nat.max_le.mpr ⟨h.match_le p, hae⟩
  refine h.vectors rfl ?_ ?_ ?_ <;> intro j
  · exact matched_next l p ae h.next_pos j
  · simp only [RaftNode.matched, Function.update_apply]
    split
    · exact Nat.succ_le_succ hmax
    · exact h.next_le j
  · rw [matched_matchIndex]
    split
    · exact hmax
    · exact h.match_le j

theorem InOffice.backOff (h : l.InOffice) (p : ι) (ae : AppendEntries ι) : (l.backOff p ae).InOffice := by
  obtain ⟨hmatch, -, hstore, -⟩ := backOff_rest l p ae
  refine h.vectors hstore (backOff_next l p ae h.next_pos) ?_ ?_ <;> intro j
  · unfold RaftNode.backOff
    split
    · simp only [Function.update_apply]
      split
      · exact (Nat.sub_le _ _).trans (h.next_le p)
      · exact h.next_le j
    · exact h.next_le j
  · rw [hmatch]
    exact h.match_le j

theorem InOffice.appendLost (h : l.InOffice) (p : ι) (ae : AppendEntries ι) :
    (l.appendLost p ae).InOffice := by
  have hzero : ({ l with matchIndex := Function.update l.matchIndex p 0 } : RaftNode ι).InOffice := by
    refine h.vectors rfl h.next_pos h.next_le fun j => ?_
    simp only [Function.update_apply]
    split
    · exact Nat.zero_le _
    · exact h.match_le j
  exact hzero.backOff p ae

/-- The vectors after a batch that reaches the end of the log was acknowledged. -/
theorem InOffice.matched (h : l.InOffice) (self p : ι) :
    let l₁ := l.matched p (l.buildAppendEntries self p)
    l₁.store = l.store ∧
      (∀ j, l₁.matchIndex j = if j = p then l.store.log.length else l.matchIndex j) ∧
      (∀ j, l₁.nextIndex j = if j = p then l.store.log.length + 1 else l.nextIndex j) ∧ l₁.InOffice := by
  intro l₁
  have hmax : max (l.matchIndex p) ((l.buildAppendEntries self p).prevLogIndex +
      (l.buildAppendEntries self p).entries.length) = l.store.log.length := by
    rw [(h.request self p).2]
    exact Nat.max_eq_right (h.match_le p)
  have hmatch : ∀ j, l₁.matchIndex j = if j = p then l.store.log.length else l.matchIndex j := by
    intro j
    simp only [l₁, matched_matchIndex, hmax]
  have hnext : ∀ j, l₁.nextIndex j = if j = p then l.store.log.length + 1 else l.nextIndex j := by
    intro j
    simp only [l₁, RaftNode.matched, hmax, Function.update_apply]
  exact ⟨rfl, hmatch, hnext, h.acknowledged p (h.request self p).2.le⟩

theorem InOffice.answered_batch (h : l.InOffice) {p : ι} (hnext : l.nextIndex p ≤ l.store.log.length) :
    l.answeredCall self peers p =
      (l.matched p (l.buildAppendEntries self p)).advanceCommitIndex peers fun _ => true :=
  appendReply_acknowledged _ _ _ _ _ (le_refl _) rfl ((h.request self p).1.mp hnext)

/-! ## A round -/

/-- The leader, the peers in `todo` that have a batch to come, and those whose `matchIndex` is
at the end of the log. -/
def countedAfter (l : RaftNode ι) (peers todo : List ι) : Nat :=
  1 + (peers.filter fun j => decide ((j ∈ todo ∧ l.nextIndex j ≤ l.store.log.length) ∨
    l.store.log.length ≤ l.matchIndex j)).length

theorem replicaCount_le_countedAfter (l : RaftNode ι) (peers todo : List ι) :
    l.replicaCount peers (fun _ => true) l.store.log.length ≤ l.countedAfter peers todo := by
  refine Nat.add_le_add_left (List.Sublist.length_le (List.monotone_filter_right peers ?_)) 1
  intro j hj
  simp only [Bool.true_and, decide_eq_true_eq] at hj ⊢
  exact .inr hj

theorem countedAfter_eq_replicaCount {todo : List ι}
    (hnone : ¬ ∃ j ∈ todo, l.nextIndex j ≤ l.store.log.length) :
    l.countedAfter peers todo = l.replicaCount peers (fun _ => true) l.store.log.length := by
  refine congrArg (1 + List.length ·) (List.filter_congr fun j _ => ?_)
  have hj : ¬ (j ∈ todo ∧ l.nextIndex j ≤ l.store.log.length) := fun h => hnone ⟨j, h⟩
  simp [hj]

/-- By induction on the peers still to be called: with a batch for the next one it joins those
counted, and the commit rule runs; without one nothing happens. -/
theorem InOffice.calls_commit (h : l.InOffice) (todo : List ι) :
    (todo.foldl (answeredCall self peers) l).store.commitIndex = l.store.log.length ↔
      l.store.commitIndex = l.store.log.length ∨ l.store.commitIndex ≤ l.store.log.length ∧
        (∃ j ∈ todo, l.nextIndex j ≤ l.store.log.length) ∧
          majority peers ≤ l.countedAfter peers todo := by
  induction todo generalizing l with
  | nil => simp
  | cons p rest ih =>
    rw [List.foldl_cons]
    by_cases hnext : l.nextIndex p ≤ l.store.log.length
    · obtain ⟨hstore, hmatch₁, hnext₁, h₁⟩ := h.matched self p
      let l₁ := l.matched p (l.buildAppendEntries self p)
      let l₂ := l₁.advanceCommitIndex peers fun _ => true
      have h₂ : l₂.InOffice := h₁.advance peers fun _ => true
      have hlog : l₂.store.log = l.store.log := advanceCommitIndex_log l₁ peers fun _ => true
      obtain ⟨hnext₂, hmatch₂⟩ := advanceCommitIndex_vectors l₁ peers fun _ => true
      have hadvance := h₁.advance_eq_last peers fun _ => true
      have hbound := h₁.advance_commit_le peers fun _ => true
      have hreplicas : l₁.replicaCount peers (fun _ => true) l.store.log.length =
          l₂.replicaCount peers (fun _ => true) l₂.store.log.length := by
        simp only [replicaCount, hlog, l₂, hmatch₂]
      have hcounted : l₂.countedAfter peers rest = l.countedAfter peers (p :: rest) := by
        refine congrArg (1 + List.length ·) (List.filter_congr fun j _ => ?_)
        simp only [hlog, l₂, hnext₂, hmatch₂, l₁, hmatch₁, hnext₁, List.mem_cons]
        by_cases hj : j = p
        · simp [hj, hnext]
        · simp [hj]
      rw [hstore, hreplicas] at hadvance
      rw [hstore] at hbound
      rw [h.answered_batch hnext, ← hlog]
      refine (ih h₂).trans ?_
      rw [hlog, hadvance, hbound, hcounted]
      constructor
      · rintro ((hall | ⟨hle, hcount⟩) | ⟨hle, -, hcount⟩)
        · exact .inl hall
        · refine .inr ⟨hle, ⟨p, List.mem_cons_self, hnext⟩, hcount.trans ?_⟩
          exact hcounted ▸ l₂.replicaCount_le_countedAfter peers rest
        · exact .inr ⟨hle, ⟨p, List.mem_cons_self, hnext⟩, hcount⟩
      · rintro (hall | ⟨hle, -, hcount⟩)
        · exact .inl (.inl hall)
        · by_cases hmore : ∃ j ∈ rest, l₂.nextIndex j ≤ l₂.store.log.length
          · exact .inr ⟨hle, hlog ▸ hmore, hcount⟩
          · rw [← hcounted, countedAfter_eq_replicaCount hmore] at hcount
            exact .inl (.inr ⟨hle, hcount⟩)
    · have hmem : ∀ j, (j ∈ p :: rest ∧ l.nextIndex j ≤ l.store.log.length) ↔
          (j ∈ rest ∧ l.nextIndex j ≤ l.store.log.length) := by
        intro j
        rw [List.mem_cons, or_and_right]
        refine or_iff_right ?_
        rintro ⟨rfl, hj⟩
        exact hnext hj
      rw [h.answered_empty hnext, ih h]
      simp only [countedAfter, hmem]

theorem answeredCall_log (l : RaftNode ι) (p : ι) :
    (l.answeredCall self peers p).store.log = l.store.log :=
  appendReply_log _ _ _ _ _ _

theorem successfulRound_log (l : RaftNode ι) :
    (l.successfulRound self peers).store.log = l.store.log := by
  have hcalls : ∀ todo : List ι, (todo.foldl (answeredCall self peers) l).store.log = l.store.log := by
    intro todo
    induction todo generalizing l with
    | nil => rfl
    | cons p rest ih => rw [List.foldl_cons, ih, answeredCall_log]
  exact hcalls peers

/-- After a successful round the commit index is the last index. -/
def RoundCommits (self : ι) (peers : List ι) (l : RaftNode ι) : Prop :=
  (l.successfulRound self peers).store.commitIndex = (l.successfulRound self peers).store.log.length

/-- Everything is committed, or the commit index is within the log, some peer is due a batch, and
the leader, those that are and those known to have everything are a majority. -/
def RoundReaches (peers : List ι) (l : RaftNode ι) : Prop :=
  l.store.commitIndex = l.store.log.length ∨ l.store.commitIndex ≤ l.store.log.length ∧
    (∃ j ∈ peers, l.nextIndex j ≤ l.store.log.length) ∧
      majority peers ≤ 1 + (peers.filter fun j => decide (l.nextIndex j ≤ l.store.log.length ∨
        l.store.log.length ≤ l.matchIndex j)).length

theorem InOffice.roundCommits_iff (h : l.InOffice) :
    RoundCommits self peers l ↔ RoundReaches peers l := by
  have hcount : l.countedAfter peers peers = 1 + (peers.filter fun j =>
      decide (l.nextIndex j ≤ l.store.log.length ∨ l.store.log.length ≤ l.matchIndex j)).length := by
    refine congrArg (1 + List.length ·) (List.filter_congr fun j hj => ?_)
    simp only [hj, true_and]
  rw [RoundCommits, successfulRound_log, RoundReaches, ← hcount]
  exact h.calls_commit peers

/-! ## A leader on pace -/

/-- Every peer is due a batch or known to have everything, and an entry that is not committed
is due to someone. -/
structure OnPace (peers : List ι) (l : RaftNode ι) : Prop where
  heard : ∀ j ∈ peers, l.nextIndex j ≤ l.store.log.length ∨ l.store.log.length ≤ l.matchIndex j
  due : l.store.log.length ≤ l.store.commitIndex ∨ ∃ j ∈ peers, l.nextIndex j ≤ l.store.log.length

omit [DecidableEq ι] in
theorem majority_le (peers : List ι) : majority peers ≤ 1 + peers.length := by
  rw [majority]
  omega

omit [DecidableEq ι] in
theorem OnPace.reaches_iff (h : l.OnPace peers) :
    RoundReaches peers l ↔ l.store.commitIndex ≤ l.store.log.length := by
  refine ⟨fun hreach => hreach.elim Nat.le_of_eq And.left, fun hle => ?_⟩
  rcases h.due with hall | hdue
  · exact .inl (Nat.le_antisymm hle hall)
  · refine .inr ⟨hle, hdue, ?_⟩
    rw [List.filter_eq_self.mpr fun j hj => decide_eq_true (h.heard j hj)]
    exact majority_le peers

omit [DecidableEq ι] in
/-- Right after an append, and after becoming leader, everyone is due a batch. -/
theorem OnPace.of_behind (hne : peers ≠ []) (hbehind : ∀ j, l.nextIndex j ≤ l.store.log.length) :
    l.OnPace peers := by
  obtain ⟨p, hp⟩ := List.exists_mem_of_ne_nil peers hne
  exact ⟨fun j _ => .inl (hbehind j), .inr ⟨p, hp, hbehind p⟩⟩

/-- A peer that is due a batch, or has become so. -/
theorem OnPace.of_due (h : l.OnPace peers) {l' : RaftNode ι} {p : ι} (hp : p ∈ peers)
    (hstore : l'.store = l.store) (hdue : l'.nextIndex p ≤ l.store.log.length)
    (hrest : ∀ j, j ≠ p → l'.nextIndex j = l.nextIndex j ∧ l'.matchIndex j = l.matchIndex j) :
    l'.OnPace peers := by
  refine ⟨fun j hj => ?_, .inr ⟨p, hp, by rw [hstore]; exact hdue⟩⟩
  rw [hstore]
  by_cases hjp : j = p
  · exact .inl (hjp ▸ hdue)
  · rw [(hrest j hjp).1, (hrest j hjp).2]
    exact h.heard j hj

/-- Giving way after a batch makes the peer due. -/
theorem InOffice.backOff_due (h : l.InOffice) {p : ι} {ae : AppendEntries ι}
    (hkeep : ae.entries ≠ [] ∨ l.nextIndex p ≤ l.store.log.length) :
    (l.backOff p ae).nextIndex p ≤ l.store.log.length := by
  have hle := h.next_le p
  have hpos := h.pos
  unfold RaftNode.backOff
  split
  · simp only [Function.update_self]
    omega
  · rename_i hstay
    rcases hkeep with hne | hdue
    · have hlow : ¬ l.nextIndex p > 1 := fun hgt => hstay ⟨by simpa using hne, hgt⟩
      omega
    · exact hdue

theorem backOff_other (l : RaftNode ι) {p j : ι} (ae : AppendEntries ι) (hj : j ≠ p) :
    (l.backOff p ae).nextIndex j = l.nextIndex j := by
  unfold RaftNode.backOff
  split
  · exact Function.update_of_ne hj _ _
  · rfl

theorem OnPace.backOff (h : l.OnPace peers) (hoffice : l.InOffice) {p : ι} (hp : p ∈ peers)
    {ae : AppendEntries ι} (hne : ae.entries ≠ []) : (l.backOff p ae).OnPace peers := by
  obtain ⟨hmatch, -, hstore, -⟩ := backOff_rest l p ae
  exact h.of_due hp hstore (hoffice.backOff_due (.inl hne)) fun j hj =>
    ⟨backOff_other l ae hj, congrFun hmatch j⟩

theorem OnPace.appendLost (h : l.OnPace peers) (hoffice : l.InOffice) {p : ι} (hp : p ∈ peers)
    {ae : AppendEntries ι} (hkeep : ae.entries ≠ [] ∨ l.nextIndex p ≤ l.store.log.length) :
    (l.appendLost p ae).OnPace peers := by
  let l₀ : RaftNode ι := { l with matchIndex := Function.update l.matchIndex p 0 }
  obtain ⟨hmatch, -⟩ := backOff_rest l₀ p ae
  have hdue : (l₀.backOff p ae).nextIndex p = (l.backOff p ae).nextIndex p := by
    simp only [RaftNode.backOff, l₀]
    split <;> rfl
  refine h.of_due hp (appendLost_store l p ae) ?_ fun j hj => ⟨backOff_other l₀ ae hj, ?_⟩
  · exact hdue ▸ hoffice.backOff_due hkeep
  · rw [show (l.appendLost p ae).matchIndex = l₀.matchIndex from hmatch]
    exact Function.update_of_ne hj _ _

/-- An acknowledged batch, with everyone connected who is known to have everything: with no
one due any more, the commit rule counts every node. -/
theorem OnPace.acknowledged (h : l.OnPace peers) (hoffice : l.InOffice) {p : ι} {ae : AppendEntries ι}
    (hae : ae.prevLogIndex + ae.entries.length ≤ l.store.log.length) {connected : ι → Bool}
    (hconn : ∀ j ∈ peers, j = p ∨ l.store.log.length ≤ l.matchIndex j → connected j = true) :
    ((l.matched p ae).advanceCommitIndex peers connected).OnPace peers := by
  have hoffice₁ : (l.matched p ae).InOffice := hoffice.acknowledged p hae
  obtain ⟨hnext, hmatch⟩ := advanceCommitIndex_vectors (l.matched p ae) peers connected
  have hlog : ((l.matched p ae).advanceCommitIndex peers connected).store.log = l.store.log :=
    advanceCommitIndex_log _ _ _
  have hother : ∀ j, j ≠ p → (l.matched p ae).matchIndex j = l.matchIndex j := by
    intro j hj
    rw [matched_matchIndex, if_neg hj]
  have hheard : ∀ j ∈ peers, (l.matched p ae).nextIndex j ≤ l.store.log.length ∨
      l.store.log.length ≤ (l.matched p ae).matchIndex j := by
    intro j hj
    by_cases hjp : j = p
    · simp only [RaftNode.matched, hjp, Function.update_self]
      omega
    · rw [hother j hjp, show (l.matched p ae).nextIndex j = l.nextIndex j from Function.update_of_ne hjp _ _]
      exact h.heard j hj
  refine ⟨fun j hj => ?_, ?_⟩
  · rw [hnext, hmatch, hlog]
    exact hheard j hj
  · rw [hnext, hlog]
    by_cases hdue : ∃ j ∈ peers, (l.matched p ae).nextIndex j ≤ l.store.log.length
    · exact .inr hdue
    · have hall : ∀ j ∈ peers, (connected j &&
          decide ((l.matched p ae).matchIndex j ≥ l.store.log.length)) = true := by
        intro j hj
        have hhas := (hheard j hj).resolve_left fun hlow => hdue ⟨j, hj, hlow⟩
        rw [Bool.and_eq_true, decide_eq_true_eq]
        refine ⟨hconn j hj ?_, hhas⟩
        by_cases hjp : j = p
        · exact .inl hjp
        · exact .inr (hother j hjp ▸ hhas)
      have hcount : majority peers ≤
          (l.matched p ae).replicaCount peers connected l.store.log.length := by
        rw [replicaCount, List.filter_eq_self.mpr hall]
        exact majority_le peers
      by_cases hle : l.store.commitIndex ≤ l.store.log.length
      · exact .inl ((hoffice₁.advance_eq_last peers connected).mpr (.inr ⟨hle, hcount⟩)).ge
      · have hpast := mt (hoffice₁.advance_commit_le peers connected).mp hle
        exact .inl (Nat.le_of_lt (Nat.lt_of_not_le hpast))

end RaftNode

/-! ## The runs of a leader -/

/-- A leader and its requests whose `sendRPC` has not returned. -/
structure Leadership (ι : Type) where
  node : RaftNode ι
  calls : List (ι × AppendEntries ι)

inductive LeaderMove (ι : Type) where
  /-- The append of `submit` or `get`. -/
  | append (cmd : Command)
  /-- `sendAppendEntries` for `p`, up to `sendRPC`. -/
  | send (p : ι)
  /-- `sendRPC` number `k` returns `resp`, while these peers are connected. -/
  | reply (k : Nat) (connected : ι → Bool) (resp : AppendEntriesResponse)
  /-- `sendRPC` number `k` returns nothing. -/
  | lost (k : Nat)

variable [DecidableEq ι] (self : ι) (peers : List ι)

/-- What a leader does until a reply of a later term ends its leadership. -/
inductive LeaderStep (s : Leadership ι) : LeaderMove ι → Leadership ι → Prop where
  | append {cmd : Command} : LeaderStep s (.append cmd) { s with node := (s.node.appendOwn cmd).1 }
  | send {p : ι} (hp : p ∈ peers) :
      LeaderStep s (.send p) { s with calls := s.calls ++ [(p, s.node.buildAppendEntries self p)] }
  | reply {k : Nat} {p : ι} {ae : AppendEntries ι} {connected : ι → Bool}
      {resp : AppendEntriesResponse} (hcall : s.calls[k]? = some (p, ae))
      (hterm : resp.term ≤ s.node.store.term) :
      LeaderStep s (.reply k connected resp)
        ⟨s.node.appendReply peers connected p ae resp, s.calls.eraseIdx k⟩
  | lost {k : Nat} {p : ι} {ae : AppendEntries ι} (hcall : s.calls[k]? = some (p, ae)) :
      LeaderStep s (.lost k) ⟨s.node.appendLost p ae, s.calls.eraseIdx k⟩

/-- All runs from `becomeLeader` of the candidate `n` on. -/
def leaderSystem (n : RaftNode ι) : TransitionSystem (Leadership ι) (LeaderMove ι) where
  init := ⟨n.becomeLeader self, []⟩
  step := LeaderStep self peers

/-- No empty heartbeat is lost to a peer whose `nextIndex` is past the log, and a successful
reply to a batch is processed only while that peer, and every one known to have everything, is
connected. -/
def KeepsPace (s : Leadership ι) : LeaderMove ι → Prop
  | .lost k => ∀ p ae, s.calls[k]? = some (p, ae) →
      ae.entries ≠ [] ∨ s.node.nextIndex p ≤ s.node.store.log.length
  | .reply k connected resp => ∀ p ae, s.calls[k]? = some (p, ae) → resp.success = true →
      ae.entries ≠ [] →
        ∀ j ∈ peers, j = p ∨ s.node.store.log.length ≤ s.node.matchIndex j → connected j = true
  | _ => True

/-- The leader is in office, and its requests are within its log. -/
structure Leadership.Running (s : Leadership ι) : Prop where
  office : s.node.InOffice
  calls : ∀ x ∈ s.calls, x.1 ∈ peers ∧
    x.2.prevLogIndex + x.2.entries.length ≤ s.node.store.log.length

variable {self peers} {s s' : Leadership ι} {m : LeaderMove ι}

namespace Leadership

omit [DecidableEq ι] in
theorem Running.call (h : s.Running peers) {k : Nat} {p : ι} {ae : AppendEntries ι}
    (hcall : s.calls[k]? = some (p, ae)) :
    p ∈ peers ∧ ae.prevLogIndex + ae.entries.length ≤ s.node.store.log.length :=
  h.calls _ (List.mem_of_getElem? hcall)

theorem Running.step (h : s.Running peers) (hstep : LeaderStep self peers s m s') :
    s'.Running peers := by
  have hrest : ∀ (k : Nat) (l : RaftNode ι), l.store.log = s.node.store.log →
      ∀ x ∈ s.calls.eraseIdx k, x.1 ∈ peers ∧
        x.2.prevLogIndex + x.2.entries.length ≤ l.store.log.length := by
    intro k l hlog x hx
    rw [hlog]
    exact h.calls x (List.mem_of_mem_eraseIdx hx)
  cases hstep with
  | @append cmd =>
    refine ⟨h.office.appendOwn cmd, fun x hx => ⟨(h.calls x hx).1, (h.calls x hx).2.trans ?_⟩⟩
    exact List.IsPrefix.length_le (List.prefix_append _ _)
  | @send p hp =>
    refine ⟨h.office, fun x hx => ?_⟩
    rcases List.mem_append.mp hx with hx | hx
    · exact h.calls x hx
    · rw [List.mem_singleton.mp hx]
      exact ⟨hp, (h.office.request self p).2.le⟩
  | @reply k p ae connected resp hcall hterm =>
    obtain ⟨-, hae⟩ := h.call hcall
    refine ⟨?_, hrest k _ (RaftNode.appendReply_log _ _ _ _ _ _)⟩
    rcases s.node.appendReply_cases peers connected p ae resp with
      ⟨hlate, -⟩ | ⟨-, -, -, heq⟩ | ⟨-, heq⟩
    · omega
    · rw [heq]
      exact (h.office.acknowledged p hae).advance peers connected
    · rw [heq]
      exact h.office.backOff p ae
  | @lost k p ae hcall =>
    exact ⟨h.office.appendLost p ae, hrest k _ (by rw [RaftNode.appendLost_store])⟩

theorem Running.onPace_step (h : s.Running peers) (hne : peers ≠ []) (hpace : s.node.OnPace peers)
    (hkeeps : KeepsPace peers s m) (hstep : LeaderStep self peers s m s') : s'.node.OnPace peers := by
  cases hstep with
  | @append cmd =>
    refine .of_behind hne fun j => ?_
    rw [show (s.node.appendOwn cmd).1.store.log = s.node.store.log ++ [_] from rfl, List.length_append]
    exact h.office.next_le j
  | send hp => exact hpace
  | @reply k p ae connected resp hcall hterm =>
    obtain ⟨hp, hae⟩ := h.call hcall
    by_cases hempty : ae.entries = []
    · have hsame : s.node.backOff p ae = s.node := by
        simp [RaftNode.backOff, hempty]
      rw [RaftNode.appendReply_rejected _ _ _ _ _ hterm (by simp [hempty]), hsame]
      exact hpace
    · by_cases hok : resp.success = true
      · rw [RaftNode.appendReply_acknowledged _ _ _ _ _ hterm hok hempty]
        exact hpace.acknowledged h.office hae (hkeeps p ae hcall hok hempty)
      · rw [RaftNode.appendReply_rejected _ _ _ _ _ hterm (by simp [hok])]
        exact hpace.backOff h.office hp hempty
  | @lost k p ae hcall =>
    exact hpace.appendLost h.office (h.call hcall).1 (hkeeps p ae hcall)

end Leadership

/-- For every node that becomes leader, over all runs of appends, requests, replies and losses:
in every state a successful round commits the whole log exactly if `RoundReaches` holds there,
and in a run whose steps keep pace exactly if the commit index is within the log. -/
theorem successful_round_commits (self : ι) (peers : List ι) (n : RaftNode ι)
    (hcand : n.state = .candidate) (hwf : n.store.Wf) (hne : peers ≠ []) :
    (∀ s, (leaderSystem self peers n).Reach (fun _ _ => True) s →
      (s.node.RoundCommits self peers ↔ s.node.RoundReaches peers)) ∧
    (∀ s, (leaderSystem self peers n).Reach (KeepsPace peers) s →
      (s.node.RoundCommits self peers ↔ s.node.store.commitIndex ≤ s.node.store.log.length)) := by
  have hoffice : (n.becomeLeader self).InOffice := .of_becomeLeader hcand hwf
  have hinit : (leaderSystem self peers n).init.Running peers := ⟨hoffice, by simp [leaderSystem]⟩
  have hrunning : ∀ s, (leaderSystem self peers n).Reach (fun _ _ => True) s → s.Running peers := by
    intro s hs
    exact hs.invariant hinit fun _ _ _ _ h _ hstep => h.step hstep
  refine ⟨fun s hs => (hrunning s hs).office.roundCommits_iff, fun s hs => ?_⟩
  have hpace : (n.becomeLeader self).OnPace peers := by
    refine .of_behind hne fun j => ?_
    have hlog : (n.becomeLeader self).store.log = n.store.log ++ [n.noopEntry] :=
      congrArg Consensus.Peer.log (RaftNode.becomeLeader_peer self hcand)
    rw [RaftNode.becomeLeader_nextIndex self hcand, hlog, List.length_append, hwf.length]
    exact le_refl _
  have hall : s.Running peers ∧ s.node.OnPace peers :=
    hs.invariant (I := fun s => s.Running peers ∧ s.node.OnPace peers) ⟨hinit, hpace⟩
      fun _ _ _ _ h hkeeps hstep => ⟨h.1.step hstep, h.1.onPace_step hne h.2 hkeeps hstep⟩
  exact hall.1.office.roundCommits_iff.trans hall.2.reaches_iff

/-- A candidate of term 1 that has nothing yet. -/
def firstCandidate : RaftNode Nat where
  store := {
    term := 1, lastLogTerm := 0, voted := some 0, logLength := 0, log := []
    commitIndex := 0, lastApplied := 0 }
  sm := .empty
  state := .candidate
  currentLeaderId := none
  nextIndex _ := 0
  matchIndex _ := 0
  trace := []

theorem firstCandidate_wf : firstCandidate.store.Wf := ⟨rfl, rfl, Indexed.nil⟩

/-- A write is appended, and the batch for the first of two peers is lost. -/
theorem successful_round_commits_lostBatch :
    ∃ s, (leaderSystem 0 [1, 2] firstCandidate).Reach (KeepsPace [1, 2]) s ∧
      s.node.store.log.length = 2 ∧ s.node.RoundCommits 0 [1, 2] := by
  have hinit : (leaderSystem 0 [1, 2] firstCandidate).Reach (KeepsPace [1, 2]) _ := .init
  have happend := hinit.step (a := LeaderMove.append { oper := .put, key := [1] }) trivial LeaderStep.append
  have hsend := happend.step (a := LeaderMove.send 1) trivial (LeaderStep.send (by decide))
  have hlost := hsend.step (a := LeaderMove.lost 0) (by
    rintro p ae hcall
    cases hcall
    exact .inl (by decide)) (LeaderStep.lost rfl)
  exact ⟨_, hlost, rfl, ((successful_round_commits 0 [1, 2] firstCandidate rfl firstCandidate_wf
    (by decide)).2 _ hlost).mpr (by decide)⟩

/-- The peer `p` acknowledges everything, and the empty heartbeat after that is lost. -/
def acknowledgedThenLost (self : ι) (peers : List ι) (l : RaftNode ι) (p : ι) : RaftNode ι :=
  let l₁ := l.answeredCall self peers p
  l₁.appendLost p (l₁.buildAppendEntries self p)

theorem reach_acknowledgedThenLost {n l : RaftNode ι} {p : ι} (hp : p ∈ peers)
    (h : (leaderSystem self peers n).Reach (fun _ _ => True) ⟨l, []⟩) :
    (leaderSystem self peers n).Reach (fun _ _ => True) ⟨acknowledgedThenLost self peers l p, []⟩ := by
  have hsend := h.step (a := LeaderMove.send p) trivial (LeaderStep.send hp)
  have hreply := hsend.step (a := LeaderMove.reply 0 (fun _ => true) ⟨l.store.term, true⟩) trivial
    (LeaderStep.reply rfl (le_refl _))
  have hsend' := hreply.step (a := LeaderMove.send p) trivial (LeaderStep.send hp)
  exact hsend'.step (a := LeaderMove.lost 0) trivial (LeaderStep.lost rfl)

/-- Five nodes. Three of the four peers acknowledge the no-op and then lose an empty heartbeat
each: a round that everyone answers leaves the no-op uncommitted. -/
theorem successful_round_stuck :
    ∃ s, (leaderSystem 0 [1, 2, 3, 4] firstCandidate).Reach (fun _ _ => True) s ∧
      ¬ s.node.RoundCommits 0 [1, 2, 3, 4] := by
  have hinit : (leaderSystem 0 [1, 2, 3, 4] firstCandidate).Reach (fun _ _ => True) _ := .init
  have h₁ := reach_acknowledgedThenLost (p := 1) (by decide) hinit
  have h₂ := reach_acknowledgedThenLost (p := 2) (by decide) h₁
  have h₃ := reach_acknowledgedThenLost (p := 3) (by decide) h₂
  refine ⟨_, h₃, ?_⟩
  unfold RaftNode.RoundCommits
  decide +kernel

end RaftKv
