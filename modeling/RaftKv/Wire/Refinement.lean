-- SUMMARY: The node on words and files refines the node of the protocol model, section by section and over every sequence of sections.
import RaftKv.Refinement.Store
import RaftKv.Wire.Node
import RaftKv.Wire.Words

/-!
# The node of the model, in words

`Represents` relates a node on words to a node of the protocol model: the store keeps what the
model's store says, and the fields in memory are the model's. Each section of `RaftNode.h` that is
started from related nodes with numbers that fit ends without a fault, in related nodes and with
the same message.
-/

namespace RaftKv.Wire

open Storage NodeIds

/-! ## Messages -/

section Messages

variable {ι : Type}

structure VoteFits (rpc : RaftKv.RequestVote ι) : Prop where
  term : Fits rpc.term
  lastLogIndex : Fits rpc.lastLogIndex
  lastLogTerm : Fits rpc.lastLogTerm

/-- The numbers fit, and so does every position up to the one after the batch. -/
structure AppendFits (rpc : RaftKv.AppendEntries ι) : Prop where
  term : Fits rpc.term
  prevLogTerm : Fits rpc.prevLogTerm
  leaderCommit : Fits rpc.leaderCommit
  entries : ∀ e ∈ rpc.entries, EntryFits e
  positions : Fits (rpc.prevLogIndex + rpc.entries.length + 1)

theorem AppendFits.prevLogIndex {rpc : RaftKv.AppendEntries ι} (h : AppendFits rpc) :
    Fits rpc.prevLogIndex := h.positions.of_le (by omega)

variable [NodeIds ι]

def voteWords (rpc : RaftKv.RequestVote ι) : RequestVote where
  term := UInt64.ofNat rpc.term
  candidateId := idOf rpc.candidateId
  lastLogIndex := UInt64.ofNat rpc.lastLogIndex
  lastLogTerm := UInt64.ofNat rpc.lastLogTerm

def voteReplyWords (resp : RaftKv.RequestVoteResponse) : RequestVoteResponse where
  term := UInt64.ofNat resp.term
  voteGranted := resp.voteGranted

def appendWords [Host] (rpc : RaftKv.AppendEntries ι) : AppendEntries where
  term := UInt64.ofNat rpc.term
  leaderId := idOf rpc.leaderId
  prevLogIndex := UInt64.ofNat rpc.prevLogIndex
  prevLogTerm := UInt64.ofNat rpc.prevLogTerm
  leaderCommit := UInt64.ofNat rpc.leaderCommit
  entries := rpc.entries.map entryWords

def appendReplyWords (resp : RaftKv.AppendEntriesResponse) : AppendEntriesResponse where
  term := UInt64.ofNat resp.term
  success := resp.success

end Messages

/-- `current_leader_id`. -/
def leaderNumber {ι : Type} [NodeIds ι] : Option ι → Int
  | none => 0
  | some id => (idOf id).toNat

theorem toInt_of_lt {x : UInt64} (h : x.toNat < 2147483648) : toInt x = x.toNat := by
  unfold toInt
  exact Int.bmod_eq_of_le_mul_two (by omega) (by omega)

theorem ofInt_toNat (x : UInt64) : UInt64.ofInt (x.toNat : Int) = x := by
  have hx := x.toNat_lt
  have hmod : ((x.toNat : Int) % 2 ^ 64).toNat = x.toNat := by omega
  rw [UInt64.ofInt, hmod, UInt64.ofNat_toNat]

theorem mem_readRange {ι : Type} {d : Store ι} {i j : Nat} {e : RaftKv.LogEntry}
    (he : e ∈ d.readRange i j) : e ∈ d.log := by
  rw [Store.readRange] at he
  split at he
  · cases he
  split at he
  · cases he
  · exact List.mem_of_mem_take (List.mem_of_mem_drop he)

/-! ## The relation -/

namespace Node

variable [Host] {ι : Type} [NodeIds ι]

/-- The node on words is the node of the model, which is `me` among these `peers`. -/
structure Represents (me : ι) (peers : List ι) (w : Node) (n : RaftNode ι) : Prop where
  nodeId : w.nodeId = (idOf me).toNat
  store : w.store.Keeps n.store
  sm : w.sm = n.sm
  state : w.state = n.state
  leader : w.currentLeaderId = leaderNumber n.currentLeaderId
  nextIndex : ∀ (k : Nat) p, peers[k]? = some p → (w.nextIndex k).toNat = n.nextIndex p
  matchIndex : ∀ (k : Nat) p, peers[k]? = some p → (w.matchIndex k).toNat = n.matchIndex p
  room : ∀ p ∈ peers, Fits (n.matchIndex p + 1)

variable {me : ι} {peers : List ι} {w : Node} {n : RaftNode ι}

/-- A persistent operation on both. -/
theorem Represents.persist (h : Represents me peers w n) {s : Storage} {d : Store ι}
    (hs : s.Keeps d) : Represents me peers { w with store := s } (n.persist d) :=
  ⟨h.nodeId, hs, h.sm, h.state, h.leader, h.nextIndex, h.matchIndex, h.room⟩

theorem Represents.emit (h : Represents me peers w n) (e : Event ι) :
    Represents me peers w (n.emit e) :=
  ⟨h.nodeId, h.store, h.sm, h.state, h.leader, h.nextIndex, h.matchIndex, h.room⟩

theorem Represents.withStore (h : Represents me peers w n) {s : Storage} {d : Store ι}
    (hs : s.Keeps d) : Represents me peers { w with store := s } { n with store := d } :=
  ⟨h.nodeId, hs, h.sm, h.state, h.leader, h.nextIndex, h.matchIndex, h.room⟩

theorem Represents.withState (h : Represents me peers w n) (state : NodeState) :
    Represents me peers { w with state } { n with state } :=
  ⟨h.nodeId, h.store, h.sm, rfl, h.leader, h.nextIndex, h.matchIndex, h.room⟩

theorem Represents.withLeader (h : Represents me peers w n) (leader : Option ι) :
    Represents me peers { w with currentLeaderId := leaderNumber leader }
      { n with currentLeaderId := leader } :=
  ⟨h.nodeId, h.store, h.sm, h.state, rfl, h.nextIndex, h.matchIndex, h.room⟩

/-! ## The volatile indices -/

theorem keeps_setCommit {s : Storage} {d : Store ι} (h : s.Keeps d) {c : UInt64} {c' : Nat}
    (hc : c.toNat = c') : (s.setCommit c).Keeps (d.setCommit c') :=
  ⟨h.file, h.fits, h.term, h.lastLogTerm, h.voted, h.logLength, hc, h.lastApplied, h.saved⟩

theorem keeps_setApplied {s : Storage} {d : Store ι} (h : s.Keeps d) {a : UInt64} {a' : Nat}
    (ha : a.toNat = a') : (s.setApplied a).Keeps (d.setApplied a') :=
  ⟨h.file, h.fits, h.term, h.lastLogTerm, h.voted, h.logLength, h.commitIndex, ha, h.saved⟩

/-! ## The index vectors -/

omit [Host] [NodeIds ι] in
/-- One position of a vector and one peer of the map change together. -/
theorem update_represents [DecidableEq ι] (hnodup : peers.Nodup) {f : Nat → UInt64} {g : ι → Nat}
    (h : ∀ (k : Nat) p, peers[k]? = some p → (f k).toNat = g p) {k : Nat} {p : ι}
    (hk : peers[k]? = some p) {x : UInt64} {i : Nat} (hx : x.toNat = i) :
    ∀ (k' : Nat) p', peers[k']? = some p' →
      (Function.update f k x k').toNat = Function.update g p i p' := by
  intro k' p' hk'
  by_cases hsame : k' = k
  · subst hsame
    obtain rfl : p = p' := Option.some.inj (hk.symm.trans hk')
    rw [Function.update_self, Function.update_self, hx]
  · have hother : p' ≠ p := by
      rintro rfl
      have hlt : k < peers.length := (List.getElem?_eq_some_iff.mp hk).1
      exact hsame ((List.getElem?_inj hlt hnodup).mp (hk.trans hk'.symm)).symm
    rw [Function.update_of_ne hsame, Function.update_of_ne hother, h k' p' hk']

/-! ## Comparisons -/

theorem Represents.term_lt (h : Represents me peers w n) {t : Nat} (ht : Fits t) :
    UInt64.ofNat t < w.store.term ↔ t < n.store.term := by
  rw [UInt64.lt_iff_toNat_lt, ht.toNat, h.store.term]

theorem Represents.lt_term (h : Represents me peers w n) {t : Nat} (ht : Fits t) :
    w.store.term < UInt64.ofNat t ↔ n.store.term < t := by
  rw [UInt64.lt_iff_toNat_lt, ht.toNat, h.store.term]

theorem Represents.term_eq (h : Represents me peers w n) : w.store.term = UInt64.ofNat n.store.term := by
  rw [← h.store.term, UInt64.ofNat_toNat]

/-! ## Applying entries -/

theorem applyEntries_map {es : List RaftKv.LogEntry} (hes : ∀ e ∈ es, EntryFits e) (w : Node) :
    w.applyEntries (es.map entryWords) = .ok { w with sm := w.sm.applyAll (es.map (·.command)) } := by
  induction es generalizing w with
  | nil => rfl
  | cons e es ih =>
    rw [List.map_cons, applyEntries, (hes e List.mem_cons_self).getCommand]
    show applyEntries { w with sm := w.sm.apply e.command } (es.map entryWords) = _
    rw [ih fun e' he' => hes e' (List.mem_cons_of_mem _ he')]
    rfl

theorem Represents.applyEntries (h : Represents me peers w n) (start : Nat)
    {es : List RaftKv.LogEntry} (hes : ∀ e ∈ es, EntryFits e) :
    ∃ w', w.applyEntries (es.map entryWords) = .ok w' ∧ w'.store = w.store ∧
      Represents me peers w' (n.applyEntries start es) := by
  refine ⟨_, applyEntries_map hes w, rfl, ?_⟩
  have hsm : w.sm.applyAll (es.map (·.command)) = n.sm.applyAll (es.map (·.command)) := by rw [h.sm]
  exact ⟨h.nodeId, h.store, hsm, h.state, h.leader, h.nextIndex, h.matchIndex, h.room⟩

theorem Represents.applyCommitted (h : Represents me peers w n) :
    ∃ w', w.applyCommitted = .ok w' ∧ Represents me peers w' n.applyCommitted := by
  have hcommit : w.store.commitIndex > w.store.lastApplied ↔
      n.store.commitIndex > n.store.lastApplied := by
    rw [gt_iff_lt, UInt64.lt_iff_toNat_lt, h.store.commitIndex, h.store.lastApplied]
  unfold Node.applyCommitted RaftNode.applyCommitted
  simp only
  by_cases hnew : n.store.commitIndex > n.store.lastApplied
  · rw [if_pos (hcommit.mpr hnew), if_pos hnew]
    have hfits : Fits (w.store.lastApplied.toNat + 1) := by
      have hlt := w.store.commitIndex.toNat_lt
      rw [h.store.commitIndex] at hlt
      rw [h.store.lastApplied]
      exact lt_of_le_of_lt hnew hlt
    rw [h.store.readRange, toNat_succ hfits, h.store.lastApplied, h.store.commitIndex]
    obtain ⟨w', hw', hstore, h'⟩ := h.applyEntries (n.store.lastApplied + 1) fun e he =>
      h.store.fits e (mem_readRange he)
    refine ⟨{ w' with store := w'.store.setApplied w.store.commitIndex }, ?_, ?_⟩
    · show (Node.applyEntries w _ >>= _) = _
      rw [hw']
      rfl
    · exact h'.withStore (keeps_setApplied h'.store h.store.commitIndex)
  · exact ⟨w, if_neg (mt hcommit.mp hnew), by rwa [if_neg hnew]⟩

/-! ## Restart -/

theorem Represents.replay (h : Represents me peers w n) :
    ∃ w', w.replay = .ok w' ∧ Represents me peers w' n.replay := by
  obtain ⟨w', hw', hstore, h'⟩ := h.applyEntries 1 h.store.fits
  have hlast : (n.store.log.map entryWords).getLast? = n.store.log.getLast?.map entryWords :=
    List.getLast?_map
  unfold Node.replay
  rw [h.store.readAll]
  show ∃ w'', ((w.applyEntries (n.store.log.map entryWords)) >>= _) = _ ∧ _
  rw [hw']
  cases hd : n.store.log.getLast? with
  | none =>
    rw [hd, Option.map_none] at hlast
    have hcore : n.replay = n.applyEntries 1 n.store.log := by
      unfold RaftNode.replay
      simp only [hd]
    exact ⟨w', by simp only [bind, Except.bind, hlast]; rfl, hcore ▸ h'⟩
  | some e =>
    rw [hd, Option.map_some] at hlast
    have he := h.store.fits e (List.mem_of_getLast? hd)
    have hcore : n.replay = { n.applyEntries 1 n.store.log with
        store := (n.store.setApplied e.index).setCommit e.index } := by
      unfold RaftNode.replay
      simp only [hd]
      rfl
    refine ⟨_, by simp only [bind, Except.bind, hlast]; rfl, ?_⟩
    rw [hcore]
    exact h'.withStore (keeps_setCommit (keeps_setApplied h'.store he.index.toNat) he.index.toNat)

/-- A node that starts on the files that a node left. -/
theorem Represents.start (h : Represents me peers w n) (trace : List (Event ι)) :
    ∃ w', Node.start w.nodeId w.store.files = .ok w' ∧
      Represents me peers w' (RaftNode.start n.store.disk trace) := by
  obtain ⟨store, hopen, hstore⟩ := h.store.reopen
  have hfresh : Represents me peers { nodeId := w.nodeId, store }
      { store := .reopen n.store.disk, sm := .empty, state := .follower, currentLeaderId := none,
        nextIndex := fun _ => 0, matchIndex := fun _ => 0, trace } :=
    ⟨h.nodeId, hstore, rfl, rfl, rfl, fun _ _ _ => rfl, fun _ _ _ => rfl, fun _ _ => fits_one⟩
  obtain ⟨w', hw', h'⟩ := hfresh.replay
  refine ⟨w', ?_, h'⟩
  rw [Node.start, hopen]
  exact hw'

/-! ## Elections -/

theorem buildRequestVote_keeps {s : Storage} {d : Store ι} (h : s.Keeps d) :
    buildRequestVote s (idOf me) = voteWords
      { term := d.term, candidateId := me, lastLogIndex := d.logLength, lastLogTerm := d.lastLogTerm } := by
  simp only [buildRequestVote, voteWords, logLen, getLastLogTerm, ← h.term, ← h.logLength,
    ← h.lastLogTerm, UInt64.ofNat_toNat]

theorem Represents.startElection (h : Represents me peers w n) (hterm : Fits (n.store.term + 1)) :
    w.startElection.2 = voteWords (n.startElection me).2 ∧
      Represents me peers w.startElection.1 (n.startElection me).1 := by
  have hnext : w.store.term + 1 = UInt64.ofNat (n.store.term + 1) := by
    rw [UInt64.ofNat_add, ← h.term_eq]
    rfl
  have hvote : ofString (toString w.nodeId) = voteText (some me) := by
    rw [h.nodeId]
    rfl
  have hme : UInt64.ofInt w.nodeId = idOf me := by rw [h.nodeId, ofInt_toNat]
  have hstore := (h.store.setTerm hterm).setVoted (some me)
  unfold Node.startElection
  simp only [hnext, hvote, hme]
  exact ⟨buildRequestVote_keeps hstore, (((((h.withLeader none).withState .candidate).persist
    (h.store.setTerm hterm)).persist hstore).emit _)⟩

/-- Taking over a later term as a follower. -/
theorem Represents.adopt (h : Represents me peers w n) {t : Nat} (ht : Fits t) :
    Represents me peers { w with store := (w.store.setTerm (UInt64.ofNat t)).setVoted [] }
      ((n.persist (n.store.setTerm t)).persist ((n.store.setTerm t).setVoted none)) :=
  (h.persist (h.store.setTerm ht)).persist ((h.store.setTerm ht).setVoted none)

theorem Represents.voteReply (h : Represents me peers w n) (votes : Nat)
    {resp : RaftKv.RequestVoteResponse} (hresp : Fits resp.term) :
    ∃ w', w.voteReply votes (voteReplyWords resp).serialize = .ok (w', (n.voteReply votes resp).2) ∧
      Represents me peers w' (n.voteReply votes resp).1 := by
  have htag : (voteReplyWords resp).serialize.head? = some (tag 'W') := rfl
  unfold Node.voteReply RaftNode.voteReply
  rw [if_pos htag, RequestVoteResponse.deserialize_serialize]
  show ∃ w', (if (voteReplyWords resp).term > w.store.term then _ else _) = _ ∧ _
  have hcond : (voteReplyWords resp).term > w.store.term ↔ resp.term > n.store.term := h.lt_term hresp
  by_cases hlater : resp.term > n.store.term
  · rw [if_pos (hcond.mpr hlater), if_pos hlater]
    exact ⟨_, rfl, ((h.adopt hresp).withState .follower).withLeader none⟩
  · rw [if_neg (mt hcond.mp hlater), if_neg hlater]
    show ∃ w', (if resp.voteGranted = true then _ else _) = _ ∧ _
    split
    · exact ⟨w, rfl, h⟩
    · exact ⟨w, rfl, h⟩

/-! ## The entry a leader appends -/

theorem Represents.ownEntry (h : Represents me peers w n) (cmd : Command) :
    LogEntry.ofCommand w.store.term (w.store.logLen + 1) cmd =
      entryWords ⟨n.store.term, n.store.logLength + 1, cmd⟩ := by
  have hindex : w.store.logLen + 1 = UInt64.ofNat (n.store.logLength + 1) := by
    rw [UInt64.ofNat_add, ← h.store.logLength, UInt64.ofNat_toNat]
    rfl
  rw [hindex, h.term_eq]
  rfl

theorem Represents.ownFits (h : Represents me peers w n) (hindex : Fits (n.store.logLength + 1))
    {cmd : Command} (hcmd : cmd.Short) :
    EntryFits ⟨n.store.term, n.store.logLength + 1, cmd⟩ where
  term := by
    show Fits n.store.term
    rw [← h.store.term]
    exact fits_toNat _
  index := hindex
  short := hcmd

theorem Represents.becomeLeader (h : Represents me peers w n) (hindex : Fits (n.store.logLength + 1)) :
    Represents me peers w.becomeLeader (n.becomeLeader me) := by
  unfold Node.becomeLeader RaftNode.becomeLeader
  rw [h.state]
  split
  · exact h
  · have hnext : (w.store.logLength + 1).toNat = n.store.logLength + 1 := by
      rw [toNat_succ (h.store.logLength ▸ hindex), h.store.logLength]
    have hshort : Command.Short { oper := .noop } := by decide
    have happend := h.store.append (h.ownFits hindex hshort)
    rw [← h.ownEntry] at happend
    exact ⟨h.nodeId, happend, h.sm, rfl, h.nodeId, fun _ _ _ => hnext, fun _ _ _ => rfl,
      fun _ _ => fits_one⟩

/-! ## Votes -/

theorem voted_iff {s : Storage} {d : Store ι} (h : s.Keeps d) (id : ι) :
    (s.voted = [] ∨ s.voted = ofString (toString (idOf id).toNat)) ↔
      (d.voted = none ∨ d.voted = some id) := by
  have hnone : s.voted = [] ↔ d.voted = none := by
    rw [h.voted]
    exact voteText_injective.eq_iff (b := none)
  have hsome : s.voted = ofString (toString (idOf id).toNat) ↔ d.voted = some id := by
    rw [h.voted]
    exact voteText_injective.eq_iff (b := some id)
  rw [hnone, hsome]

/-- `logOk`. -/
theorem logOk_iff {s : Storage} {d : Store ι} (h : s.Keeps d)
    {rpc : RaftKv.RequestVote ι} (hrpc : VoteFits rpc) :
    ((voteWords rpc).lastLogTerm > s.lastLogTerm ∨
      ((voteWords rpc).lastLogTerm = s.lastLogTerm ∧ (voteWords rpc).lastLogIndex ≥ s.logLength)) ↔
    (rpc.lastLogTerm > d.lastLogTerm ∨
      (rpc.lastLogTerm = d.lastLogTerm ∧ rpc.lastLogIndex ≥ d.logLength)) := by
  have hlt : (voteWords rpc).lastLogTerm > s.lastLogTerm ↔ rpc.lastLogTerm > d.lastLogTerm := by
    rw [gt_iff_lt, UInt64.lt_iff_toNat_lt, h.lastLogTerm, voteWords, hrpc.lastLogTerm.toNat]
  have heq : (voteWords rpc).lastLogTerm = s.lastLogTerm ↔ rpc.lastLogTerm = d.lastLogTerm := by
    rw [← UInt64.toNat_inj, h.lastLogTerm, voteWords, hrpc.lastLogTerm.toNat]
  have hle : (voteWords rpc).lastLogIndex ≥ s.logLength ↔ rpc.lastLogIndex ≥ d.logLength := by
    rw [ge_iff_le, UInt64.le_iff_toNat_le, h.logLength, voteWords, hrpc.lastLogIndex.toNat]
  rw [hlt, heq, hle]

section Deciding

variable [DecidableEq ι]

/-- The last part of `handleRequestVote`, once the term is the request's or an earlier one. -/
theorem Represents.grant (h : Represents me peers w n) {rpc : RaftKv.RequestVote ι}
    (hrpc : VoteFits rpc) (resp : RaftKv.RequestVoteResponse) :
    let candidate := ofString (toString (voteWords rpc).candidateId.toNat)
    let words := if (w.store.voted = [] ∨ w.store.voted = candidate) ∧
        ((voteWords rpc).lastLogTerm > w.store.lastLogTerm ∨
          ((voteWords rpc).lastLogTerm = w.store.lastLogTerm ∧
            (voteWords rpc).lastLogIndex ≥ w.store.logLength)) then
        ({ w with store := w.store.setVoted candidate },
          { voteReplyWords resp with voteGranted := true })
      else (w, voteReplyWords resp)
    let numbers := if (n.store.voted = none ∨ n.store.voted = some rpc.candidateId) ∧
        (rpc.lastLogTerm > n.store.lastLogTerm ∨
          (rpc.lastLogTerm = n.store.lastLogTerm ∧ rpc.lastLogIndex ≥ n.store.logLength)) then
        (n.persist (n.store.setVoted (some rpc.candidateId)), { resp with voteGranted := true })
      else (n, resp)
    words.2 = voteReplyWords numbers.2 ∧ Represents me peers words.1 numbers.1 := by
  intro candidate words numbers
  have hcond := and_congr (voted_iff h.store rpc.candidateId) (logOk_iff h.store hrpc)
  by_cases hgrant : (n.store.voted = none ∨ n.store.voted = some rpc.candidateId) ∧
      (rpc.lastLogTerm > n.store.lastLogTerm ∨
        (rpc.lastLogTerm = n.store.lastLogTerm ∧ rpc.lastLogIndex ≥ n.store.logLength))
  · have hwords : words = _ := if_pos (hcond.mpr hgrant)
    have hnumbers : numbers = _ := if_pos hgrant
    rw [hwords, hnumbers]
    exact ⟨rfl, h.persist (h.store.setVoted (some rpc.candidateId))⟩
  · have hwords : words = _ := if_neg (mt hcond.mp hgrant)
    have hnumbers : numbers = _ := if_neg hgrant
    rw [hwords, hnumbers]
    exact ⟨rfl, h⟩

theorem Represents.handleRequestVote (h : Represents me peers w n)
    {rpc : RaftKv.RequestVote ι} (hrpc : VoteFits rpc) :
    (w.handleRequestVote (voteWords rpc)).2 = voteReplyWords (n.handleRequestVote rpc).2 ∧
      Represents me peers (w.handleRequestVote (voteWords rpc)).1 (n.handleRequestVote rpc).1 := by
  have hstale : (voteWords rpc).term < w.store.term ↔ rpc.term < n.store.term := h.term_lt hrpc.term
  have hlater : (voteWords rpc).term > w.store.term ↔ rpc.term > n.store.term := h.lt_term hrpc.term
  unfold Node.handleRequestVote RaftNode.handleRequestVote
  dsimp only
  by_cases hcase : rpc.term < n.store.term
  · rw [if_pos (hstale.mpr hcase), if_pos hcase]
    exact ⟨by rw [h.term_eq]; rfl, h⟩
  rw [if_neg (mt hstale.mp hcase), if_neg hcase]
  by_cases hnew : rpc.term > n.store.term
  · rw [if_pos (hlater.mpr hnew), if_pos hnew]
    exact (((h.adopt hrpc.term).withState .follower).withLeader none).grant hrpc ⟨rpc.term, false⟩
  · rw [if_neg (mt hlater.mp hnew), if_neg hnew, h.term_eq]
    exact h.grant hrpc ⟨n.store.term, false⟩

end Deciding

/-! ## The commit rule -/

omit [Host] [NodeIds ι] in
/-- Counting positions is counting peers. -/
theorem count_positions (peers : List ι) (f : Nat → Bool) (g : ι → Bool)
    (h : ∀ (k : Nat) p, peers[k]? = some p → f k = g p) :
    ((List.range peers.length).filter f).length = (peers.filter g).length := by
  induction peers generalizing f with
  | nil => rfl
  | cons p peers ih =>
    have hhead : f 0 = g p := h 0 p rfl
    have htail := ih (f ∘ Nat.succ) fun k q hk => h (k + 1) q hk
    rw [List.length_cons, List.range_succ_eq_map, List.filter_cons, List.filter_cons, hhead,
      List.filter_map]
    split
    · rw [List.length_cons, List.length_cons, List.length_map, htail]
    · rw [List.length_map, htail]

theorem Represents.replicaCount (h : Represents me peers w n) (connected : ι → Bool) {i : Nat}
    (hi : Fits i) : w.replicaCount peers.length (connectedAt peers connected) (UInt64.ofNat i) =
      n.replicaCount peers connected i := by
  unfold Node.replicaCount RaftNode.replicaCount
  rw [count_positions peers _ (fun p => connected p && decide (n.matchIndex p ≥ i)) ?_]
  intro k p hk
  have hmatch : w.matchIndex k ≥ UInt64.ofNat i ↔ n.matchIndex p ≥ i := by
    rw [ge_iff_le, UInt64.le_iff_toNat_le, hi.toNat, h.matchIndex k p hk]
  have hconn : connectedAt peers connected k = connected p := by
    rw [connectedAt, hk]
    rfl
  rw [hconn, decide_eq_decide.mpr hmatch]

theorem Represents.scanCommit (h : Represents me peers w n) (connected : ι → Bool) (f i : Nat)
    (x : UInt64) (hrange : i + f ≤ n.store.logLength + 1) :
    ∃ y, w.scanCommit peers.length (connectedAt peers connected) f (UInt64.ofNat i) x = .ok y ∧
      y.toNat = n.scanCommit peers connected (List.range' i f) x.toNat := by
  induction f generalizing i x with
  | zero => exact ⟨x, rfl, rfl⟩
  | succ f ih =>
    have hin : i ≤ n.store.logLength := by omega
    have hlog : Fits n.store.logLength := by
      rw [← h.store.logLength]
      exact fits_toNat _
    have hi : Fits i := hlog.of_le hin
    have hguard : UInt64.ofNat i ≤ w.store.logLength := by
      rw [UInt64.le_iff_toNat_le, hi.toNat, h.store.logLength]
      exact hin
    have hnext : UInt64.ofNat i + 1 = UInt64.ofNat (i + 1) := by
      rw [UInt64.ofNat_add]
      rfl
    obtain ⟨t, ht, hterm⟩ := h.store.getTermAt (i := UInt64.ofNat i)
    rw [hi.toNat] at hterm
    have hother : t ≠ w.store.term ↔ n.store.getTermAt i ≠ n.store.term := by
      rw [Ne, ← UInt64.toNat_inj, hterm, h.store.term]
    rw [Node.scanCommit, if_pos hguard, ht, List.range'_succ, RaftNode.scanCommit]
    show ∃ y, (if t ≠ w.store.term then _ else _) = _ ∧ _
    rw [hnext]
    by_cases hskip : n.store.getTermAt i ≠ n.store.term
    · rw [if_pos (hother.mpr hskip), if_pos hskip]
      exact ih (i + 1) x (by omega)
    · rw [if_neg (mt hother.mp hskip), if_neg hskip, h.replicaCount connected hi]
      show ∃ y, (if n.replicaCount peers connected i ≥ RaftNode.majority peers then _ else _) = _ ∧ _
      by_cases hcount : n.replicaCount peers connected i ≥ RaftNode.majority peers
      · rw [if_pos hcount, if_pos hcount]
        have hscan := ih (i + 1) (UInt64.ofNat i) (by omega)
        rwa [hi.toNat] at hscan
      · rw [if_neg hcount, if_neg hcount]
        exact ⟨x, rfl, rfl⟩

theorem Represents.advanceCommitIndex (h : Represents me peers w n) (connected : ι → Bool) :
    ∃ w', w.advanceCommitIndex peers.length (connectedAt peers connected) = .ok w' ∧
      Represents me peers w' (n.advanceCommitIndex peers connected) := by
  have hcommit := h.store.commitIndex
  have hfirst : w.store.commitIndex + 1 = UInt64.ofNat (n.store.commitIndex + 1) := by
    rw [UInt64.ofNat_add, ← hcommit, UInt64.ofNat_toNat]
    rfl
  -- a commit index past the log leaves no round to go
  obtain ⟨y, hscan, hy⟩ : ∃ y, w.scanCommit peers.length (connectedAt peers connected)
      (n.store.logLength - n.store.commitIndex) (UInt64.ofNat (n.store.commitIndex + 1))
        w.store.commitIndex = .ok y ∧
      y.toNat = n.scanCommit peers connected
        (List.range' (n.store.commitIndex + 1) (n.store.logLength - n.store.commitIndex))
          w.store.commitIndex.toNat := by
    rcases Nat.lt_or_ge n.store.commitIndex n.store.logLength with hbelow | hpast
    · exact h.scanCommit connected _ _ _ (by omega)
    · rw [Nat.sub_eq_zero_of_le hpast]
      exact ⟨_, rfl, rfl⟩
  rw [hcommit] at hy
  have hraised : y > w.store.commitIndex ↔ y.toNat > n.store.commitIndex := by
    rw [gt_iff_lt, UInt64.lt_iff_toNat_lt, hcommit]
  unfold Node.advanceCommitIndex RaftNode.advanceCommitIndex
  dsimp only
  rw [h.store.logLength, hcommit, hfirst, hscan, ← hy]
  show ∃ w', (if y > w.store.commitIndex then _ else _) = _ ∧ _
  by_cases hmore : y.toNat > n.store.commitIndex
  · rw [if_pos (hraised.mpr hmore), if_pos hmore]
    exact ((h.withStore (keeps_setCommit h.store rfl)).emit _).applyCommitted
  · rw [if_neg (mt hraised.mp hmore), if_neg hmore]
    exact ⟨w, rfl, h⟩

/-! ## Replication -/

theorem prevTerm_keeps {s : Storage} {d : Store ι} (h : s.Keeps d) (i : UInt64) :
    prevTerm s i = .ok (UInt64.ofNat (if i.toNat = 0 then 0 else d.getTermAt i.toNat)) := by
  have hzero : i = 0 ↔ i.toNat = 0 := UInt64.toNat_inj.symm
  unfold prevTerm
  by_cases hfirst : i.toNat = 0
  · rw [if_pos (hzero.mpr hfirst), if_pos hfirst]
    rfl
  · obtain ⟨t, ht, hterm⟩ := h.getTermAt (i := i)
    rw [if_neg (mt hzero.mp hfirst), if_neg hfirst, ht, ← hterm, UInt64.ofNat_toNat]

theorem missingEntries_keeps {s : Storage} {d : Store ι} (h : s.Keeps d) (i : UInt64) :
    missingEntries s i =
      .ok ((if i.toNat ≤ d.logLength then d.readFrom i.toNat else []).map entryWords) := by
  have hle : i ≤ s.logLen ↔ i.toNat ≤ d.logLength := by
    rw [UInt64.le_iff_toNat_le, logLen, h.logLength]
  unfold missingEntries
  by_cases hin : i.toNat ≤ d.logLength
  · rw [if_pos (hle.mpr hin), if_pos hin, h.readFrom]
  · rw [if_neg (mt hle.mp hin), if_neg hin]
    rfl

theorem Represents.sendAppendEntries (h : Represents me peers w n) {k : Nat} {p : ι}
    (hk : peers[k]? = some p) (hnext : 0 < n.nextIndex p) :
    w.sendAppendEntries k = .ok (appendWords (n.buildAppendEntries me p)) := by
  have hx := h.nextIndex k p hk
  have hone : (1 : UInt64) ≤ w.nextIndex k := by
    rw [UInt64.le_iff_toNat_le, hx]
    exact hnext
  have hprev : (w.nextIndex k - 1).toNat = n.nextIndex p - 1 := by
    rw [UInt64.toNat_sub_of_le _ _ hone, hx]
    rfl
  have hme : UInt64.ofInt w.nodeId = idOf me := by rw [h.nodeId, ofInt_toNat]
  unfold Node.sendAppendEntries Wire.buildAppendEntries
  rw [prevTerm_keeps h.store, missingEntries_keeps h.store, hprev, hx, hme, h.term_eq]
  show Except.ok _ = Except.ok _
  rw [appendWords, RaftNode.buildAppendEntries, ← hprev, ← h.store.commitIndex, UInt64.ofNat_toNat,
    UInt64.ofNat_toNat]

section Replies

variable [DecidableEq ι]

/-- Where the peer at position `k` differs from every other one. -/
theorem Represents.setNext (h : Represents me peers w n) (hnodup : peers.Nodup) {k : Nat}
    {p : ι} (hk : peers[k]? = some p) {x : UInt64} {i : Nat} (hx : x.toNat = i) :
    Represents me peers { w with nextIndex := Function.update w.nextIndex k x }
      { n with nextIndex := Function.update n.nextIndex p i } :=
  ⟨h.nodeId, h.store, h.sm, h.state, h.leader, update_represents hnodup h.nextIndex hk hx,
    h.matchIndex, h.room⟩

theorem Represents.setMatch (h : Represents me peers w n) (hnodup : peers.Nodup) {k : Nat}
    {p : ι} (hk : peers[k]? = some p) {x : UInt64} {i : Nat} (hx : x.toNat = i) (hi : Fits (i + 1)) :
    Represents me peers { w with matchIndex := Function.update w.matchIndex k x }
      { n with matchIndex := Function.update n.matchIndex p i } where
  nodeId := h.nodeId
  store := h.store
  sm := h.sm
  state := h.state
  leader := h.leader
  nextIndex := h.nextIndex
  matchIndex := update_represents hnodup h.matchIndex hk hx
  room q hq := by
    show Fits (Function.update n.matchIndex p i q + 1)
    rw [Function.update_apply]
    split
    · exact hi
    · exact h.room q hq

/-- `if (!ae.entries.empty() && nextIndex[peer_idx] > 1) nextIndex[peer_idx]--`. -/
theorem Represents.backOff (h : Represents me peers w n) (hnodup : peers.Nodup) {k : Nat} {p : ι}
    (hk : peers[k]? = some p) (ae : RaftKv.AppendEntries ι) :
    Represents me peers (w.backOff k (appendWords ae)) (n.backOff p ae) := by
  have hx := h.nextIndex k p hk
  have hempty : (appendWords ae).entries.isEmpty = ae.entries.isEmpty := List.isEmpty_map
  have hone : w.nextIndex k > 1 ↔ n.nextIndex p > 1 := by
    rw [gt_iff_lt, UInt64.lt_iff_toNat_lt, hx]
    rfl
  unfold Node.backOff RaftNode.backOff
  rw [hempty]
  by_cases hback : ¬ ae.entries.isEmpty ∧ n.nextIndex p > 1
  · rw [if_pos ⟨hback.1, hone.mpr hback.2⟩, if_pos hback]
    refine h.setNext hnodup hk ?_
    rw [UInt64.toNat_sub_of_le _ _ (UInt64.le_of_lt (hone.mpr hback.2)), hx]
    rfl
  · rw [if_neg fun hboth => hback ⟨hboth.1, hone.mp hboth.2⟩, if_neg hback]
    exact h

theorem Represents.acknowledge (h : Represents me peers w n) (hnodup : peers.Nodup)
    (connected : ι → Bool) {k : Nat} {p : ι} (hk : peers[k]? = some p)
    {ae : RaftKv.AppendEntries ι} (hae : AppendFits ae) :
    ∃ w', w.acknowledge peers.length (connectedAt peers connected) k (appendWords ae) = .ok w' ∧
      Represents me peers w' (n.acknowledge peers connected p ae) := by
  have hsent : ((appendWords ae).prevLogIndex + UInt64.ofNat (appendWords ae).entries.length).toNat =
      ae.prevLogIndex + ae.entries.length := by
    have hlength : (appendWords ae).entries.length = ae.entries.length := List.length_map _
    rw [hlength, appendWords, ← UInt64.ofNat_add, (hae.positions.of_le (Nat.le_succ _)).toNat]
  have hfits : Fits (max (n.matchIndex p) (ae.prevLogIndex + ae.entries.length) + 1) := by
    have hroom := h.room p (List.mem_of_getElem? hk)
    have hmax := max_lt hroom hae.positions
    rwa [Nat.add_max_add_right] at hmax
  have hmatched := (max_toNat (w.matchIndex k) _).trans
    (congrArg₂ max (h.matchIndex k p hk) hsent)
  have hnext := toNat_succ (hmatched ▸ hfits)
  rw [hmatched] at hnext
  have hboth := (h.setMatch hnodup hk hmatched hfits).setNext hnodup hk hnext
  unfold Node.acknowledge RaftNode.acknowledge
  simp only [Function.update_self]
  exact hboth.advanceCommitIndex connected

theorem Represents.appendReply (h : Represents me peers w n) (hnodup : peers.Nodup)
    (connected : ι → Bool) {k : Nat} {p : ι} (hk : peers[k]? = some p)
    {ae : RaftKv.AppendEntries ι} (hae : AppendFits ae)
    {resp : RaftKv.AppendEntriesResponse} (hresp : Fits resp.term) :
    ∃ w', w.appendReply peers.length (connectedAt peers connected) k (appendWords ae)
        (appendReplyWords resp).serialize = .ok w' ∧
      Represents me peers w' (n.appendReply peers connected p ae resp) := by
  have htag : (appendReplyWords resp).serialize.head? = some (tag 'R') := rfl
  have hsome : (appendReplyWords resp).serialize ≠ [] := List.cons_ne_nil _ _
  have hempty : (appendWords ae).entries.isEmpty = ae.entries.isEmpty := List.isEmpty_map
  have hcond : (appendReplyWords resp).term > w.store.term ↔ resp.term > n.store.term := h.lt_term hresp
  unfold Node.appendReply RaftNode.appendReply
  dsimp only
  rw [if_neg hsome, if_pos htag, AppendEntriesResponse.deserialize_serialize]
  show ∃ w', (if (appendReplyWords resp).term > w.store.term then _ else _) = _ ∧ _
  by_cases hlater : resp.term > n.store.term
  · rw [if_pos (hcond.mpr hlater), if_pos hlater]
    exact ⟨_, rfl, ((h.persist (h.store.setTerm hresp)).withState .follower).persist
      ((h.store.setTerm hresp).setVoted none)⟩
  rw [if_neg (mt hcond.mp hlater), if_neg hlater]
  show ∃ w', (if resp.success = true ∧ ¬(appendWords ae).entries.isEmpty = true then _ else _) = _ ∧ _
  rw [hempty]
  split
  · exact h.acknowledge hnodup connected hk hae
  · exact ⟨_, rfl, h.backOff hnodup hk ae⟩

theorem Represents.appendLost (h : Represents me peers w n) (hnodup : peers.Nodup)
    (connected : ι → Bool) {k : Nat} {p : ι} (hk : peers[k]? = some p) (ae : RaftKv.AppendEntries ι) :
    ∃ w', w.appendReply peers.length (connectedAt peers connected) k (appendWords ae) [] = .ok w' ∧
      Represents me peers w' (n.appendLost p ae) :=
  ⟨_, rfl, (h.setMatch hnodup hk (x := 0) rfl fits_one).backOff hnodup hk ae⟩

end Replies

/-! ## A batch at the follower -/

theorem Represents.resolveConflicts (h : Represents me peers w n) (i : Nat)
    {es : List RaftKv.LogEntry} (hes : ∀ e ∈ es, EntryFits e) (hi : 0 < i) (hlen : Fits (i + es.length - 1)) :
    ∃ w', w.resolveConflicts (UInt64.ofNat i) (es.map entryWords) = .ok w' ∧
      Represents me peers w' (n.resolveConflicts i es) := by
  induction es generalizing i w n with
  | nil => exact ⟨w, rfl, h⟩
  | cons e es ih =>
    have hfits : Fits i := hlen.of_le (by rw [List.length_cons]; omega)
    have he := hes e List.mem_cons_self
    have hle : UInt64.ofNat i ≤ w.store.logLength ↔ i ≤ n.store.logLength := by
      rw [UInt64.le_iff_toNat_le, hfits.toNat, h.store.logLength]
    have hnext : UInt64.ofNat i + 1 = UInt64.ofNat (i + 1) := by
      rw [UInt64.ofNat_add]
      rfl
    have hrest := fun {w n} (h : Represents me peers w n) =>
      ih h (i + 1) (fun e' he' => hes e' (List.mem_cons_of_mem _ he')) (by omega)
        (by rw [List.length_cons] at hlen; convert hlen using 1; omega)
    obtain ⟨t, ht, hterm⟩ := h.store.getTermAt (i := UInt64.ofNat i)
    rw [hfits.toNat] at hterm
    have hconflict : t ≠ (entryWords e).term ↔ n.store.getTermAt i ≠ e.term := by
      rw [Ne, ← UInt64.toNat_inj, hterm]
      show ¬ n.store.getTermAt i = (UInt64.ofNat e.term).toNat ↔ _
      rw [he.term.toNat]
    have hprev : (UInt64.ofNat i - 1).toNat = i - 1 := by
      have hone : (1 : UInt64) ≤ UInt64.ofNat i := by
        rw [UInt64.le_iff_toNat_le, hfits.toNat]
        exact hi
      rw [UInt64.toNat_sub_of_le _ _ hone, hfits.toNat]
      rfl
    obtain ⟨s, hs, hkept⟩ := h.store.truncate (UInt64.ofNat i - 1)
    rw [hprev] at hkept
    rw [List.map_cons, Node.resolveConflicts, RaftNode.resolveConflicts, hnext]
    by_cases hin : i ≤ n.store.logLength
    · rw [if_pos (hle.mpr hin), ht]
      by_cases hdiffers : n.store.getTermAt i ≠ e.term
      · simp only [bind, Except.bind, if_pos (hconflict.mpr hdiffers), hs, if_pos (And.intro hin hdiffers)]
        exact hrest (h.persist hkept)
      · simp only [bind, Except.bind, if_neg (mt hconflict.mp hdiffers),
          if_neg fun hboth : _ ∧ _ => hdiffers hboth.2]
        exact hrest h
    · simp only [bind, Except.bind, if_neg (mt hle.mp hin), if_neg fun hboth : _ ∧ _ => hin hboth.1]
      exact hrest h

theorem Represents.appendNew (h : Represents me peers w n) {es : List RaftKv.LogEntry}
    (hes : ∀ e ∈ es, EntryFits e) :
    Represents me peers (w.appendNew (es.map entryWords)) (n.appendNew es) := by
  induction es generalizing w n with
  | nil => exact h
  | cons e es ih =>
    have he := hes e List.mem_cons_self
    have hpast : (entryWords e).index > w.store.logLength ↔ e.index > n.store.logLength := by
      rw [gt_iff_lt, UInt64.lt_iff_toNat_lt, h.store.logLength]
      exact iff_of_eq (congrArg (n.store.logLength < ·) he.index.toNat)
    rw [List.map_cons, Node.appendNew, RaftNode.appendNew]
    refine ih ?_ fun e' he' => hes e' (List.mem_cons_of_mem _ he')
    by_cases hnew : e.index > n.store.logLength
    · rw [if_pos (hpast.mpr hnew), if_pos hnew]
      exact h.persist (h.store.append he)
    · rw [if_neg (mt hpast.mp hnew), if_neg hnew]
      exact h

theorem prevMatches_keeps {s : Storage} {d : Store ι} (h : s.Keeps d)
    {rpc : RaftKv.AppendEntries ι} (hrpc : AppendFits rpc) :
    prevMatches s (appendWords rpc) = .ok (RaftNode.prevMatches d rpc) := by
  have hprev : (appendWords rpc).prevLogIndex.toNat = rpc.prevLogIndex := hrpc.prevLogIndex.toNat
  have hpos : (appendWords rpc).prevLogIndex > 0 ↔ rpc.prevLogIndex > 0 := by
    rw [gt_iff_lt, UInt64.lt_iff_toNat_lt, hprev]
    rfl
  have hpast : (appendWords rpc).prevLogIndex > s.logLength ↔ ¬ rpc.prevLogIndex ≤ d.logLength := by
    rw [gt_iff_lt, UInt64.lt_iff_toNat_lt, hprev, h.logLength, Nat.not_le]
  obtain ⟨t, ht, hterm⟩ := h.getTermAt (i := (appendWords rpc).prevLogIndex)
  rw [hprev] at hterm
  have hsame : t = (appendWords rpc).prevLogTerm ↔ d.getTermAt rpc.prevLogIndex = rpc.prevLogTerm := by
    rw [← UInt64.toNat_inj, hterm]
    exact iff_of_eq (congrArg (_ = ·) hrpc.prevLogTerm.toNat)
  unfold Node.prevMatches RaftNode.prevMatches
  by_cases hfirst : rpc.prevLogIndex > 0
  · rw [if_pos (hpos.mpr hfirst), if_pos hfirst]
    by_cases hin : rpc.prevLogIndex ≤ d.logLength
    · rw [if_neg (mt hpast.mp (not_not.mpr hin)), ht, decide_eq_true hin, Bool.true_and]
      exact congrArg Except.ok (decide_eq_decide.mpr hsame)
    · rw [if_pos (hpast.mpr hin), decide_eq_false hin, Bool.false_and]
  · rw [if_neg (mt hpos.mp hfirst), if_neg hfirst]

theorem Represents.followLeader (h : Represents me peers w n) {rpc : RaftKv.AppendEntries ι}
    (hrpc : AppendFits rpc) :
    Represents me peers (w.followLeader (appendWords rpc)) (n.followLeader rpc) := by
  have hlater : (appendWords rpc).term > w.store.term ↔ rpc.term > n.store.term := h.lt_term hrpc.term
  have hleader : toInt (appendWords rpc).leaderId = leaderNumber (some rpc.leaderId) :=
    toInt_of_lt (idOf_lt rpc.leaderId)
  have hstate : ∀ {w n}, Represents me peers w n →
      Represents me peers (if (appendWords rpc).term = w.store.term then { w with state := .follower } else w)
        (if rpc.term = n.store.term then { n with state := .follower } else n) := by
    intro w n h
    have hsame : (appendWords rpc).term = w.store.term ↔ rpc.term = n.store.term := by
      rw [← UInt64.toNat_inj, h.store.term]
      exact iff_of_eq (congrArg (· = n.store.term) hrpc.term.toNat)
    by_cases hterm : rpc.term = n.store.term
    · rw [if_pos (hsame.mpr hterm), if_pos hterm]
      exact h.withState .follower
    · rw [if_neg (mt hsame.mp hterm), if_neg hterm]
      exact h
  unfold Node.followLeader RaftNode.followLeader
  dsimp only
  rw [hleader]
  by_cases hnew : rpc.term > n.store.term
  · rw [if_pos (hlater.mpr hnew), if_pos hnew]
    exact (hstate (h.adopt hrpc.term)).withLeader _
  · rw [if_neg (mt hlater.mp hnew), if_neg hnew]
    exact (hstate h).withLeader _

theorem Represents.followCommit (h : Represents me peers w n) {leaderCommit : Nat}
    (hcommit : Fits leaderCommit) :
    Represents me peers (w.followCommit (UInt64.ofNat leaderCommit)) (n.followCommit leaderCommit) := by
  have hahead : UInt64.ofNat leaderCommit > w.store.commitIndex ↔ leaderCommit > n.store.commitIndex := by
    rw [gt_iff_lt, UInt64.lt_iff_toNat_lt, hcommit.toNat, h.store.commitIndex]
  unfold Node.followCommit RaftNode.followCommit
  by_cases hnew : leaderCommit > n.store.commitIndex
  · rw [if_pos (hahead.mpr hnew), if_pos hnew]
    refine h.withStore (keeps_setCommit h.store ?_)
    rw [min_toNat, hcommit.toNat, h.store.logLength]
  · rw [if_neg (mt hahead.mp hnew), if_neg hnew]
    exact h

theorem Represents.handleAppendEntries (h : Represents me peers w n)
    {rpc : RaftKv.AppendEntries ι} (hrpc : AppendFits rpc) :
    ∃ w', w.handleAppendEntries (appendWords rpc) =
        .ok (w', appendReplyWords (n.handleAppendEntries rpc).2) ∧
      Represents me peers w' (n.handleAppendEntries rpc).1 := by
  have hstale : (appendWords rpc).term < w.store.term ↔ rpc.term < n.store.term := h.term_lt hrpc.term
  unfold Node.handleAppendEntries RaftNode.handleAppendEntries
  dsimp only
  by_cases hcase : rpc.term < n.store.term
  · rw [if_pos (hstale.mpr hcase), if_pos hcase]
    exact ⟨w, by rw [h.term_eq]; rfl, h⟩
  rw [if_neg (mt hstale.mp hcase), if_neg hcase]
  have hfollow := h.followLeader hrpc
  rw [prevMatches_keeps hfollow.store hrpc]
  cases hmatch : RaftNode.prevMatches (n.followLeader rpc).store rpc with
  | false => exact ⟨_, rfl, hfollow⟩
  | true =>
    obtain ⟨w₁, hresolve, h₁⟩ := hfollow.resolveConflicts (rpc.prevLogIndex + 1) hrpc.entries
      (Nat.succ_pos _) (hrpc.positions.of_le (by omega))
    obtain ⟨w₂, happly, h₂⟩ := ((h₁.appendNew hrpc.entries).followCommit hrpc.leaderCommit).applyCommitted
    have hstart : (appendWords rpc).prevLogIndex + 1 = UInt64.ofNat (rpc.prevLogIndex + 1) := by
      rw [UInt64.ofNat_add]
      rfl
    refine ⟨w₂, ?_, h₂⟩
    simp only [bind, Except.bind, if_true, hstart]
    rw [show (appendWords rpc).entries = rpc.entries.map entryWords from rfl, hresolve]
    show ((Node.applyCommitted (Node.followCommit _ (UInt64.ofNat rpc.leaderCommit))) >>= _) = _
    rw [happly]
    rfl

/-! ## Client calls -/

omit [Host] [NodeIds ι] in
theorem requestable_positions (connected : ι → Bool) :
    Node.requestable peers.length (connectedAt peers connected) = RaftNode.requestable peers connected := by
  unfold Node.requestable RaftNode.requestable
  rw [count_positions peers (connectedAt peers connected) connected ?_]
  intro k p hk
  rw [connectedAt, hk]
  rfl

theorem Represents.appendOwn (h : Represents me peers w n) (hindex : Fits (n.store.logLength + 1))
    {cmd : Command} (hcmd : cmd.Short) :
    (w.appendOwn cmd).2.toNat = (n.appendOwn cmd).2.index ∧
      Represents me peers (w.appendOwn cmd).1 (n.appendOwn cmd).1 := by
  have happend := h.store.append (h.ownFits hindex hcmd)
  rw [← h.ownEntry] at happend
  refine ⟨?_, h.persist happend⟩
  show (w.store.logLength + 1).toNat = n.store.logLength + 1
  rw [toNat_succ (h.store.logLength ▸ hindex), h.store.logLength]

/-! ## What a node sends fits -/

theorem Represents.fits_term (h : Represents me peers w n) : Fits n.store.term :=
  h.store.term ▸ fits_toNat _

theorem Represents.fits_getTermAt (h : Represents me peers w n) {i : Nat} (hi : Fits i) :
    Fits (n.store.getTermAt i) := by
  obtain ⟨t, -, hterm⟩ := h.store.getTermAt (i := UInt64.ofNat i)
  rw [hi.toNat] at hterm
  exact hterm ▸ fits_toNat _

theorem Represents.startElection_fits (h : Represents me peers w n) (hterm : Fits (n.store.term + 1)) :
    VoteFits (n.startElection me).2 where
  term := hterm
  lastLogIndex := by
    show Fits n.store.logLength
    exact h.store.logLength ▸ fits_toNat _
  lastLogTerm := by
    show Fits n.store.lastLogTerm
    exact h.store.lastLogTerm ▸ fits_toNat _

theorem Represents.handleRequestVote_fits [DecidableEq ι] (h : Represents me peers w n)
    {rpc : RaftKv.RequestVote ι} (hrpc : VoteFits rpc) : Fits (n.handleRequestVote rpc).2.term := by
  unfold RaftNode.handleRequestVote
  dsimp only
  split
  · exact h.fits_term
  split <;> split
  · exact hrpc.term
  · exact hrpc.term
  · exact h.fits_term
  · exact h.fits_term

theorem Represents.handleAppendEntries_fits (h : Represents me peers w n)
    {rpc : RaftKv.AppendEntries ι} (hrpc : AppendFits rpc) : Fits (n.handleAppendEntries rpc).2.term := by
  unfold RaftNode.handleAppendEntries
  dsimp only
  split
  · exact h.fits_term
  split
  · exact hrpc.term
  · exact hrpc.term

omit [Host] [NodeIds ι] in
/-- The batch is the log from `nextIndex` on. -/
theorem buildAppendEntries_entries (hwf : n.store.Wf) {p : ι} (hnext : 0 < n.nextIndex p) :
    (n.buildAppendEntries me p).entries = n.store.log.drop (n.nextIndex p - 1) := by
  have hlen := hwf.length
  show (if n.nextIndex p ≤ n.store.logLength then n.store.readFrom (n.nextIndex p) else []) = _
  split
  · exact hwf.readFrom hnext
  · rw [List.drop_eq_nil_of_le (by omega)]

theorem Represents.buildAppendEntries_fits (h : Represents me peers w n) (hwf : n.store.Wf)
    (hindex : Fits (n.store.logLength + 1)) {p : ι} (hnext : 0 < n.nextIndex p)
    (hfits : Fits (n.nextIndex p)) : AppendFits (n.buildAppendEntries me p) where
  term := h.fits_term
  prevLogTerm := by
    show Fits (if n.nextIndex p - 1 = 0 then 0 else n.store.getTermAt (n.nextIndex p - 1))
    split
    · exact Nat.two_pow_pos 64
    · exact h.fits_getTermAt (hfits.of_le (Nat.sub_le _ _))
  leaderCommit := by
    show Fits n.store.commitIndex
    exact h.store.commitIndex ▸ fits_toNat _
  entries e he := by
    rw [buildAppendEntries_entries hwf hnext] at he
    exact h.store.fits e (List.mem_of_mem_drop he)
  positions := by
    have hlen := hwf.length
    rw [buildAppendEntries_entries hwf hnext, List.length_drop]
    show Fits (n.nextIndex p - 1 + (n.store.log.length - (n.nextIndex p - 1)) + 1)
    rcases Nat.le_total (n.nextIndex p - 1) n.store.log.length with hin | hpast
    · rwa [Nat.add_sub_cancel' hin, ← hlen]
    · rw [Nat.sub_eq_zero_of_le hpast, Nat.add_zero, Nat.sub_add_cancel hnext]
      exact hfits

end Node

end RaftKv.Wire
