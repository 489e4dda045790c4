-- SUMMARY: The cluster in bytes and the protocol model do the same steps, and no section of a regular run faults.
import RaftKv.Safety.Logs
import RaftKv.Wire.Cluster
import RaftKv.Wire.Framing
import RaftKv.Wire.Refinement

/-!
# The protocol model and the cluster in bytes

`Represents` relates the two clusters: nodes by `Node.Represents`, threads and calls by writing
them in words and bytes. From related states a move is possible in both or in neither, the one in
bytes does not fault, and it ends in related states again.
-/

namespace RaftKv.Wire

open NodeIds

/-! ## A request at the server -/

namespace Node

variable [Host]

theorem round_vote (n : Node) (rpc : RequestVote) :
    raftHandlers.round n (rpc.serialize.take readSize) =
      some (.ok ((n.handleRequestVote rpc).1, (n.handleRequestVote rpc).2.serialize)) := by
  have hlen : rpc.serialize.length ≤ readSize := by
    rw [RequestVote.length_serialize]
    decide
  have hdec : Decodes rpc.serialize (.vote rpc) :=
    (Request.vote rpc).decodes_serialize trivial (lt_of_le_of_lt hlen (by decide))
  rw [List.take_of_length_le hlen, RaftHandlers.round_of_decodes n hdec]
  rfl

theorem round_append (n : Node) {rpc : AppendEntries} (hentries : ∀ e ∈ rpc.entries, e.Intact)
    (hlen : rpc.serialize.length ≤ readSize) :
    raftHandlers.round n (rpc.serialize.take readSize) =
      some ((n.handleAppendEntries rpc).map fun r => (r.1, r.2.serialize)) := by
  have hdec : Decodes rpc.serialize (.append rpc) :=
    (Request.append rpc).decodes_serialize hentries (lt_of_le_of_lt hlen (by decide))
  rw [List.take_of_length_le hlen, RaftHandlers.round_of_decodes n hdec]
  show some (((n.handleAppendEntries rpc).map Prod.swap).map _ |>.map _) = _
  cases n.handleAppendEntries rpc <;> rfl

end Node

namespace WireCluster

variable {ι : Type} [DecidableEq ι] [Host] [NodeIds ι]

/-! ## Threads and calls in words -/

/-- Peers by position. -/
def loopWords (peers : List ι) (l : SendLoop ι) : SendLoop Nat :=
  ⟨l.todo.map fun p => peers.idxOf p, l.waiting⟩

def backgroundWords (peers : List ι) : Background ι → WireBackground
  | .idle => .idle
  | .election e => .election ⟨voteWords e.rpc, e.votes, loopWords peers e.loop⟩
  | .leading l => .leading (loopWords peers l)
  | .heartbeat l => .heartbeat (loopWords peers l)

def clientWords (cfg : Config ι) (call : ClientCall ι) : WireClient ι where
  node := call.node
  op := call.op
  idx := UInt64.ofNat call.entry.index
  loop := loopWords (cfg.peers call.node) call.loop
  outcome := call.outcome

def voteCallWords (call : VoteCall ι) : WireCall ι RequestVote where
  src := call.src
  dst := call.dst
  request := voteWords call.rpc
  reply := call.reply.map fun resp => (voteReplyWords resp).serialize

def appendCallWords (call : AppendCall ι) : WireCall ι AppendEntries where
  src := call.src
  dst := call.dst
  request := appendWords call.rpc
  reply := call.reply.map fun resp => (appendReplyWords resp).serialize

/-- The numbers of a call fit. -/
structure VoteCallFits (call : VoteCall ι) : Prop where
  rpc : VoteFits call.rpc
  reply : ∀ resp ∈ call.reply, Fits resp.term

structure AppendCallFits (call : AppendCall ι) : Prop where
  rpc : AppendFits call.rpc
  reply : ∀ resp ∈ call.reply, Fits resp.term

variable (cfg : Config ι)

structure Represents (w : WireCluster ι) (c : Cluster ι) : Prop where
  nodes : ∀ i, (w.nodes i).Represents i (cfg.peers i) (c.nodes i)
  background : ∀ i, w.background i = backgroundWords (cfg.peers i) (c.background i)
  clients : w.clients = c.clients.map (clientWords cfg)
  voteCalls : w.voteCalls = c.voteCalls.map voteCallWords
  appendCalls : w.appendCalls = c.appendCalls.map appendCallWords
  elections : ∀ i e, c.background i = .election e → VoteFits e.rpc
  indices : ∀ call ∈ c.clients, Fits call.entry.index
  votes : ∀ call ∈ c.voteCalls, VoteCallFits call
  appends : ∀ call ∈ c.appendCalls, AppendCallFits call

variable {cfg} {w : WireCluster ι} {c : Cluster ι}

/-! ## Updates -/

theorem Represents.setNode (h : Represents cfg w c) {i : ι} {m : Node} {n : RaftNode ι}
    (hm : m.Represents i (cfg.peers i) n) : Represents cfg (w.setNode i m) (c.setNode i n) where
  nodes j := by
    show (Function.update w.nodes i m j).Represents j (cfg.peers j) (Function.update c.nodes i n j)
    by_cases hj : j = i
    · subst hj
      rwa [Function.update_self, Function.update_self]
    · rw [Function.update_of_ne hj, Function.update_of_ne hj]
      exact h.nodes j
  background := h.background
  clients := h.clients
  voteCalls := h.voteCalls
  appendCalls := h.appendCalls
  elections := h.elections
  indices := h.indices
  votes := h.votes
  appends := h.appends

theorem Represents.setBackground (h : Represents cfg w c) (i : ι) (b : Background ι)
    (hb : ∀ e, b = .election e → VoteFits e.rpc) :
    Represents cfg (w.setBackground i (backgroundWords (cfg.peers i) b)) (c.setBackground i b) where
  nodes := h.nodes
  background j := by
    show Function.update w.background i _ j =
      backgroundWords (cfg.peers j) (Function.update c.background i b j)
    by_cases hj : j = i
    · subst hj
      rw [Function.update_self, Function.update_self]
    · rw [Function.update_of_ne hj, Function.update_of_ne hj]
      exact h.background j
  clients := h.clients
  voteCalls := h.voteCalls
  appendCalls := h.appendCalls
  elections j e he := by
    rw [Cluster.setBackground_background] at he
    split at he
    · exact hb e he
    · exact h.elections j e he
  indices := h.indices
  votes := h.votes
  appends := h.appends

theorem Represents.setElection (h : Represents cfg w c) (i : ι) (e : Election ι) (he : VoteFits e.rpc) :
    Represents cfg (w.setBackground i (backgroundWords (cfg.peers i) (.election e)))
      (c.setBackground i (.election e)) := by
  refine h.setBackground i (.election e) ?_
  rintro e' ⟨⟩
  exact he

theorem Represents.setClient (h : Represents cfg w c) (k : Nat) (call : ClientCall ι)
    (hcall : Fits call.entry.index) :
    Represents cfg (w.setClient k (clientWords cfg call)) (c.setClient k call) where
  nodes := h.nodes
  background := h.background
  clients := by
    show w.clients.set k _ = (c.clients.set k call).map _
    rw [h.clients, List.map_set]
  voteCalls := h.voteCalls
  appendCalls := h.appendCalls
  elections := h.elections
  indices call' hcall' := by
    rcases List.mem_or_eq_of_mem_set hcall' with hold | rfl
    · exact h.indices call' hold
    · exact hcall
  votes := h.votes
  appends := h.appends

theorem Represents.addClient (h : Represents cfg w c) (call : ClientCall ι)
    (hcall : Fits call.entry.index) :
    Represents cfg { w with clients := w.clients ++ [clientWords cfg call] }
      { c with clients := c.clients ++ [call] } where
  nodes := h.nodes
  background := h.background
  clients := by
    show w.clients ++ _ = (c.clients ++ [call]).map _
    rw [h.clients, List.map_append, List.map_singleton]
  voteCalls := h.voteCalls
  appendCalls := h.appendCalls
  elections := h.elections
  indices := List.forall_mem_append.mpr ⟨h.indices, by simpa using hcall⟩
  votes := h.votes
  appends := h.appends

theorem Represents.addVote (h : Represents cfg w c) (call : VoteCall ι) (hcall : VoteCallFits call) :
    Represents cfg { w with voteCalls := w.voteCalls ++ [voteCallWords call] }
      { c with voteCalls := c.voteCalls ++ [call] } where
  nodes := h.nodes
  background := h.background
  clients := h.clients
  voteCalls := by
    show w.voteCalls ++ _ = (c.voteCalls ++ [call]).map _
    rw [h.voteCalls, List.map_append, List.map_singleton]
  appendCalls := h.appendCalls
  elections := h.elections
  indices := h.indices
  votes := List.forall_mem_append.mpr ⟨h.votes, by simpa using hcall⟩
  appends := h.appends

theorem Represents.setVote (h : Represents cfg w c) (k : Nat) {call : VoteCall ι}
    (hcall : VoteCallFits call) :
    Represents cfg { w with voteCalls := w.voteCalls.set k (voteCallWords call) }
      { c with voteCalls := c.voteCalls.set k call } where
  nodes := h.nodes
  background := h.background
  clients := h.clients
  voteCalls := by
    show w.voteCalls.set k _ = (c.voteCalls.set k call).map _
    rw [h.voteCalls, List.map_set]
  appendCalls := h.appendCalls
  elections := h.elections
  indices := h.indices
  votes call' hcall' := by
    rcases List.mem_or_eq_of_mem_set hcall' with hold | rfl
    · exact h.votes call' hold
    · exact hcall
  appends := h.appends

theorem Represents.addAppend (h : Represents cfg w c) (call : AppendCall ι)
    (hcall : AppendCallFits call) :
    Represents cfg { w with appendCalls := w.appendCalls ++ [appendCallWords call] }
      { c with appendCalls := c.appendCalls ++ [call] } where
  nodes := h.nodes
  background := h.background
  clients := h.clients
  voteCalls := h.voteCalls
  appendCalls := by
    show w.appendCalls ++ _ = (c.appendCalls ++ [call]).map _
    rw [h.appendCalls, List.map_append, List.map_singleton]
  elections := h.elections
  indices := h.indices
  votes := h.votes
  appends := List.forall_mem_append.mpr ⟨h.appends, by simpa using hcall⟩

theorem Represents.setAppend (h : Represents cfg w c) (k : Nat) {call : AppendCall ι}
    (hcall : AppendCallFits call) :
    Represents cfg { w with appendCalls := w.appendCalls.set k (appendCallWords call) }
      { c with appendCalls := c.appendCalls.set k call } where
  nodes := h.nodes
  background := h.background
  clients := h.clients
  voteCalls := h.voteCalls
  appendCalls := by
    show w.appendCalls.set k _ = (c.appendCalls.set k call).map _
    rw [h.appendCalls, List.map_set]
  elections := h.elections
  indices := h.indices
  votes := h.votes
  appends call' hcall' := by
    rcases List.mem_or_eq_of_mem_set hcall' with hold | rfl
    · exact h.appends call' hold
    · exact hcall

/-! ## Send loops -/

theorem Represents.locked (h : Represents cfg w c) (i : ι) : w.locked i = c.locked i := by
  unfold WireCluster.locked Cluster.locked
  rw [h.background i]
  cases c.background i <;> rfl

theorem Represents.sendLoop (h : Represents cfg w c) (t : Thread ι) :
    w.sendLoop t = (c.sendLoop t).map fun x => (x.1, loopWords (cfg.peers x.1) x.2) := by
  cases t with
  | background i =>
    simp only [WireCluster.sendLoop, Cluster.sendLoop, h.background i]
    cases c.background i <;> rfl
  | client k =>
    simp only [WireCluster.sendLoop, Cluster.sendLoop, h.clients, List.getElem?_map]
    cases c.clients[k]? with
    | none => rfl
    | some call =>
      show (if call.outcome = .running then _ else _) =
        Option.map _ (if call.outcome = .running then _ else _)
      split <;> rfl

theorem Represents.setSendLoop (h : Represents cfg w c) {t : Thread ι} {i : ι} {l : SendLoop ι}
    (ht : c.sendLoop t = some (i, l)) (l' : SendLoop ι) :
    Represents cfg (w.setSendLoop t (loopWords (cfg.peers i) l')) (c.setSendLoop t l') := by
  cases t with
  | background j =>
    have hb := h.background j
    simp only [Cluster.sendLoop] at ht
    cases hbg : c.background j with
    | idle =>
      rw [hbg] at ht
      cases ht
    | election e =>
      rw [hbg] at ht
      cases ht
    | leading l =>
      rw [hbg] at ht hb
      cases ht
      simp only [WireCluster.setSendLoop, Cluster.setSendLoop, hb, hbg, backgroundWords]
      exact h.setBackground _ (.leading l') (by simp)
    | heartbeat l =>
      rw [hbg] at ht hb
      cases ht
      simp only [WireCluster.setSendLoop, Cluster.setSendLoop, hb, hbg, backgroundWords]
      exact h.setBackground _ (.heartbeat l') (by simp)
  | client k =>
    simp only [Cluster.sendLoop] at ht
    cases hcall : c.clients[k]? with
    | none =>
      rw [hcall] at ht
      cases ht
    | some call =>
      have hcall' : w.clients[k]? = some (clientWords cfg call) := by
        rw [h.clients, List.getElem?_map, hcall]
        rfl
      have hi : call.node = i := by
        rw [hcall] at ht
        change (if call.outcome = .running then some (call.node, call.loop) else none) = _ at ht
        split at ht
        · exact congrArg Prod.fst (Option.some.inj ht)
        · cases ht
      subst hi
      simp only [WireCluster.setSendLoop, Cluster.setSendLoop, hcall, hcall']
      have hindex := h.indices call (List.mem_of_getElem? hcall)
      exact h.setClient k { call with loop := l' } hindex

/-! ## Moves -/

/-- A step in bytes and a step of the model: neither is possible, or both are and lead to related
states. -/
def Matches (cfg : Config ι) : Option (Result (WireCluster ι)) → Option (Cluster ι) → Prop
  | none, none => True
  | some (.ok w), some c => Represents cfg w c
  | _, _ => False

omit [Host] [NodeIds ι] in
theorem loopStart_words (cfg : Config ι) (i : ι) :
    loopStart cfg i = loopWords (cfg.peers i) ⟨cfg.peers i, none⟩ := by
  have hrange : List.range (cfg.peers i).length = (cfg.peers i).map fun p => (cfg.peers i).idxOf p := by
    refine List.ext_getElem (by simp) fun k hk _ => ?_
    rw [List.getElem_range, List.getElem_map, (cfg.nodup i).idxOf_getElem]
  exact congrArg (SendLoop.mk · none) hrange

theorem Represents.timeout (h : Represents cfg w c)
    (hterm : ∀ i, Fits ((w.nodes i).store.term.toNat + 1)) (i : ι) :
    Matches cfg (w.move cfg (.timeout i)) (c.move cfg (.timeout i)) := by
  have hb := h.background i
  simp only [WireCluster.move, Cluster.move]
  cases hbg : c.background i with
  | idle =>
    rw [hbg] at hb
    have hi := h.nodes i
    have hfits : Fits ((c.nodes i).store.term + 1) := hi.store.term ▸ hterm i
    obtain ⟨hrpc, hnode⟩ := hi.startElection hfits
    simp only [hb, backgroundWords, hi.state]
    split
    · have hset := (h.setNode hnode).setElection i
        ⟨((c.nodes i).startElection i).2, 1, cfg.peers i, none⟩ (hi.startElection_fits hfits)
      show Represents cfg ((w.setNode i _).setBackground i (.election ⟨_, 1, loopStart cfg i⟩)) _
      rw [hrpc, loopStart_words]
      exact hset
    · trivial
  | election e => simp only [hb, hbg, backgroundWords, Matches]
  | leading l => simp only [hb, hbg, backgroundWords, Matches]
  | heartbeat l => simp only [hb, hbg, backgroundWords, Matches]

theorem Represents.voteCall (h : Represents cfg w c) (k : Nat) :
    w.voteCalls[k]? = c.voteCalls[k]?.map voteCallWords := by
  rw [h.voteCalls, List.getElem?_map]

theorem Represents.appendCall (h : Represents cfg w c) (k : Nat) :
    w.appendCalls[k]? = c.appendCalls[k]?.map appendCallWords := by
  rw [h.appendCalls, List.getElem?_map]

theorem Represents.sendVote (h : Represents cfg w c) (hthreads : c.Threads cfg) (i : ι) :
    Matches cfg (w.move cfg (.sendVote i)) (c.move cfg (.sendVote i)) := by
  have hb := h.background i
  simp only [WireCluster.move, Cluster.move]
  cases hbg : c.background i with
  | election e =>
    obtain ⟨rpc, votes, todo, waiting⟩ := e
    rw [hbg] at hb
    have hfits := h.elections i _ hbg
    have hok := hthreads.elections i _ hbg
    cases todo with
    | nil => simp only [hb, backgroundWords, loopWords, List.map_nil, Matches]
    | cons p todo =>
      cases waiting with
      | some k => simp only [hb, backgroundWords, loopWords, List.map_cons, Matches]
      | none =>
        have hp : (cfg.peers i)[(cfg.peers i).idxOf p]? = some p :=
          List.getElem?_idxOf (hok.todo.subset List.mem_cons_self)
        have hlen : w.voteCalls.length = c.voteCalls.length := by rw [h.voteCalls, List.length_map]
        have hset := (h.addVote ⟨i, p, rpc, none⟩ ⟨hfits, by simp⟩).setElection i
          ⟨rpc, votes, p :: todo, some c.voteCalls.length⟩ hfits
        simp only [hb, backgroundWords, loopWords, List.map_cons, hp, Option.map_some, hlen]
        exact hset
  | idle => simp only [hb, hbg, backgroundWords, Matches]
  | leading l => simp only [hb, hbg, backgroundWords, Matches]
  | heartbeat l => simp only [hb, hbg, backgroundWords, Matches]

theorem Represents.deliverVote (h : Represents cfg w c) (k : Nat) :
    Matches cfg (w.move cfg (.deliverVote k)) (c.move cfg (.deliverVote k)) := by
  simp only [WireCluster.move, Cluster.move, h.voteCall k]
  cases hcall : c.voteCalls[k]? with
  | none => trivial
  | some call =>
    have hfits := h.votes call (List.mem_of_getElem? hcall)
    have hguard : ((voteCallWords call).reply = none ∧ ¬ w.locked (voteCallWords call).dst) ↔
        (call.reply = none ∧ ¬ c.locked call.dst) := by
      rw [h.locked]
      exact and_congr_left' Option.map_eq_none_iff
    simp only [Option.map_some]
    by_cases hopen : call.reply = none ∧ ¬ c.locked call.dst
    · rw [if_pos (hguard.mpr hopen), if_pos hopen]
      obtain ⟨hreply, hnode⟩ := (h.nodes call.dst).handleRequestVote hfits.rpc
      have hcall' : VoteCallFits { call with
          reply := some ((c.nodes call.dst).handleRequestVote call.rpc).2 } := by
        refine ⟨hfits.rpc, ?_⟩
        rintro resp ⟨⟩
        exact (h.nodes call.dst).handleRequestVote_fits hfits.rpc
      have hset := (h.setNode hnode).setVote k hcall'
      show Matches cfg ((Node.raftHandlers.round (w.nodes call.dst)
        ((voteWords call.rpc).serialize.take readSize)).map _) _
      rw [Node.round_vote, hreply]
      exact hset
    · rw [if_neg (mt hguard.mp hopen), if_neg hopen]
      trivial

omit [Host] [NodeIds ι] in
theorem setNode_self (c : Cluster ι) (i : ι) : c.setNode i (c.nodes i) = c := by
  show { c with nodes := Function.update c.nodes i (c.nodes i) } = c
  rw [Function.update_eq_self]

theorem Represents.countVote (h : Represents cfg w c) (i : ι) {rpc : RaftKv.RequestVote ι}
    (hrpc : VoteFits rpc) (votes : Nat) (todo : List ι) {resp : RaftKv.RequestVoteResponse}
    (hresp : Fits resp.term) :
    Matches cfg
      (some (w.countVote i (voteWords rpc) votes (todo.map fun p => (cfg.peers i).idxOf p)
        (voteReplyWords resp).serialize))
      (match (c.nodes i).voteReply votes resp with
        | (n, some votes) =>
          some ((c.setNode i n).setBackground i (.election ⟨rpc, votes, todo, none⟩))
        | (n, none) => some ((c.setNode i n).setBackground i .idle)) := by
  obtain ⟨m, hm, hnode⟩ := (h.nodes i).voteReply votes hresp
  unfold WireCluster.countVote
  rw [hm]
  generalize (c.nodes i).voteReply votes resp = r at hnode ⊢
  obtain ⟨n, v⟩ := r
  cases v with
  | none => exact (h.setNode hnode).setBackground i .idle (by simp)
  | some votes => exact (h.setNode hnode).setElection i ⟨rpc, votes, todo, none⟩ hrpc

theorem Represents.voteReply (h : Represents cfg w c) (i : ι) :
    Matches cfg (w.move cfg (.voteReply i)) (c.move cfg (.voteReply i)) := by
  have hb := h.background i
  simp only [WireCluster.move, Cluster.move]
  cases hbg : c.background i with
  | election e =>
    obtain ⟨rpc, votes, todo, waiting⟩ := e
    rw [hbg] at hb
    have hfits := h.elections i _ hbg
    cases todo with
    | nil => simp only [hb, backgroundWords, loopWords, List.map_nil, Matches]
    | cons p todo =>
      cases waiting with
      | none => simp only [hb, backgroundWords, loopWords, List.map_cons, Matches]
      | some k =>
        simp only [hb, backgroundWords, loopWords, List.map_cons, h.voteCall k]
        cases hcall : c.voteCalls[k]? with
        | none => trivial
        | some call =>
          cases hreply : call.reply with
          | none =>
            simp only [Option.map_some, Option.bind_some, voteCallWords, hreply]
            trivial
          | some resp =>
            have hresp := (h.votes call (List.mem_of_getElem? hcall)).reply resp hreply
            simp only [Option.map_some, Option.bind_some, voteCallWords, hreply]
            exact h.countVote i hfits votes todo hresp
  | idle => simp only [hb, hbg, backgroundWords, Matches]
  | leading l => simp only [hb, hbg, backgroundWords, Matches]
  | heartbeat l => simp only [hb, hbg, backgroundWords, Matches]

theorem Represents.voteLost (h : Represents cfg w c) (i : ι) :
    Matches cfg (w.move cfg (.voteLost i)) (c.move cfg (.voteLost i)) := by
  have hb := h.background i
  simp only [WireCluster.move, Cluster.move]
  cases hbg : c.background i with
  | election e =>
    obtain ⟨rpc, votes, todo, waiting⟩ := e
    rw [hbg] at hb
    have hfits := h.elections i _ hbg
    cases todo with
    | nil => simp only [hb, backgroundWords, loopWords, List.map_nil, Matches]
    | cons p todo =>
      cases waiting with
      | none => simp only [hb, backgroundWords, loopWords, List.map_cons, Matches]
      | some k =>
        have hset := (h.setNode (h.nodes i)).setElection i ⟨rpc, votes, todo, none⟩ hfits
        rw [setNode_self] at hset
        simp only [hb, backgroundWords, loopWords, List.map_cons]
        exact hset
  | idle => simp only [hb, hbg, backgroundWords, Matches]
  | leading l => simp only [hb, hbg, backgroundWords, Matches]
  | heartbeat l => simp only [hb, hbg, backgroundWords, Matches]

theorem Represents.endElection (h : Represents cfg w c)
    (hlen : ∀ i, Fits ((w.nodes i).store.logLength.toNat + 1)) (i : ι) :
    Matches cfg (w.move cfg (.endElection i)) (c.move cfg (.endElection i)) := by
  have hb := h.background i
  simp only [WireCluster.move, Cluster.move]
  cases hbg : c.background i with
  | election e =>
    obtain ⟨rpc, votes, todo, waiting⟩ := e
    rw [hbg] at hb
    cases todo with
    | cons p todo => simp only [hb, backgroundWords, loopWords, List.map_cons, Matches]
    | nil =>
      cases waiting with
      | some k => simp only [hb, backgroundWords, loopWords, List.map_nil, Matches]
      | none =>
        have hi := h.nodes i
        simp only [hb, backgroundWords, loopWords, List.map_nil, hi.state]
        have hmajority : (votes ≥ (size cfg i + 1) / 2 + 1 ∧ (c.nodes i).state = .candidate) ↔
            (votes ≥ RaftNode.majority (cfg.peers i) ∧ (c.nodes i).state = .candidate) := Iff.rfl
        by_cases hwon : votes ≥ RaftNode.majority (cfg.peers i) ∧ (c.nodes i).state = .candidate
        · rw [if_pos (hmajority.mpr hwon), if_pos hwon, loopStart_words]
          exact (h.setNode (hi.becomeLeader (hi.store.logLength ▸ hlen i))).setBackground i
            (.leading ⟨cfg.peers i, none⟩) (by simp)
        · rw [if_neg (mt hmajority.mp hwon), if_neg hwon]
          exact h.setBackground i .idle (by simp)
  | idle => simp only [hb, hbg, backgroundWords, Matches]
  | leading l => simp only [hb, hbg, backgroundWords, Matches]
  | heartbeat l => simp only [hb, hbg, backgroundWords, Matches]

theorem Represents.heartbeat (h : Represents cfg w c) (i : ι) :
    Matches cfg (w.move cfg (.heartbeat i)) (c.move cfg (.heartbeat i)) := by
  have hb := h.background i
  simp only [WireCluster.move, Cluster.move]
  cases hbg : c.background i with
  | idle =>
    rw [hbg] at hb
    simp only [hb, backgroundWords, (h.nodes i).state]
    split
    · rw [loopStart_words]
      exact h.setBackground i (.heartbeat ⟨cfg.peers i, none⟩) (by simp)
    · trivial
  | election e => simp only [hb, hbg, backgroundWords, Matches]
  | leading l => simp only [hb, hbg, backgroundWords, Matches]
  | heartbeat l => simp only [hb, hbg, backgroundWords, Matches]

theorem Represents.send (h : Represents cfg w c) (hthreads : c.Threads cfg)
    (hwf : ∀ i, (c.nodes i).store.Wf) (hlen : ∀ i, Fits ((w.nodes i).store.logLength.toNat + 1))
    (t : Thread ι) : Matches cfg (w.move cfg (.send t)) (c.move cfg (.send t)) := by
  simp only [WireCluster.move, Cluster.move, h.sendLoop t]
  cases hloop : c.sendLoop t with
  | none => trivial
  | some x =>
    obtain ⟨i, todo, waiting⟩ := x
    have hok := hthreads.loops t i _ hloop
    cases todo with
    | nil => trivial
    | cons p todo =>
      cases waiting with
      | some k => trivial
      | none =>
        have hi := h.nodes i
        have hp : (cfg.peers i)[(cfg.peers i).idxOf p]? = some p :=
          List.getElem?_idxOf (hok.todo p List.mem_cons_self)
        have hnext : Fits ((c.nodes i).nextIndex p) := hi.nextIndex _ p hp ▸ fits_toNat _
        have hae := hi.buildAppendEntries_fits (hwf i) (hi.store.logLength ▸ hlen i) (hok.next p) hnext
        have hcount : w.appendCalls.length = c.appendCalls.length := by
          rw [h.appendCalls, List.length_map]
        have hset := (h.addAppend ⟨i, p, (c.nodes i).buildAppendEntries i p, none, c.nodes i⟩
          ⟨hae, by simp⟩).setSendLoop ((Cluster.sendLoop_congr rfl rfl t).trans hloop)
            ⟨p :: todo, some c.appendCalls.length⟩
        simp only [Option.map_some, loopWords, List.map_cons, hp, hcount]
        show Matches cfg (some ((w.nodes i).sendAppendEntries _ >>= _)) _
        rw [hi.sendAppendEntries hp (hok.next p)]
        exact hset

theorem Represents.deliverAppend (h : Represents cfg w c) {k : Nat}
    (hlen : ∀ call ∈ w.appendCalls[k]?, call.request.serialize.length ≤ readSize) :
    Matches cfg (w.move cfg (.deliverAppend k)) (c.move cfg (.deliverAppend k)) := by
  have hk := h.appendCall k
  simp only [WireCluster.move, Cluster.move]
  cases hcall : c.appendCalls[k]? with
  | none =>
    rw [hcall] at hk
    simp only [hk, Option.map_none]
    trivial
  | some call =>
    rw [hcall, Option.map_some] at hk
    have hfits := h.appends call (List.mem_of_getElem? hcall)
    have hguard : ((appendCallWords call).reply = none ∧ ¬ w.locked (appendCallWords call).dst) ↔
        (call.reply = none ∧ ¬ c.locked call.dst) := by
      rw [h.locked]
      exact and_congr_left' Option.map_eq_none_iff
    simp only [hk]
    by_cases hopen : call.reply = none ∧ ¬ c.locked call.dst
    · rw [if_pos (hguard.mpr hopen), if_pos hopen]
      obtain ⟨m, hm, hnode⟩ := (h.nodes call.dst).handleAppendEntries hfits.rpc
      have hcall' : AppendCallFits { call with
          reply := some ((c.nodes call.dst).handleAppendEntries call.rpc).2 } := by
        refine ⟨hfits.rpc, ?_⟩
        rintro resp ⟨⟩
        exact (h.nodes call.dst).handleAppendEntries_fits hfits.rpc
      have hset := (h.setNode hnode).setAppend k hcall'
      have hread : (appendWords call.rpc).serialize.length ≤ readSize := hlen (appendCallWords call) hk
      have hentries : ∀ e ∈ (appendWords call.rpc).entries, e.Intact := by
        intro e he
        obtain ⟨e', he', rfl⟩ := List.mem_map.mp he
        exact (hfits.rpc.entries e' he').intact
      show Matches cfg ((Node.raftHandlers.round (w.nodes call.dst)
        ((appendWords call.rpc).serialize.take readSize)).map _) _
      rw [Node.round_append _ hentries hread, hm]
      exact hset
    · rw [if_neg (mt hguard.mp hopen), if_neg hopen]
      trivial

theorem Represents.afterSend (h : Represents cfg w c) {t : Thread ι} {i : ι} {l : SendLoop ι}
    (hloop : c.sendLoop t = some (i, l)) {m : Node} {n : RaftNode ι}
    (hm : m.Represents i (cfg.peers i) n) (todo : List ι) :
    Represents cfg ((w.setNode i m).setSendLoop t (loopWords (cfg.peers i) ⟨todo, none⟩))
      ((c.setNode i n).setSendLoop t ⟨todo, none⟩) :=
  (h.setNode hm).setSendLoop ((Cluster.sendLoop_congr rfl rfl t).trans hloop) ⟨todo, none⟩

theorem Represents.appendReply (h : Represents cfg w c) (hthreads : c.Threads cfg) (t : Thread ι)
    (connected : ι → Bool) :
    Matches cfg (w.move cfg (.appendReply t connected)) (c.move cfg (.appendReply t connected)) := by
  simp only [WireCluster.move, Cluster.move, h.sendLoop t]
  cases hloop : c.sendLoop t with
  | none => trivial
  | some x =>
    obtain ⟨i, todo, waiting⟩ := x
    cases todo with
    | nil => trivial
    | cons p todo =>
      cases waiting with
      | none => trivial
      | some k =>
        have hok := hthreads.loops t i _ hloop
        have hp : (cfg.peers i)[(cfg.peers i).idxOf p]? = some p :=
          List.getElem?_idxOf (hok.todo p List.mem_cons_self)
        simp only [Option.map_some, loopWords, List.map_cons, h.appendCall k]
        cases hcall : c.appendCalls[k]? with
        | none => trivial
        | some call =>
          have hfits := h.appends call (List.mem_of_getElem? hcall)
          cases hreply : call.reply with
          | none =>
            simp only [Option.map_some, Option.bind_some, appendCallWords, hreply]
            trivial
          | some resp =>
            obtain ⟨m, hm, hnode⟩ := (h.nodes i).appendReply (cfg.nodup i) connected hp hfits.rpc
              (hfits.reply resp hreply)
            simp only [Option.map_some, Option.bind_some, appendCallWords, hreply]
            show Matches cfg (some ((w.nodes i).appendReply _ _ _ _ _ >>= _)) _
            rw [size, hm]
            exact h.afterSend hloop hnode todo

theorem Represents.appendLost (h : Represents cfg w c) (hthreads : c.Threads cfg) (t : Thread ι) :
    Matches cfg (w.move cfg (.appendLost t)) (c.move cfg (.appendLost t)) := by
  simp only [WireCluster.move, Cluster.move, h.sendLoop t]
  cases hloop : c.sendLoop t with
  | none => trivial
  | some x =>
    obtain ⟨i, todo, waiting⟩ := x
    cases todo with
    | nil => trivial
    | cons p todo =>
      cases waiting with
      | none => trivial
      | some k =>
        have hok := hthreads.loops t i _ hloop
        have hp : (cfg.peers i)[(cfg.peers i).idxOf p]? = some p :=
          List.getElem?_idxOf (hok.todo p List.mem_cons_self)
        simp only [Option.map_some, loopWords, List.map_cons, h.appendCall k]
        cases hcall : c.appendCalls[k]? with
        | none => trivial
        | some call =>
          obtain ⟨m, hm, hnode⟩ := (h.nodes i).appendLost (cfg.nodup i) (fun _ => false) hp call.rpc
          simp only [Option.map_some, appendCallWords]
          show Matches cfg (some ((w.nodes i).appendReply _ _ _ _ _ >>= _)) _
          rw [size, hm]
          exact h.afterSend hloop hnode todo

theorem Represents.endLoop (h : Represents cfg w c) (i : ι) :
    Matches cfg (w.move cfg (.endLoop i)) (c.move cfg (.endLoop i)) := by
  have hb := h.background i
  have hset := h.setBackground i .idle (by simp)
  simp only [WireCluster.move, Cluster.move]
  cases hbg : c.background i with
  | idle => simp only [hb, hbg, backgroundWords, Matches]
  | election e => simp only [hb, hbg, backgroundWords, Matches]
  | leading l =>
    obtain ⟨todo, waiting⟩ := l
    rw [hbg] at hb
    cases todo <;> cases waiting <;> simp only [hb, backgroundWords, loopWords, List.map_nil,
      List.map_cons, Matches]
    exact hset
  | heartbeat l =>
    obtain ⟨todo, waiting⟩ := l
    rw [hbg] at hb
    cases todo <;> cases waiting <;> simp only [hb, backgroundWords, loopWords, List.map_nil,
      List.map_cons, Matches]
    exact hset

/-- A call that appended an entry, on both sides. -/
theorem Represents.appendOwn (h : Represents cfg w c)
    (hlen : ∀ i, Fits ((w.nodes i).store.logLength.toNat + 1)) (i : ι) (op : ClientOp) {cmd : Command}
    (hcmd : cmd.Short) :
    Represents cfg
      { w.setNode i ((w.nodes i).appendOwn cmd).1 with
        clients := w.clients ++
          [⟨i, op, ((w.nodes i).appendOwn cmd).2, loopStart cfg i, .running⟩] }
      { c.setNode i ((c.nodes i).appendOwn cmd).1 with
        clients := c.clients ++
          [⟨i, op, ((c.nodes i).appendOwn cmd).2, ⟨cfg.peers i, none⟩, .running⟩] } := by
  have hi := h.nodes i
  have hindex : Fits ((c.nodes i).store.logLength + 1) := hi.store.logLength ▸ hlen i
  obtain ⟨hidx, hnode⟩ := hi.appendOwn hindex hcmd
  have hadd := (h.setNode hnode).addClient
    ⟨i, op, ((c.nodes i).appendOwn cmd).2, ⟨cfg.peers i, none⟩, .running⟩ hindex
  unfold clientWords at hadd
  rw [← loopStart_words, ← hidx, UInt64.ofNat_toNat] at hadd
  exact hadd

theorem Represents.submit (h : Represents cfg w c)
    (hlen : ∀ i, Fits ((w.nodes i).store.logLength.toNat + 1)) (i : ι) {cmd : Command}
    (hcmd : cmd.Short) (connected : ι → Bool) :
    Matches cfg (w.move cfg (.submit i cmd connected)) (c.move cfg (.submit i cmd connected)) := by
  simp only [WireCluster.move, Cluster.move, h.locked, Node.submit, RaftNode.submit,
    (h.nodes i).state, size, Node.requestable_positions]
  by_cases hfree : c.locked i
  · rw [if_pos hfree, if_pos hfree]
    trivial
  rw [if_neg hfree, if_neg hfree]
  by_cases hrole : (c.nodes i).state ≠ .leader
  · simp only [if_pos hrole]
    trivial
  by_cases hpeers : RaftNode.requestable (cfg.peers i) connected
  · simp only [if_neg hrole, hpeers, not_true, if_false]
    exact h.appendOwn hlen i (.submit cmd) hcmd
  · simp only [if_neg hrole, hpeers]
    trivial

theorem Represents.get (h : Represents cfg w c)
    (hlen : ∀ i, Fits ((w.nodes i).store.logLength.toNat + 1)) (i : ι) (key : Bytes) :
    Matches cfg (w.move cfg (.get i key)) (c.move cfg (.get i key)) := by
  simp only [WireCluster.move, Cluster.move, h.locked, Node.get, RaftNode.get, (h.nodes i).state]
  by_cases hfree : c.locked i
  · rw [if_pos hfree, if_pos hfree]
    trivial
  rw [if_neg hfree, if_neg hfree]
  by_cases hrole : (c.nodes i).state ≠ .leader
  · simp only [if_pos hrole]
    trivial
  · simp only [if_neg hrole]
    exact h.appendOwn hlen i (.get key) (by decide)

theorem Represents.finish (h : Represents cfg w c) (k : Nat) :
    Matches cfg (w.move cfg (.finish k)) (c.move cfg (.finish k)) := by
  have hk : w.clients[k]? = c.clients[k]?.map (clientWords cfg) := by
    rw [h.clients, List.getElem?_map]
  simp only [WireCluster.move, Cluster.move, hk]
  cases hcall : c.clients[k]? with
  | none => trivial
  | some call =>
    have hindex := h.indices call (List.mem_of_getElem? hcall)
    obtain ⟨i, op, entry, ⟨todo, waiting⟩, outcome⟩ := call
    cases todo with
    | cons p todo => trivial
    | nil =>
      cases waiting with
      | some j => trivial
      | none =>
        cases outcome with
        | running =>
          have hi := h.nodes i
          have hbehind : (w.nodes i).store.commitIndex < UInt64.ofNat entry.index ↔
              (c.nodes i).store.commitIndex < entry.index := by
            rw [UInt64.lt_iff_toNat_lt, hi.store.commitIndex, hindex.toNat]
          simp only [Option.map_some, clientWords, loopWords, List.map_nil, h.locked, hbehind]
          by_cases hwait : c.locked i ∨ (c.nodes i).store.commitIndex < entry.index
          · rw [if_pos hwait, if_pos hwait]
            trivial
          rw [if_neg hwait, if_neg hwait]
          cases op with
          | submit cmd =>
            obtain ⟨m, hm, hnode⟩ := hi.applyCommitted
            simp only [hm]
            exact (h.setNode hnode).setClient k ⟨i, .submit cmd, entry, ⟨[], none⟩, .ok⟩ hindex
          | get key =>
            have hresult : (w.nodes i).getResult key = (c.nodes i).getResult key := by
              rw [Node.getResult, RaftNode.getResult, hi.state, hi.sm]
            simp only [hresult]
            exact h.setClient k ⟨i, .get key, entry, ⟨[], none⟩, _⟩ hindex
        | ok => trivial
        | value v => trivial
        | refused r => trivial
        | crashed => trivial

theorem Represents.move (h : Represents cfg w c) (hthreads : c.Threads cfg)
    (hwf : ∀ i, (c.nodes i).store.Wf) {m : Move ι} (hok : w.Regular (.move m)) :
    Matches cfg (w.move cfg m) (c.move cfg m) := by
  obtain ⟨hroom, hok⟩ := hok
  cases m with
  | timeout i => exact h.timeout (fun i => (hroom i).1) i
  | sendVote i => exact h.sendVote hthreads i
  | deliverVote k => exact h.deliverVote k
  | voteReply i => exact h.voteReply i
  | voteLost i => exact h.voteLost i
  | endElection i => exact h.endElection (fun i => (hroom i).2) i
  | heartbeat i => exact h.heartbeat i
  | send t => exact h.send hthreads hwf (fun i => (hroom i).2) t
  | deliverAppend k => exact h.deliverAppend hok
  | appendReply t connected => exact h.appendReply hthreads t connected
  | appendLost t => exact h.appendLost hthreads t
  | endLoop i => exact h.endLoop i
  | submit i cmd connected => exact h.submit (fun i => (hroom i).2) i hok connected
  | get i key => exact h.get (fun i => (hroom i).2) i key
  | finish k => exact h.finish k

/-! ## Runs -/

theorem Represents.crash (h : Represents cfg w c) (i : ι) :
    Matches cfg (some (w.restart i)) (some (c.restart i (c.nodes i).store.disk (c.nodes i).trace)) := by
  obtain ⟨m, hm, hnode⟩ := (h.nodes i).start (c.nodes i).trace
  have hset := (h.setNode hnode).setBackground i .idle (by simp)
  unfold WireCluster.restart
  rw [hm]
  exact
    { nodes := hset.nodes
      background := hset.background
      clients := by
        show w.clients.map _ = (c.clients.map _).map _
        rw [h.clients, List.map_map, List.map_map]
        refine List.map_congr_left fun call _ => ?_
        show (if call.node = i ∧ call.outcome = .running then _ else clientWords cfg call) =
          clientWords cfg (if call.node = i ∧ call.outcome = .running then _ else call)
        split <;> rfl
      voteCalls := h.voteCalls
      appendCalls := h.appendCalls
      elections := hset.elections
      indices := by
        intro call hcall
        obtain ⟨old, hold, rfl⟩ := List.mem_map.mp hcall
        have hindex := h.indices old hold
        split <;> exact hindex
      votes := h.votes
      appends := h.appends }

omit [DecidableEq ι] in
theorem fresh_represents (peers : List ι) (i : ι) :
    (Node.fresh (idOf i).toNat).Represents i peers (.start ⟨0, none, []⟩ []) where
  nodeId := rfl
  store :=
    { file := rfl
      fits := by
        have hnone : ∀ e ∈ ([] : List RaftKv.LogEntry), EntryFits e := by simp
        exact hnone
      term := rfl
      lastLogTerm := rfl
      voted := rfl
      logLength := rfl
      commitIndex := rfl
      lastApplied := rfl
      saved := by
        intro s hs
        have hnone : s.files.metaData = none := hs
        rw [Storage.loadMeta, hnone]
        exact ⟨rfl, rfl⟩ }
  sm := rfl
  state := rfl
  leader := rfl
  nextIndex _ _ _ := rfl
  matchIndex _ _ _ := rfl
  room _ _ := fits_one

theorem init_represents (cfg : Config ι) : Represents cfg (init : WireCluster ι) .init where
  nodes i := fresh_represents (cfg.peers i) i
  background _ := rfl
  clients := rfl
  voteCalls := rfl
  appendCalls := rfl
  elections := by
    rintro i e ⟨⟩
  indices := by simp [Cluster.init]
  votes := by simp [Cluster.init]
  appends := by simp [Cluster.init]

theorem Represents.step (h : Represents cfg w c) (hthreads : c.Threads cfg)
    (hwf : ∀ i, (c.nodes i).store.Wf) {a : WireAction ι} (hok : w.Regular a) :
    Matches cfg (w.step cfg a) (c.step cfg a.model) := by
  cases a with
  | move m => exact h.move hthreads hwf hok
  | crash i => exact h.crash i

theorem Matches.ok {w' : WireCluster ι} {o : Option (Cluster ι)} (h : Matches cfg (some (.ok w')) o) :
    ∃ c', o = some c' ∧ Represents cfg w' c' := by
  cases o with
  | none => exact h.elim
  | some c' => exact ⟨c', rfl, h⟩

variable [Fintype ι]

theorem Represents.reach_step (h : Represents cfg w c)
    (hreach : (Cluster.system cfg).Reach Cluster.Atomic c) {a : WireAction ι} (hok : w.Regular a) :
    Matches cfg (w.step cfg a) (c.step cfg a.model) := by
  obtain ⟨s, -, hsim⟩ := Cluster.simulates_any hreach
  exact h.step (.reach hreach) (fun i => (hsim.nodes i).wf) hok

omit [DecidableEq ι] [Host] [NodeIds ι] [Fintype ι] in
theorem atomic_model (c : Cluster ι) (a : WireAction ι) : Cluster.Atomic c a.model := by
  cases a <;> trivial

theorem simulate_step (hreach : (Cluster.system cfg).Reach Cluster.Atomic c) (h : Represents cfg w c)
    {a : WireAction ι} {w' : WireCluster ι} (hok : w.Regular a) (hstep : (system cfg).step w a w') :
    ∃ c', (Cluster.system cfg).Steps Cluster.Atomic c c' ∧ Represents cfg w' c' := by
  have hmatch := h.reach_step hreach hok
  rw [show w.step cfg a = some (.ok w') from hstep] at hmatch
  obtain ⟨c', hc', h'⟩ := hmatch.ok
  exact ⟨c', .single (atomic_model c a) hc', h'⟩

/-- Every regular run in bytes is a run of the model. -/
theorem simulates (h : (system cfg).Reach Regular w) :
    ∃ c, (Cluster.system cfg).Reach Cluster.Atomic c ∧ Represents cfg w c := by
  refine TransitionSystem.Reach.simulate (Cluster.system cfg) Cluster.Atomic (init_represents cfg) ?_ h
  intro w a w' c _ hreach hrep hok hstep
  exact simulate_step hreach hrep hok hstep

end WireCluster

/-! ## An example run -/

/-- The numbers that the scripts give to three nodes. -/
instance threeNodes : NodeIds (Fin 3) where
  idOf i := UInt64.ofNat (i.val + 1)
  idOf_injective := by decide
  idOf_lt := by decide

namespace WireCluster

/-- Node 0 wins an election with the vote of node 1 and sends it the entry of its term. -/
def firstLeader : List (WireAction (Fin 3)) :=
  [.move (.timeout 0), .move (.sendVote 0), .move (.deliverVote 0), .move (.voteReply 0),
    .move (.sendVote 0), .move (.voteLost 0), .move (.endElection 0), .move (.send (.background 0)),
    .move (.deliverAppend 0)]

/-- A crash and a write after it. -/
def laterWrite : List (WireAction (Fin 3)) :=
  [.crash 1, .move (.appendLost (.background 0)), .move (.send (.background 0)),
    .move (.appendLost (.background 0)), .move (.endLoop 0),
    .move (.submit 0 ⟨.put, [1], [7]⟩ fun _ => true)]

/-- What is in the files after these runs. -/
theorem written_reach : ∃ w w' : WireCluster (Fin 3),
    (system (Config.complete 3)).Reach Regular w ∧
    (system (Config.complete 3)).Steps Regular w w' ∧
    (w.nodes 0).state = .leader ∧ (w'.nodes 0).state = .leader ∧
    (w'.nodes 0).store.term = (w.nodes 0).store.term ∧
    (w.nodes 1).store.files.log.length = 29 ∧ (w.nodes 0).store.files.log.length = 29 ∧
    (w'.nodes 0).store.files.log.length = 60 := by
  have hrun : (TransitionSystem.runFrom (next (Config.complete 3)) Regular init firstLeader).any
      (fun w => (TransitionSystem.runFrom (next (Config.complete 3)) Regular w laterWrite).any fun w' =>
        decide ((w.nodes 0).state = .leader ∧ (w'.nodes 0).state = .leader ∧
          (w'.nodes 0).store.term = (w.nodes 0).store.term ∧
          (w.nodes 1).store.files.log.length = 29 ∧ (w.nodes 0).store.files.log.length = 29 ∧
          (w'.nodes 0).store.files.log.length = 60)) = true := by
    decide +kernel
  obtain ⟨w, hw, hp⟩ := (Option.any_eq_true _ _).mp hrun
  obtain ⟨w', hw', hp⟩ := (Option.any_eq_true _ _).mp hp
  exact ⟨w, w', TransitionSystem.steps_of_runFrom system_step_of_next hw,
    TransitionSystem.steps_of_runFrom system_step_of_next hw', of_decide_eq_true hp⟩

/-! ## The refinement -/

section

variable {ι : Type} [DecidableEq ι] [Fintype ι] [Host] [NodeIds ι] {cfg : Config ι} {w : WireCluster ι}

/-- Every regular run in bytes is a run of the model, and what can come next is the same on both
sides: no section faults, and every step of the model is one in bytes. -/
theorem refines (h : (system cfg).Reach Regular w) :
    ∃ c, (Cluster.system cfg).Reach Cluster.Atomic c ∧ Represents cfg w c ∧
      ∀ a, w.Regular a → Matches cfg (w.step cfg a) (c.step cfg a.model) := by
  obtain ⟨c, hreach, hrep⟩ := simulates h
  exact ⟨c, hreach, hrep, fun a hok => hrep.reach_step hreach hok⟩

end

theorem refines_firstLeader : ∃ w : WireCluster (Fin 3), (w.nodes 1).store.files.log.length = 29 ∧
    ∃ c, (Cluster.system (Config.complete 3)).Reach Cluster.Atomic c ∧
      Represents (Config.complete 3) w c ∧
      ∀ a, w.Regular a →
        Matches (Config.complete 3) (w.step (Config.complete 3) a) (c.step (Config.complete 3) a.model) := by
  obtain ⟨w, -, hreach, -, -, -, -, hlen, -⟩ := written_reach
  exact ⟨w, hlen, refines hreach⟩

end WireCluster

end RaftKv.Wire
