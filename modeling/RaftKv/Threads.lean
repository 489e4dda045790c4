-- SUMMARY: What every run keeps about threads: waiting calls, counted votes, and that a candidate is still in the term it campaigns for.
import RaftKv.Runs
import RaftKv.Refinement.Node

/-!
# Threads

The invariant of the blocking calls. A thread that waits does so on a call it made to
the first peer of its list; the votes an election has counted are granted replies of
different nodes; and while a node is a candidate its term is the one its background
thread campaigns for, although the vote loop runs without the lock.
-/

namespace RaftKv

namespace Cluster

variable {ι : Type} [DecidableEq ι]

/-! ## The send loop a thread runs -/

section SendLoop

variable (c : Cluster ι)

theorem sendLoop_setBackground (i : ι) (b : Background ι) (t : Thread ι) :
    (c.setBackground i b).sendLoop t =
      if t = .background i then b.sendLoop.map fun l => (i, l) else c.sendLoop t := by
  cases t with
  | background j =>
    by_cases hj : j = i
    · subst hj; simp [sendLoop]
    · simp [sendLoop, hj]
  | client k => simp [sendLoop]

omit [DecidableEq ι] in
/-- The loops depend on what threads do and on nothing else. -/
theorem sendLoop_congr {c c' : Cluster ι} (hbg : c'.background = c.background)
    (hclients : c'.clients = c.clients) (t : Thread ι) : c'.sendLoop t = c.sendLoop t := by
  cases t <;> simp only [sendLoop, hbg, hclients]

theorem sendLoop_concat {c c' : Cluster ι} {call : ClientCall ι}
    (hbg : c'.background = c.background) (hclients : c'.clients = c.clients ++ [call])
    (t : Thread ι) : c'.sendLoop t =
      if t = .client c.clients.length then call.sendLoop else c.sendLoop t := by
  cases t with
  | background i => simp [sendLoop, hbg]
  | client k =>
    by_cases hk : k = c.clients.length
    · subst hk; simp [sendLoop, hclients]
    · rcases Nat.lt_or_gt_of_ne hk with hlt | hgt
      · simp [sendLoop, hk, hclients, List.getElem?_append_left hlt]
      · have hnone : (c.clients ++ [call])[k]? = none := List.getElem?_eq_none (by simp; omega)
        simp [sendLoop, hk, hclients, hnone, List.getElem?_eq_none (show c.clients.length ≤ k by omega)]

theorem sendLoop_setClient {k : Nat} {old : ClientCall ι} (hold : c.clients[k]? = some old)
    (call : ClientCall ι) (t : Thread ι) :
    (c.setClient k call).sendLoop t =
      if t = .client k then call.sendLoop else c.sendLoop t := by
  have hk : k < c.clients.length := (List.getElem?_eq_some_iff.mp hold).1
  cases t with
  | background i => simp [sendLoop, setClient]
  | client k' =>
    by_cases hkk : k' = k
    · subst hkk; simp [sendLoop, setClient, hk]
    · simp [sendLoop, setClient, hkk, Ne.symm hkk]

/-- Thread `t` goes on with another loop; nothing else runs differently. -/
theorem sendLoop_setSendLoop {t : Thread ι} {i : ι} {l₀ : SendLoop ι}
    (h : c.sendLoop t = some (i, l₀)) (l : SendLoop ι) (t' : Thread ι) :
    (c.setSendLoop t l).sendLoop t' = if t' = t then some (i, l) else c.sendLoop t' := by
  cases t with
  | background j =>
    simp only [sendLoop] at h
    cases hbg : c.background j with
    | idle => simp [hbg, Background.sendLoop] at h
    | election e => simp [hbg, Background.sendLoop] at h
    | leading l₁ =>
      simp only [hbg, Background.sendLoop, Option.map_some, Option.some.injEq, Prod.mk.injEq] at h
      obtain ⟨rfl, rfl⟩ := h
      simp only [setSendLoop, hbg, sendLoop_setBackground, Background.sendLoop, Option.map_some]
    | heartbeat l₁ =>
      simp only [hbg, Background.sendLoop, Option.map_some, Option.some.injEq, Prod.mk.injEq] at h
      obtain ⟨rfl, rfl⟩ := h
      simp only [setSendLoop, hbg, sendLoop_setBackground, Background.sendLoop, Option.map_some]
  | client k =>
    simp only [sendLoop] at h
    cases hcall : c.clients[k]? with
    | none => simp [hcall] at h
    | some call =>
      simp only [hcall, Option.bind_some, ClientCall.sendLoop] at h
      split at h
      · rename_i hrun
        simp only [Option.some.injEq, Prod.mk.injEq] at h
        obtain ⟨rfl, rfl⟩ := h
        have hset : c.setSendLoop (.client k) l = c.setClient k { call with loop := l } := by
          simp only [setSendLoop, hcall]
        rw [hset, sendLoop_setClient c hcall]
        simp [ClientCall.sendLoop, hrun]
      · cases h

/-- A loop after thread `t` goes on is the new one of `t` or ran before. -/
theorem sendLoop_of_setSendLoop {t t' : Thread ι} {i j : ι} {l l₀ l' : SendLoop ι}
    (h : c.sendLoop t' = some (j, l₀)) (hl : (c.setSendLoop t' l').sendLoop t = some (i, l)) :
    t = t' ∧ i = j ∧ l = l' ∨ c.sendLoop t = some (i, l) := by
  rw [sendLoop_setSendLoop c h] at hl
  split at hl
  · rename_i ht
    cases hl
    exact .inl ⟨ht, rfl, rfl⟩
  · exact .inr hl

/-- An election after a background thread was set is the one it was set to or ran before. -/
theorem election_of_setBackground {i j : ι} {b : Background ι} {e : Election ι}
    (h : (c.setBackground j b).background i = .election e) :
    i = j ∧ b = .election e ∨ c.background i = .election e := by
  rw [setBackground_background] at h
  split at h
  · rename_i hi
    exact .inl ⟨hi, h⟩
  · exact .inr h

/-- An election of another node, or this one, is not affected by a send loop. -/
theorem setSendLoop_election {t : Thread ι} {l : SendLoop ι} {i : ι} {e : Election ι}
    (h : (c.setSendLoop t l).background i = .election e) : c.background i = .election e := by
  cases t with
  | background j =>
    simp only [setSendLoop] at h
    split at h
    · simp only [setBackground_background] at h
      split at h
      · cases h
      · exact h
    · simp only [setBackground_background] at h
      split at h
      · cases h
      · exact h
    · exact h
  | client k =>
    simp only [setSendLoop] at h
    split at h <;> exact h

/-- After a restart of `i` the threads of the other nodes go on. -/
theorem sendLoop_restart {c : Cluster ι} {i j : ι} {d : Disk ι} {tr : List (Event ι)}
    {t : Thread ι} {l : SendLoop ι} (h : (c.restart i d tr).sendLoop t = some (j, l)) :
    c.sendLoop t = some (j, l) ∧ j ≠ i := by
  cases t with
  | background j' =>
    simp only [sendLoop, restart, Function.update_apply] at h
    split at h
    · simp [Background.sendLoop] at h
    · rename_i hne
      refine ⟨h, ?_⟩
      rw [Option.map_eq_some_iff] at h
      obtain ⟨_, -, heq⟩ := h
      rw [← (Prod.mk.inj heq).1]
      exact hne
  | client k =>
    simp only [sendLoop, restart, List.getElem?_map] at h ⊢
    cases hcall : c.clients[k]? with
    | none => simp [hcall] at h
    | some call =>
      simp only [hcall, Option.map_some, Option.bind_some] at h ⊢
      split at h
      · simp [ClientCall.sendLoop] at h
      · rename_i hg
        refine ⟨h, ?_⟩
        simp only [ClientCall.sendLoop] at h
        split at h
        · rename_i hrun
          rw [Option.some.injEq, Prod.mk.injEq] at h
          rw [← h.1]
          exact fun heq => hg ⟨heq, hrun⟩
        · cases h

end SendLoop

/-! ## Nodes and histories -/

variable {cfg : Config ι} {c c' : Cluster ι}

/-- Every move is steady for every node, apart from starting and winning an election. -/
theorem Moved.nodes {m : Move ι} (h : Moved cfg c m c') (j : ι) :
    (c.nodes j).Steady (c'.nodes j) ∨
    (c.background j = .idle ∧ c'.nodes j = ((c.nodes j).startElection j).1) ∨
    ((c.nodes j).state = .candidate ∧ c'.nodes j = (c.nodes j).becomeLeader j ∧
      ∃ l, c'.background j = .leading l) := by
  have hset : ∀ (i : ι) (n : RaftNode ι), (c.nodes i).Steady n →
      (c.nodes j).Steady ((c.setNode i n).nodes j) := by
    intro i n hn
    exact c.setNode_cases i j n (fun heq => heq ▸ hn) fun _ => .refl _
  cases h with
  | @timeout i hidle hstate =>
    simp only [setBackground_nodes, setNode_nodes]
    split
    · rename_i heq
      subst heq
      exact Or.inr (Or.inl ⟨hidle, rfl⟩)
    · exact Or.inl (.refl _)
  | @elected i rpc votes hbg hvotes hstate =>
    simp only [setBackground_nodes, setNode_nodes]
    split
    · rename_i heq
      subst heq
      exact Or.inr (Or.inr ⟨hstate, rfl, _, by simp; rfl⟩)
    · exact Or.inl (.refl _)
  | deliverVote hcall hnew hfree =>
    exact Or.inl (hset _ _ (RaftNode.handleRequestVote_steady _ _))
  | deliverAppend hcall hnew hfree =>
    exact Or.inl (hset _ _ (RaftNode.handleAppendEntries_steady _ _))
  | voteReply hbg hcall hreply hterm => exact Or.inl (hset _ _ (.refl _))
  | @deposed i p rpc votes k todo call resp hbg hcall hreply hterm =>
    refine Or.inl (hset _ _ ?_)
    rw [RaftNode.voteReply_deposed votes hterm]
    exact (RaftNode.stepDown_steady _ _).trans (.of_eq rfl rfl rfl (List.prefix_refl _))
  | appendReply hloop hcall hreply =>
    rw [setSendLoop_nodes]
    exact Or.inl (hset _ _ (RaftNode.appendReply_steady _ _ _ _ _ _))
  | appendLost hloop hcall =>
    rw [setSendLoop_nodes]
    exact Or.inl (hset _ _ (RaftNode.appendLost_steady _ _ _))
  | submit hfree hstate => exact Or.inl (hset _ _ (RaftNode.appendOwn_steady _ _))
  | get hfree hstate => exact Or.inl (hset _ _ (RaftNode.appendOwn_steady _ _))
  | finishSubmit hcall hfree hcommit => exact Or.inl (hset _ _ RaftNode.applyCommitted_steady)
  | send hloop => rw [setSendLoop_nodes]; exact Or.inl (.refl _)
  | sendVote _ | voteLost _ | unelected _ | heartbeat _ _ | endLoop _ | finishGet _ _ _ _ _ =>
    exact Or.inl (.refl _)

/-- Calls and histories are only added to. -/
structure Grows (c c' : Cluster ι) : Prop where
  vote : ∀ (k : Nat) (call : VoteCall ι), c.voteCalls[k]? = some call →
    ∃ call' : VoteCall ι, c'.voteCalls[k]? = some call' ∧ call'.src = call.src ∧
      call'.dst = call.dst ∧ call'.rpc = call.rpc ∧ ∀ r, call.reply = some r → call'.reply = some r
  append : ∀ (k : Nat) (call : AppendCall ι), c.appendCalls[k]? = some call →
    ∃ call' : AppendCall ι, c'.appendCalls[k]? = some call' ∧ call'.src = call.src ∧
      call'.dst = call.dst ∧ call'.rpc = call.rpc ∧ ∀ r, call.reply = some r → call'.reply = some r
  trace : ∀ i, (c.nodes i).trace <+: (c'.nodes i).trace

omit [DecidableEq ι] in
theorem Grows.of_calls (hvote : ∃ vs, c'.voteCalls = c.voteCalls ++ vs)
    (happend : ∃ as, c'.appendCalls = c.appendCalls ++ as)
    (htrace : ∀ i, (c.nodes i).trace <+: (c'.nodes i).trace) : Grows c c' where
  vote := by
    intro k call hcall
    obtain ⟨vs, hvs⟩ := hvote
    refine ⟨call, ?_, rfl, rfl, rfl, fun _ h => h⟩
    rw [hvs, List.getElem?_append_left (List.getElem?_eq_some_iff.mp hcall).1]
    exact hcall
  append := by
    intro k call hcall
    obtain ⟨as, has⟩ := happend
    refine ⟨call, ?_, rfl, rfl, rfl, fun _ h => h⟩
    rw [has, List.getElem?_append_left (List.getElem?_eq_some_iff.mp hcall).1]
    exact hcall
  trace := htrace

theorem Moved.trace {m : Move ι} (h : Moved cfg c m c') (j : ι) :
    (c.nodes j).trace <+: (c'.nodes j).trace := by
  rcases h.nodes j with hst | ⟨-, heq⟩ | ⟨hcand, heq, -⟩
  · exact hst.trace
  · rw [heq, RaftNode.startElection_trace]; exact List.prefix_append _ _
  · rw [heq, RaftNode.becomeLeader_trace j hcand]; exact List.prefix_append _ _

/-- Answering the call at `k` changes the one at `k'` only if it is the same. -/
theorem getElem?_set_or {α : Type} {calls : List α} {k k' : Nat} {call call' : α}
    (hcall : calls[k]? = some call) (hcall' : calls[k']? = some call') :
    (call' = call ∧ ∀ answered, (calls.set k answered)[k']? = some answered) ∨
      ∀ answered, (calls.set k answered)[k']? = some call' := by
  by_cases hk : k' = k
  · subst hk
    rw [hcall] at hcall'
    cases hcall'
    exact .inl ⟨rfl, fun _ => List.getElem?_set_self (List.getElem?_eq_some_iff.mp hcall).1⟩
  · exact .inr fun _ => by simpa [List.getElem?_set, Ne.symm hk] using hcall'

theorem Moved.grows {m : Move ι} (h : Moved cfg c m c') : Grows c c' := by
  have htrace := h.trace
  cases h with
  | @deliverVote k call hcall hnew hfree =>
    refine ⟨?_, fun k' call' h' => ⟨call', h', rfl, rfl, rfl, fun _ h => h⟩, htrace⟩
    intro k' call' hcall'
    rcases getElem?_set_or hcall hcall' with ⟨rfl, hset⟩ | hold
    · exact ⟨_, hset _, rfl, rfl, rfl, fun r hr => by rw [hnew] at hr; cases hr⟩
    · exact ⟨call', hold _, rfl, rfl, rfl, fun _ h => h⟩
  | @deliverAppend k call hcall hnew hfree =>
    refine ⟨fun k' call' h' => ⟨call', h', rfl, rfl, rfl, fun _ h => h⟩, ?_, htrace⟩
    intro k' call' hcall'
    rcases getElem?_set_or hcall hcall' with ⟨rfl, hset⟩ | hold
    · exact ⟨_, hset _, rfl, rfl, rfl, fun r hr => by rw [hnew] at hr; cases hr⟩
    · exact ⟨call', hold _, rfl, rfl, rfl, fun _ h => h⟩
  | sendVote _ => exact .of_calls ⟨_, rfl⟩ ⟨[], by simp⟩ htrace
  | send _ => exact .of_calls ⟨[], by simp⟩ ⟨_, by simp; rfl⟩ htrace
  | timeout _ _ | voteReply _ _ _ _ | deposed _ _ _ _ | voteLost _ | elected _ _ _ | unelected _
  | heartbeat _ _ | appendReply _ _ _ | appendLost _ _ | endLoop _ | submit _ _ | get _ _
  | finishSubmit _ _ _ | finishGet _ _ _ _ _ =>
    exact .of_calls ⟨[], by simp⟩ ⟨[], by simp⟩ htrace

theorem Grows.restart (c : Cluster ι) (i : ι) (d : Disk ι) {tr : List (Event ι)}
    (htr : (c.nodes i).trace <+: tr) : Grows c (c.restart i d tr) := by
  refine .of_calls ⟨[], by simp [Cluster.restart]⟩ ⟨[], by simp [Cluster.restart]⟩ ?_
  intro j
  simp only [Cluster.restart, Function.update_apply]
  split
  · rename_i hj
    rw [hj, RaftNode.start_trace]
    exact htr.trans (List.prefix_append _ _)
  · exact List.prefix_refl _

/-! ## Where loops and elections come from -/

/-- A loop that runs after a move ran before, is new, made its call or got past it. -/
theorem Moved.loops {m : Move ι} (h : Moved cfg c m c') {t : Thread ι} {i : ι} {l : SendLoop ι}
    (hl : c'.sendLoop t = some (i, l)) :
    c.sendLoop t = some (i, l) ∨
    (l = ⟨cfg.peers i, none⟩ ∧
      ((c.nodes i).state = .leader ∧ (c'.nodes i).state = .leader ∨
        (c.nodes i).state = .candidate ∧ c'.nodes i = (c.nodes i).becomeLeader i)) ∨
    (∃ p todo, c.sendLoop t = some (i, ⟨p :: todo, none⟩) ∧
      l = ⟨p :: todo, some c.appendCalls.length⟩ ∧ c'.appendCalls = c.appendCalls ++
        [⟨i, p, (c.nodes i).buildAppendEntries i p, none, c.nodes i⟩]) ∨
    (∃ p todo k, c.sendLoop t = some (i, ⟨p :: todo, some k⟩) ∧ l = ⟨todo, none⟩) := by
  have hidle : ∀ (j : ι) (b : Background ι), b.sendLoop = none →
      (c.setBackground j b).sendLoop t = some (i, l) → c.sendLoop t = some (i, l) := by
    intro j b hb hl
    rw [sendLoop_setBackground, hb] at hl
    split at hl
    · cases hl
    · exact hl
  cases h with
  | timeout _ _ | deposed _ _ _ _ | unelected _ | endLoop _ | voteLost _ | sendVote _
  | voteReply _ _ _ _ => exact Or.inl (hidle _ _ rfl hl)
  | deliverVote _ _ _ | deliverAppend _ _ _ => cases t <;> exact Or.inl hl
  | @elected j rpc votes hbg hvotes hstate =>
    rw [sendLoop_setBackground] at hl
    split at hl
    · cases hl
      exact Or.inr (Or.inl ⟨rfl, Or.inr ⟨hstate, by simp⟩⟩)
    · exact Or.inl hl
  | @heartbeat j hidle hstate =>
    rw [sendLoop_setBackground] at hl
    split at hl
    · cases hl
      exact Or.inr (Or.inl ⟨rfl, Or.inl ⟨hstate, hstate⟩⟩)
    · exact Or.inl hl
  | @send t' j p todo hloop =>
    rcases sendLoop_of_setSendLoop _ ((sendLoop_congr (by rfl) (by rfl) t').trans hloop) hl with
      ⟨rfl, rfl, rfl⟩ | hold
    · exact Or.inr (Or.inr (Or.inl ⟨p, todo, hloop, rfl, by simp⟩))
    · exact Or.inl ((sendLoop_congr (by rfl) (by rfl) t).symm.trans hold)
  | @appendReply t' connected j p k todo call resp hloop hcall hreply =>
    rcases sendLoop_of_setSendLoop _ ((sendLoop_congr (by rfl) (by rfl) t').trans hloop) hl with
      ⟨rfl, rfl, rfl⟩ | hold
    · exact Or.inr (Or.inr (Or.inr ⟨p, todo, k, hloop, rfl⟩))
    · exact Or.inl hold
  | @appendLost t' j p k todo call hloop hcall =>
    rcases sendLoop_of_setSendLoop _ ((sendLoop_congr (by rfl) (by rfl) t').trans hloop) hl with
      ⟨rfl, rfl, rfl⟩ | hold
    · exact Or.inr (Or.inr (Or.inr ⟨p, todo, k, hloop, rfl⟩))
    · exact Or.inl hold
  | @submit j cmd connected hfree hstate =>
    rw [sendLoop_concat (c := c) (by rfl) (by rfl) t] at hl
    split at hl
    · cases hl
      exact Or.inr (Or.inl ⟨rfl, Or.inl ⟨hstate, by simpa [RaftNode.appendOwn, RaftNode.persist] using hstate⟩⟩)
    · exact Or.inl hl
  | @get j key hfree hstate =>
    rw [sendLoop_concat (c := c) (by rfl) (by rfl) t] at hl
    split at hl
    · cases hl
      exact Or.inr (Or.inl ⟨rfl, Or.inl ⟨hstate, by simpa [RaftNode.appendOwn, RaftNode.persist] using hstate⟩⟩)
    · exact Or.inl hl
  | @finishSubmit k j cmd entry hcall hfree hcommit =>
    rw [sendLoop_setClient _ (show (c.setNode j _).clients[k]? = some _ from hcall)] at hl
    split at hl
    · simp [ClientCall.sendLoop] at hl
    · exact Or.inl hl
  | @finishGet k j key entry outcome hcall hfree hcommit hvalue hrefused =>
    rw [sendLoop_setClient _ hcall] at hl
    split at hl
    · have hdone : outcome ≠ .running := by
        by_cases hl : (c.nodes j).state = .leader
        · rw [hvalue hl]; simp
        · rw [hrefused hl]; simp
      simp [ClientCall.sendLoop, hdone] at hl
    · exact Or.inl hl

/-- An election that runs after a move ran before, is new, made its call or got past it,
counting a vote only for a granted reply. -/
theorem Moved.elections {m : Move ι} (h : Moved cfg c m c') {i : ι} {e : Election ι}
    (he : c'.background i = .election e) :
    c.background i = .election e ∨
    (m = .timeout i ∧ c'.nodes i = ((c.nodes i).startElection i).1 ∧
      e = ⟨((c.nodes i).startElection i).2, 1, cfg.peers i, none⟩) ∨
    (∃ rpc votes p todo, c.background i = .election ⟨rpc, votes, p :: todo, none⟩ ∧
      e = ⟨rpc, votes, p :: todo, some c.voteCalls.length⟩ ∧
      c'.voteCalls = c.voteCalls ++ [⟨i, p, rpc, none⟩]) ∨
    (∃ rpc votes p todo k votes', c.background i = .election ⟨rpc, votes, p :: todo, some k⟩ ∧
      e = ⟨rpc, votes', todo, none⟩ ∧ (votes' = votes ∨ votes' = votes + 1 ∧
        ∃ call resp, c.voteCalls[k]? = some call ∧ call.reply = some resp ∧
          resp.voteGranted = true)) := by
  cases h with
  | timeout hidle hstate =>
    rcases election_of_setBackground _ he with ⟨rfl, hnew⟩ | hold
    · cases hnew
      exact Or.inr (Or.inl ⟨rfl, by simp, rfl⟩)
    · exact Or.inl hold
  | sendVote hbg =>
    rcases election_of_setBackground _ he with ⟨rfl, hnew⟩ | hold
    · cases hnew
      exact Or.inr (Or.inr (Or.inl ⟨_, _, _, _, hbg, rfl, rfl⟩))
    · exact Or.inl hold
  | @voteReply j p rpc votes k todo call resp hbg hcall hreply hterm =>
    rcases election_of_setBackground _ he with ⟨rfl, hnew⟩ | hold
    · cases hnew
      refine Or.inr (Or.inr (Or.inr ⟨_, _, _, _, _, _, hbg, rfl, ?_⟩))
      by_cases hg : resp.voteGranted = true
      · exact Or.inr ⟨by simp [hg], call, resp, hcall, hreply, hg⟩
      · exact Or.inl (by simp [hg])
    · exact Or.inl hold
  | voteLost hbg =>
    rcases election_of_setBackground _ he with ⟨rfl, hnew⟩ | hold
    · cases hnew
      exact Or.inr (Or.inr (Or.inr ⟨_, _, _, _, _, _, hbg, rfl, Or.inl rfl⟩))
    · exact Or.inl hold
  | deposed _ _ _ _ | elected _ _ _ | unelected _ | heartbeat _ _ | endLoop _ =>
    rcases election_of_setBackground _ he with ⟨-, hnew⟩ | hold
    · cases hnew
    · exact Or.inl hold
  | send _ | appendReply _ _ _ | appendLost _ _ =>
    have hold := setSendLoop_election _ he
    exact Or.inl hold
  | deliverVote _ _ _ | deliverAppend _ _ _ | submit _ _ | get _ _ | finishSubmit _ _ _
  | finishGet _ _ _ _ _ => exact Or.inl he

/-- A vote request is old, was just made by its election, or was just answered. -/
theorem Moved.voteCalls {m : Move ι} (h : Moved cfg c m c') {call' : VoteCall ι}
    (hcall' : call' ∈ c'.voteCalls) : call' ∈ c.voteCalls ∨
    (∃ votes todo, c.background call'.src =
      .election ⟨call'.rpc, votes, call'.dst :: todo, none⟩ ∧ call'.reply = none) ∨
    (∃ k call, m = .deliverVote k ∧ c.voteCalls[k]? = some call ∧ call' = { call with
      reply := some ((c.nodes call.dst).handleRequestVote call.rpc).2 }) := by
  cases h with
  | sendVote hbg =>
    rcases List.mem_append.mp hcall' with hold | hnew
    · exact Or.inl hold
    · cases List.mem_singleton.mp hnew
      exact Or.inr (Or.inl ⟨_, _, hbg, rfl⟩)
  | deliverVote hcall hnew hfree =>
    rcases List.mem_or_eq_of_mem_set hcall' with hold | heq
    · exact Or.inl hold
    · exact Or.inr (Or.inr ⟨_, _, rfl, hcall, heq⟩)
  | send _ | appendReply _ _ _ | appendLost _ _ =>
    rw [setSendLoop_voteCalls] at hcall'
    exact Or.inl hcall'
  | timeout _ _ | voteReply _ _ _ _ | deposed _ _ _ _ | voteLost _ | elected _ _ _ | unelected _
  | heartbeat _ _ | deliverAppend _ _ _ | endLoop _ | submit _ _ | get _ _
  | finishSubmit _ _ _ | finishGet _ _ _ _ _ => exact Or.inl hcall'

/-- An append request is old, was just built by its send loop, or was just answered. -/
theorem Moved.appendCalls {m : Move ι} (h : Moved cfg c m c') {call' : AppendCall ι}
    (hcall' : call' ∈ c'.appendCalls) : call' ∈ c.appendCalls ∨
    (∃ t i p todo, m = .send t ∧ c.sendLoop t = some (i, ⟨p :: todo, none⟩) ∧
      call' = ⟨i, p, (c.nodes i).buildAppendEntries i p, none, c.nodes i⟩) ∨
    (∃ k call, m = .deliverAppend k ∧ c.appendCalls[k]? = some call ∧ call' = { call with
      reply := some ((c.nodes call.dst).handleAppendEntries call.rpc).2 }) := by
  cases h with
  | send hloop =>
    rw [setSendLoop_appendCalls] at hcall'
    rcases List.mem_append.mp hcall' with hold | hnew
    · exact Or.inl hold
    · exact Or.inr (Or.inl ⟨_, _, _, _, rfl, hloop, List.mem_singleton.mp hnew⟩)
  | deliverAppend hcall hnew hfree =>
    rcases List.mem_or_eq_of_mem_set hcall' with hold | heq
    · exact Or.inl hold
    · exact Or.inr (Or.inr ⟨_, _, rfl, hcall, heq⟩)
  | appendReply _ _ _ | appendLost _ _ =>
    rw [setSendLoop_appendCalls] at hcall'
    exact Or.inl hcall'
  | timeout _ _ | sendVote _ | deliverVote _ _ _ | voteReply _ _ _ _ | deposed _ _ _ _
  | voteLost _ | elected _ _ _ | unelected _ | heartbeat _ _ | endLoop _ | submit _ _ | get _ _
  | finishSubmit _ _ _ | finishGet _ _ _ _ _ => exact Or.inl hcall'

/-! ## The invariant -/

/-- `v` granted `i` its vote in term `T`, in a reply. -/
def Granted (c : Cluster ι) (i : ι) (T : Nat) (v : ι) : Prop :=
  ∃ call ∈ c.voteCalls, call.src = i ∧ call.dst = v ∧ call.rpc.term = T ∧
    ∃ resp, call.reply = some resp ∧ resp.voteGranted = true

omit [DecidableEq ι] in
theorem Granted.mono {i v : ι} {T : Nat} (h : c.Granted i T v) (hg : Grows c c') :
    c'.Granted i T v := by
  obtain ⟨call, hcall, hsrc, hdst, hterm, resp, hreply, hgranted⟩ := h
  obtain ⟨k, hk⟩ := List.mem_iff_getElem?.mp hcall
  obtain ⟨call', hcall', hsrc', hdst', hrpc', hreply'⟩ := hg.vote k call hk
  exact ⟨call', List.mem_of_getElem? hcall', hsrc'.trans hsrc, hdst'.trans hdst,
    by rw [hrpc', hterm], resp, hreply' _ hreply, hgranted⟩

structure LoopOk (cfg : Config ι) (c : Cluster ι) (i : ι) (l : SendLoop ι) : Prop where
  next : ∀ j, 1 ≤ (c.nodes i).nextIndex j
  todo : ∀ p ∈ l.todo, p ∈ cfg.peers i
  waiting : ∀ k, l.waiting = some k → ∃ p todo call, l.todo = p :: todo ∧
    c.appendCalls[k]? = some call ∧ call.src = i ∧ call.dst = p

structure ElectionOk (cfg : Config ι) (c : Cluster ι) (i : ι) (e : Election ι) : Prop where
  candidateId : e.rpc.candidateId = i
  role : (c.nodes i).state ≠ .leader
  term : (c.nodes i).state = .candidate → (c.nodes i).store.term = e.rpc.term
  todo : e.loop.todo <:+ cfg.peers i
  waiting : ∀ k, e.loop.waiting = some k → ∃ p todo call, e.loop.todo = p :: todo ∧
    c.voteCalls[k]? = some call ∧ call.src = i ∧ call.dst = p ∧ call.rpc = e.rpc
  /-- The votes counted are the node's own and those of peers already served. -/
  votes : ∃ F : Finset ι, i ∈ F ∧ F.card = e.votes ∧
    ∀ v ∈ F, v = i ∨ v ∉ e.loop.todo ∧ c.Granted i e.rpc.term v

structure Threads (cfg : Config ι) (c : Cluster ι) : Prop where
  loops : ∀ t i l, c.sendLoop t = some (i, l) → LoopOk cfg c i l
  leader : ∀ i, (c.nodes i).state = .leader → ∀ j, 1 ≤ (c.nodes i).nextIndex j
  elections : ∀ i e, c.background i = .election e → ElectionOk cfg c i e
  voteCalls : ∀ call ∈ c.voteCalls, call.rpc.candidateId = call.src ∧ call.dst ≠ call.src
  appendCalls : ∀ call ∈ c.appendCalls,
    call.rpc = call.sender.buildAppendEntries call.src call.dst ∧
      1 ≤ call.sender.nextIndex call.dst ∧ call.dst ≠ call.src

namespace Threads

omit [DecidableEq ι] in
theorem init : Threads cfg (Cluster.init : Cluster ι) where
  loops := by intro t i l h; cases t <;> simp [sendLoop, Cluster.init, Background.sendLoop] at h
  leader := by intro i hi; simp [Cluster.init, RaftNode.start_state] at hi
  elections := by intro i e he; cases he
  voteCalls := by intro call h; cases h
  appendCalls := by intro call h; cases h

omit [DecidableEq ι] in
/-- A loop that keeps its place stays sound while calls are only added to. -/
theorem loopOk_keep (hg : Grows c c') {i : ι} {l : SendLoop ι} (h : LoopOk cfg c i l)
    (hnext : ∀ j, 1 ≤ (c'.nodes i).nextIndex j) : LoopOk cfg c' i l where
  next := hnext
  todo := h.todo
  waiting := by
    intro k hk
    obtain ⟨p, todo, call, htodo, hcall, hsrc, hdst⟩ := h.waiting k hk
    obtain ⟨call', hcall', hsrc', hdst', -⟩ := hg.append k call hcall
    exact ⟨p, todo, call', htodo, hcall', hsrc'.trans hsrc, hdst'.trans hdst⟩

omit [DecidableEq ι] in
theorem electionOk_keep (hg : Grows c c') {i : ι} {e : Election ι} (h : ElectionOk cfg c i e)
    (hlead : (c'.nodes i).state ≠ .leader)
    (hrole : (c'.nodes i).state = .candidate → (c.nodes i).state = .candidate ∧
      (c'.nodes i).store.term = (c.nodes i).store.term) : ElectionOk cfg c' i e where
  candidateId := h.candidateId
  role := hlead
  term := by
    intro hc
    obtain ⟨hcand, hterm⟩ := hrole hc
    rw [hterm]; exact h.term hcand
  todo := h.todo
  waiting := by
    intro k hk
    obtain ⟨p, todo, call, htodo, hcall, hsrc, hdst, hrpc⟩ := h.waiting k hk
    obtain ⟨call', hcall', hsrc', hdst', hrpc', -⟩ := hg.vote k call hcall
    exact ⟨p, todo, call', htodo, hcall', hsrc'.trans hsrc, hdst'.trans hdst, hrpc'.trans hrpc⟩
  votes := by
    obtain ⟨F, hi, hcard, hF⟩ := h.votes
    exact ⟨F, hi, hcard, fun v hv => (hF v hv).imp_right fun ⟨hn, hgr⟩ => ⟨hn, hgr.mono hg⟩⟩

/-- Advancing past a peer counts its vote at most once. -/
theorem electionOk_advance {i p : ι} {rpc : RequestVote ι} {votes k votes' : Nat} {todo : List ι}
    (h : ElectionOk cfg c i ⟨rpc, votes, p :: todo, some k⟩)
    (hvotes : votes' = votes ∨ votes' = votes + 1 ∧ ∃ call resp,
      c.voteCalls[k]? = some call ∧ call.reply = some resp ∧ resp.voteGranted = true) :
    ElectionOk cfg c i ⟨rpc, votes', todo, none⟩ where
  candidateId := h.candidateId
  role := h.role
  term := h.term
  todo := (List.suffix_cons p todo).trans h.todo
  waiting := by intro k hk; cases hk
  votes := by
    have hnodup : (p :: todo).Nodup := (cfg.nodup i).sublist h.todo.sublist
    have hpeer : p ≠ i := (cfg.mem_peers i p).mp (h.todo.subset List.mem_cons_self)
    obtain ⟨F, hi, hcard, hF⟩ := h.votes
    have hold : ∀ v ∈ F, v = i ∨ v ∉ todo ∧ c.Granted i rpc.term v := by
      intro v hv
      exact (hF v hv).imp_right fun ⟨hn, hgr⟩ => ⟨fun hm => hn (List.mem_cons_of_mem _ hm), hgr⟩
    rcases hvotes with rfl | ⟨rfl, call, resp, hcall, hreply, hgranted⟩
    · exact ⟨F, hi, hcard, hold⟩
    · obtain ⟨p', todo', call', htodo, hcall', hsrc, hdst, hrpc⟩ := h.waiting k rfl
      cases htodo
      rw [hcall] at hcall'
      cases hcall'
      have hfresh : p ∉ F := by
        intro hmem
        rcases hF p hmem with heq | ⟨hn, -⟩
        · exact hpeer heq
        · exact hn List.mem_cons_self
      refine ⟨insert p F, Finset.mem_insert_of_mem hi, ?_, ?_⟩
      · rw [Finset.card_insert_of_notMem hfresh, hcard]
      · intro v hv
        rcases Finset.mem_insert.mp hv with rfl | hv
        · refine Or.inr ⟨(List.nodup_cons.mp hnodup).1, call, List.mem_of_getElem? hcall, hsrc,
            hdst, by rw [hrpc], resp, hreply, hgranted⟩
        · exact hold v hv

theorem moved (h : Threads cfg c) {m : Move ι} (hm : Moved cfg c m c') : Threads cfg c' := by
  have hg := hm.grows
  have hnext : ∀ i, (∀ j, 1 ≤ (c.nodes i).nextIndex j) → ∀ j, 1 ≤ (c'.nodes i).nextIndex j := by
    intro i hi
    rcases hm.nodes i with hst | ⟨-, heq⟩ | ⟨hcand, heq, -⟩
    · exact hst.next hi
    · rw [heq]; exact hi
    · intro j; rw [heq, RaftNode.becomeLeader_nextIndex i hcand]; omega
  have hcand : ∀ i e, c.background i = .election e → (c'.nodes i).state = .candidate →
      (c.nodes i).state = .candidate ∧ (c'.nodes i).store.term = (c.nodes i).store.term := by
    intro i e he hi
    rcases hm.nodes i with hst | ⟨hidle, -⟩ | ⟨hc, heq, -⟩
    · obtain ⟨hs, ht⟩ := hst.role (by rw [hi]; simp)
      exact ⟨hs ▸ hi, ht⟩
    · rw [he] at hidle; cases hidle
    · rw [heq, RaftNode.becomeLeader_state i hc] at hi
      cases hi
  have hlead : ∀ i e e', c.background i = .election e → c'.background i = .election e' →
      (c'.nodes i).state ≠ .leader := by
    intro i e e' he he' hi
    rcases hm.nodes i with hst | ⟨hidle, -⟩ | ⟨-, -, l, hl⟩
    · exact (h.elections i e he).role ((hst.role (by rw [hi]; simp)).1 ▸ hi)
    · rw [he] at hidle; cases hidle
    · rw [he'] at hl; cases hl
  constructor
  case loops =>
    intro t i l hl
    rcases hm.loops hl with hold | ⟨rfl, ⟨hlead, -⟩ | ⟨hc, heq⟩⟩ | ⟨p, todo, hold, rfl, hcalls⟩ |
      ⟨p, todo, k, hold, rfl⟩
    · exact loopOk_keep hg (h.loops t i l hold) (hnext i (h.loops t i l hold).next)
    · exact ⟨hnext i (h.leader i hlead), fun _ hp => hp, by intro k hk; cases hk⟩
    · refine ⟨?_, fun _ hp => hp, by intro k hk; cases hk⟩
      intro j; rw [heq, RaftNode.becomeLeader_nextIndex i hc]; omega
    · have hok := h.loops t i _ hold
      refine ⟨hnext i hok.next, hok.todo, ?_⟩
      intro k hk
      cases hk
      exact ⟨p, todo, _, rfl, by rw [hcalls, List.getElem?_concat_length], rfl, rfl⟩
    · have hok := h.loops t i _ hold
      exact ⟨hnext i hok.next, fun q hq => hok.todo q (List.mem_cons_of_mem _ hq),
        by intro k hk; cases hk⟩
  case leader =>
    intro i hi
    rcases hm.nodes i with hst | ⟨-, heq⟩ | ⟨hc, heq, -⟩
    · obtain ⟨hs, -⟩ := hst.role (by rw [hi]; simp)
      exact hst.next (h.leader i (hs ▸ hi))
    · rw [heq] at hi; cases hi
    · intro j; rw [heq, RaftNode.becomeLeader_nextIndex i hc]; omega
  case elections =>
    intro i e he
    rcases hm.elections he with hold | ⟨-, hnode, rfl⟩ | ⟨rpc, votes, p, todo, hold, rfl, hcalls⟩ |
      ⟨rpc, votes, p, todo, k, votes', hold, rfl, hvotes⟩
    · exact electionOk_keep hg (h.elections i e hold) (hlead i e e hold he) (hcand i e hold)
    · refine ⟨rfl, by rw [hnode]; simp, fun _ => by rw [hnode]; rfl, List.suffix_refl _,
        (by simp), ?_⟩
      exact ⟨{i}, Finset.mem_singleton_self i, Finset.card_singleton i,
        fun v hv => Or.inl (Finset.mem_singleton.mp hv)⟩
    · have hok := electionOk_keep hg (h.elections i _ hold) (hlead i _ _ hold he) (hcand i _ hold)
      refine ⟨hok.candidateId, hok.role, hok.term, hok.todo, ?_, hok.votes⟩
      intro k hk
      cases hk
      exact ⟨p, todo, _, rfl, by rw [hcalls, List.getElem?_concat_length], rfl, rfl, rfl⟩
    · have hok := electionOk_advance (h.elections i _ hold) hvotes
      exact electionOk_keep hg hok (hlead i _ _ hold he) (hcand i _ hold)
  case voteCalls =>
    intro call' hcall'
    rcases hm.voteCalls hcall' with hold | ⟨votes, todo, hbg, -⟩ | ⟨k, call, -, hold, rfl⟩
    · exact h.voteCalls call' hold
    · have hok := h.elections _ _ hbg
      exact ⟨hok.candidateId, (cfg.mem_peers _ _).mp (hok.todo.subset List.mem_cons_self)⟩
    · exact h.voteCalls call (List.mem_of_getElem? hold)
  case appendCalls =>
    intro call' hcall'
    rcases hm.appendCalls hcall' with hold | ⟨t, i, p, todo, -, hloop, rfl⟩ |
      ⟨k, call, -, hold, rfl⟩
    · exact h.appendCalls call' hold
    · have hok := h.loops t i _ hloop
      exact ⟨rfl, hok.next p, (cfg.mem_peers i p).mp (hok.todo p List.mem_cons_self)⟩
    · exact h.appendCalls call (List.mem_of_getElem? hold)

theorem restart (h : Threads cfg c) (i : ι) (d : Disk ι) {tr : List (Event ι)}
    (htr : (c.nodes i).trace <+: tr) : Threads cfg (c.restart i d tr) := by
  have hg := Grows.restart c i d htr
  have hnode : ∀ j, j ≠ i → (c.restart i d tr).nodes j = c.nodes j := by
    intro j hj; simp [Cluster.restart, hj]
  have hself : ((c.restart i d tr).nodes i).state = .follower := by
    simp [Cluster.restart, RaftNode.start_state]
  constructor
  case loops =>
    intro t j l hl
    obtain ⟨hold, hj⟩ := sendLoop_restart hl
    have hok := h.loops t j l hold
    exact loopOk_keep hg hok (by rw [hnode j hj]; exact hok.next)
  case leader =>
    intro j hj
    by_cases hji : j = i
    · subst hji; rw [hself] at hj; cases hj
    · rw [hnode j hji] at hj ⊢; exact h.leader j hj
  case elections =>
    intro j e he
    have hji : j ≠ i := by
      rintro rfl
      simp [Cluster.restart] at he
    have hold : c.background j = .election e := by simpa [Cluster.restart, hji] using he
    have hok := h.elections j e hold
    refine electionOk_keep hg hok (by rw [hnode j hji]; exact hok.role) ?_
    rw [hnode j hji]
    exact fun hc => ⟨hc, rfl⟩
  case voteCalls => exact h.voteCalls
  case appendCalls => exact h.appendCalls

theorem step (h : Threads cfg c) {a : Action ι} (hstep : c.step cfg a = some c') :
    Threads cfg c' := by
  rcases step_cases hstep with ⟨m, -, hm⟩ | ⟨i, -, rfl⟩ | ⟨m, i, cut, c₁, d, -, -, -, rfl⟩
  · exact h.moved hm
  · exact h.restart i _ (List.prefix_refl _)
  · exact h.restart i _ (List.prefix_append _ _)

theorem reach {ok : Cluster ι → Action ι → Prop} (h : (system cfg).Reach ok c) :
    Threads cfg c :=
  h.invariant init fun _ _ _ _ hs _ hstep => hs.step hstep

end Threads

end Cluster

end RaftKv
