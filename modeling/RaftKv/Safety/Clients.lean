-- SUMMARY: What a client call waits for, and that an acknowledged write is committed as long as no batch overwrites its entry.
import RaftKv.Safety.StateMachine

/-!
# Client calls

`submit` and `get` wait until the commit index reaches the index of the entry they
appended, and do not look at the entry again. `OK` is right as long as that entry is
still there.
-/

namespace RaftKv

open TermLog
open Consensus (Elections Logs Safe)

namespace Cluster

variable {ι : Type} [DecidableEq ι] {cfg : Config ι} {c c' : Cluster ι}

/-! ## The calls of a node -/

/-- The same call, possibly further on. -/
structure Continues (call call' : ClientCall ι) : Prop where
  node : call'.node = call.node
  op : call'.op = call.op
  entry : call'.entry = call.entry
  running : call'.outcome = .running → call.outcome = .running

omit [DecidableEq ι] in
theorem Continues.refl (call : ClientCall ι) : Continues call call := ⟨rfl, rfl, rfl, id⟩

omit [DecidableEq ι] in
theorem Continues.trans {a b d : ClientCall ι} (h : Continues a b) (h' : Continues b d) :
    Continues a d :=
  ⟨h'.node.trans h.node, h'.op.trans h.op, h'.entry.trans h.entry,
    fun hrun => h.running (h'.running hrun)⟩

omit [DecidableEq ι] in
theorem continues_set {k j : Nat} {old new call' : ClientCall ι} {calls : List (ClientCall ι)}
    (hold : calls[k]? = some old) (h : (calls.set k new)[j]? = some call')
    (hnew : Continues old new) : ∃ call, calls[j]? = some call ∧
      Continues call call' := by
  rw [List.getElem?_set] at h
  split at h
  · rename_i hk
    split at h
    · cases h
      exact ⟨old, hk ▸ hold, hnew⟩
    · cases h
  · exact ⟨call', h, .refl _⟩

theorem setSendLoop_clients {t : Thread ι} {l : SendLoop ι} {j : Nat} {call' : ClientCall ι}
    (h : (c.setSendLoop t l).clients[j]? = some call') :
    ∃ call, c.clients[j]? = some call ∧ Continues call call' := by
  cases t with
  | background i =>
    have hsame : (c.setSendLoop (.background i) l).clients = c.clients := by
      unfold setSendLoop; simp only; split <;> rfl
    rw [hsame] at h
    exact ⟨call', h, .refl _⟩
  | client k =>
    simp only [setSendLoop] at h
    split at h
    · rename_i old hold
      exact continues_set hold h ⟨rfl, rfl, rfl, id⟩
    · exact ⟨call', h, .refl _⟩

theorem setSendLoop_clients_length (t : Thread ι) (l : SendLoop ι) :
    (c.setSendLoop t l).clients.length = c.clients.length := by
  cases t with
  | background i => unfold setSendLoop; simp only; split <;> rfl
  | client k =>
    simp only [setSendLoop]
    split
    · exact List.length_set
    · rfl

/-- A call after a move was there before, or has just appended its entry as a leader. -/
theorem Moved.clients {m : Move ι} (h : Moved cfg c m c') {j : Nat} {call' : ClientCall ι}
    (hj : c'.clients[j]? = some call') :
    (∃ call, c.clients[j]? = some call ∧ Continues call call') ∨
    (j = c.clients.length ∧ (c.nodes call'.node).state = .leader ∧
      call'.entry = ((c.nodes call'.node).appendOwn call'.op.command).2 ∧
      c'.nodes call'.node = ((c.nodes call'.node).appendOwn call'.op.command).1) := by
  have hconcat : ∀ (new : ClientCall ι), (c.clients ++ [new])[j]? = some call' →
      c.clients[j]? = some call' ∨ j = c.clients.length ∧ call' = new := by
    intro new h
    rcases Nat.lt_trichotomy j c.clients.length with hlt | heq | hgt
    · exact Or.inl (by rwa [List.getElem?_append_left hlt] at h)
    · rw [heq, List.getElem?_concat_length] at h
      exact Or.inr ⟨heq, (Option.some.inj h).symm⟩
    · rw [List.getElem?_append_right (Nat.le_of_lt hgt)] at h
      have := (List.getElem?_eq_some_iff.mp h).1
      simp at this; omega
  cases h with
  | @submit i cmd connected hfree hstate =>
    rcases hconcat _ hj with hold | ⟨hlen, rfl⟩
    · exact Or.inl ⟨call', hold, .refl _⟩
    · exact Or.inr ⟨hlen, hstate, rfl, by simp [ClientOp.command]⟩
  | @get i key hfree hstate =>
    rcases hconcat _ hj with hold | ⟨hlen, rfl⟩
    · exact Or.inl ⟨call', hold, .refl _⟩
    · exact Or.inr ⟨hlen, hstate, rfl, by simp [ClientOp.command]⟩
  | finishSubmit hcall hfree hcommit =>
    exact Or.inl (continues_set hcall hj ⟨rfl, rfl, rfl, fun _ => rfl⟩)
  | finishGet hcall hfree hcommit hvalue hrefused =>
    exact Or.inl (continues_set hcall hj ⟨rfl, rfl, rfl, fun _ => rfl⟩)
  | send _ | appendReply _ _ _ | appendLost _ _ =>
    have hold := setSendLoop_clients hj
    exact Or.inl hold
  | timeout _ _ | sendVote _ | deliverVote _ _ _ | voteReply _ _ _ _ | deposed _ _ _ _
  | voteLost _ | elected _ _ _ | unelected _ | heartbeat _ _ | deliverAppend _ _ _ | endLoop _ =>
    exact Or.inl ⟨call', hj, .refl _⟩

theorem Moved.clients_length {m : Move ι} (h : Moved cfg c m c') :
    c.clients.length ≤ c'.clients.length := by
  cases h with
  | submit _ _ | get _ _ => simp
  | finishSubmit _ _ _ | finishGet _ _ _ _ _ => simp
  | send _ => rw [setSendLoop_clients_length]
  | appendReply _ _ _ | appendLost _ _ => rw [setSendLoop_clients_length]; exact le_refl _
  | timeout _ _ | sendVote _ | deliverVote _ _ _ | voteReply _ _ _ _ | deposed _ _ _ _
  | voteLost _ | elected _ _ _ | unelected _ | heartbeat _ _ | deliverAppend _ _ _ | endLoop _ =>
    exact le_refl _

/-! ## The entries that calls wait for -/

/-- The entry of the call is in its place. -/
structure Stands (n : RaftNode ι) (call : ClientCall ι) : Prop where
  entry : n.store.log[call.entry.index - 1]? = some call.entry
  positive : 0 < call.entry.index
  command : call.entry.command = call.op.command

omit [DecidableEq ι] in
theorem Stands.keep {n n' : RaftNode ι} {call call' : ClientCall ι} (h : Stands n call)
    (hsame : Continues call call')
    (hkept : n.store.log.take call.entry.index <+: n'.store.log) : Stands n' call' where
  entry := by
    obtain ⟨K, hK⟩ := hkept
    have hlen := (List.getElem?_eq_some_iff.mp h.entry).1
    have hpos := h.positive
    rw [hsame.entry, ← hK, List.getElem?_append_left (by simp; omega),
      List.getElem?_take_of_lt (by omega), h.entry]
  positive := hsame.entry ▸ h.positive
  command := by rw [hsame.entry, hsame.op, h.command]

omit [DecidableEq ι] in
/-- An entry stands where `submit` and `get` put it. -/
theorem Stands.appendOwn {n : RaftNode ι} (hwf : n.store.Wf) {call : ClientCall ι}
    (hentry : call.entry = (n.appendOwn call.op.command).2) :
    Stands (n.appendOwn call.op.command).1 call where
  entry := by
    rw [hentry]
    simp [RaftNode.appendOwn, RaftNode.persist, hwf.length]
  positive := by rw [hentry]; simp [RaftNode.appendOwn]
  command := by rw [hentry]; rfl

variable [Fintype ι]

/-- In a crash-free run that overwrites no awaited entry, awaited entries stand. -/
theorem awaited_stand {ok : Cluster ι → Action ι → Prop} {awaits : ClientOp → Bool}
    (hok : ∀ c a, ok c a → CrashFree c a ∧ KeepsAwaited awaits c a)
    (h : (system cfg).Reach ok c) : ∀ call ∈ c.clients, call.outcome = .running →
      awaits call.op = true → Stands (c.nodes call.node) call := by
  refine h.invariant (I := fun c => ∀ call ∈ c.clients, call.outcome = .running →
    awaits call.op = true → Stands (c.nodes call.node) call) (by intro call hcall; cases hcall) ?_
  intro c a c' hc hI ha hstep call' hcall' hrun hawaits
  obtain ⟨hfree, hkeep⟩ := hok c a ha
  rcases step_cases hstep with ⟨m, rfl, hm⟩ | ⟨i, rfl, -⟩ | ⟨m, i, cut, c₁, d, rfl, -, -, -⟩
  · obtain ⟨j, hj⟩ := List.mem_iff_getElem?.mp hcall'
    rcases hm.clients hj with ⟨call, hcall, hsame⟩ | ⟨-, -, hentry, hnode⟩
    · have hmem := List.mem_of_getElem? hcall
      have hrun₀ := hsame.running hrun
      have hawaits₀ : awaits call.op = true := hsame.op ▸ hawaits
      rw [hsame.node]
      refine (hI call hmem hrun₀ hawaits₀).keep hsame (retains hc hm call.node ?_)
      rintro k rpc rfl hrpc hdst
      rw [← hdst]
      exact hkeep rpc hrpc call hmem hdst.symm hrun₀ hawaits₀
    · rw [hnode]
      exact Stands.appendOwn (reach_wf hc call'.node) hentry
  · exact hfree.elim
  · exact hfree.elim

/-! ## Acknowledged writes -/

/-- `OK` means that the entry of the write is in the log, committed and applied, in every
crash-free run that overwrites neither committed nor awaited entries. -/
theorem submit_acknowledged (h : (system cfg).Reach KeepsWrites c) {k : Nat} {call : ClientCall ι}
    {cmd : Command} (hcall : c.clients[k]? = some call) (hop : call.op = .submit cmd)
    (hstep : c.step cfg (.move (.finish k)) = some c') :
    call.entry.command = cmd ∧
      (c'.nodes call.node).store.log[call.entry.index - 1]? = some call.entry ∧
      call.entry.index ≤ (c'.nodes call.node).store.commitIndex ∧
      .applied call.entry.index call.entry ∈ (c'.nodes call.node).trace := by
  have hwrites : KeepsWrites c (.move (.finish k)) := ⟨trivial, trivial, trivial⟩
  have hstands := awaited_stand (fun c a ha => ⟨ha.1, ha.2.2⟩) h call (List.mem_of_getElem? hcall)
  have hsettled := settled (fun c m c' hc hok hm j => hok.2.1.kept hc hm j)
    (h.step hwrites hstep) call.node
  have hm : Moved cfg c (.finish k) c' := moved_of_move hstep
  generalize hmove : Move.finish k = m at hm
  cases hm with
  | @finishSubmit k' i cmd' entry hcall' hfree hcommit =>
    cases hmove
    rw [hcall] at hcall'
    cases hcall'
    cases hop
    obtain ⟨hentry, hpos, hcommand⟩ := hstands rfl rfl
    simp only [setClient_nodes, setNode_nodes, if_true, RaftNode.applyCommitted_log,
      RaftNode.applyCommitted_commitIndex] at hsettled ⊢
    refine ⟨hcommand, hentry, hcommit, ?_⟩
    have hev := hsettled.events (entry.index - 1) entry ?_ (by simpa using hentry)
    · rwa [Nat.sub_add_cancel hpos] at hev
    · rw [hsettled.caughtUp, RaftNode.applyCommitted_commitIndex]
      simp only at hpos hcommit
      omega
  | @finishGet k' i key entry outcome hcall' hfree hcommit hvalue hrefused =>
    cases hmove
    rw [hcall] at hcall'
    cases hcall'
    cases hop
  | _ => cases hmove

/-- Node 0 commits a write with the help of node 1. -/
def acknowledgedRun : List (Action (Fin 3)) := List.flatten
  [[.move (.timeout 0)], vote 0 0, noVote 0, [.move (.endElection 0)],
    served (.background 0) 0, unserved (.background 0), [.move (.endLoop 0)],
    [.move (.submit 0 ⟨.put, [1], [7]⟩ fun _ => true)], served (.client 0) 2,
    unserved (.client 0)]

theorem submit_acknowledged_write : ∃ c c' : Cluster (Fin 3),
    (system (Config.complete 3)).Reach KeepsWrites c ∧
      c.step (Config.complete 3) (.move (.finish 0)) = some c' ∧
      (c'.nodes 0).store.log[1]? = some ⟨1, 2, ⟨.put, [1], [7]⟩⟩ ∧
      .applied 2 ⟨1, 2, ⟨.put, [1], [7]⟩⟩ ∈ (c'.nodes 0).trace := by
  have hrun : (run (Config.complete 3) KeepsWrites .init acknowledgedRun).any (fun c =>
      (c.step (Config.complete 3) (.move (.finish 0))).isSome &&
      c.clients[0]?.any fun call => decide (call.node = 0 ∧
        call.op = .submit ⟨.put, [1], [7]⟩ ∧ call.entry = ⟨1, 2, ⟨.put, [1], [7]⟩⟩)) = true := by
    decide +kernel
  obtain ⟨c, hreach, hp⟩ := exists_reach hrun
  obtain ⟨hsome, hany⟩ := Bool.and_eq_true_iff.mp hp
  obtain ⟨c', hstep⟩ := Option.isSome_iff_exists.mp hsome
  obtain ⟨call, hcall, hdec⟩ := (Option.any_eq_true _ _).mp hany
  obtain ⟨hnode, hop, hentry⟩ := of_decide_eq_true hdec
  obtain ⟨-, hlog, -, happlied⟩ := submit_acknowledged hreach hcall hop hstep
  rw [hnode, hentry] at hlog happlied
  exact ⟨c, c', hreach, hstep, hlog, happlied⟩

/-- Node 0 waits for its write at index 2 when node 1 wins term 2, overwrites it with a
write of its own and commits that. -/
def overwrittenWriteRun : List (Action (Fin 3)) := List.flatten
  [firstLeader, [.move (.submit 0 ⟨.put, [1], [7]⟩ fun _ => true)], unserved (.client 0),
    unserved (.client 0),
    [.move (.timeout 1)], noVote 1, vote 1 3, [.move (.endElection 1)],
    served (.background 1) 4, unserved (.background 1), [.move (.endLoop 1)],
    [.move (.submit 1 ⟨.put, [2], [8]⟩ fun _ => true)], served (.client 1) 6,
    [.move (.heartbeat 1), .move (.send (.background 1)), .move (.deliverAppend 7)]]

theorem submit_overwritten : ∃ c c' : Cluster (Fin 3),
    (system (Config.complete 3)).Reach CrashFree c ∧
      c.step (Config.complete 3) (.move (.finish 0)) = some c' ∧
      (∃ call, c.clients[0]? = some call ∧ call.node = 0 ∧ call.entry.index = 2 ∧
        call.op = .submit ⟨.put, [1], [7]⟩) ∧
      (∃ call, c'.clients[0]? = some call ∧ call.outcome = .ok) ∧
      (c'.nodes 0).store.log[1]? = some ⟨2, 2, ⟨.put, [2], [8]⟩⟩ ∧
      ∀ k e, .applied k e ∈ (c'.nodes 0).trace → e.command ≠ ⟨.put, [1], [7]⟩ := by
  have hrun : (run (Config.complete 3) CrashFree .init overwrittenWriteRun).any (fun c =>
      (c.clients[0]?.any fun call => decide (call.node = 0 ∧ call.entry.index = 2 ∧
        call.op = .submit ⟨.put, [1], [7]⟩)) &&
      (c.step (Config.complete 3) (.move (.finish 0))).any fun c' =>
        (c'.clients[0]?.any fun call => decide (call.outcome = .ok)) &&
        decide ((c'.nodes 0).store.log[1]? = some ⟨2, 2, ⟨.put, [2], [8]⟩⟩ ∧
          ∀ x ∈ (c'.nodes 0).calls, x.2.command ≠ ⟨.put, [1], [7]⟩)) = true := by
    decide +kernel
  obtain ⟨c, hreach, hp⟩ := exists_reach hrun
  obtain ⟨hbefore, hafter⟩ := Bool.and_eq_true_iff.mp hp
  obtain ⟨call, hcall, hdec⟩ := (Option.any_eq_true _ _).mp hbefore
  obtain ⟨c', hstep, hp'⟩ := (Option.any_eq_true _ _).mp hafter
  obtain ⟨hok, hnode⟩ := Bool.and_eq_true_iff.mp hp'
  obtain ⟨call', hcall', hdec'⟩ := (Option.any_eq_true _ _).mp hok
  obtain ⟨hlog, happlied⟩ := of_decide_eq_true hnode
  exact ⟨c, c', hreach, hstep, ⟨call, hcall, of_decide_eq_true hdec⟩,
    ⟨call', hcall', of_decide_eq_true hdec'⟩, hlog,
    fun k e he => happlied (k, e) (RaftNode.mem_calls.mpr he)⟩

end Cluster

end RaftKv
