-- SUMMARY: Which entries of a log survive a move: the committed ones in clean runs, and those no batch disagrees with in every run.
import RaftKv.Refinement.Crash
import RaftKv.Refinement.Applying

/-!
# Retention

Only the delivery of a batch can shorten a log. In a clean run it never reaches the
committed entries; in any run it leaves what lies below the first disagreement.
-/

namespace RaftKv

open TermLog
open Consensus (Elections Logs Safe)

namespace Cluster

variable {ι : Type} [Fintype ι] [DecidableEq ι] {strict : Prop} {s : Abstract ι}
  {c c' : Cluster ι} {cfg : Config ι}

/-- Stores stay well-formed in every run. -/
theorem reach_wf {ok : Cluster ι → Action ι → Prop} (h : (system cfg).Reach ok c) (i : ι) :
    (c.nodes i).store.Wf := by
  obtain ⟨s, -, hsim⟩ := simulates_any h
  exact (hsim.nodes i).wf

/-- An accepted batch grafts the sender's log. -/
theorem Sim.accepted_log (h : Sim strict s c) (hsound : Sound strict s) (hth : Threads cfg c)
    {call : AppendCall ι} (hcall : call ∈ c.appendCalls)
    (hterm : (c.nodes call.dst).store.term ≤ call.rpc.term)
    (hprev : RaftNode.prevMatches ((c.nodes call.dst).followLeader call.rpc).store call.rpc = true) :
    (c.nodes call.dst).store.log.take call.rpc.prevLogIndex <+: call.sender.store.log ∧
      ((c.nodes call.dst).merged call.rpc).store.Wf ∧
      ((c.nodes call.dst).merged call.rpc).store.log =
        graft (c.nodes call.dst).store.log call.sender.store.log := by
  obtain ⟨hcarries, -, -⟩ := (h.appends call hcall).carries hth hcall
  obtain ⟨s₁, hfol, hext, -, -, -, h₁⟩ := (h.nodes call.dst).followLeader call.rpc hterm
  have hsound₁ := hsound.follows hfol
  have hcall₁ := (h.appends call hcall).mono hext
  obtain ⟨hlog, hwf, -⟩ := h₁.merged hsound₁ hcall₁ hcarries hprev
  have hF : Anchored LogEntry.term s₁.book (c.nodes call.dst).store.log := by
    have hanch := hsound₁.logs.peer call.dst
    rw [h₁.peer] at hanch
    rw [← RaftNode.followLeader_log (c.nodes call.dst) call.rpc]
    exact hanch
  rw [RaftNode.followLeader_log] at hlog
  rw [RaftNode.prevMatches_followLeader] at hprev
  exact ⟨(RaftNode.prevMatches_spec (h.nodes call.dst).wf (hF.matching (hsound₁.logs.sent _ hcall₁.sent))
    (fun x hx => hsound₁.logs.positive hsound₁.elections hF hx) hcarries hprev).2, hwf, hlog⟩

/-- A delivered batch leaves the log as it is or grafts the sender's log. -/
theorem Sim.delivered_log (h : Sim strict s c) (hsound : Sound strict s) (hth : Threads cfg c)
    {call : AppendCall ι} (hcall : call ∈ c.appendCalls) :
    ((c.nodes call.dst).handleAppendEntries call.rpc).1.store.log = (c.nodes call.dst).store.log ∨
    ((c.nodes call.dst).store.term ≤ call.rpc.term ∧
      RaftNode.prevMatches (c.nodes call.dst).store call.rpc = true ∧
      (c.nodes call.dst).store.log.take call.rpc.prevLogIndex <+: call.sender.store.log ∧
      ((c.nodes call.dst).handleAppendEntries call.rpc).1.store.log =
        graft (c.nodes call.dst).store.log call.sender.store.log) := by
  rcases (c.nodes call.dst).handleAppendEntries_cases call.rpc with
    ⟨-, heq⟩ | ⟨-, -, heq⟩ | ⟨hterm, hprev, heq⟩
  · exact Or.inl (by rw [heq])
  · exact Or.inl (by rw [heq]; exact RaftNode.followLeader_log _ _)
  · obtain ⟨htake, -, hlog⟩ := h.accepted_log hsound hth hcall hterm hprev
    rw [RaftNode.prevMatches_followLeader] at hprev
    refine Or.inr ⟨hterm, hprev, htake, ?_⟩
    rw [heq, RaftNode.applyCommitted_log, RaftNode.followCommit_log, hlog]

/-- A move keeps the first `b` entries of a node if each log that is grafted onto the node's does. -/
theorem Sim.moved_keeps (h : Sim strict s c) (hsound : Sound strict s) (hth : Threads cfg c)
    {m : Move ι} (hm : Moved cfg c m c') (j : ι) (b : Nat)
    (hgraft : ∀ k call, m = .deliverAppend k → c.appendCalls[k]? = some call → call.dst = j →
      (c.nodes j).store.term ≤ call.rpc.term →
      RaftNode.prevMatches (c.nodes j).store call.rpc = true →
      (c.nodes j).store.log.take call.rpc.prevLogIndex <+: call.sender.store.log →
      (c.nodes j).store.log.take b <+: graft (c.nodes j).store.log call.sender.store.log) :
    (c.nodes j).store.log.take b <+: (c'.nodes j).store.log := by
  by_cases hdeliver : ∃ k, m = .deliverAppend k
  · obtain ⟨k, rfl⟩ := hdeliver
    cases hm with
    | @deliverAppend _ call hcall hnew hfree =>
      simp only [setNode_nodes]
      split
      · rename_i hj
        subst hj
        rcases h.delivered_log hsound hth (List.mem_of_getElem? hcall) with
          heq | ⟨hterm, hprev, htake, heq⟩
        · rw [heq]
          exact List.take_prefix _ _
        · rw [heq]
          exact hgraft k call rfl hcall rfl hterm hprev htake
      · exact List.take_prefix _ _
  · exact (List.take_prefix _ _).trans
      (hm.log_grows (fun k hk => hdeliver ⟨k, hk⟩) j)

/-- In a clean run a node keeps its committed entries. -/
theorem keeps_committed (h : (system cfg).Reach Clean c) {m : Move ι} (hm : Moved cfg c m c')
    (j : ι) : (c.nodes j).store.log.take (c.nodes j).store.commitIndex <+: (c'.nodes j).store.log := by
  obtain ⟨s, hsound, hsim⟩ := simulates_clean h
  have hsafe := hsound.safe trivial
  refine hsim.moved_keeps hsound (Threads.reach h) hm j _ ?_
  rintro k call - hcall rfl hterm - -
  have hmem := List.mem_of_getElem? hcall
  obtain ⟨-, hrterm, -⟩ := (hsim.appends call hmem).carries (Threads.reach h) hmem
  obtain ⟨⟨e, he, -, heterm⟩, -, hpre, -, -⟩ := hsafe.sent _ (hsim.appends call hmem).sent
  have hc := ((hsim.nodes call.dst).committed hsafe).2.mono (fun _ ha => ha) hterm
  rw [hrterm] at hc
  exact hsafe.committed_graft hsound.logs hsound.elections hc ⟨e, he, heterm⟩
    (List.take_prefix _ _) hpre

/-- In any run a node keeps what the delivered batch does not overwrite. -/
theorem retains {ok : Cluster ι → Action ι → Prop} (h : (system cfg).Reach ok c) {m : Move ι}
    (hm : Moved cfg c m c') (j : ι) {b : Nat}
    (hkeep : ∀ k call, m = .deliverAppend k → c.appendCalls[k]? = some call → call.dst = j →
      ¬ (c.nodes j).Overwrites call.rpc b) :
    (c.nodes j).store.log.take b <+: (c'.nodes j).store.log := by
  obtain ⟨s, hsound, hsim⟩ := simulates_any h
  refine hsim.moved_keeps hsound (Threads.reach h) hm j b ?_
  rintro k call hk hcall rfl hterm hprev htake
  have hmem := List.mem_of_getElem? hcall
  have hwf := (hsim.nodes call.dst).wf
  obtain ⟨hcarries, -, -⟩ := (hsim.appends call hmem).carries (Threads.reach h) hmem
  have hF := hsound.logs.peer call.dst
  rw [(hsim.nodes call.dst).peer] at hF
  refine (hF.matching (hsound.logs.sent _ (hsim.appends call hmem).sent)).take_prefix_graft htake ?_
  intro p x y hpm hpb hx hy
  by_contra hne
  refine hkeep k call hk hcall rfl ⟨hterm, hprev, p - call.rpc.prevLogIndex, ?_⟩
  have hp : call.rpc.prevLogIndex + 1 + (p - call.rpc.prevLogIndex) = p + 1 := by omega
  have hget : call.rpc.entries[p - call.rpc.prevLogIndex]? = some y := by
    rw [hcarries.entries, List.getElem?_drop, Nat.add_sub_cancel' hpm]; exact hy
  have hlen := (List.getElem?_eq_some_iff.mp hx).1
  refine ⟨(List.getElem?_eq_some_iff.mp hget).1, ?_, ?_, ?_⟩
  · omega
  · rw [hwf.length, hp]; exact hlen
  · rw [hget, hp, hwf.getTermAt (Nat.succ_pos p),
      show (c.nodes call.dst).store.log[p.succ - 1]? = some x from hx]
    exact fun heq => hne (Option.some.inj heq).symm

end Cluster

end RaftKv
