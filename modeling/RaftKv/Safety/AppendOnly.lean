-- SUMMARY: A leader only appends to its log for as long as its term lasts, and the entries of client calls are told apart by term and index.
import RaftKv.Safety.Clients

/-!
# Append-only leaders

The books of the abstract protocol only grow, and a leader holds the whole book of its
term. So what a leader has in its log is still there whenever somebody leads that term,
and the entries of one term that clients asked for have increasing indices.
-/

namespace RaftKv

open Consensus (Elections Logs Safe)

namespace Cluster

variable {ι : Type} [Fintype ι] [DecidableEq ι] {strict : Prop} {s s' : Abstract ι}
  {c c' : Cluster ι} {cfg : Config ι}

/-! ## Books along a run -/

theorem Follows.book (h : Follows strict s s') (hsound : Sound strict s) (t : Nat) :
    s.book t <+: s'.book t := by
  refine TransitionSystem.Steps.preserves
    (I := fun u => Sound strict u ∧ s.book t <+: u.book t) h ?_ ⟨hsound, List.prefix_refl _⟩ |>.2
  rintro u m u' - ⟨hu, hpre⟩ hallowed ⟨hen, rfl⟩
  exact ⟨hu.follows (Follows.single hen hallowed),
    hpre.trans (hu.logs.book_next hu.elections hen t)⟩

theorem Follows.remembers (h : Follows strict s s') : Extends s s' := by
  refine TransitionSystem.Steps.preserves (I := fun u => Extends s u) h ?_ (.refl s)
  rintro u m u' - hext - ⟨-, rfl⟩
  exact hext.trans (.next u m)

/-- What a run does from a state on, the abstract protocol follows from a related state on. -/
theorem Sim.steps (h : Sim strict s c) (hsound : Sound strict s)
    {ok : Cluster ι → Action ι → Prop} (hok : ∀ c a, ok c a → Permitted strict c a)
    (hreach : (system cfg).Reach ok c) (hsteps : (system cfg).Steps ok c c') :
    ∃ s', Follows strict s s' ∧ Sim strict s' c' := by
  refine TransitionSystem.Steps.preserves (I := fun d => ∃ s', Follows strict s s' ∧ Sim strict s' d)
    hsteps ?_ ⟨s, TransitionSystem.Steps.refl _, h⟩
  rintro d a d' hd ⟨u, hfol, hu⟩ ha hstep
  obtain ⟨u', hfol', hu'⟩ := hu.step (hsound.follows hfol) (Threads.reach (hreach.trans hd))
    (hok d a ha) hstep
  exact ⟨u', hfol.trans hfol', hu'⟩

omit [DecidableEq ι] in
/-- A leader holds the whole book of its term. -/
theorem Sim.leader_book (h : Sim strict s c) (hsound : Sound strict s) {i : ι}
    (hi : (c.nodes i).state = .leader) :
    s.book (c.nodes i).store.term = (c.nodes i).store.log := by
  have hpeer := (h.nodes i).peer
  have hbook := hsound.logs.leader i (by rw [hpeer]; simp [RaftNode.peer, hi, NodeState.role])
  rw [hpeer] at hbook
  exact hbook.symm

omit [DecidableEq ι] in
theorem Sim.leader_tenure (h : Sim strict s c) (hsound : Sound strict s) {i : ι}
    (hi : (c.nodes i).state = .leader) :
    ∃ e ∈ s.tenures, e.leader = i ∧ e.term = (c.nodes i).store.term := by
  have hpeer := (h.nodes i).peer
  obtain ⟨e, he, hleader, hterm⟩ :=
    hsound.elections.leader i (by rw [hpeer]; simp [RaftNode.peer, hi, NodeState.role])
  rw [hpeer] at hterm
  exact ⟨e, he, hleader, hterm⟩

/-- A term that is led now was led before by the same node, on what its log was then. -/
theorem Sim.leads_on (h : Sim strict s c) (hsound : Sound strict s) (hfol : Follows strict s s')
    (h' : Sim strict s' c') {i j : ι} (hi : (c.nodes i).state = .leader)
    (hj : (c'.nodes j).state = .leader) (hterm : (c'.nodes j).store.term = (c.nodes i).store.term) :
    j = i ∧ (c.nodes i).store.log <+: (c'.nodes j).store.log := by
  have hsound' := hsound.follows hfol
  constructor
  · obtain ⟨e, he, rfl, het⟩ := h.leader_tenure hsound hi
    obtain ⟨f, hf, rfl, hft⟩ := h'.leader_tenure hsound' hj
    exact congrArg (·.leader) (hsound'.elections.tenure_unique hf
      (Follows.remembers hfol |>.tenures e he) (hft.trans (hterm.trans het.symm)))
  · rw [← h.leader_book hsound hi, ← h'.leader_book hsound' hj, hterm]
    exact Follows.book hfol hsound _

/-- In every run, whoever leads a term that was led before is the same node, and has kept
and extended the log it had then. -/
theorem leader_append_only (h : (system cfg).Reach Any c) (hsteps : (system cfg).Steps Any c c')
    {i j : ι} (hi : (c.nodes i).state = .leader) (hj : (c'.nodes j).state = .leader)
    (hterm : (c'.nodes j).store.term = (c.nodes i).store.term) :
    j = i ∧ (c.nodes i).store.log <+: (c'.nodes j).store.log := by
  obtain ⟨s, hsound, hsim⟩ := simulates_any h
  obtain ⟨s', hfol, hsim'⟩ := hsim.steps hsound (fun _ _ _ => False.elim) h hsteps
  exact hsim.leads_on hsound hfol hsim' hi hj hterm

theorem leader_append_only_submit : ∃ c c' : Cluster (Fin 3),
    (system (Config.complete 3)).Reach Any c ∧ (system (Config.complete 3)).Steps Any c c' ∧
      (c.nodes 0).store.logLength = 1 ∧ (c'.nodes 0).store.logLength = 2 ∧
      (c.nodes 0).store.log <+: (c'.nodes 0).store.log := by
  have hrun : (run (Config.complete 3) Any .init firstLeader).any (fun c =>
      (run (Config.complete 3) Any c
          [.crash 2, .move (.submit 0 ⟨.put, [1], [7]⟩ fun _ => true)]).any fun c' =>
        decide ((c.nodes 0).state = .leader ∧ (c'.nodes 0).state = .leader ∧
          (c'.nodes 0).store.term = (c.nodes 0).store.term ∧
          (c.nodes 0).store.logLength = 1 ∧ (c'.nodes 0).store.logLength = 2)) = true := by
    decide +kernel
  obtain ⟨c, hreach, hp⟩ := exists_reach hrun
  obtain ⟨c', hsteps, hp⟩ := (Option.any_eq_true _ _).mp hp
  obtain ⟨hlead, hlead', hterm, hlen, hlen'⟩ := of_decide_eq_true hp
  exact ⟨c, c', hreach, steps_of_run hsteps, hlen, hlen',
    (leader_append_only hreach (steps_of_run hsteps) hlead hlead' hterm).2⟩

/-! ## The entries that clients asked for -/

omit [Fintype ι] in
theorem restart_clients {i : ι} {d : Disk ι} {tr : List (Event ι)} {j : Nat}
    {call' : ClientCall ι} (hj : (c.restart i d tr).clients[j]? = some call') :
    ∃ call, c.clients[j]? = some call ∧ Continues call call' := by
  simp only [restart, List.getElem?_map, Option.map_eq_some_iff] at hj
  obtain ⟨call, hcall, rfl⟩ := hj
  refine ⟨call, hcall, ?_⟩
  split
  · exact ⟨rfl, rfl, rfl, by simp⟩
  · exact .refl _

omit [Fintype ι] in
/-- A call after a step was there before, or has just appended its entry as a leader. -/
theorem step_clients {a : Action ι} (hstep : c.step cfg a = some c') {j : Nat}
    {call' : ClientCall ι} (hj : c'.clients[j]? = some call') :
    (∃ call, c.clients[j]? = some call ∧ Continues call call') ∨
    (j = c.clients.length ∧ (c.nodes call'.node).state = .leader ∧
      call'.entry = ((c.nodes call'.node).appendOwn call'.op.command).2 ∧
      c'.nodes call'.node = ((c.nodes call'.node).appendOwn call'.op.command).1) := by
  rcases step_cases hstep with ⟨m, -, hm⟩ | ⟨i, -, rfl⟩ | ⟨m, i, cut, c₁, d, -, -, -, rfl⟩
  · exact hm.clients hj
  · exact Or.inl (restart_clients hj)
  · exact Or.inl (restart_clients hj)

omit [Fintype ι] in
/-- Calls are never removed. -/
theorem client_kept {a : Action ι} (hstep : c.step cfg a = some c') {k : Nat}
    {call : ClientCall ι} (hk : c.clients[k]? = some call) :
    ∃ call', c'.clients[k]? = some call' ∧ Continues call call' := by
  have hlt := (List.getElem?_eq_some_iff.mp hk).1
  have hlen : c.clients.length ≤ c'.clients.length := by
    rcases step_cases hstep with ⟨m, -, hm⟩ | ⟨i, -, rfl⟩ | ⟨m, i, cut, c₁, d, -, -, -, rfl⟩
    · exact hm.clients_length
    · simp [restart]
    · simp [restart]
  have hk' := List.getElem?_eq_getElem (hlt.trans_le hlen)
  refine ⟨_, hk', ?_⟩
  rcases step_clients hstep hk' with ⟨old, hold, hsame⟩ | ⟨heq, -⟩
  · rw [hk] at hold
    cases hold
    exact hsame
  · omega

omit [Fintype ι] in
/-- The entry of a call carries the command of the call. -/
theorem entry_command {ok : Cluster ι → Action ι → Prop} (h : (system cfg).Reach ok c) :
    ∀ call ∈ c.clients, call.entry.command = call.op.command ∧ 1 ≤ call.entry.index := by
  refine h.invariant (I := fun c => ∀ call ∈ c.clients,
    call.entry.command = call.op.command ∧ 1 ≤ call.entry.index)
    (by intro call hcall; cases hcall) ?_
  intro c a c' _ hI _ hstep call' hcall'
  obtain ⟨j, hj⟩ := List.mem_iff_getElem?.mp hcall'
  rcases step_clients hstep hj with ⟨call, hcall, hsame⟩ | ⟨-, -, hentry, -⟩
  · rw [hsame.entry, hsame.op]
    exact hI call (List.mem_of_getElem? hcall)
  · rw [hentry]
    exact ⟨rfl, Nat.succ_pos _⟩

/-- The entries of the calls are within the books of their terms, in the order of the calls. -/
structure Filed (s : Abstract ι) (c : Cluster ι) : Prop where
  within : ∀ call ∈ c.clients, call.entry.index ≤ (s.book call.entry.term).length
  ordered : ∀ (k k' : Nat) (call call' : ClientCall ι), c.clients[k]? = some call →
    c.clients[k']? = some call' → k < k' → call.entry.term = call'.entry.term →
      call.entry.index < call'.entry.index

omit [DecidableEq ι] [Fintype ι] in
theorem Filed.init : Filed s (Cluster.init : Cluster ι) where
  within := by intro call hcall; cases hcall
  ordered := by intro k k' call call' hk; cases hk

/-- The entry of a new call goes behind the book of its term. -/
theorem Filed.step (h : Filed s c) (hsim : Sim strict s c) (hsound : Sound strict s)
    (hsim' : Sim strict s' c') (hsound' : Sound strict s')
    (hbook : ∀ t, s.book t <+: s'.book t) {a : Action ι} (hstep : c.step cfg a = some c') :
    Filed s' c' where
  within := by
    intro call' hcall'
    obtain ⟨j, hj⟩ := List.mem_iff_getElem?.mp hcall'
    rcases step_clients hstep hj with ⟨call, hcall, hsame⟩ | ⟨-, hlead, hentry, hnode⟩
    · rw [hsame.entry]
      exact (h.within call (List.mem_of_getElem? hcall)).trans (hbook _).length_le
    · have hlead' : (c'.nodes call'.node).state = .leader := by rw [hnode]; exact hlead
      have hown := hsim'.leader_book hsound' hlead'
      rw [hnode] at hown
      rw [hentry, show (((c.nodes call'.node).appendOwn call'.op.command).2).term =
        ((c.nodes call'.node).appendOwn call'.op.command).1.store.term from rfl, hown]
      simp [RaftNode.appendOwn, RaftNode.persist, (hsim.nodes call'.node).wf.length]
  ordered := by
    intro k k' call call' hk hk' hlt hterm
    rcases step_clients hstep hk with ⟨old, hold, hsame⟩ | ⟨rfl, -⟩
    · rw [hsame.entry] at hterm ⊢
      rcases step_clients hstep hk' with ⟨old', hold', hsame'⟩ | ⟨-, hlead, hentry, -⟩
      · rw [hsame'.entry] at hterm ⊢
        exact h.ordered k k' old old' hold hold' hlt hterm
      · have hle := h.within old (List.mem_of_getElem? hold)
        rw [hterm, hentry, show (((c.nodes call'.node).appendOwn call'.op.command).2).term =
          (c.nodes call'.node).store.term from rfl, hsim.leader_book hsound hlead] at hle
        have hindex : call'.entry.index = (c.nodes call'.node).store.log.length + 1 := by
          rw [hentry, ← (hsim.nodes call'.node).wf.length]; rfl
        omega
    · -- nothing comes behind a new call
      rcases step_clients hstep hk' with ⟨old', hold', -⟩ | ⟨rfl, -⟩
      · have := (List.getElem?_eq_some_iff.mp hold').1
        omega
      · omega

/-- In every run, the calls of one term have increasing indices. -/
theorem entries_ordered {ok : Cluster ι → Action ι → Prop} (h : (system cfg).Reach ok c)
    {k k' : Nat} {call call' : ClientCall ι} (hk : c.clients[k]? = some call)
    (hk' : c.clients[k']? = some call') (hlt : k < k')
    (hterm : call.entry.term = call'.entry.term) : call.entry.index < call'.entry.index := by
  obtain ⟨s, -, -, hfiled⟩ := h.simulate (Consensus.system LogEntry.term) (Allowed False)
    (R := fun c s => Sim False s c ∧ Filed s c)
    ⟨Sim.init, Filed.init⟩ (by
      rintro c a c' s hc hs ⟨hsim, hfiled⟩ - hstep
      have hsound := Sound.init.follows hs
      obtain ⟨s', hfol, hsim'⟩ := hsim.step hsound (Threads.reach hc) False.elim hstep
      exact ⟨s', hfol, hsim', hfiled.step hsim hsound hsim' (hsound.follows hfol)
        (Follows.book hfol hsound) hstep⟩)
  exact hfiled.ordered k k' call call' hk hk' hlt hterm

end Cluster

end RaftKv
