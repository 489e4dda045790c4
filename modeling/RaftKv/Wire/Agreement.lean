-- SUMMARY: What the log files of the nodes have in common in every regular run of the cluster in bytes.
import RaftKv.Safety.AppendOnly
import RaftKv.Wire.Simulation

/-!
# Log files

What the protocol model proves of logs holds of the bytes in the files `raft.log` of the nodes:
they read back whole, agree up to every record of one index and one term, and a leader only writes
behind what is in its file.
-/

namespace RaftKv.Wire

open NodeIds Storage

namespace WireCluster

section

variable {ι : Type} [DecidableEq ι] [Fintype ι] [Host] [NodeIds ι] {cfg : Config ι}
  {w w' : WireCluster ι} {c : Cluster ι}

theorem simulates_steps (hreach : (Cluster.system cfg).Reach Cluster.Atomic c)
    (h : Represents cfg w c) (hsteps : (system cfg).Steps Regular w w') :
    ∃ c', (Cluster.system cfg).Steps Cluster.Atomic c c' ∧ Represents cfg w' c' := by
  refine TransitionSystem.Steps.simulate (Cluster.system cfg) Cluster.Atomic ?_ hreach h hsteps
  intro w a w' c hc hrep hok hstep
  exact simulate_step hc hrep hok hstep

/-- In every regular run: the files of any two nodes read back whole, and a record of one index and
one term is the same in both, stands in its place, and has the same bytes before it. -/
theorem files_match (h : (system cfg).Reach Regular w) (i j : ι) :
    ∃ es fs, (w.nodes i).store.readAll = .ok es ∧ (w.nodes j).store.readAll = .ok fs ∧
      (w.nodes i).store.files.log = encodeLog es ∧ (w.nodes j).store.files.log = encodeLog fs ∧
      ∀ e ∈ es, ∀ f ∈ fs, e.index = f.index → e.term = f.term →
        e = f ∧ es[e.index.toNat - 1]? = some e ∧
          es.take e.index.toNat = fs.take e.index.toNat := by
  obtain ⟨c, hreach, hrep⟩ := simulates h
  obtain ⟨s, hsound, hsim⟩ := Cluster.simulates_any hreach
  have hi := (hrep.nodes i).store
  have hj := (hrep.nodes j).store
  refine ⟨_, _, hi.readAll, hj.readAll, hi.file, hj.file, ?_⟩
  intro e he f hf hindex hterm
  obtain ⟨e', he', rfl⟩ := List.mem_map.mp he
  obtain ⟨f', hf', rfl⟩ := List.mem_map.mp hf
  have hindex' : e'.index = f'.index :=
    ((hi.fits e' he').index.inj (hj.fits f' hf').index).mp hindex
  have hterm' : e'.term = f'.term := ((hi.fits e' he').term.inj (hj.fits f' hf').term).mp hterm
  obtain ⟨k, hk⟩ := List.mem_iff_getElem?.mp he'
  obtain ⟨k', hk'⟩ := List.mem_iff_getElem?.mp hf'
  have hek : e'.index = k + 1 := (hsim.nodes i).wf.indexed k e' hk
  have hfk : f'.index = k' + 1 := (hsim.nodes j).wf.indexed k' f' hk'
  obtain rfl : k' = k := by omega
  have hplace : (entryWords e').index.toNat = k' + 1 := (hi.fits e' he').index.toNat.trans hek
  have hpi : (s.peer i).log = (c.nodes i).store.log := by rw [(hsim.nodes i).peer]; rfl
  have hpj : (s.peer j).log = (c.nodes j).store.log := by rw [(hsim.nodes j).peer]; rfl
  have htake := hsound.logs.matching (hpi ▸ hk) (hpj ▸ hk') hterm'
  rw [hpi, hpj] at htake
  have hsame := congrArg (fun L => L[k']?) htake
  simp only [List.getElem?_take, Nat.lt_succ_self, if_true, hk, hk'] at hsame
  refine ⟨congrArg entryWords (Option.some.inj hsame), ?_, ?_⟩
  · rw [hplace, Nat.add_sub_cancel, List.getElem?_map, hk]
    rfl
  · rw [hplace, ← List.map_take, ← List.map_take, htake]

end

theorem files_match_firstLeader : ∃ (w : WireCluster (Fin 3)) (es fs : List LogEntry),
    (w.nodes 0).store.files.log.length = 29 ∧ (w.nodes 0).store.files.log = encodeLog es ∧
      (w.nodes 1).store.files.log = encodeLog fs ∧
      ∀ e ∈ es, ∀ f ∈ fs, e.index = f.index → e.term = f.term →
        es.take e.index.toNat = fs.take e.index.toNat := by
  obtain ⟨w, -, hreach, -, -, -, -, -, hlen, -⟩ := written_reach
  obtain ⟨es, fs, -, -, hes, hfs, hmatch⟩ := files_match hreach 0 1
  exact ⟨w, es, fs, hlen, hes, hfs, fun e he f hf hindex hterm => (hmatch e he f hf hindex hterm).2.2⟩

section

variable {ι : Type} [DecidableEq ι] [Fintype ι] [Host] [NodeIds ι] {cfg : Config ι}
  {w w' : WireCluster ι}

/-- In every regular run: whoever leads a term that was led before is the same node, and what was in
its file then is where the file still starts. -/
theorem leader_file_grows (h : (system cfg).Reach Regular w) (hsteps : (system cfg).Steps Regular w w')
    {i j : ι} (hi : (w.nodes i).state = .leader) (hj : (w'.nodes j).state = .leader)
    (hterm : (w'.nodes j).store.term = (w.nodes i).store.term) :
    j = i ∧ (w.nodes i).store.files.log <+: (w'.nodes j).store.files.log := by
  obtain ⟨c, hreach, hrep⟩ := simulates h
  obtain ⟨c', hsteps', hrep'⟩ := simulates_steps hreach hrep hsteps
  obtain ⟨s, hsound, hsim⟩ := Cluster.simulates_any hreach
  obtain ⟨s', hfol, hsim'⟩ := hsim.steps hsound (fun _ _ _ => False.elim) hreach hsteps'
  have hterm' : (c'.nodes j).store.term = (c.nodes i).store.term := by
    rw [← (hrep'.nodes j).store.term, ← (hrep.nodes i).store.term, hterm]
  obtain ⟨hsame, hlog⟩ := hsim.leads_on hsound hfol hsim'
    ((hrep.nodes i).state ▸ hi) ((hrep'.nodes j).state ▸ hj) hterm'
  refine ⟨hsame, ?_⟩
  obtain ⟨rest, hrest⟩ := hlog
  rw [(hrep.nodes i).store.file, (hrep'.nodes j).store.file, ← hrest, List.map_append, encodeLog,
    encodeLog, List.flatMap_append]
  exact List.prefix_append _ _

end

theorem leader_file_grows_laterWrite : ∃ w w' : WireCluster (Fin 3),
    (w.nodes 0).store.files.log.length = 29 ∧ (w'.nodes 0).store.files.log.length = 60 ∧
      (w.nodes 0).store.files.log <+: (w'.nodes 0).store.files.log := by
  obtain ⟨w, w', hreach, hsteps, hi, hj, hterm, -, hlen, hlen'⟩ := written_reach
  exact ⟨w, w', hlen, hlen', (leader_file_grows hreach hsteps hi hj hterm).2⟩

end WireCluster

end RaftKv.Wire
