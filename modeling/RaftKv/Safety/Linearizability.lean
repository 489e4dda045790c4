-- SUMMARY: Linearizability: in clean runs that overwrite no awaited entry, the calls of all clients look like calls to one sequential map.
import RaftKv.Safety.Committed
import RaftKv.Safety.Reads
import RaftKv.Lib.Linearizability

/-!
# Linearizability

What clients see of a run is when their calls start and what the calls return. In a clean
run that overwrites no entry a call waits for, this is what a single map would give them:
a write takes place at the index of its entry in the committed log, and a read at the
commit index it was read at. Crashes between steps are allowed; a call that is lost in a
crash stays open, and takes place if its entry is committed.
-/

namespace RaftKv

open TermLog Linearizability
open Consensus (Elections Logs Safe)

namespace Cluster

variable {ι : Type} [DecidableEq ι] {cfg : Config ι} {c c' : Cluster ι}

/-- A clean run in which no batch overwrites an entry that a running call waits for. -/
def KeepsCalls (c : Cluster ι) (a : Action ι) : Prop :=
  Clean c a ∧ KeepsAwaited (fun _ => true) c a

instance [Fintype ι] (c : Cluster ι) : DecidablePred (KeepsCalls c) := fun _ =>
  inferInstanceAs (Decidable (_ ∧ _))

/-! ## Where entries come from -/

/-- An entry that changes the map was asked for by a `submit`. -/
def Accounted (c : Cluster ι) (e : LogEntry) : Prop :=
  e.command.oper = .noop ∨ ∃ call ∈ c.clients, call.entry = e ∧ call.op.isGet = false

theorem Accounted.step {a : Action ι} {e : LogEntry} (h : Accounted c e)
    (hstep : c.step cfg a = some c') : Accounted c' e := by
  refine h.imp_right ?_
  rintro ⟨call, hcall, rfl, hop⟩
  obtain ⟨k, hk⟩ := List.mem_iff_getElem?.mp hcall
  obtain ⟨call', hcall', hsame⟩ := client_kept hstep hk
  exact ⟨call', List.mem_of_getElem? hcall', hsame.entry, hsame.op ▸ hop⟩

/-- A log gets new entries from a batch, from `becomeLeader` or from a client call. -/
theorem Moved.written {m : Move ι} (h : Moved cfg c m c') (hm : ∀ k, m ≠ .deliverAppend k) {j : ι}
    {e : LogEntry} (he : e ∈ (c'.nodes j).store.log) :
    e ∈ (c.nodes j).store.log ∨ Accounted c' e := by
  have hset : ∀ (i : ι) (n : RaftNode ι), e ∈ ((c.setNode i n).nodes j).store.log →
      (i = j → e ∈ n.store.log → e ∈ (c.nodes j).store.log ∨ Accounted c' e) →
        e ∈ (c.nodes j).store.log ∨ Accounted c' e := by
    intro i n he hn
    rw [setNode_nodes] at he
    split at he
    · exact hn (Eq.symm ‹_›) he
    · exact Or.inl he
  cases h with
  | timeout _ _ | voteReply _ _ _ _ => exact hset _ _ he fun heq he => Or.inl (heq ▸ he)
  | deliverVote _ _ _ =>
    refine hset _ _ he fun heq he => Or.inl ?_
    rw [((c.nodes _).handleRequestVote_log _).1] at he
    exact heq ▸ he
  | deposed hbg hcall hreply hterm =>
    refine hset _ _ he fun heq he => Or.inl ?_
    rw [RaftNode.voteReply_deposed _ hterm] at he
    exact heq ▸ he
  | @elected i rpc votes hbg hvotes hstate =>
    refine hset _ _ he fun heq he => ?_
    rw [show ((c.nodes i).becomeLeader i).store.log = _ from
      congrArg Consensus.Peer.log (RaftNode.becomeLeader_peer i hstate)] at he
    rcases List.mem_append.mp he with hold | hnew
    · exact Or.inl (heq ▸ hold)
    · rw [List.mem_singleton.mp hnew]
      exact Or.inr (Or.inl rfl)
  | deliverAppend _ _ _ => exact absurd rfl (hm _)
  | appendReply _ _ _ =>
    rw [setSendLoop_nodes] at he
    refine hset _ _ he fun heq he => Or.inl ?_
    rw [RaftNode.appendReply_log] at he
    exact heq ▸ he
  | appendLost _ _ =>
    rw [setSendLoop_nodes] at he
    refine hset _ _ he fun heq he => Or.inl ?_
    rw [RaftNode.appendLost_store] at he
    exact heq ▸ he
  | submit _ _ =>
    refine hset _ _ he fun heq he => ?_
    rcases List.mem_append.mp he with hold | hnew
    · exact Or.inl (heq ▸ hold)
    · rw [List.mem_singleton.mp hnew]
      exact Or.inr (Or.inr ⟨_, List.mem_append_right _ (List.mem_singleton_self _), rfl, rfl⟩)
  | get _ _ =>
    refine hset _ _ he fun heq he => ?_
    rcases List.mem_append.mp he with hold | hnew
    · exact Or.inl (heq ▸ hold)
    · rw [List.mem_singleton.mp hnew]
      exact Or.inr (Or.inl rfl)
  | finishSubmit _ _ _ =>
    refine hset _ _ he fun heq he => Or.inl ?_
    rw [RaftNode.applyCommitted_log] at he
    exact heq ▸ he
  | send _ => rw [setSendLoop_nodes] at he; exact Or.inl he
  | sendVote _ | voteLost _ | unelected _ | heartbeat _ _ | endLoop _ | finishGet _ _ _ _ _ =>
    exact Or.inl he

variable [Fintype ι]

/-- In every run without crashes inside steps, every entry is accounted for. -/
theorem entries_accounted {ok : Cluster ι → Action ι → Prop} (hok : ∀ c a, ok c a → Atomic c a)
    (h : (system cfg).Reach ok c) :
    (∀ i, ∀ e ∈ (c.nodes i).store.log, Accounted c e) ∧
      ∀ call ∈ c.appendCalls, ∀ e ∈ call.sender.store.log, Accounted c e := by
  refine h.invariant (I := fun c => (∀ i, ∀ e ∈ (c.nodes i).store.log, Accounted c e) ∧
    ∀ call ∈ c.appendCalls, ∀ e ∈ call.sender.store.log, Accounted c e)
    ⟨fun i e he => ?_, by intro call hcall; cases hcall⟩ ?_
  · rw [show ((system cfg).init.nodes i).store.log = _ from RaftNode.start_log _ _] at he
    cases he
  rintro c a c' hc ⟨hlogs, hcalls⟩ ha hstep
  rcases step_cases hstep with ⟨m, rfl, hm⟩ | ⟨i, rfl, rfl⟩ | ⟨m, i, cut, c₁, d, rfl, -, -, -⟩
  · constructor
    · intro j e he
      by_cases hdeliver : ∃ k, m = .deliverAppend k
      · obtain ⟨k, rfl⟩ := hdeliver
        obtain ⟨call, hcall, hnode⟩ := hm.delivered
        rw [hnode] at he
        split at he
        · rename_i hj
          obtain ⟨s, hsound, hsim⟩ := simulates_any hc
          have hmem := List.mem_of_getElem? hcall
          rcases hsim.delivered_log hsound (Threads.reach hc) hmem with heq | ⟨-, -, -, heq⟩
          · rw [heq] at he
            exact (hlogs _ e he).step hstep
          · rw [heq] at he
            rcases mem_graft he with hold | hnew
            · exact (hlogs _ e hold).step hstep
            · exact (hcalls call hmem e hnew).step hstep
        · exact (hlogs j e he).step hstep
      · rcases hm.written (fun k hk => hdeliver ⟨k, hk⟩) he with hold | hnew
        · exact (hlogs j e hold).step hstep
        · exact hnew
    · intro call' hcall' e he
      rcases hm.appendCalls hcall' with hold | ⟨t, i, p, todo, -, -, rfl⟩ | ⟨k, call, -, hk, rfl⟩
      · exact (hcalls call' hold e he).step hstep
      · exact (hlogs i e he).step hstep
      · exact (hcalls call (List.mem_of_getElem? hk) e he).step hstep
  · refine ⟨fun j e he => ?_, fun call hcall e he => (hcalls call hcall e he).step hstep⟩
    refine (hlogs j e ?_).step hstep
    by_cases hj : j = i
    · subst hj
      rw [show (c.restart j (c.nodes j).store.disk (c.nodes j).trace).nodes j =
        .start (c.nodes j).store.disk (c.nodes j).trace by simp [restart], RaftNode.start_log] at he
      exact he
    · rwa [show (c.restart i (c.nodes i).store.disk (c.nodes i).trace).nodes j = c.nodes j by
        simp [restart, hj]] at he
  · exact (hok _ _ ha).elim

/-! ## The entries that running calls wait for -/

/-- In a run that overwrites no awaited entry, the entry of a running call stands, crashes
between steps or not. -/
theorem running_stand {ok : Cluster ι → Action ι → Prop}
    (hok : ∀ c a, ok c a → Atomic c a ∧ KeepsAwaited (fun _ => true) c a)
    (h : (system cfg).Reach ok c) :
    ∀ call ∈ c.clients, call.outcome = .running → Stands (c.nodes call.node) call := by
  refine h.invariant (I := fun c => ∀ call ∈ c.clients, call.outcome = .running →
    Stands (c.nodes call.node) call) (by intro call hcall; cases hcall) ?_
  intro c a c' hc hI ha hstep call' hcall' hrun
  obtain ⟨hatomic, hkeep⟩ := hok c a ha
  obtain ⟨j, hj⟩ := List.mem_iff_getElem?.mp hcall'
  rcases step_clients hstep hj with ⟨call, hcall, hsame⟩ | ⟨-, -, hentry, hnode⟩
  · have hmem := List.mem_of_getElem? hcall
    have hstand := hI call hmem (hsame.running hrun)
    rw [hsame.node]
    refine hstand.keep hsame ?_
    rcases step_cases hstep with ⟨m, rfl, hm⟩ | ⟨i, rfl, rfl⟩ | ⟨m, i, cut, c₁, d, rfl, -, -, -⟩
    · refine retains hc hm call.node ?_
      rintro k rpc rfl hrpc hdst
      rw [← hdst]
      exact hkeep rpc hrpc call hmem hdst.symm (hsame.running hrun) rfl
    · by_cases hi : call.node = i
      · rw [show (c.restart i (c.nodes i).store.disk (c.nodes i).trace).nodes call.node =
          .start (c.nodes i).store.disk (c.nodes i).trace by simp [restart, hi], RaftNode.start_log,
          hi]
        exact List.take_prefix _ _
      · rw [show (c.restart i (c.nodes i).store.disk (c.nodes i).trace).nodes call.node =
          c.nodes call.node by simp [restart, hi]]
        exact List.take_prefix _ _
    · exact hatomic.elim
  · rw [hnode]
    exact Stands.appendOwn (reach_wf hc call'.node) hentry

/-! ## What clients see -/

/-- The map as a sequential object. -/
def kv : SeqObject StateMachine ClientOp Outcome where
  init := .empty
  step
    | sm, .submit cmd => (sm.apply cmd, .ok)
    | sm, .get key => (sm, .value (sm.get key))

/-- What clients see of an action. A call goes by its place in `clients`; a `get` that is
refused at its end has read nothing and counts as still open. -/
def seen (c : Cluster ι) (a : Action ι) (c' : Cluster ι) : History Nat ClientOp Outcome :=
  match a with
  | .move (.submit _ cmd _) => [.call c.clients.length (.submit cmd)]
  | .move (.get _ key) => [.call c.clients.length (.get key)]
  | .move (.finish k) =>
    match c'.clients[k]?.map ClientCall.outcome with
    | some .ok => [.ret k .ok]
    | some (.value v) => [.ret k (.value v)]
    | _ => []
  | _ => []

/-- The cluster together with what its clients have seen. -/
def recorded (cfg : Config ι) :
    TransitionSystem (Cluster ι × History Nat ClientOp Outcome) (Action ι) where
  init := (.init, [])
  step := fun x a x' => x.1.step cfg a = some x'.1 ∧ x'.2 = x.2 ++ seen x.1 a x'.1

omit [Fintype ι] in
theorem recorded_reach {ok : Cluster ι → Action ι → Prop}
    {x : Cluster ι × History Nat ClientOp Outcome}
    (h : (recorded cfg).Reach (fun x => ok x.1) x) : (system cfg).Reach ok x.1 := by
  obtain ⟨_, hreach, rfl⟩ := h.simulate (system cfg) ok (R := fun x c => x.1 = c) rfl (by
    rintro x a x' _ - - rfl hok ⟨hstep, -⟩
    exact ⟨x'.1, .single hok hstep, rfl⟩)
  exact hreach

/-- The state of the map after the first `p` entries of `P`. -/
def mapAt (P : List LogEntry) (p : Nat) : StateMachine :=
  StateMachine.empty.applyAll ((P.take p).map (·.command))

/-- The call took effect at position `p` of `P` and had the result `res` there. -/
structure Placed (P : List LogEntry) (call : ClientCall ι) (p : Nat) (res : Outcome) : Prop where
  entry : P[call.entry.index - 1]? = some call.entry
  after : call.entry.index ≤ p
  within : p ≤ P.length
  write : ∀ cmd, call.op = .submit cmd → p = call.entry.index ∧ res = .ok
  read : ∀ key, call.op = .get key → res = .value ((mapAt P p).get key)

/-- Another entry was committed in the place of the call's. -/
def Missed (P : List LogEntry) (call : ClientCall ι) : Prop :=
  call.entry.index - 1 < P.length ∧ P[call.entry.index - 1]? ≠ some call.entry

/-- The calls that have returned have places in the committed log, each before the entries
of the calls that started later. -/
structure Explained (c : Cluster ι) (h : History Nat ClientOp Outcome) (P : List LogEntry)
    (pos : Nat → Nat) : Prop where
  log : CommittedLog c P
  opened : ∀ k call, c.clients[k]? = some call → .call k call.op ∈ h
  called : ∀ k op, .call k op ∈ h → k < c.clients.length
  returned : ∀ k res, .ret k res ∈ h → ∃ call, c.clients[k]? = some call ∧
    call.outcome ≠ .running ∧ Placed P call (pos k) res
  realTime : ∀ a b call, Precedes h a b → c.clients[b]? = some call →
    pos a < call.entry.index ∨ Missed P call

section Growth

omit [DecidableEq ι] [Fintype ι]

variable {P P' : List LogEntry} {call call' : ClientCall ι}

theorem take_of_isPrefix (hP : P <+: P') {p : Nat} (hp : p ≤ P.length) : P'.take p = P.take p := by
  obtain ⟨K, rfl⟩ := hP
  exact List.take_append_of_le_length hp

theorem getElem?_of_isPrefix (hP : P <+: P') {k : Nat} (hk : k < P.length) : P'[k]? = P[k]? := by
  obtain ⟨K, rfl⟩ := hP
  exact List.getElem?_append_left hk

theorem Placed.grow {p : Nat} {res : Outcome} (h : Placed P call p res) (hP : P <+: P')
    (hsame : Continues call call') : Placed P' call' p res where
  entry := by
    rw [hsame.entry, getElem?_of_isPrefix hP (List.getElem?_eq_some_iff.mp h.entry).1]
    exact h.entry
  after := hsame.entry ▸ h.after
  within := h.within.trans hP.length_le
  write := by rw [hsame.op, hsame.entry]; exact h.write
  read := by
    rw [hsame.op, mapAt, take_of_isPrefix hP h.within]
    exact h.read

theorem Missed.grow (h : Missed P call) (hP : P <+: P') (hsame : Continues call call') :
    Missed P' call' := by
  rw [Missed, hsame.entry]
  exact ⟨h.1.trans_le hP.length_le, getElem?_of_isPrefix hP h.1 ▸ h.2⟩

end Growth

/-! ## Steps -/

namespace Explained

variable {h : History Nat ClientOp Outcome} {P P' : List LogEntry} {pos : Nat → Nat}
  {a : Action ι}

omit [Fintype ι] in
theorem returned_step (hx : Explained c h P pos) (hstep : c.step cfg a = some c')
    (hP : P <+: P') {k : Nat} {res : Outcome} (hk : .ret k res ∈ h) :
    ∃ call, c'.clients[k]? = some call ∧ call.outcome ≠ .running ∧ Placed P' call (pos k) res := by
  obtain ⟨call, hcall, hdone, hplaced⟩ := hx.returned k res hk
  obtain ⟨call', hcall', hsame⟩ := client_kept hstep hcall
  exact ⟨call', hcall', fun hrun => hdone (hsame.running hrun), hplaced.grow hP hsame⟩

omit [Fintype ι] in
theorem realTime_step (hx : Explained c h P pos) (hstep : c.step cfg a = some c')
    (hP : P <+: P') {i j : Nat} {call' : ClientCall ι} (hij : Precedes h i j)
    (hcall' : c'.clients[j]? = some call') : pos i < call'.entry.index ∨ Missed P' call' := by
  rcases step_clients hstep hcall' with ⟨call, hcall, hsame⟩ | ⟨rfl, -⟩
  · rw [hsame.entry]
    exact (hx.realTime i j call hij hcall).imp_right fun hmissed => hmissed.grow hP hsame
  · obtain ⟨op, hop⟩ := hij.called
    exact absurd (hx.called _ _ hop) (Nat.lt_irrefl _)

omit [Fintype ι] in
/-- An action of which clients see nothing. -/
theorem unseen (hx : Explained c h P pos) (hstep : c.step cfg a = some c') (hP : P <+: P')
    (hlog : CommittedLog c' P') (hlen : c'.clients.length = c.clients.length) :
    Explained c' h P' pos where
  log := hlog
  opened := by
    intro k call' hcall'
    rcases step_clients hstep hcall' with ⟨call, hcall, hsame⟩ | ⟨rfl, -⟩
    · rw [hsame.op]
      exact hx.opened k call hcall
    · have := (List.getElem?_eq_some_iff.mp hcall').1
      omega
  called := fun k op hk => hlen ▸ hx.called k op hk
  returned := fun _ _ hk => hx.returned_step hstep hP hk
  realTime := fun _ _ _ hij hcall' => hx.realTime_step hstep hP hij hcall'

/-- A call starts: what has returned by then is below its entry, if that is ever committed. -/
theorem started (hx : Explained c h P pos) (hreach : (system cfg).Reach Clean c)
    (hstep : c.step cfg a = some c') (hP : P <+: P') (hlog : CommittedLog c' P')
    {new : ClientCall ι} (hnew : c'.clients[c.clients.length]? = some new)
    (hlen : c'.clients.length = c.clients.length + 1) :
    Explained c' (h ++ [.call c.clients.length new.op]) P' pos where
  log := hlog
  opened := by
    intro k call' hcall'
    rcases step_clients hstep hcall' with ⟨call, hcall, hsame⟩ | ⟨rfl, -⟩
    · rw [hsame.op]
      exact List.mem_append_left _ (hx.opened k call hcall)
    · rw [hnew] at hcall'
      cases hcall'
      exact List.mem_append_right _ (List.mem_singleton_self _)
  called := by
    intro k op hk
    rcases List.mem_append.mp hk with hold | hnew
    · have := hx.called k op hold
      omega
    · cases List.mem_singleton.mp hnew
      omega
  returned := by
    intro k res hk
    rcases List.mem_append.mp hk with hold | hnew
    · exact hx.returned_step hstep hP hold
    · cases List.mem_singleton.mp hnew
  realTime := by
    intro i j call' hij hcall'
    rcases precedes_concat hij with hold | ⟨res, op, hret, heq⟩
    · exact hx.realTime_step hstep hP hold hcall'
    · cases heq
      rw [hnew] at hcall'
      cases hcall'
      obtain ⟨call, -, -, hplaced⟩ := hx.returned i res hret
      rcases step_clients hstep hnew with ⟨old, hold, -⟩ | ⟨-, hlead, hentry, -⟩
      · have := (List.getElem?_eq_some_iff.mp hold).1
        omega
      · have hindex : new.entry.index - 1 = (c.nodes new.node).store.log.length := by
          rw [hentry, ← (reach_wf hreach new.node).length]; rfl
        have hpos : 1 ≤ new.entry.index := by rw [hentry]; exact Nat.succ_pos _
        have hnext := hx.log.next hreach hlead (e := new.entry) (by rw [hentry]; rfl)
        rw [← hindex] at hnext
        by_cases hlt : new.entry.index - 1 < P.length
        · exact Or.inr (Missed.grow ⟨hlt, hnext⟩ hP (.refl _))
        · have := hplaced.within
          exact Or.inl (by omega)

omit [Fintype ι] in
/-- A call returns a result that it has at a position of the committed log. -/
theorem finished (hx : Explained c h P pos) (hstep : c.step cfg a = some c') (hP : P <+: P')
    (hlog : CommittedLog c' P') (hlen : c'.clients.length = c.clients.length) {k p : Nat}
    {res : Outcome} {call call' : ClientCall ι} (hcall : c.clients[k]? = some call)
    (hrun : call.outcome = .running) (hcall' : c'.clients[k]? = some call')
    (hdone : call'.outcome ≠ .running) (hplaced : Placed P' call' p res) :
    Explained c' (h ++ [.ret k res]) P' (Function.update pos k p) := by
  have hfresh : ∀ r, .ret k r ∉ h := by
    intro r hr
    obtain ⟨old, hold, hstopped, -⟩ := hx.returned k r hr
    rw [hcall] at hold
    cases hold
    exact hstopped hrun
  have hold := hx.unseen hstep hP hlog hlen
  refine ⟨hlog, ?_, ?_, ?_, ?_⟩
  · exact fun j d hd => List.mem_append_left _ (hold.opened j d hd)
  · intro j op hj
    rcases List.mem_append.mp hj with hj | hj
    · exact hold.called j op hj
    · cases List.mem_singleton.mp hj
  · intro j r hj
    rcases List.mem_append.mp hj with hj | hj
    · have hne : j ≠ k := fun heq => hfresh r (heq ▸ hj)
      rw [Function.update_of_ne hne]
      exact hold.returned j r hj
    · cases List.mem_singleton.mp hj
      rw [Function.update_self]
      exact ⟨call', hcall', hdone, hplaced⟩
  · intro i j d hij hd
    rcases precedes_concat hij with hij | ⟨r, op, -, heq⟩
    · obtain ⟨r, hr⟩ := hij.returned
      have hne : i ≠ k := fun heq => hfresh r (heq ▸ hr)
      rw [Function.update_of_ne hne]
      exact hold.realTime i j d hij hd
    · cases heq

end Explained

/-! ## Runs -/

omit [Fintype ι] in
/-- A move of which clients see something, and what they see. -/
theorem seen_cases {a : Action ι} (hstep : c.step cfg a = some c') :
    (c'.clients.length = c.clients.length ∧ seen c a c' = []) ∨
    (∃ new, c'.clients[c.clients.length]? = some new ∧
      c'.clients.length = c.clients.length + 1 ∧
      seen c a c' = [.call c.clients.length new.op]) ∨
    (∃ k call res, c'.clients.length = c.clients.length ∧ c.clients[k]? = some call ∧
      call.outcome = .running ∧ call.entry.index ≤ (c.nodes call.node).store.commitIndex ∧
      c'.clients[k]? = some { call with outcome := res } ∧ seen c a c' = [.ret k res] ∧
      (∀ cmd, call.op = .submit cmd → res = .ok) ∧
      (∀ key, call.op = .get key → res = .value ((c.nodes call.node).sm.get key))) := by
  rcases step_cases hstep with ⟨m, rfl, hm⟩ | ⟨i, rfl, rfl⟩ | ⟨m, i, cut, c₁, d, rfl, -, -, rfl⟩
  · cases hm with
    | submit hfree hstate | get hfree hstate =>
      exact Or.inr (Or.inl ⟨_, List.getElem?_concat_length, by simp, rfl⟩)
    | @finishSubmit k i cmd entry hcall hfree hcommit =>
      have hlt := (List.getElem?_eq_some_iff.mp hcall).1
      refine Or.inr (Or.inr ⟨k, _, .ok, by simp, hcall, rfl, hcommit, ?_, ?_, ?_, ?_⟩)
      · simp [hlt]
      · simp [seen, hlt]
      · exact fun _ _ => rfl
      · intro key hop; cases hop
    | @finishGet k i key entry outcome hcall hfree hcommit hvalue hrefused =>
      have hlt := (List.getElem?_eq_some_iff.mp hcall).1
      by_cases hlead : (c.nodes i).state = .leader
      · have hres := hvalue hlead
        subst hres
        refine Or.inr (Or.inr ⟨k, _, .value ((c.nodes i).sm.get key), by simp, hcall, rfl,
          hcommit, ?_, ?_, ?_, ?_⟩)
        · simp [hlt]
        · simp [seen, hlt]
        · intro cmd hop; cases hop
        · intro key' hop; cases hop; rfl
      · have hres := hrefused hlead
        subst hres
        exact Or.inl ⟨by simp, by simp [seen, hlt]⟩
    | send _ | appendReply _ _ _ | appendLost _ _ =>
      exact Or.inl ⟨setSendLoop_clients_length _ _, rfl⟩
    | timeout _ _ | sendVote _ | deliverVote _ _ _ | voteReply _ _ _ _ | deposed _ _ _ _
    | voteLost _ | elected _ _ _ | unelected _ | heartbeat _ _ | deliverAppend _ _ _ | endLoop _ =>
      exact Or.inl ⟨rfl, rfl⟩
  · exact Or.inl ⟨by simp [restart], rfl⟩
  · exact Or.inl ⟨by simp [restart], rfl⟩

/-- A running call whose index is committed finds its entry in the committed log, and the
node's map is the one at the node's commit index. -/
theorem finished_placed (hreach : (system cfg).Reach KeepsCalls c) {P : List LogEntry}
    (hlog : CommittedLog c P) {k : Nat} {call : ClientCall ι} {res : Outcome}
    (hcall : c.clients[k]? = some call) (hrun : call.outcome = .running)
    (hcommit : call.entry.index ≤ (c.nodes call.node).store.commitIndex)
    (hwrite : ∀ cmd, call.op = .submit cmd → res = .ok)
    (hread : ∀ key, call.op = .get key → res = .value ((c.nodes call.node).sm.get key)) :
    Placed P call
      (if call.op.isGet then (c.nodes call.node).store.commitIndex else call.entry.index) res := by
  have hclean := hreach.mono fun _ _ hok => hok.1
  have hsettled := clean_settled hclean call.node
  have hcovers := hlog.covers call.node
  have hstands := running_stand (fun c a hok => ⟨hok.1.1, hok.2⟩) hreach call
    (List.mem_of_getElem? hcall) hrun
  have hpos := hstands.positive
  have hlen := committed_length hsettled
  have hlt : call.entry.index - 1 < (c.nodes call.node).store.commitIndex := by omega
  refine ⟨?_, ?_, ?_, ?_, ?_⟩
  · rw [getElem?_of_isPrefix hcovers (by omega), RaftNode.committed,
      List.getElem?_take_of_lt hlt]
    exact hstands.entry
  · split
    · exact hcommit
    · exact le_refl _
  · have := hcovers.length_le
    split <;> omega
  · intro cmd hop
    rw [hop]
    exact ⟨rfl, hwrite cmd hop⟩
  · intro key hop
    rw [hop, hread key hop, committed_sm hsettled]
    have htake := take_of_isPrefix hcovers (le_refl _)
    rw [hlen, List.take_of_length_le (Nat.le_of_eq hlen)] at htake
    simp only [ClientOp.isGet, if_true, mapAt, htake]

theorem explained {x : Cluster ι × History Nat ClientOp Outcome}
    (hreach : (recorded cfg).Reach (fun x => KeepsCalls x.1) x) :
    ∃ P pos, Explained x.1 x.2 P pos := by
  refine hreach.invariant (I := fun x => ∃ P pos, Explained x.1 x.2 P pos) ?_ ?_
  · have hinit : (system cfg).Reach Clean Cluster.init := TransitionSystem.Reach.init
    obtain ⟨P, hP⟩ := exists_committedLog hinit
    refine ⟨P, fun _ => 0, hP, ?_, ?_, ?_, ?_⟩
    · intro k call hk; cases hk
    · intro k op hk; cases hk
    · intro k res hk; cases hk
    · intro i j call hij; exact absurd hij (not_precedes_nil i j)
  rintro ⟨c, h⟩ a ⟨c', h'⟩ hx ⟨P, pos, hexpl⟩ hok ⟨hstep, hseen⟩
  have hreach := recorded_reach hx
  have hclean := hreach.mono fun _ _ hok => hok.1
  have hclean' := hclean.step hok.1 hstep
  obtain ⟨P', hP'⟩ := exists_committedLog hclean'
  have hgrow := hexpl.log.grows hP' hclean hok.1 hstep
  simp only at hseen hstep hexpl ⊢
  rcases seen_cases hstep with ⟨hlen, hnone⟩ | ⟨new, hnew, hlen, hone⟩ |
    ⟨k, call, res, hlen, hcall, hrun, hcommit, hcall', hone, hwrite, hread⟩
  · rw [hseen, hnone, List.append_nil]
    exact ⟨P', pos, hexpl.unseen hstep hgrow hP' hlen⟩
  · rw [hseen, hone]
    exact ⟨P', pos, hexpl.started hclean hstep hgrow hP' hnew hlen⟩
  · rw [hseen, hone]
    have hplaced := finished_placed hreach hexpl.log hcall hrun hcommit hwrite hread
    have hsame : Continues call { call with outcome := res } := ⟨rfl, rfl, rfl, fun _ => hrun⟩
    refine ⟨P', _, hexpl.finished hstep hgrow hP' hlen hcall hrun hcall' ?_
      (hplaced.grow hgrow hsame)⟩
    cases hop : call.op with
    | submit cmd => simp [hwrite cmd hop]
    | get key => simp [hread key hop]

/-! ## The order of the calls -/

section Order

open Classical in
/-- The calls that have taken effect: those that returned, and the writes that stand in the
committed log. -/
noncomputable def effective (c : Cluster ι) (h : History Nat ClientOp Outcome)
    (P : List LogEntry) : List Nat :=
  (List.range c.clients.length).filter fun k => decide (∃ call, c.clients[k]? = some call ∧
    P[call.entry.index - 1]? = some call.entry ∧
      ((∃ res, .ret k res ∈ h) ∨ call.op.isGet = false))

/-- The operation of call `k`. -/
def opOf (c : Cluster ι) (k : Nat) : ClientOp :=
  (c.clients[k]?.map ClientCall.op).getD (.get [])

/-- Writes stand at the index of their entry, reads at the commit index they saw. -/
def placeOf (c : Cluster ι) (pos : Nat → Nat) (k : Nat) : Nat :=
  match c.clients[k]? with
  | some call => if call.op.isGet then pos k else call.entry.index
  | none => 0

def resultOf (c : Cluster ι) (P : List LogEntry) (pos : Nat → Nat) (k : Nat) : Outcome :=
  match opOf c k with
  | .submit _ => .ok
  | .get key => .value ((mapAt P (placeOf c pos k)).get key)

variable {h : History Nat ClientOp Outcome} {P : List LogEntry} {pos : Nat → Nat} {k : Nat}
  {call : ClientCall ι}

omit [DecidableEq ι] [Fintype ι] in
theorem mem_effective : k ∈ effective c h P ↔ ∃ call, c.clients[k]? = some call ∧
    P[call.entry.index - 1]? = some call.entry ∧
      ((∃ res, .ret k res ∈ h) ∨ call.op.isGet = false) := by
  simp only [effective, List.mem_filter, List.mem_range, decide_eq_true_eq, and_iff_right_iff_imp]
  rintro ⟨call, hcall, -⟩
  exact (List.getElem?_eq_some_iff.mp hcall).1

omit [DecidableEq ι] [Fintype ι] in
theorem opOf_eq (hcall : c.clients[k]? = some call) : opOf c k = call.op := by
  simp [opOf, hcall]

omit [DecidableEq ι] [Fintype ι] in
theorem placeOf_eq (hcall : c.clients[k]? = some call) :
    placeOf c pos k = if call.op.isGet then pos k else call.entry.index := by
  simp [placeOf, hcall]

omit [DecidableEq ι] [Fintype ι] in
/-- What returned has its place and its result. -/
theorem Explained.result (hx : Explained c h P pos) {res : Outcome} (hk : .ret k res ∈ h) :
    ∃ call, c.clients[k]? = some call ∧ Placed P call (placeOf c pos k) res ∧
      placeOf c pos k = pos k ∧ resultOf c P pos k = res := by
  obtain ⟨call, hcall, -, hplaced⟩ := hx.returned k res hk
  have hplace : placeOf c pos k = pos k := by
    rw [placeOf_eq hcall]
    cases hop : call.op with
    | submit cmd => exact (hplaced.write cmd hop).1.symm
    | get key => rfl
  refine ⟨call, hcall, hplace.symm ▸ hplaced, hplace, ?_⟩
  rw [resultOf, opOf_eq hcall, hplace]
  cases hop : call.op with
  | submit cmd => exact (hplaced.write cmd hop).2.symm
  | get key => exact (hplaced.read key hop).symm

/-- One entry of the log takes the map one command further. -/
theorem mapAt_succ {p : Nat} {e : LogEntry} (he : P[p]? = some e) :
    mapAt P (p + 1) = (mapAt P p).apply e.command := by
  rw [mapAt, mapAt, List.take_add_one, he, List.map_append, StateMachine.applyAll_append]
  rfl

/-- A committed entry stands at its index. -/
theorem CommittedLog.indexed {ok : Cluster ι → Action ι → Prop} (hP : CommittedLog c P)
    (hreach : (system cfg).Reach ok c) : Indexed P := by
  rcases hP.reached with rfl | ⟨i, rfl⟩
  · exact Indexed.nil
  · exact (reach_wf hreach i).indexed.of_isPrefix (List.take_prefix _ _)

/-- Writes of different calls stand at different places. -/
theorem effective_single (hreach : (system cfg).Reach KeepsCalls c) {j : Nat}
    {call' : ClientCall ι} (hk : c.clients[k]? = some call) (hj : c.clients[j]? = some call')
    (hentry : P[call.entry.index - 1]? = some call.entry)
    (hentry' : P[call'.entry.index - 1]? = some call'.entry)
    (hindex : call.entry.index = call'.entry.index) : k = j := by
  rw [← hindex, hentry] at hentry'
  have hsame : call.entry = call'.entry := Option.some.inj hentry'
  rcases Nat.lt_trichotomy k j with hlt | heq | hlt
  · have := entries_ordered hreach hk hj hlt (congrArg LogEntry.term hsame)
    omega
  · exact heq
  · have := entries_ordered hreach hj hk hlt (congrArg LogEntry.term hsame).symm
    omega

/-- An entry that no client wrote leaves the map as it is. -/
theorem mapAt_skip (hreach : (system cfg).Reach KeepsCalls c) (hx : Explained c h P pos)
    {p : Nat} (hp : p < P.length) (hnone : ∀ k ∈ effective c h P, (opOf c k).isGet = false →
      placeOf c pos k ≠ p + 1) : mapAt P (p + 1) = mapAt P p := by
  obtain ⟨e, hget⟩ : ∃ e, P[p]? = some e := ⟨_, List.getElem?_eq_getElem hp⟩
  rw [mapAt_succ hget]
  have hmem := List.mem_of_getElem? hget
  have haccounted : Accounted c e := by
    rcases hx.log.reached with rfl | ⟨i, rfl⟩
    · cases hmem
    · exact (entries_accounted (fun c a hok => (hok.1 : Clean c a).1) hreach).1 i e
        (List.mem_of_mem_take hmem)
  rcases haccounted with hnoop | ⟨call, hcall, hentry, hop⟩
  · simp [StateMachine.apply, hnoop, OpType.noop, OpType.put, OpType.delete]
  · obtain ⟨k, hk⟩ := List.mem_iff_getElem?.mp hcall
    have hindex : call.entry.index = p + 1 := by
      rw [hentry]
      exact hx.log.indexed hreach p _ hget
    refine absurd ?_ (hnone k (mem_effective.mpr ⟨call, hk, ?_, Or.inr hop⟩) ?_)
    · rw [placeOf_eq hk, hop, hindex]; rfl
    · rw [hindex, Nat.add_sub_cancel, hentry]; exact hget
    · rw [opOf_eq hk]; exact hop

/-- The calls in the order of their places. -/
noncomputable def placement (hreach : (system cfg).Reach KeepsCalls c)
    (hx : Explained c h P pos) : LogPlacement kv h where
  ids := effective c h P
  op := opOf c
  res := resultOf c P pos
  query k := (opOf c k).isGet
  pos := placeOf c pos
  length := P.length + 1
  state p := mapAt P (p - 1)
  nodup := List.nodup_range.filter _
  inside := by
    intro k hk
    obtain ⟨call, hcall, hentry, ⟨res, hret⟩ | hop⟩ := mem_effective.mp hk
    · obtain ⟨_, -, hplaced, -, -⟩ := hx.result hret
      exact Nat.lt_succ_of_le hplaced.within
    · have := (List.getElem?_eq_some_iff.mp hentry).1
      rw [placeOf_eq hcall, hop]
      simp only [Bool.false_eq_true, if_false]
      omega
  called := by
    intro k hk
    obtain ⟨call, hcall, -⟩ := mem_effective.mp hk
    rw [opOf_eq hcall]
    exact hx.opened k call hcall
  returned := by
    intro k res hret
    obtain ⟨call, hcall, hplaced, -, hres⟩ := hx.result hret
    exact ⟨mem_effective.mpr ⟨call, hcall, hplaced.entry, Or.inl ⟨res, hret⟩⟩, hres⟩
  init := rfl
  single := by
    intro k hk j hj hkw hjw hplace
    obtain ⟨call, hcall, hentry, -⟩ := mem_effective.mp hk
    obtain ⟨call', hcall', hentry', -⟩ := mem_effective.mp hj
    rw [opOf_eq hcall] at hkw
    rw [opOf_eq hcall'] at hjw
    rw [placeOf_eq hcall, placeOf_eq hcall', hkw, hjw] at hplace
    exact effective_single hreach hcall hcall' hentry hentry' hplace
  update := by
    intro k hk hkw
    obtain ⟨call, hcall, hentry, -⟩ := mem_effective.mp hk
    obtain ⟨hcommand, hpos⟩ := entry_command hreach call (List.mem_of_getElem? hcall)
    rw [opOf_eq hcall] at hkw
    have hmap := mapAt_succ hentry
    rw [Nat.sub_add_cancel hpos, hcommand] at hmap
    rw [placeOf_eq hcall, hkw, resultOf, opOf_eq hcall]
    cases hop : call.op with
    | submit cmd =>
      rw [hop] at hmap
      simp only [Bool.false_eq_true, if_false, Nat.add_sub_cancel, hmap]
      rfl
    | get key => rw [hop] at hkw; cases hkw
  skip := by
    intro p hp hnone
    cases p with
    | zero => rfl
    | succ p => exact mapAt_skip hreach hx (Nat.lt_of_succ_lt_succ hp) hnone
  read := by
    intro k hk hkr
    obtain ⟨call, hcall, -⟩ := mem_effective.mp hk
    rw [opOf_eq hcall] at hkr
    rw [resultOf, opOf_eq hcall]
    cases hop : call.op with
    | submit cmd => rw [hop] at hkr; cases hkr
    | get key => rfl
  realTime := by
    intro k hk j hj hkj
    obtain ⟨res, hret⟩ := hkj.returned
    obtain ⟨_, -, -, hplace, -⟩ := hx.result hret
    obtain ⟨call, hcall, hentry, hdone⟩ := mem_effective.mp hj
    rw [hplace]
    rcases hx.realTime k j call hkj hcall with hlt | hmissed
    · refine Nat.lt_of_lt_of_le hlt ?_
      rcases hdone with ⟨res, hret'⟩ | hop
      · obtain ⟨call', hcall', hplaced, -, -⟩ := hx.result hret'
        rw [hcall] at hcall'
        cases hcall'
        exact hplaced.after
      · rw [placeOf_eq hcall, hop]
        exact le_refl _
    · exact absurd hentry hmissed.2

end Order

/-- In every clean run that overwrites no entry a running call waits for, what the clients
see is linearizable: it is what one sequential map would show them. -/
theorem linearizable {x : Cluster ι × History Nat ClientOp Outcome}
    (hreach : (recorded cfg).Reach (fun x => KeepsCalls x.1) x) : Linearizable kv x.2 := by
  obtain ⟨P, pos, hx⟩ := explained hreach
  exact ⟨_, (placement (recorded_reach hreach) hx).linearization⟩

/-- The step of `recorded` as a function. -/
def recordedStep (cfg : Config ι) (x : Cluster ι × History Nat ClientOp Outcome) (a : Action ι) :
    Option (Cluster ι × History Nat ClientOp Outcome) :=
  (x.1.step cfg a).map fun c' => (c', x.2 ++ seen x.1 a c')

omit [Fintype ι] in
theorem recorded_step {x x' : Cluster ι × History Nat ClientOp Outcome} {a : Action ι}
    (h : recordedStep cfg x a = some x') : (recorded cfg).step x a x' := by
  obtain ⟨c', hstep, rfl⟩ := Option.map_eq_some_iff.mp h
  exact ⟨hstep, rfl⟩

/-- Node 0 acknowledges a write and serves a read; node 2 crashes in between. -/
def readWrittenRun : List (Action (Fin 3)) := List.flatten
  [acknowledgedRun, [.move (.finish 0), .crash 2, .move (.get 0 [1])], served (.client 1) 4,
    unserved (.client 1), [.move (.finish 1)]]

theorem linearizable_readWritten : ∃ x : Cluster (Fin 3) × History Nat ClientOp Outcome,
    (recorded (Config.complete 3)).Reach (fun x => KeepsCalls x.1) x ∧
      x.2 = [.call 0 (.submit ⟨.put, [1], [7]⟩), .ret 0 .ok, .call 1 (.get [1]),
        .ret 1 (.value [7])] ∧ Linearizable kv x.2 := by
  have hrun : (TransitionSystem.runFrom (recordedStep (Config.complete 3)) (fun x => KeepsCalls x.1)
      (.init, []) readWrittenRun).any (fun x =>
        decide (x.2 = [.call 0 (.submit ⟨.put, [1], [7]⟩), .ret 0 .ok, .call 1 (.get [1]),
          .ret 1 (.value [7])])) = true := by decide +kernel
  obtain ⟨x, hx, hp⟩ := (Option.any_eq_true _ _).mp hrun
  have hreach : (recorded (Config.complete 3)).Reach (fun x => KeepsCalls x.1) x :=
    TransitionSystem.steps_of_runFrom (fun _ _ _ => recorded_step) hx
  exact ⟨x, hreach, of_decide_eq_true hp, linearizable hreach⟩

end Cluster

end RaftKv
