-- SUMMARY: The election timers: the steady clocks, the waits of startBackground and backgroundLoop, and the sections that set last_heartbeat.
import RaftKv.Runs

/-!
# Timers

`Cluster.move` lets a timeout fire and a heartbeat round start whenever the role allows it.
Here every node has its steady clock, its `last_heartbeat` and its `current_timeout`, and the
two moves wait for them. The clocks run on their own, each at its own pace. The sleep of 10 ms
between two looks at the clock only delays a move and is left out.
-/

namespace RaftKv

/-- One millisecond of the steady clock, which counts nanoseconds. -/
def millisecond : Nat := 1000000

/-- `3000 + rand() % 201`, in milliseconds. -/
def getRandomTimeout (rand : Nat) : Nat := 3000 + rand % 201

structure Timer where
  /-- When the constructor set `last_heartbeat`; the sleep of `startBackground` follows. -/
  created : Nat
  lastHeartbeat : Nat
  currentTimeout : Nat
  /-- `startBackground` has created the background thread. -/
  background : Bool

namespace Timer

/-- The constructor of `RaftNode`, at `now`. -/
def start (now rand : Nat) : Timer where
  created := now
  lastHeartbeat := now
  currentTimeout := getRandomTimeout rand
  background := false

/-- `duration_cast<milliseconds>(now - last_heartbeat).count()`. -/
def elapsed (t : Timer) (now : Nat) : Nat := (now - t.lastHeartbeat) / millisecond

/-- The two assignments `last_heartbeat = now` and `current_timeout = getRandomTimeout()`. -/
def reset (t : Timer) (now rand : Nat) : Timer :=
  { t with lastHeartbeat := now, currentTimeout := getRandomTimeout rand }

/-- The heartbeat branch of `backgroundLoop` sets `last_heartbeat` only. -/
def beat (t : Timer) (now : Nat) : Timer := { t with lastHeartbeat := now }

/-- `startBackground`, after its sleep. -/
def startBackground (t : Timer) (now : Nat) : Timer :=
  { t with lastHeartbeat := now, background := true }

end Timer

/-- `handleRequestVote` sets the timer for a later term and, again, for a granted vote. -/
def RaftNode.voteResets {ι : Type} [DecidableEq ι] (n : RaftNode ι) (rpc : RequestVote ι) : Bool :=
  decide (rpc.term > n.store.term) || (n.handleRequestVote rpc).2.voteGranted

/-- The node whose timer the move resets. A reply that makes a leader step down in
`sendAppendEntries` does not. -/
def Cluster.resets {ι : Type} [DecidableEq ι] (c : Cluster ι) : Move ι → Option ι
  | .timeout i => some i
  | .deliverVote k =>
    match c.voteCalls[k]? with
    | some call => if (c.nodes call.dst).voteResets call.rpc then some call.dst else none
    | none => none
  | .voteReply i =>
    match c.background i with
    | .election ⟨_, _, _ :: _, some k⟩ =>
      match (c.voteCalls[k]?).bind (·.reply) with
      | some resp => if resp.term > (c.nodes i).store.term then some i else none
      | none => none
    | _ => none
  | .deliverAppend k =>
    match c.appendCalls[k]? with
    | some call => if call.rpc.term < (c.nodes call.dst).store.term then none else some call.dst
    | none => none
  | _ => none

/-- The cluster with its clocks and timers. -/
structure Timed (ι : Type) where
  cluster : Cluster ι
  clock : ι → Nat
  timer : ι → Timer

inductive TimedAction (ι : Type) where
  /-- The clock of node `i` goes on by `d`. -/
  | tick (i : ι) (d : Nat)
  /-- The sleep of `startBackground` is over. -/
  | startBackground (i : ι)
  /-- The cluster acts; `rand i` is what node `i` draws last, if it draws. -/
  | act (a : Action ι) (rand : ι → Nat)

namespace Timed

variable {ι : Type}

/-- All nodes start at time 0; `rand i` is the first draw of node `i`. -/
def init (rand : ι → Nat) : Timed ι where
  cluster := .init
  clock := fun _ => 0
  timer := fun i => .start 0 (rand i)

/-- The conditions of `backgroundLoop`; all other moves wait for no clock. -/
def due (s : Timed ι) : Move ι → Prop
  | .timeout i => (s.timer i).background = true ∧
      (s.timer i).elapsed (s.clock i) ≥ (s.timer i).currentTimeout
  | .heartbeat i => (s.timer i).background = true ∧ (s.timer i).elapsed (s.clock i) ≥ 100
  | _ => True

instance (s : Timed ι) : DecidablePred s.due := fun m => by
  unfold due; split <;> infer_instance

/-- A crash waits for nothing; inside a move it comes when the move does. -/
def actDue (s : Timed ι) : Action ι → Prop
  | .move m => s.due m
  | .crash _ => True
  | .crashIn m _ _ => s.due m

instance (s : Timed ι) : DecidablePred s.actDue
  | .move m => inferInstanceAs (Decidable (s.due m))
  | .crash _ => .isTrue trivial
  | .crashIn m _ _ => inferInstanceAs (Decidable (s.due m))

variable [DecidableEq ι]

/-- The timers after a move. -/
def timersAfter (s : Timed ι) (m : Move ι) (rand : ι → Nat) : ι → Timer :=
  match m with
  | .heartbeat i => Function.update s.timer i ((s.timer i).beat (s.clock i))
  | m =>
    match s.cluster.resets m with
    | some i => Function.update s.timer i ((s.timer i).reset (s.clock i) (rand i))
    | none => s.timer

/-- The timers after an action: a node that restarts runs its constructor again. -/
def actTimers (s : Timed ι) (rand : ι → Nat) : Action ι → ι → Timer
  | .move m => s.timersAfter m rand
  | .crash i | .crashIn _ i _ => Function.update s.timer i (.start (s.clock i) (rand i))

def step (cfg : Config ι) (s : Timed ι) : TimedAction ι → Option (Timed ι)
  | .tick i d => some { s with clock := Function.update s.clock i (s.clock i + d) }
  | .startBackground i =>
    if (s.timer i).background = false ∧
        s.clock i ≥ (s.timer i).created + 3000 * millisecond then
      some { s with timer := Function.update s.timer i ((s.timer i).startBackground (s.clock i)) }
    else none
  | .act a rand =>
    if s.actDue a then
      match s.cluster.step cfg a with
      | some c => some { s with cluster := c, timer := s.actTimers rand a }
      | none => none
    else none

def system (cfg : Config ι) (rand : ι → Nat) : TransitionSystem (Timed ι) (TimedAction ι) where
  init := .init rand
  step := fun s a s' => s.step cfg a = some s'

/-- A condition on the actions of the cluster, put on the timed ones. -/
def Under (ok : Cluster ι → Action ι → Prop) (s : Timed ι) : TimedAction ι → Prop
  | .act a _ => ok s.cluster a
  | _ => True

instance (ok : Cluster ι → Action ι → Prop) [∀ c, DecidablePred (ok c)] (s : Timed ι) :
    DecidablePred (Under ok s) := fun a => by
  unfold Under; split <;> infer_instance

/-! ## Timed runs are runs -/

variable {cfg : Config ι} {rand : ι → Nat} {ok : Cluster ι → Action ι → Prop} {s s' : Timed ι}

theorem step_cases {a : TimedAction ι} (h : s.step cfg a = some s') :
    (∃ i d, a = .tick i d ∧
      s' = { s with clock := Function.update s.clock i (s.clock i + d) }) ∨
    (∃ i, a = .startBackground i ∧
      s.clock i ≥ (s.timer i).created + 3000 * millisecond ∧
      s' = { s with
        timer := Function.update s.timer i ((s.timer i).startBackground (s.clock i)) }) ∨
    (∃ b draw c, a = .act b draw ∧ s.actDue b ∧ s.cluster.step cfg b = some c ∧
      s' = { s with cluster := c, timer := s.actTimers draw b }) := by
  cases a with
  | tick i d =>
    cases h
    exact Or.inl ⟨i, d, rfl, rfl⟩
  | startBackground i =>
    simp only [step] at h
    split at h
    · rename_i hg
      cases h
      exact Or.inr (Or.inl ⟨i, rfl, hg.2, rfl⟩)
    · cases h
  | act b draw =>
    simp only [step] at h
    split at h
    · rename_i hdue
      split at h
      · rename_i c hstep
        cases h
        exact Or.inr (Or.inr ⟨b, draw, c, rfl, hdue, hstep, rfl⟩)
      · cases h
    · cases h

/-- Without its clocks a timed run is a run of the cluster. -/
theorem steps_cluster (h : (system cfg rand).Steps (Under ok) s s') :
    (Cluster.system cfg).Steps ok s.cluster s'.cluster := by
  induction h with
  | refl => exact TransitionSystem.Steps.refl _
  | tail _ hnext ih =>
    obtain ⟨a, hok, hst⟩ := hnext
    rcases step_cases hst with ⟨i, d, rfl, rfl⟩ | ⟨i, rfl, -, rfl⟩ | ⟨b, draw, c, rfl, -, hb, rfl⟩
    · exact ih
    · exact ih
    · exact ih.trans (TransitionSystem.Steps.single hok hb)

theorem reach_cluster (h : (system cfg rand).Reach (Under ok) s) :
    (Cluster.system cfg).Reach ok s.cluster :=
  steps_cluster h

end Timed

end RaftKv
