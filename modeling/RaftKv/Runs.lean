-- SUMMARY: The cluster as a transition system, and runs given by a list of actions.
import RaftKv.Moves
import RaftKv.Lib.TransitionSystem
import Mathlib.Data.List.FinRange

/-!
# Runs

A run is a sequence of actions from the initial state. Properties of every run are
stated over `TransitionSystem.Reach`, whose side condition says which actions the run
may take; `run` executes a given list of actions and checks the side condition.
-/

namespace RaftKv

/-- The cluster of `n` nodes. -/
def Config.complete (n : Nat) : Config (Fin n) where
  peers i := (List.finRange n).filter fun j => j ≠ i
  nodup _ := (List.nodup_finRange n).filter _
  mem_peers i j := by simp

/-- The node names of the runs below. -/
instance neZeroThree : @NeZero Nat Zero.ofOfNat0 3 := ⟨by decide⟩

instance neZeroFive : @NeZero Nat Zero.ofOfNat0 5 := ⟨by decide⟩

namespace Cluster

variable {ι : Type} [DecidableEq ι] (cfg : Config ι)

def system : TransitionSystem (Cluster ι) (Action ι) where
  init := .init
  step := fun c a c' => c.step cfg a = some c'

/-! ## Which actions a run may take -/

/-- Every action, crashes inside a step included. -/
def Any (_ : Cluster ι) (_ : Action ι) : Prop := True

/-- Nodes crash between steps only. -/
def Atomic (_ : Cluster ι) : Action ι → Prop
  | .crashIn _ _ _ => False
  | _ => True

/-- No node crashes. -/
def CrashFree (_ : Cluster ι) : Action ι → Prop
  | .move _ => True
  | _ => False

instance (c : Cluster ι) : DecidablePred (Any c) := fun _ => .isTrue trivial

instance (c : Cluster ι) : DecidablePred (Atomic c)
  | .move _ => .isTrue trivial
  | .crash _ => .isTrue trivial
  | .crashIn _ _ _ => .isFalse id

instance (c : Cluster ι) : DecidablePred (CrashFree c)
  | .move _ => .isTrue trivial
  | .crash _ => .isFalse id
  | .crashIn _ _ _ => .isFalse id

/-! ## Executing a run -/

section Run

variable (ok : Cluster ι → Action ι → Prop) [∀ c, DecidablePred (ok c)]

/-- The state after the actions, if each is possible and meets the condition. -/
abbrev run : Cluster ι → List (Action ι) → Option (Cluster ι) :=
  TransitionSystem.runFrom (step cfg) ok

variable {cfg ok}

theorem steps_of_run {c c' : Cluster ι} {as : List (Action ι)}
    (h : run cfg ok c as = some c') : (system cfg).Steps ok c c' :=
  TransitionSystem.steps_of_runFrom (fun _ _ _ => id) h

theorem exists_reach {as : List (Action ι)} {p : Cluster ι → Bool}
    (h : (run cfg ok .init as).any p = true) : ∃ c, (system cfg).Reach ok c ∧ p c = true := by
  rw [Option.any_eq_true_iff_get] at h
  obtain ⟨hsome, hp⟩ := h
  exact ⟨_, steps_of_run (Option.some_get hsome).symm, hp⟩

end Run

/-! ## Parts of a run -/

section Parts

/-- The next peer of `i`'s election gets request `k` and its reply is counted. -/
def vote (i : ι) (k : Nat) : List (Action ι) :=
  [.move (.sendVote i), .move (.deliverVote k), .move (.voteReply i)]

/-- The next peer of `i`'s election does not answer. -/
def noVote (i : ι) : List (Action ι) := [.move (.sendVote i), .move (.voteLost i)]

/-- The next peer of loop `t` gets request `k` and its reply is processed. -/
def served (t : Thread ι) (k : Nat) : List (Action ι) :=
  [.move (.send t), .move (.deliverAppend k), .move (.appendReply t fun _ => true)]

/-- The next peer of loop `t` does not answer. -/
def unserved (t : Thread ι) : List (Action ι) := [.move (.send t), .move (.appendLost t)]

end Parts

/-! ## What an action can do -/

variable {cfg} {c c' : Cluster ι}

theorem step_cases {a : Action ι} (h : c.step cfg a = some c') :
    (∃ m, a = .move m ∧ Moved cfg c m c') ∨
    (∃ i, a = .crash i ∧ c' = c.restart i (c.nodes i).store.disk (c.nodes i).trace) ∨
    (∃ m i cut c₁ d, a = .crashIn m i cut ∧ Moved cfg c m c₁ ∧
      cutDisk (c.nodes i).store.disk (c.newEvents c₁ i) cut = some d ∧
      c' = c.restart i d ((c.nodes i).trace ++ cutEvents (c.newEvents c₁ i) cut)) := by
  cases a with
  | move m => exact Or.inl ⟨m, rfl, moved_of_move h⟩
  | crash i =>
    cases h
    exact Or.inr (Or.inl ⟨i, rfl, rfl⟩)
  | crashIn m i cut =>
    simp only [step, Option.bind_eq_some_iff, Option.map_eq_some_iff] at h
    obtain ⟨c₁, hmove, d, hd, rfl⟩ := h
    exact Or.inr (Or.inr ⟨m, i, cut, c₁, d, rfl, moved_of_move hmove, hd, rfl⟩)

end Cluster

end RaftKv
