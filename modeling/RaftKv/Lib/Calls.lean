-- SUMMARY: Remote calls as records: each is served at most once, at any time, and its caller gets its own answer or none.
import RaftKv.Lib.TransitionSystem
import Mathlib.Data.List.Basic

/-!
# Remote calls

What a caller may expect of a remote procedure call over a network that loses and delays: a
call is a record that is never removed, the server serves it at most once, at any later time,
and the caller returns with the answer to it or with none. `serve` is what the server does with
a request.
-/

universe u v w

structure CallRecord (Q : Type u) (R : Type v) where
  request : Q
  answer : Option R := none
  /-- What the caller returned with, once it has. -/
  result : Option (Option R) := none

namespace CallRecord

variable {Q : Type u} {R : Type v} {σ : Type w}

structure State (Q : Type u) (R : Type v) (σ : Type w) where
  server : σ
  records : List (CallRecord Q R) := []

section Steps

variable (serve : σ → Q → Option (σ × R))

inductive Step : State Q R σ → Unit → State Q R σ → Prop where
  | call {s : State Q R σ} (request : Q) : Step s () { s with records := s.records ++ [{ request }] }
  | serve {s : State Q R σ} {i : Nat} {r : CallRecord Q R} {server : σ} {answer : R} :
      s.records[i]? = some r → r.answer = none → serve s.server r.request = some (server, answer) →
      Step s () { server, records := s.records.set i { r with answer := some answer } }
  | finish {s : State Q R σ} {i : Nat} {r : CallRecord Q R} {result : Option R} :
      s.records[i]? = some r → r.result = none → (result = none ∨ result = r.answer) →
      Step s () { s with records := s.records.set i { r with result := some result } }
  /-- The server does something else. -/
  | other {s : State Q R σ} (server : σ) : Step s () { s with server }

def system (server : σ) : TransitionSystem (State Q R σ) Unit where
  init := { server }
  step := Step serve

end Steps

/-! ## What a record says -/

variable {serve : σ → Q → Option (σ × R)} {server : σ}

/-- An answer is what the server made of the request, and a result is the answer or nothing. -/
structure Valid (serve : σ → Q → Option (σ × R)) (r : CallRecord Q R) : Prop where
  answer : ∀ x, r.answer = some x → ∃ server server', serve server r.request = some (server', x)
  result : ∀ x, r.result = some (some x) → r.answer = some x

theorem Step.valid {s s' : State Q R σ} {a : Unit} (h : Step serve s a s')
    (hs : ∀ r ∈ s.records, r.Valid serve) : ∀ r ∈ s'.records, r.Valid serve := by
  intro r' hr'
  cases h with
  | call request =>
    rcases List.mem_append.mp hr' with hmem | hmem
    · exact hs r' hmem
    · rw [List.mem_singleton.mp hmem]
      constructor <;> intro x hx <;> cases hx
  | @serve i r server answer hr hnone hserve =>
    rcases List.mem_or_eq_of_mem_set hr' with hmem | rfl
    · exact hs r' hmem
    · have hold := hs r (List.mem_of_getElem? hr)
      refine ⟨fun x hx => ?_, fun x hx => ?_⟩
      · cases hx
        exact ⟨s.server, server, hserve⟩
      · -- nobody has returned with an answer that was not there
        rw [hold.result x hx] at hnone
        cases hnone
  | @finish i r result hr _ hresult =>
    rcases List.mem_or_eq_of_mem_set hr' with hmem | rfl
    · exact hs r' hmem
    · have hold := hs r (List.mem_of_getElem? hr)
      refine ⟨hold.answer, fun x hx => ?_⟩
      cases hx
      rcases hresult with hresult | hresult
      · cases hresult
      · exact hresult.symm
  | other => exact hs r' hr'

theorem valid_of_reach {ok : State Q R σ → Unit → Prop} {s : State Q R σ}
    (h : (system serve server).Reach ok s) : ∀ r ∈ s.records, r.Valid serve :=
  h.invariant (I := fun s => ∀ r ∈ s.records, r.Valid serve) (fun _ hr => by cases hr)
    fun _ _ _ _ hs _ hstep => Step.valid hstep hs

end CallRecord
