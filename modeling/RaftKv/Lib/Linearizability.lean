-- SUMMARY: Histories of an object that concurrent clients share, linearizations, and the rule for an object that is kept as a log of updates.
import Mathlib.Data.List.Nodup
import Mathlib.Data.List.Range

/-!
# Linearizability

A history lists calls and returns in the order in which they happened. It is
linearizable when the calls that returned, with some of those that did not, can be put in
one sequence in which the object gives each the result it returned, and in which a call
comes after all that had returned before it started.

The rule at the end is for objects that are kept as a log. Each update stands at a
position of the log, each query reads the state up to a position, and a call that starts
after another has returned gets a later position.
-/

universe u v w x

/-- An object with sequential semantics. -/
structure SeqObject (σ : Type u) (Op : Type v) (Res : Type w) where
  init : σ
  step : σ → Op → σ × Res

/-- What a client does, or is told. -/
inductive ClientEvent (κ : Type x) (Op : Type v) (Res : Type w) where
  | call (k : κ) (op : Op)
  | ret (k : κ) (res : Res)
  deriving DecidableEq

/-! ## Sequences of calls -/

namespace SeqObject

variable {σ : Type u} {Op : Type v} {Res : Type w} {κ : Type x}

/-- From `s`, the object gives each call of the sequence the result it stands with. -/
def Legal (O : SeqObject σ Op Res) : σ → List (κ × Op × Res) → Prop
  | _, [] => True
  | s, (_, op, res) :: rest => (O.step s op).2 = res ∧ Legal O (O.step s op).1 rest

/-- The state after the calls of the sequence. -/
def after (O : SeqObject σ Op Res) : σ → List (κ × Op × Res) → σ
  | s, [] => s
  | s, (_, op, _) :: rest => after O (O.step s op).1 rest

variable {O : SeqObject σ Op Res} {s : σ}

theorem legal_append {xs ys : List (κ × Op × Res)} (hxs : Legal O s xs)
    (hys : Legal O (after O s xs) ys) : Legal O s (xs ++ ys) := by
  induction xs generalizing s with
  | nil => exact hys
  | cons x xs ih => exact ⟨hxs.1, ih hxs.2 hys⟩

theorem after_append (xs ys : List (κ × Op × Res)) :
    after O s (xs ++ ys) = after O (after O s xs) ys := by
  induction xs generalizing s with
  | nil => rfl
  | cons x xs ih => exact ih

/-- Calls that leave the state as it is, each with the result it has there. -/
theorem legal_queries {xs : List (κ × Op × Res)} (h : ∀ x ∈ xs, O.step s x.2.1 = (s, x.2.2)) :
    Legal O s xs ∧ after O s xs = s := by
  induction xs with
  | nil => exact ⟨trivial, rfl⟩
  | cons x xs ih =>
    have hx := h x List.mem_cons_self
    obtain ⟨hlegal, hafter⟩ := ih fun y hy => h y (List.mem_cons_of_mem _ hy)
    refine ⟨⟨by rw [hx], ?_⟩, ?_⟩
    · rw [hx]; exact hlegal
    · rw [after, hx]; exact hafter

/-- Blocks of calls one after the other, block `p` taking state `p` to state `p + 1`. -/
theorem legal_blocks {state : ℕ → σ} {block : ℕ → List (κ × Op × Res)} {n : ℕ}
    (hblock : ∀ p < n, Legal O (state p) (block p) ∧ after O (state p) (block p) = state (p + 1)) :
    Legal O (state 0) ((List.range n).flatMap block) ∧
      after O (state 0) ((List.range n).flatMap block) = state n := by
  induction n with
  | zero => exact ⟨trivial, rfl⟩
  | succ n ih =>
    obtain ⟨hlegal, hafter⟩ := ih fun p hp => hblock p (Nat.lt_succ_of_lt hp)
    obtain ⟨hlast, hnext⟩ := hblock n (Nat.lt_succ_self n)
    have hcut : (List.range (n + 1)).flatMap block = (List.range n).flatMap block ++ block n := by
      simp [List.range_succ]
    rw [hcut, after_append, hafter]
    exact ⟨legal_append hlegal (hafter.symm ▸ hlast), hnext⟩

end SeqObject

/-! ## Histories -/

namespace Linearizability

variable {σ : Type u} {Op : Type v} {Res : Type w} {κ : Type x}

abbrev History (κ : Type x) (Op : Type v) (Res : Type w) := List (ClientEvent κ Op Res)

/-- Call `a` has returned before call `b` starts. -/
def Precedes (h : History κ Op Res) (a b : κ) : Prop :=
  ∃ res op, [.ret a res, .call b op].Sublist h

theorem not_precedes_nil (a b : κ) : ¬ Precedes ([] : History κ Op Res) a b := by
  rintro ⟨res, op, hsub⟩
  cases hsub

theorem Precedes.returned {h : History κ Op Res} {a b : κ} (hab : Precedes h a b) :
    ∃ res, .ret a res ∈ h := by
  obtain ⟨res, op, hsub⟩ := hab
  exact ⟨res, hsub.subset List.mem_cons_self⟩

theorem Precedes.called {h : History κ Op Res} {a b : κ} (hab : Precedes h a b) :
    ∃ op, .call b op ∈ h := by
  obtain ⟨res, op, hsub⟩ := hab
  exact ⟨op, hsub.subset (by simp)⟩

/-- A new event makes a call come before another only if it starts the other. -/
theorem precedes_concat {h : History κ Op Res} {x : ClientEvent κ Op Res} {a b : κ}
    (hab : Precedes (h ++ [x]) a b) :
    Precedes h a b ∨ ∃ res op, .ret a res ∈ h ∧ x = .call b op := by
  obtain ⟨res, op, hsub⟩ := hab
  obtain ⟨l₁, l₂, heq, h₁, h₂⟩ := List.sublist_append_iff.mp hsub
  rcases List.sublist_singleton.mp h₂ with rfl | rfl
  · rw [List.append_nil] at heq
    exact Or.inl ⟨res, op, heq ▸ h₁⟩
  · have hlast : [.ret a res] ++ [.call b op] = l₁ ++ [x] := heq
    obtain ⟨rfl, hx⟩ := List.append_inj' hlast rfl
    refine Or.inr ⟨res, op, h₁.subset List.mem_cons_self, ?_⟩
    exact (List.cons.inj hx).1.symm

open SeqObject

/-- `order` explains the history by a sequence of calls. -/
structure Linearization (O : SeqObject σ Op Res) (h : History κ Op Res)
    (order : List (κ × Op × Res)) : Prop where
  once : (order.map (·.1)).Nodup
  called : ∀ x ∈ order, .call x.1 x.2.1 ∈ h
  /-- Nothing that returned is left out, and with the result that it returned. -/
  returned : ∀ k res, .ret k res ∈ h → ∃ op, (k, op, res) ∈ order
  legal : Legal O O.init order
  realTime : order.Pairwise fun x y => ¬ Precedes h y.1 x.1

def Linearizable (O : SeqObject σ Op Res) (h : History κ Op Res) : Prop :=
  ∃ order, Linearization O h order

/-! ## Objects kept as a log -/

/-- Calls with positions in a log: `state p` is the object before position `p`, at which
at most one update stands, and the queries of a position see the state behind it. -/
structure LogPlacement (O : SeqObject σ Op Res) (h : History κ Op Res) where
  ids : List κ
  op : κ → Op
  res : κ → Res
  query : κ → Bool
  pos : κ → ℕ
  length : ℕ
  state : ℕ → σ
  nodup : ids.Nodup
  inside : ∀ k ∈ ids, pos k < length
  called : ∀ k ∈ ids, .call k (op k) ∈ h
  returned : ∀ k r, .ret k r ∈ h → k ∈ ids ∧ res k = r
  init : state 0 = O.init
  single : ∀ a ∈ ids, ∀ b ∈ ids, query a = false → query b = false → pos a = pos b → a = b
  update : ∀ k ∈ ids, query k = false →
    O.step (state (pos k)) (op k) = (state (pos k + 1), res k)
  skip : ∀ p < length, (∀ k ∈ ids, query k = false → pos k ≠ p) → state (p + 1) = state p
  read : ∀ k ∈ ids, query k = true →
    O.step (state (pos k + 1)) (op k) = (state (pos k + 1), res k)
  realTime : ∀ a ∈ ids, ∀ b ∈ ids, Precedes h a b → pos a < pos b

namespace LogPlacement

variable {O : SeqObject σ Op Res} {h : History κ Op Res} (L : LogPlacement O h)

/-- A call with its operation and result. -/
def entry (k : κ) : κ × Op × Res := (k, L.op k, L.res k)

/-- The calls at position `p`: updates if `q` is false, queries if it is true. -/
def callsAt (p : ℕ) (q : Bool) : List κ := L.ids.filter fun k => L.query k == q && L.pos k == p

/-- The update at position `p`, and after it the queries that read there. -/
def block (p : ℕ) : List (κ × Op × Res) := (L.callsAt p false ++ L.callsAt p true).map L.entry

/-- All calls, position by position. -/
def order : List (κ × Op × Res) := (List.range L.length).flatMap L.block

theorem mem_callsAt {k : κ} {p : ℕ} {q : Bool} :
    k ∈ L.callsAt p q ↔ k ∈ L.ids ∧ L.query k = q ∧ L.pos k = p := by
  simp [callsAt]

theorem mem_block {y : κ × Op × Res} {p : ℕ} :
    y ∈ L.block p ↔ ∃ k ∈ L.ids, L.pos k = p ∧ L.entry k = y := by
  simp only [block, List.mem_map, List.mem_append, mem_callsAt]
  constructor
  · rintro ⟨k, ⟨hk, -, hp⟩ | ⟨hk, -, hp⟩, rfl⟩ <;> exact ⟨k, hk, hp, rfl⟩
  · rintro ⟨k, hk, hp, rfl⟩
    refine ⟨k, ?_, rfl⟩
    cases hq : L.query k with
    | false => exact Or.inl ⟨hk, rfl, hp⟩
    | true => exact Or.inr ⟨hk, rfl, hp⟩

theorem mem_order {y : κ × Op × Res} : y ∈ L.order ↔ ∃ k ∈ L.ids, L.entry k = y := by
  simp only [order, List.mem_flatMap, List.mem_range, mem_block]
  constructor
  · rintro ⟨p, -, k, hk, -, rfl⟩
    exact ⟨k, hk, rfl⟩
  · rintro ⟨k, hk, rfl⟩
    exact ⟨L.pos k, L.inside k hk, k, hk, rfl, rfl⟩

/-- At most one update stands at a position. -/
theorem updates_at {p : ℕ} {k : κ} (hk : k ∈ L.callsAt p false) : L.callsAt p false = [k] := by
  obtain ⟨hmem, hq, hp⟩ := L.mem_callsAt.mp hk
  have hnodup : (L.callsAt p false).Nodup := L.nodup.filter _
  have hall : ∀ j ∈ L.callsAt p false, j = k := by
    intro j hj
    obtain ⟨hj, hjq, hjp⟩ := L.mem_callsAt.mp hj
    exact L.single j hj k hmem hjq hq (hjp.trans hp.symm)
  cases hat : L.callsAt p false with
  | nil => rw [hat] at hk; cases hk
  | cons a as =>
    rw [hat] at hnodup hall
    have ha : a = k := hall a List.mem_cons_self
    cases as with
    | nil => rw [ha]
    | cons b bs =>
      have hb : b = k := hall b (by simp)
      exact absurd (List.mem_cons_self) (ha.trans hb.symm ▸ (List.nodup_cons.mp hnodup).1)

/-- A block takes the object from one position to the next. -/
theorem legal_block {p : ℕ} (hp : p < L.length) : Legal O (L.state p) (L.block p) ∧
    after O (L.state p) (L.block p) = L.state (p + 1) := by
  have hqueries : ∀ x ∈ (L.callsAt p true).map L.entry,
      O.step (L.state (p + 1)) x.2.1 = (L.state (p + 1), x.2.2) := by
    intro x hx
    obtain ⟨k, hk, rfl⟩ := List.mem_map.mp hx
    obtain ⟨hmem, hq, rfl⟩ := L.mem_callsAt.mp hk
    exact L.read k hmem hq
  obtain ⟨hlegal, hafter⟩ := legal_queries hqueries
  rw [block, List.map_append]
  by_cases hnone : L.callsAt p false = []
  · -- nothing is written here
    have hskip : L.state (p + 1) = L.state p := by
      refine L.skip p hp fun k hk hq hpos => ?_
      have := L.mem_callsAt.mpr ⟨hk, hq, hpos⟩
      rw [hnone] at this
      cases this
    rw [hnone, List.map_nil, List.nil_append, ← hskip]
    exact ⟨hlegal, hafter⟩
  · obtain ⟨k, hk⟩ := List.exists_mem_of_ne_nil _ hnone
    obtain ⟨hmem, hq, rfl⟩ := L.mem_callsAt.mp hk
    have hstep := L.update k hmem hq
    rw [L.updates_at hk]
    have hstart : after O (L.state (L.pos k)) ([k].map L.entry) = L.state (L.pos k + 1) :=
      congrArg Prod.fst hstep
    refine ⟨legal_append ⟨congrArg Prod.snd hstep, trivial⟩ ?_, ?_⟩
    · rw [hstart]; exact hlegal
    · rw [after_append, hstart]; exact hafter

theorem order_pairwise {R : κ × Op × Res → κ × Op × Res → Prop}
    (hblock : ∀ p < L.length, (L.block p).Pairwise R)
    (hcross : ∀ a ∈ L.ids, ∀ b ∈ L.ids, L.pos a < L.pos b → R (L.entry a) (L.entry b)) :
    L.order.Pairwise R := by
  refine List.pairwise_flatMap.mpr ⟨fun p hp => hblock p (List.mem_range.mp hp), ?_⟩
  refine List.pairwise_lt_range.imp ?_
  intro p q hpq x hx y hy
  obtain ⟨a, ha, rfl, rfl⟩ := L.mem_block.mp hx
  obtain ⟨b, hb, rfl, rfl⟩ := L.mem_block.mp hy
  exact hcross a ha b hb hpq

theorem block_nodup (p : ℕ) : (L.callsAt p false ++ L.callsAt p true).Nodup := by
  refine List.Nodup.append (L.nodup.filter _) (L.nodup.filter _) ?_
  intro k hk hk'
  have hf := (L.mem_callsAt.mp hk).2.1
  rw [(L.mem_callsAt.mp hk').2.1] at hf
  cases hf

/-- An object that is kept as a log is linearizable: the order of the positions will do. -/
theorem linearization : Linearization O h L.order where
  once := by
    refine List.pairwise_map.mpr (L.order_pairwise (fun p _ => ?_) ?_)
    · exact List.pairwise_map.mpr (L.block_nodup p)
    · intro a _ b _ hlt heq
      have hab : a = b := heq
      rw [hab] at hlt
      exact absurd hlt (Nat.lt_irrefl _)
  called := by
    intro x hx
    obtain ⟨k, hk, rfl⟩ := L.mem_order.mp hx
    exact L.called k hk
  returned := by
    intro k r hr
    obtain ⟨hk, rfl⟩ := L.returned k r hr
    exact ⟨L.op k, L.mem_order.mpr ⟨k, hk, rfl⟩⟩
  legal := by
    have hblock : ∀ p < L.length, Legal O (L.state p) (L.block p) ∧
        after O (L.state p) (L.block p) = L.state (p + 1) := fun p hp => L.legal_block hp
    have hblocks := (legal_blocks hblock).1
    rwa [L.init] at hblocks
  realTime := by
    refine L.order_pairwise (fun p _ => ?_) ?_
    · refine List.pairwise_of_forall_mem_list ?_
      intro x hx y hy hprec
      obtain ⟨a, ha, hpa, rfl⟩ := L.mem_block.mp hx
      obtain ⟨b, hb, hpb, rfl⟩ := L.mem_block.mp hy
      have hlt := L.realTime b hb a ha hprec
      omega
    · intro a ha b hb hlt hprec
      have := L.realTime b hb a ha hprec
      omega

end LogPlacement

end Linearizability
