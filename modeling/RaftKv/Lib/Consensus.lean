-- SUMMARY: An abstract protocol for a log replicated by elected leaders, one per term, and the safety of its elections.
import RaftKv.Lib.TransitionSystem
import RaftKv.Lib.Majority
import RaftKv.Lib.TermLog

/-!
# Consensus by terms

The abstract protocol. Peers campaign for a term, grant ballots, win a term with a
majority of ballots, and the winner of a term extends its log. Any peer may publish a
snapshot of itself; a peer of the same term may accept a snapshot by grafting its log.
Ballots, tenures, snapshots and acknowledgements are remembered for ever: messages are
reordered, repeated and lost by choosing which of them a later move uses.

The moves are weak on purpose. A peer that lost its term may still publish, a commit
index may be set to anything, and a peer may come back with a torn log. What survives
all of this is proved for every run; what needs more is proved in
`RaftKv/Lib/Commitment.lean` for the runs of legal moves.
-/

namespace Consensus

open TermLog

inductive Role where
  | follower
  | candidate
  | leader
  deriving DecidableEq

structure Peer (ι α : Type*) where
  term : ℕ
  vote : Option ι
  role : Role
  log : List α
  commit : ℕ

/-- `voter` gave its vote in `term` to `candidate`, holding `log`. -/
structure Ballot (ι α : Type*) where
  voter : ι
  term : ℕ
  candidate : ι
  log : List α

/-- `leader` won `term`, holding `log`. -/
structure Tenure (ι α : Type*) where
  leader : ι
  term : ℕ
  log : List α

structure Message (ι α : Type*) where
  sender : ι
  state : Peer ι α

/-- `node` took over `log` in `term`. -/
structure Ack (ι α : Type*) where
  node : ι
  term : ℕ
  log : List α

structure State (ι α : Type*) where
  peer : ι → Peer ι α
  ballots : Set (Ballot ι α)
  tenures : Set (Tenure ι α)
  book : ℕ → List α
  sent : Set (Message ι α)
  acks : Set (Ack ι α)

inductive Move (ι α : Type*) where
  | campaign (i : ι)
  | raise (i : ι) (t : ℕ) (v : Option ι)
  /-- The vote is written down but the ballot is never handed over. -/
  | mark (i c : ι)
  | grant (i c : ι) (L : List α)
  | demote (i : ι)
  | win (i : ι) (e : α)
  | extend (i : ι) (e : α)
  | publish (i : ι)
  | accept (i : ι) (m : Message ι α)
  | tear (i : ι) (L : List α)
  | commit (i : ι) (n : ℕ)

variable {ι α : Type*}

/-- The vote of the current term is still open, or is `c`'s already. -/
def Peer.FreeFor (p : Peer ι α) (c : ι) : Prop := p.vote = none ∨ p.vote = some c

namespace State

/-- The voters of `c` in term `t`. -/
def votersFor (s : State ι α) (t : ℕ) (c : ι) : Set ι :=
  { v | ∃ L, (⟨v, t, c, L⟩ : Ballot ι α) ∈ s.ballots }

def init : State ι α where
  peer := fun _ => ⟨0, none, .follower, [], 0⟩
  ballots := ∅
  tenures := ∅
  book := fun _ => []
  sent := ∅
  acks := ∅

section Moves

variable [Fintype ι] (τ : α → ℕ)

def Enabled (s : State ι α) : Move ι α → Prop
  | .campaign _ => True
  | .raise i t _ => (s.peer i).term < t
  | .mark i c => (s.peer i).FreeFor c
  | .grant i c L =>
      (s.peer i).FreeFor c ∧ c ≠ i ∧ (⟨c, (s.peer i).term, c, L⟩ : Ballot ι α) ∈ s.ballots ∧
        UpToDate τ L (s.peer i).log
  | .demote _ => True
  | .win i e =>
      (s.peer i).role = .candidate ∧ Majority (s.votersFor (s.peer i).term i) ∧
        τ e = (s.peer i).term
  | .extend i e => (s.peer i).role = .leader ∧ τ e = (s.peer i).term
  | .publish _ => True
  | .accept i m => m ∈ s.sent ∧ m.state.term = (s.peer i).term
  | .tear i L =>
      L <+: (s.peer i).log ∨
        ∃ m ∈ s.sent, m.state.term ≤ (s.peer i).term ∧ L <+: m.state.log
  | .commit _ _ => True

omit [Fintype ι]

variable [DecidableEq ι]

def setPeer (s : State ι α) (i : ι) (p : Peer ι α) : State ι α :=
  { s with peer := Function.update s.peer i p }

/-- What a move makes of the state. -/
noncomputable def next (s : State ι α) : Move ι α → State ι α
  | .campaign i =>
    let p := s.peer i
    { s.setPeer i { p with term := p.term + 1, vote := some i, role := .candidate } with
      ballots := insert ⟨i, p.term + 1, i, p.log⟩ s.ballots }
  | .raise i t v => s.setPeer i { s.peer i with term := t, vote := v, role := .follower }
  | .mark i c => s.setPeer i { s.peer i with vote := some c }
  | .grant i c _ =>
    let p := s.peer i
    { s.setPeer i { p with vote := some c } with
      ballots := insert ⟨i, p.term, c, p.log⟩ s.ballots }
  | .demote i => s.setPeer i { s.peer i with role := .follower }
  | .win i e =>
    let p := s.peer i
    { s.setPeer i { p with role := .leader, log := p.log ++ [e] } with
      tenures := insert ⟨i, p.term, p.log⟩ s.tenures
      book := Function.update s.book p.term (p.log ++ [e])
      acks := insert ⟨i, p.term, p.log ++ [e]⟩ s.acks }
  | .extend i e =>
    let p := s.peer i
    { s.setPeer i { p with log := p.log ++ [e] } with
      book := Function.update s.book p.term (p.log ++ [e])
      acks := insert ⟨i, p.term, p.log ++ [e]⟩ s.acks }
  | .publish i => { s with sent := insert ⟨i, s.peer i⟩ s.sent }
  | .accept i m =>
    let p := s.peer i
    { s.setPeer i { p with role := .follower, log := graft p.log m.state.log } with
      acks := insert ⟨i, p.term, m.state.log⟩ s.acks }
  | .tear i L => s.setPeer i { s.peer i with role := .follower, log := L }
  | .commit i n => s.setPeer i { s.peer i with commit := n }

@[simp] theorem setPeer_peer (s : State ι α) (i j : ι) (p : Peer ι α) :
    (s.setPeer i p).peer j = if j = i then p else s.peer j :=
  Function.update_apply _ _ _ _

@[simp] theorem setPeer_ballots (s : State ι α) (i : ι) (p : Peer ι α) :
    (s.setPeer i p).ballots = s.ballots := rfl

@[simp] theorem setPeer_tenures (s : State ι α) (i : ι) (p : Peer ι α) :
    (s.setPeer i p).tenures = s.tenures := rfl

@[simp] theorem setPeer_book (s : State ι α) (i : ι) (p : Peer ι α) :
    (s.setPeer i p).book = s.book := rfl

@[simp] theorem setPeer_sent (s : State ι α) (i : ι) (p : Peer ι α) :
    (s.setPeer i p).sent = s.sent := rfl

@[simp] theorem setPeer_acks (s : State ι α) (i : ι) (p : Peer ι α) :
    (s.setPeer i p).acks = s.acks := rfl

end Moves

theorem votersFor_mono {s s' : State ι α} (h : ∀ b ∈ s.ballots, b ∈ s'.ballots) {t : ℕ} {c v : ι}
    (hv : v ∈ s.votersFor t c) : v ∈ s'.votersFor t c := by
  obtain ⟨L, hL⟩ := hv
  exact ⟨L, h _ hL⟩

end State

variable [Fintype ι] (τ : α → ℕ)

def system [DecidableEq ι] : TransitionSystem (State ι α) (Move ι α) where
  init := .init
  step := fun s m s' => s.Enabled τ m ∧ s' = s.next m

/-- Reachable by any enabled moves. -/
abbrev Reachable [DecidableEq ι] (s : State ι α) : Prop :=
  (system τ).Reach (fun _ _ => True) s

/-! ## Elections -/

/-- What every run keeps about terms, votes and roles. -/
structure Elections (s : State ι α) : Prop where
  /-- A ballot binds its voter for the term. -/
  bound : ∀ b ∈ s.ballots, b.term ≤ (s.peer b.voter).term ∧
    (b.term = (s.peer b.voter).term → (s.peer b.voter).vote = some b.candidate)
  /-- A voter has one candidate per term. -/
  unique : ∀ b ∈ s.ballots, ∀ b' ∈ s.ballots, b.voter = b'.voter → b.term = b'.term →
    b.candidate = b'.candidate
  /-- A candidate campaigns once per term, with one log. -/
  own : ∀ b ∈ s.ballots, ∀ b' ∈ s.ballots, b.voter = b.candidate → b'.voter = b.voter →
    b'.term = b.term → b'.log = b.log
  /-- Behind every ballot stands a candidate that is at least as up to date. -/
  backed : ∀ b ∈ s.ballots, ∃ L, (⟨b.candidate, b.term, b.candidate, L⟩ : Ballot ι α) ∈ s.ballots ∧
    UpToDate τ L b.log
  /-- While a peer is a candidate its term and log are the ones it campaigned with. -/
  candidate : ∀ i, (s.peer i).role = .candidate →
    (⟨i, (s.peer i).term, i, (s.peer i).log⟩ : Ballot ι α) ∈ s.ballots
  /-- A tenure was won by a majority, and its winner is no longer a candidate. -/
  tenure : ∀ e ∈ s.tenures, e.term ≤ (s.peer e.leader).term ∧
    (e.term = (s.peer e.leader).term → (s.peer e.leader).role ≠ .candidate) ∧
    Majority (s.votersFor e.term e.leader) ∧
    (⟨e.leader, e.term, e.leader, e.log⟩ : Ballot ι α) ∈ s.ballots
  /-- Leaders hold the tenure of their term. -/
  leader : ∀ i, (s.peer i).role = .leader →
    ∃ e ∈ s.tenures, e.leader = i ∧ e.term = (s.peer i).term
  /-- Campaigns start in term 1. -/
  positive : ∀ b ∈ s.ballots, 0 < b.term

namespace Elections

variable {τ} {s : State ι α}

/-- Election safety: a term has one tenure. -/
theorem tenure_unique (h : Elections τ s) {e e' : Tenure ι α} (he : e ∈ s.tenures)
    (he' : e' ∈ s.tenures) (hterm : e.term = e'.term) : e = e' := by
  obtain ⟨-, -, hmaj, hown⟩ := h.tenure e he
  obtain ⟨-, -, hmaj', hown'⟩ := h.tenure e' he'
  obtain ⟨v, ⟨L, hv⟩, ⟨L', hv'⟩⟩ := hmaj.inter hmaj'
  have hleader : e.leader = e'.leader := h.unique _ hv _ hv' rfl hterm
  have hlog : e'.log = e.log := h.own _ hown _ hown' rfl hleader.symm hterm.symm
  cases e; cases e'
  simp_all

/-- A term in which a peer still is a candidate has not been won. -/
theorem candidate_unwon (h : Elections τ s) {i : ι} (hcand : (s.peer i).role = .candidate)
    (hmaj : Majority (s.votersFor (s.peer i).term i)) {e : Tenure ι α} (he : e ∈ s.tenures) :
    e.term ≠ (s.peer i).term := by
  intro hterm
  obtain ⟨-, hrole, hmaj', -⟩ := h.tenure e he
  obtain ⟨v, ⟨L, hv⟩, ⟨L', hv'⟩⟩ := hmaj.inter hmaj'
  have hleader : i = e.leader := h.unique _ hv _ hv' rfl hterm.symm
  subst hleader
  exact hrole hterm hcand

/-- A move that leaves ballots, tenures, terms and votes alone, makes nobody a
candidate or leader, and changes no candidate's log. -/
theorem frame {s' : State ι α} (h : Elections τ s) (hb : s'.ballots = s.ballots)
    (ht : s'.tenures = s.tenures) (hterm : ∀ i, (s'.peer i).term = (s.peer i).term)
    (hvote : ∀ i, (s'.peer i).vote = (s.peer i).vote)
    (hrole : ∀ i, (s'.peer i).role = (s.peer i).role ∨ (s'.peer i).role = .follower)
    (hlog : ∀ i, (s'.peer i).role = .candidate → (s'.peer i).log = (s.peer i).log) :
    Elections τ s' where
  bound := by
    intro b hmem
    rw [hb] at hmem
    rw [hterm, hvote]
    exact h.bound b hmem
  unique := by rw [hb]; exact h.unique
  own := by rw [hb]; exact h.own
  backed := by rw [hb]; exact h.backed
  candidate := by
    intro i hi
    rcases hrole i with heq | heq
    · rw [hb, hterm, hlog i hi]
      exact h.candidate i (heq ▸ hi)
    · rw [heq] at hi; cases hi
  tenure := by
    intro e he
    rw [ht] at he
    obtain ⟨hle, hcand, hmaj, hown⟩ := h.tenure e he
    refine ⟨by rw [hterm]; exact hle, ?_, ?_, by rw [hb]; exact hown⟩
    · intro heq
      rcases hrole e.leader with hr | hr
      · rw [hr]; exact hcand (by rw [← hterm]; exact heq)
      · rw [hr]; simp
    · unfold State.votersFor; rw [hb]; exact hmaj
  leader := by
    intro i hi
    rcases hrole i with heq | heq
    · rw [ht, hterm]
      exact h.leader i (heq ▸ hi)
    · rw [heq] at hi; cases hi
  positive := by rw [hb]; exact h.positive

theorem init : Elections τ (State.init : State ι α) where
  bound := by intro b hb; exact hb.elim
  unique := by intro b hb; exact hb.elim
  own := by intro b hb; exact hb.elim
  backed := by intro b hb; exact hb.elim
  candidate := by intro i hi; cases hi
  tenure := by intro e he; exact he.elim
  leader := by intro i hi; cases hi
  positive := by intro b hb; exact hb.elim

section Step

variable [DecidableEq ι]

theorem campaign (h : Elections τ s) (i : ι) : Elections τ (s.next (.campaign i)) := by
  have hfresh : ∀ b ∈ s.ballots, b.voter = i → b.term ≤ (s.peer i).term := by
    rintro b hb rfl
    exact (h.bound b hb).1
  have hbound := h.bound
  constructor <;>
    simp only [State.next, State.setPeer_peer, State.setPeer_tenures, Set.mem_insert_iff]
  case bound => grind
  case unique => grind [h.unique]
  case own => grind [h.own]
  case backed =>
    rintro b (rfl | hb)
    · exact ⟨_, Or.inl rfl, UpToDate.refl _⟩
    · obtain ⟨L, hL, hup⟩ := h.backed b hb
      exact ⟨L, Or.inr hL, hup⟩
  case candidate => grind [h.candidate]
  case tenure =>
    intro e he
    obtain ⟨hle, hrole, hmaj, hown⟩ := h.tenure e he
    refine ⟨by grind, by grind, hmaj.mono fun v hv => ?_, Or.inr hown⟩
    exact State.votersFor_mono (fun b hb => Set.mem_insert_of_mem _ hb) hv
  case leader => grind [h.leader]
  case positive =>
    rintro b (rfl | hb)
    · exact Nat.succ_pos _
    · exact h.positive b hb

theorem raise (h : Elections τ s) (i : ι) {t : ℕ} (v : Option ι) (ht : (s.peer i).term < t) :
    Elections τ (s.next (.raise i t v)) := by
  have hbound := h.bound
  constructor <;> simp only [State.next, State.setPeer_peer, State.setPeer_tenures,
    State.setPeer_ballots]
  case bound => grind
  case unique => exact h.unique
  case own => exact h.own
  case backed => exact h.backed
  case candidate => grind [h.candidate]
  case tenure =>
    intro e he
    obtain ⟨hle, hrole, hmaj, hown⟩ := h.tenure e he
    exact ⟨by grind, by grind, hmaj, hown⟩
  case leader => grind [h.leader]
  case positive => exact h.positive

theorem mark (h : Elections τ s) {i c : ι} (hfree : (s.peer i).FreeFor c) :
    Elections τ (s.next (.mark i c)) := by
  unfold Peer.FreeFor at hfree
  have hbound := h.bound
  constructor <;> simp only [State.next, State.setPeer_peer, State.setPeer_tenures,
    State.setPeer_ballots]
  case bound => grind
  case unique => exact h.unique
  case own => exact h.own
  case backed => exact h.backed
  case candidate => grind [h.candidate]
  case tenure =>
    intro e he
    obtain ⟨hle, hrole, hmaj, hown⟩ := h.tenure e he
    exact ⟨by grind, by grind, hmaj, hown⟩
  case leader => grind [h.leader]
  case positive => exact h.positive

theorem grant (h : Elections τ s) {i c : ι} {L : List α}
    (hen : s.Enabled τ (.grant i c L)) : Elections τ (s.next (.grant i c L)) := by
  obtain ⟨hfree, hne, hown, hup⟩ := hen
  unfold Peer.FreeFor at hfree
  have hbound := h.bound
  constructor <;>
    simp only [State.next, State.setPeer_peer, State.setPeer_tenures, Set.mem_insert_iff]
  case bound => grind
  case unique => grind [h.unique]
  case own => grind [h.own]
  case backed =>
    rintro b (rfl | hb)
    · exact ⟨L, Or.inr hown, hup⟩
    · obtain ⟨L, hL, hup⟩ := h.backed b hb
      exact ⟨L, Or.inr hL, hup⟩
  case candidate => grind [h.candidate]
  case tenure =>
    intro e he
    obtain ⟨hle, hrole, hmaj, hown⟩ := h.tenure e he
    refine ⟨by grind, by grind, hmaj.mono fun v hv => ?_, Or.inr hown⟩
    exact State.votersFor_mono (fun b hb => Set.mem_insert_of_mem _ hb) hv
  case leader => grind [h.leader]
  case positive =>
    rintro b (rfl | hb)
    · exact h.positive ⟨c, (s.peer i).term, c, L⟩ hown
    · exact h.positive b hb

theorem win (h : Elections τ s) {i : ι} {e : α} (hen : s.Enabled τ (.win i e)) :
    Elections τ (s.next (.win i e)) := by
  obtain ⟨hcand, hmaj, hterm⟩ := hen
  have hbound := h.bound
  constructor <;> simp only [State.next, State.setPeer_peer, State.setPeer_ballots,
    Set.mem_insert_iff]
  case bound => grind
  case unique => exact h.unique
  case own => exact h.own
  case backed => exact h.backed
  case candidate => grind [h.candidate]
  case tenure =>
    rintro e (rfl | he)
    · exact ⟨by simp, by simp, hmaj, h.candidate i hcand⟩
    · obtain ⟨hle, hrole, hmaj, hown⟩ := h.tenure e he
      exact ⟨by grind, by grind, hmaj, hown⟩
  case leader =>
    intro j hj
    by_cases hji : j = i
    · subst hji
      exact ⟨_, Or.inl rfl, rfl, by simp⟩
    · simp only [hji, if_false] at hj ⊢
      obtain ⟨e, he, heq⟩ := h.leader j hj
      exact ⟨e, Or.inr he, heq⟩
  case positive => exact h.positive

/-- Every enabled move keeps elections safe. -/
theorem step (h : Elections τ s) {m : Move ι α} (hen : s.Enabled τ m) :
    Elections τ (s.next m) := by
  cases m with
  | campaign i => exact h.campaign i
  | raise i t v => exact h.raise i v hen
  | mark i c => exact h.mark hen
  | grant i c L => exact h.grant hen
  | win i e => exact h.win hen
  | demote i =>
    refine h.frame rfl rfl ?_ ?_ ?_ ?_ <;> intro j <;>
      simp only [State.next, State.setPeer_peer] <;> grind
  | extend i e =>
    have hrole : (s.peer i).role = .leader := hen.1
    refine h.frame rfl rfl ?_ ?_ ?_ ?_ <;> intro j <;>
      simp only [State.next, State.setPeer_peer] <;> grind
  | publish i => exact h.frame rfl rfl (fun _ => rfl) (fun _ => rfl) (fun _ => .inl rfl) fun _ _ => rfl
  | accept i m =>
    refine h.frame rfl rfl ?_ ?_ ?_ ?_ <;> intro j <;>
      simp only [State.next, State.setPeer_peer] <;> grind
  | tear i L =>
    refine h.frame rfl rfl ?_ ?_ ?_ ?_ <;> intro j <;>
      simp only [State.next, State.setPeer_peer] <;> grind
  | commit i n =>
    refine h.frame rfl rfl ?_ ?_ ?_ ?_ <;> intro j <;>
      simp only [State.next, State.setPeer_peer] <;> grind

end Step

end Elections

theorem Reachable.elections [DecidableEq ι] {τ : α → ℕ} {s : State ι α} (h : Reachable τ s) :
    Elections τ s := by
  refine h.invariant Elections.init ?_
  rintro s m _ - hs - ⟨hen, rfl⟩
  exact hs.step hen

end Consensus
