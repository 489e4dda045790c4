-- SUMMARY: Runs of legal moves: what a majority acknowledged is in the log of every later leader, and committed logs are prefixes of one another.
import RaftKv.Lib.Replication

/-!
# Commitment

A move is legal when only leaders publish, nothing is torn, and a commit index moves
for one of three reasons: a leader counted a majority of acknowledgements of its own
term, a follower took the commit index of a snapshot it holds, or a peer restarted
over a log that some peer of no later term had committed whole.

In a run of legal moves a chosen log, one whose last entry a majority acknowledged in
the term of that entry, is a prefix of the log of every leader of a later term.
-/

namespace Consensus

open TermLog

variable {ι α : Type*} [Fintype ι] (τ : α → ℕ)

namespace State

/-- The peers that took over a log with `P` in front in term `t`. -/
def holders (s : State ι α) (t : ℕ) (P : List α) : Set ι :=
  { v | ∃ a ∈ s.acks, a.node = v ∧ a.term = t ∧ P <+: a.log }

/-- A majority acknowledged `P` in the term of its last entry. -/
def Chosen (s : State ι α) (t : ℕ) (P : List α) : Prop :=
  Majority (s.holders t P) ∧ ∃ Q x, P = Q ++ [x] ∧ τ x = t

/-- `P` is part of a log chosen no later than in term `t`. -/
def Committed (s : State ι α) (t : ℕ) (P : List α) : Prop :=
  P = [] ∨ ∃ t' ≤ t, ∃ Q, s.Chosen τ t' Q ∧ P <+: Q

omit [Fintype ι] in
/-- A leader of a term strictly between `lo` and `hi` was elected without `P`. -/
def Bypassed (s : State ι α) (lo hi : ℕ) (P : List α) : Prop :=
  ∃ e ∈ s.tenures, lo < e.term ∧ e.term < hi ∧ ¬ P <+: e.log

def Legal (s : State ι α) : Move ι α → Prop
  | .publish i => (s.peer i).role = .leader
  | .tear _ _ => False
  | .commit i n =>
      ((s.peer i).role = .leader ∧ n ≤ (s.peer i).log.length ∧
          s.Chosen τ (s.peer i).term ((s.peer i).log.take n)) ∨
        (∃ m ∈ s.sent, m.state.term = (s.peer i).term ∧ m.state.log <+: (s.peer i).log ∧
          n = m.state.commit) ∨
        (∃ j, (s.peer j).term ≤ (s.peer i).term ∧
          (s.peer i).log <+: (s.peer j).log.take (s.peer j).commit ∧
          n = (s.peer i).log.length)
  | _ => True

end State

/-- What runs of legal moves keep beyond `Elections` and `Logs`. -/
structure Safe (s : State ι α) : Prop where
  /-- Snapshots come from the leader of their term, with a committed prefix. -/
  sent : ∀ m ∈ s.sent, (∃ e ∈ s.tenures, e.leader = m.sender ∧ e.term = m.state.term) ∧
    m.state.role = .leader ∧ m.state.log <+: s.book m.state.term ∧
    m.state.commit ≤ m.state.log.length ∧
    s.Committed τ m.state.term (m.state.log.take m.state.commit)
  /-- What a peer acknowledged it still holds, unless a later leader came without it. -/
  ack : ∀ a ∈ s.acks, a.term ≤ (s.peer a.node).term ∧ a.log <+: s.book a.term ∧
    (∃ e ∈ s.tenures, e.term = a.term) ∧
    ∀ P, P <+: a.log → P <+: (s.peer a.node).log ∨
      s.Bypassed a.term ((s.peer a.node).term + 1) P
  /-- The same at the moment of a ballot, while the term is not won. -/
  ballot : ∀ b ∈ s.ballots, (∀ e ∈ s.tenures, e.term ≠ b.term) → ∀ a ∈ s.acks,
    a.node = b.voter → a.term < b.term → ∀ P, P <+: a.log → P <+: b.log ∨
      s.Bypassed a.term b.term P
  /-- Every tenure rests on a majority whose logs at the ballot were no more up to
  date than the winner's. -/
  tenure : ∀ e ∈ s.tenures, Majority { v | e.term ≤ (s.peer v).term ∧ ∃ L,
    Anchored τ s.book L ∧ UpToDate τ e.log L ∧ ∀ a ∈ s.acks, a.node = v → a.term < e.term →
      ∀ P, P <+: a.log → P <+: L ∨ s.Bypassed a.term e.term P }
  commit : ∀ i, (s.peer i).commit ≤ (s.peer i).log.length ∧
    s.Committed τ (s.peer i).term ((s.peer i).log.take (s.peer i).commit)
  /-- A leader has acknowledged its own log. -/
  leader : ∀ i, (s.peer i).role = .leader →
    (⟨i, (s.peer i).term, (s.peer i).log⟩ : Ack ι α) ∈ s.acks

namespace State

variable {τ} {s s' : State ι α}

theorem Chosen.mono (hacks : ∀ a ∈ s.acks, a ∈ s'.acks) {t : ℕ} {P : List α}
    (h : s.Chosen τ t P) : s'.Chosen τ t P :=
  ⟨h.1.mono fun _ ⟨a, ha, hrest⟩ => ⟨a, hacks a ha, hrest⟩, h.2⟩

theorem Committed.mono (hacks : ∀ a ∈ s.acks, a ∈ s'.acks) {t t' : ℕ} (ht : t ≤ t')
    {P : List α} (h : s.Committed τ t P) : s'.Committed τ t' P := by
  rcases h with rfl | ⟨u, hu, Q, hQ, hP⟩
  · exact Or.inl rfl
  · exact Or.inr ⟨u, hu.trans ht, Q, hQ.mono hacks, hP⟩

theorem Committed.of_isPrefix {t : ℕ} {P Q : List α} (h : s.Committed τ t Q) (hP : P <+: Q) :
    s.Committed τ t P := by
  rcases h with rfl | ⟨u, hu, R, hR, hQ⟩
  · exact Or.inl (List.prefix_nil.mp hP)
  · exact Or.inr ⟨u, hu, R, hR, hP.trans hQ⟩

omit [Fintype ι] in
theorem Bypassed.mono (htenures : ∀ e ∈ s.tenures, e ∈ s'.tenures) {lo hi hi' : ℕ}
    (hhi : hi ≤ hi') {P : List α} (h : s.Bypassed lo hi P) : s'.Bypassed lo hi' P := by
  obtain ⟨e, he, hlo, hlt, hnot⟩ := h
  exact ⟨e, htenures e he, hlo, hlt.trans_le hhi, hnot⟩

omit [Fintype ι] in
/-- `L` has what `v` acknowledged before term `t`, as far as the leaders in between had it. -/
def HoldsAcked (s : State ι α) (v : ι) (t : ℕ) (L : List α) : Prop :=
  ∀ a ∈ s.acks, a.node = v → a.term < t → ∀ P, P <+: a.log → P <+: L ∨ s.Bypassed a.term t P

omit [Fintype ι] in
/-- A peer that has reached term `t` acknowledges nothing before it any more. -/
theorem HoldsAcked.mono (htenures : ∀ e ∈ s.tenures, e ∈ s'.tenures)
    (hacks : ∀ a ∈ s'.acks, a ∈ s.acks ∨ (s.peer a.node).term ≤ a.term) {v : ι} {t : ℕ}
    {L : List α} (hreached : t ≤ (s.peer v).term) (h : s.HoldsAcked v t L) :
    s'.HoldsAcked v t L := by
  intro a ha hav hat P hP
  rcases hacks a ha with hold | hnew
  · exact (h a hold hav hat P hP).imp_right (·.mono htenures (le_refl _))
  · rw [hav] at hnew
    omega

variable (τ) in
/-- The peers that a win with `log` in term `t` rests on. -/
def supporters (s : State ι α) (t : ℕ) (log : List α) : Set ι :=
  { v | t ≤ (s.peer v).term ∧
    ∃ L, Anchored τ s.book L ∧ UpToDate τ log L ∧ s.HoldsAcked v t L }

omit [Fintype ι] in
theorem supporters_mono (hterm : ∀ v, (s.peer v).term ≤ (s'.peer v).term)
    (hbook : ∀ t, s.book t <+: s'.book t) (htenures : ∀ e ∈ s.tenures, e ∈ s'.tenures)
    (hacks : ∀ a ∈ s'.acks, a ∈ s.acks ∨ (s.peer a.node).term ≤ a.term) {t : ℕ} {log : List α} :
    s.supporters τ t log ⊆ s'.supporters τ t log := by
  rintro v ⟨hle, L, hL, hup, hkeep⟩
  exact ⟨hle.trans (hterm v), L, hL.mono hbook, hup, hkeep.mono htenures hacks hle⟩

end State

namespace Safe

variable {τ} {s : State ι α}

/-! ## Leader completeness -/

/-- A log that is at least as up to date as one holding the chosen log `P` holds `P`
too, if every leader of the terms in between does. -/
theorem upToDate_carries (hl : Logs τ s) (hel : Elections τ s) {t t' : ℕ} {P Q L M : List α}
    {x : α} (hP : P = Q ++ [x]) (hx : τ x = t) (hL : Anchored τ s.book L)
    (hM : Anchored τ s.book M) (hlt : ∀ y ∈ M, τ y < t') (hup : UpToDate τ M L) (hPL : P <+: L)
    (hbetween : ∀ e ∈ s.tenures, t < e.term → e.term < t' → P <+: e.log) : P <+: M := by
  have hxL : x ∈ L := hPL.subset (by simp [hP])
  have hxlast : t ≤ lastTerm τ L := hx ▸ hL.le_lastTerm hl.book_le hxL
  rcases List.eq_nil_or_concat L with rfl | ⟨L₀, y, rfl⟩
  · simp at hxL
  rcases List.eq_nil_or_concat M with rfl | ⟨M₀, z, rfl⟩
  · simp [UpToDate] at hup
  simp only [List.concat_eq_append, lastTerm_concat] at *
  have hLbook := hL L₀ y (List.prefix_refl _)
  have hMbook := hM M₀ z (List.prefix_refl _)
  rcases hup with hlast | ⟨hlast, hlen⟩
  · -- the last entry of `M` is of a later term, whose leader had `P`
    rw [lastTerm_concat, lastTerm_concat] at hlast
    have hne : s.book (τ z) ≠ [] := by
      intro hnil
      rw [hnil] at hMbook
      simpa using hMbook.length_le
    obtain ⟨e, he, hterm⟩ := hl.book_tenure _ hne
    have hPe : P <+: e.log := hbetween e he (by omega) (by rw [hterm]; exact hlt z (by simp))
    have hebook : e.log <+: s.book (τ z) := hterm ▸ hl.tenure_isPrefix he
    rcases List.prefix_or_prefix_of_prefix hebook hMbook with hle | hge
    · exact hPe.trans hle
    · have hz := hl.tenure_lt hel he z (hge.subset (by simp))
      omega
  · -- both end in the book of one term, and `M` is the longer
    rw [lastTerm_concat, lastTerm_concat] at hlast
    rw [hlast] at hLbook
    exact hPL.trans (List.prefix_of_prefix_length_le hLbook hMbook hlen)

/-- Leader completeness: every leader of a later term was elected with the chosen log. -/
theorem completeness (h : Safe τ s) (hl : Logs τ s) (hel : Elections τ s) {t : ℕ} {P : List α}
    (hP : s.Chosen τ t P) : ∀ e ∈ s.tenures, t < e.term → P <+: e.log := by
  obtain ⟨hmaj, Q, x, hPx, hx⟩ := hP
  intro e he hlt
  induction hn : e.term using Nat.strong_induction_on generalizing e with
  | _ n ih =>
    subst hn
    obtain ⟨v, ⟨a, ha, hav, hat, hPa⟩, -, L, hL, hup, hacks⟩ := hmaj.inter (h.tenure e he)
    have hbetween : ∀ e' ∈ s.tenures, t < e'.term → e'.term < e.term → P <+: e'.log :=
      fun e' he' hlo hhi => ih e'.term hhi e' he' hlo rfl
    rcases hacks a ha hav (hat ▸ hlt) P hPa with hPL | ⟨e', he', hlo, hhi, hnot⟩
    · exact upToDate_carries hl hel hPx hx hL (hl.tenure_anchored hel he) (hl.tenure_lt hel he)
        hup hPL hbetween
    · exact absurd (hbetween e' he' (hat ▸ hlo) hhi) hnot

/-- A chosen log is in the book of every term from its own on that was won. -/
theorem chosen_prefix_book (h : Safe τ s) (hl : Logs τ s) (hel : Elections τ s) {t t' : ℕ}
    {P : List α} (hP : s.Chosen τ t P) (hle : t ≤ t') (hwon : ∃ e ∈ s.tenures, e.term = t') :
    P <+: s.book t' := by
  rcases Nat.eq_or_lt_of_le hle with rfl | hlt
  · obtain ⟨v, a, ha, -, hat, hPa⟩ := hP.1.nonempty
    exact hPa.trans (hat ▸ (h.ack a ha).2.1)
  · obtain ⟨e, he, rfl⟩ := hwon
    exact (h.completeness hl hel hP e he hlt).trans (hl.tenure_isPrefix he)

/-- Committed logs are prefixes of one another. -/
theorem committed_comparable (h : Safe τ s) (hl : Logs τ s) (hel : Elections τ s) {t t' : ℕ}
    {P P' : List α} (hP : s.Committed τ t P) (hP' : s.Committed τ t' P') :
    P <+: P' ∨ P' <+: P := by
  rcases hP with rfl | ⟨u, -, Q, hQ, hPQ⟩
  · exact Or.inl List.nil_prefix
  rcases hP' with rfl | ⟨u', -, Q', hQ', hPQ'⟩
  · exact Or.inr List.nil_prefix
  -- both stand in the book of the later of the two terms
  have hwon : ∃ e ∈ s.tenures, e.term = max u u' := by
    obtain ⟨v, a, ha, -, hat, -⟩ := hQ.1.nonempty
    obtain ⟨v', a', ha', -, hat', -⟩ := hQ'.1.nonempty
    rcases max_choice u u' with hmax | hmax <;> rw [hmax]
    · exact hat ▸ (h.ack a ha).2.2.1
    · exact hat' ▸ (h.ack a' ha').2.2.1
  have hb := h.chosen_prefix_book hl hel hQ (le_max_left u u') hwon
  have hb' := h.chosen_prefix_book hl hel hQ' (le_max_right u u') hwon
  exact List.prefix_or_prefix_of_prefix (hPQ.trans hb) (hPQ'.trans hb')

/-- What is committed up to a won term survives taking over a log of that term. -/
theorem committed_graft (h : Safe τ s) (hl : Logs τ s) (hel : Elections τ s) {t : ℕ}
    {P F S : List α} (hP : s.Committed τ t P) (hwon : ∃ e ∈ s.tenures, e.term = t)
    (hPF : P <+: F) (hS : S <+: s.book t) : P <+: graft F S := by
  rcases hP with rfl | ⟨u, hu, Q, hQ, hPQ⟩
  · exact List.nil_prefix
  · exact prefix_graft_of_comparable hPF (hPQ.trans (h.chosen_prefix_book hl hel hQ hu hwon)) hS

/-! ## Preservation -/

theorem init : Safe τ (State.init : State ι α) where
  sent := by intro m hm; exact hm.elim
  ack := by intro a ha; exact ha.elim
  ballot := by intro b hb; exact hb.elim
  tenure := by intro e he; exact he.elim
  commit := by intro i; exact ⟨le_refl _, Or.inl rfl⟩
  leader := by intro i hi; cases hi

/-- A move that acknowledges nothing, writes nothing and wins nothing. -/
theorem quiet (h : Safe τ s) {s' : State ι α} (hacks : s'.acks = s.acks)
    (htenures : s'.tenures = s.tenures) (hbook : s'.book = s.book)
    (hlog : ∀ i, (s'.peer i).log = (s.peer i).log)
    (hterm : ∀ i, (s.peer i).term ≤ (s'.peer i).term)
    (hsent : ∀ m ∈ s'.sent, m ∈ s.sent ∨ (s.peer m.sender).role = .leader ∧
      m.state = s.peer m.sender ∧ m.state.log = s.book m.state.term ∧
      ∃ e ∈ s.tenures, e.leader = m.sender ∧ e.term = m.state.term)
    (hballot : ∀ b ∈ s'.ballots, b ∈ s.ballots ∨ b.log = (s.peer b.voter).log ∧
      (s.peer b.voter).term ≤ b.term)
    (hcommit : ∀ i, (s'.peer i).commit = (s.peer i).commit ∨
      (s'.peer i).commit ≤ (s.peer i).log.length ∧
        s.Committed τ (s.peer i).term ((s.peer i).log.take (s'.peer i).commit))
    (hleader : ∀ i, (s'.peer i).role = .leader →
      (s.peer i).role = .leader ∧ (s'.peer i).term = (s.peer i).term) : Safe τ s' := by
  have hacks' : ∀ a ∈ s.acks, a ∈ s'.acks := by rw [hacks]; exact fun _ ha => ha
  have htenures' : ∀ e ∈ s.tenures, e ∈ s'.tenures := by rw [htenures]; exact fun _ he => he
  constructor
  case sent =>
    intro m hm
    rw [hbook, htenures]
    rcases hsent m hm with hold | ⟨hrole, hst, hb, he⟩
    · obtain ⟨he, hrole, hpre, hle, hc⟩ := h.sent m hold
      exact ⟨he, hrole, hpre, hle, hc.mono hacks' (le_refl _)⟩
    · obtain ⟨hle, hc⟩ := h.commit m.sender
      rw [← hst] at hrole hle hc
      exact ⟨he, hrole, by rw [hb], hle, hc.mono hacks' (le_refl _)⟩
  case ack =>
    intro a ha
    rw [hacks] at ha
    obtain ⟨hle, hpre, he, hkeep⟩ := h.ack a ha
    rw [hbook, htenures, hlog]
    refine ⟨hle.trans (hterm _), hpre, he, fun P hP => ?_⟩
    exact (hkeep P hP).imp_right (·.mono htenures' (Nat.succ_le_succ (hterm _)))
  case ballot =>
    intro b hb hun a ha hav hat P hP
    rw [hacks] at ha
    rw [htenures] at hun
    rcases hballot b hb with hold | ⟨hblog, hbterm⟩
    · exact (h.ballot b hold hun a ha hav hat P hP).imp_right (·.mono htenures' (le_refl _))
    · -- the voter's log is the one it holds now, and the term of the ballot is not won
      rcases (h.ack a ha).2.2.2 P hP with hkeep | ⟨e, he, hlo, hhi, hnot⟩
      · rw [hav, ← hblog] at hkeep
        exact Or.inl hkeep
      · rw [hav] at hhi
        have hne := hun e he
        exact Or.inr ⟨e, htenures' e he, hlo, by omega, hnot⟩
  case tenure =>
    intro e he
    rw [htenures] at he
    exact (h.tenure e he).mono (State.supporters_mono hterm (fun t => by rw [hbook]) htenures'
      fun a ha => Or.inl (hacks ▸ ha))
  case commit =>
    intro i
    rw [hlog]
    rcases hcommit i with heq | ⟨hle, hc⟩
    · rw [heq]
      exact ⟨(h.commit i).1, (h.commit i).2.mono hacks' (hterm i)⟩
    · exact ⟨hle, hc.mono hacks' (hterm i)⟩
  case leader =>
    intro i hi
    obtain ⟨hrole, ht⟩ := hleader i hi
    rw [hacks, hlog, ht]
    exact h.leader i hrole

/-- Why a legal commit index is sound. -/
theorem legal_commit (h : Safe τ s) {i : ι} {n : ℕ} (hlegal : s.Legal τ (.commit i n)) :
    n ≤ (s.peer i).log.length ∧ s.Committed τ (s.peer i).term ((s.peer i).log.take n) := by
  rcases hlegal with ⟨-, hle, hch⟩ | ⟨m, hm, hterm, hpre, rfl⟩ | ⟨j, hterm, hpre, rfl⟩
  · exact ⟨hle, Or.inr ⟨_, le_refl _, _, hch, List.prefix_refl _⟩⟩
  · obtain ⟨-, -, -, hle, hc⟩ := h.sent m hm
    have htake : (s.peer i).log.take m.state.commit = m.state.log.take m.state.commit :=
      (List.prefix_iff_eq_take.mp ((List.take_prefix _ _).trans hpre)).symm ▸ by
        simp [Nat.min_eq_left hle]
    rw [htake, ← hterm]
    exact ⟨hle.trans hpre.length_le, hc⟩
  · refine ⟨le_refl _, ?_⟩
    rw [List.take_length]
    exact ((h.commit j).2.of_isPrefix hpre).mono (fun _ ha => ha) hterm

/-- Writing `e` behind the log of peer `i`, the book of whose term it extends. -/
theorem write (h : Safe τ s) (hel : Elections τ s) {s' : State ι α} {i : ι} {e : α}
    (hacks : s'.acks = insert ⟨i, (s.peer i).term, (s.peer i).log ++ [e]⟩ s.acks)
    (hbook : ∀ t, s.book t <+: s'.book t)
    (hat : s'.book (s.peer i).term = (s.peer i).log ++ [e])
    (hpeer : ∀ j, j ≠ i → s'.peer j = s.peer j)
    (hlog : (s'.peer i).log = (s.peer i).log ++ [e])
    (hterm : (s'.peer i).term = (s.peer i).term)
    (hcommit : (s'.peer i).commit = (s.peer i).commit)
    (hsent : s'.sent = s.sent) (hballots : s'.ballots = s.ballots)
    (hsub : ∀ e' ∈ s.tenures, e' ∈ s'.tenures)
    (hnew : ∀ e' ∈ s'.tenures, e' ∈ s.tenures ∨ Majority (s.supporters τ e'.term e'.log))
    (hwon : ∃ e' ∈ s'.tenures, e'.term = (s.peer i).term) : Safe τ s' := by
  have hacks' : ∀ a ∈ s.acks, a ∈ s'.acks := by
    rw [hacks]; exact fun _ ha => Set.mem_insert_of_mem _ ha
  have hnow : ∀ a ∈ s'.acks, a ∈ s.acks ∨ (s.peer a.node).term ≤ a.term := by
    rw [hacks]
    rintro a (rfl | ha)
    · exact Or.inr (le_refl _)
    · exact Or.inl ha
  have hterms : ∀ j, (s'.peer j).term = (s.peer j).term := by
    intro j
    by_cases hj : j = i
    · subst hj; exact hterm
    · rw [hpeer j hj]
  have hlogs : ∀ j, (s.peer j).log <+: (s'.peer j).log := by
    intro j
    by_cases hj : j = i
    · subst hj; rw [hlog]; exact List.prefix_append _ _
    · rw [hpeer j hj]
  have hcommits : ∀ j, (s'.peer j).commit = (s.peer j).commit := by
    intro j
    by_cases hj : j = i
    · subst hj; exact hcommit
    · rw [hpeer j hj]
  constructor
  case sent =>
    intro m hm
    rw [hsent] at hm
    obtain ⟨⟨e', he', hrest⟩, hrole, hpre, hle, hc⟩ := h.sent m hm
    exact ⟨⟨e', hsub e' he', hrest⟩, hrole, hpre.trans (hbook _), hle,
      hc.mono hacks' (le_refl _)⟩
  case ack =>
    intro a ha
    rw [hacks] at ha
    rcases ha with rfl | ha
    · exact ⟨(hterm).ge, by rw [hat], hwon, fun P hP => Or.inl (by rw [hlog]; exact hP)⟩
    · obtain ⟨hle, hpre, ⟨e', he', ht⟩, hkeep⟩ := h.ack a ha
      refine ⟨by rw [hterms]; exact hle, hpre.trans (hbook _), ⟨e', hsub e' he', ht⟩, ?_⟩
      intro P hP
      rw [hterms]
      exact (hkeep P hP).imp (·.trans (hlogs _)) (·.mono hsub (le_refl _))
  case ballot =>
    intro b hb hun
    rw [hballots] at hb
    have hkeep : s.HoldsAcked b.voter b.term b.log := h.ballot b hb fun e' he' => hun e' (hsub e' he')
    exact hkeep.mono hsub hnow (hel.bound b hb).1
  case tenure =>
    intro e' he'
    have hold : Majority (s.supporters τ e'.term e'.log) :=
      (hnew e' he').elim (h.tenure e') id
    exact hold.mono (State.supporters_mono (fun j => (hterms j).ge) hbook hsub hnow)
  case commit =>
    intro j
    obtain ⟨hle, hc⟩ := h.commit j
    rw [hcommits, hterms]
    refine ⟨hle.trans (hlogs j).length_le, ?_⟩
    have htake : (s'.peer j).log.take (s.peer j).commit = (s.peer j).log.take (s.peer j).commit := by
      obtain ⟨K, hK⟩ := hlogs j
      rw [← hK, List.take_append_of_le_length hle]
    rw [htake]
    exact hc.mono hacks' (le_refl _)
  case leader =>
    intro j hj
    rw [hacks, hterms]
    by_cases hji : j = i
    · subst hji; rw [hlog]; exact Set.mem_insert _ _
    · rw [hpeer j hji] at hj ⊢
      exact Set.mem_insert_of_mem _ (h.leader j hj)

section Step

variable [DecidableEq ι]

theorem extend (h : Safe τ s) (hl : Logs τ s) (hel : Elections τ s) {i : ι} {e : α}
    (hen : s.Enabled τ (.extend i e)) : Safe τ (s.next (.extend i e)) := by
  obtain ⟨hrole, hterm⟩ := hen
  obtain ⟨e', he', -, ht⟩ := hel.leader i hrole
  refine h.write hel rfl ?_ ?_ ?_ ?_ ?_ ?_ rfl rfl (fun _ he => he) (fun _ he => Or.inl he)
    ⟨e', he', ht⟩
  · intro t
    simp only [State.next, Function.update_apply]
    split
    · rename_i heq
      rw [heq, ← hl.leader i hrole]
      exact List.prefix_append _ _
    · exact List.prefix_refl _
  · simp [State.next]
  · intro j hj; simp [State.next, hj]
  · simp [State.next]
  · simp [State.next]
  · simp [State.next]

theorem win (h : Safe τ s) (hl : Logs τ s) (hel : Elections τ s) {i : ι} {e : α}
    (hen : s.Enabled τ (.win i e)) : Safe τ (s.next (.win i e)) := by
  obtain ⟨hcand, hmaj, hterm⟩ := hen
  have hun := fun e' (he' : e' ∈ s.tenures) => hel.candidate_unwon hcand hmaj he'
  have hown := hel.candidate i hcand
  refine h.write hel rfl ?_ ?_ ?_ ?_ ?_ ?_ rfl rfl (fun _ he => Set.mem_insert_of_mem _ he) ?_
    ⟨_, Set.mem_insert _ _, rfl⟩
  · intro t
    simp only [State.next, Function.update_apply]
    split
    · rename_i heq
      rw [heq, hl.book_unwon hun]
      exact List.nil_prefix
    · exact List.prefix_refl _
  · simp [State.next]
  · intro j hj; simp [State.next, hj]
  · simp [State.next]
  · simp [State.next]
  · simp [State.next]
  · rintro e' (rfl | he')
    · refine Or.inr (hmaj.mono ?_)
      rintro v ⟨L, hb⟩
      -- the ballot was given against the log the winner campaigned with
      obtain ⟨K, hK, hup⟩ := hel.backed _ hb
      have hKlog : K = (s.peer i).log := hel.own _ hown _ hK rfl rfl rfl
      refine ⟨(hel.bound _ hb).1, L, hl.ballot _ hb, hKlog ▸ hup, ?_⟩
      exact fun a ha hav hat P hP => h.ballot _ hb hun a ha hav hat P hP
    · exact Or.inl he'

theorem accept (h : Safe τ s) (hl : Logs τ s) (hel : Elections τ s) {i : ι} {m : Message ι α}
    (hen : s.Enabled τ (.accept i m)) : Safe τ (s.next (.accept i m)) := by
  obtain ⟨hm, hterm⟩ := hen
  obtain ⟨⟨e, he, -, heterm⟩, -, hpre, -, -⟩ := h.sent m hm
  have hwon : ∃ e ∈ s.tenures, e.term = (s.peer i).term := ⟨e, he, heterm.trans hterm⟩
  rw [hterm] at hpre
  have hacks' : ∀ a ∈ s.acks, a ∈ (s.next (.accept i m)).acks :=
    fun _ ha => Set.mem_insert_of_mem _ ha
  have hsub : ∀ e ∈ s.tenures, e ∈ (s.next (.accept i m)).tenures := fun _ he => he
  have hnow : ∀ a ∈ (s.next (.accept i m)).acks, a ∈ s.acks ∨ (s.peer a.node).term ≤ a.term := by
    rintro a (rfl | ha)
    · exact Or.inr (le_refl _)
    · exact Or.inl ha
  have hterms : ∀ j, ((s.next (.accept i m)).peer j).term = (s.peer j).term := by
    intro j
    by_cases hj : j = i
    · subst hj; simp [State.next]
    · simp [State.next, hj]
  have hpeer : ∀ j, j ≠ i → (s.next (.accept i m)).peer j = s.peer j := by
    intro j hj; simp [State.next, hj]
  have hlog : ((s.next (.accept i m)).peer i).log = graft (s.peer i).log m.state.log := by
    simp [State.next]
  have hcommit : ((s.next (.accept i m)).peer i).commit = (s.peer i).commit := by
    simp [State.next]
  constructor
  case sent =>
    intro m' hm'
    obtain ⟨he', hrole, hpre', hle, hc⟩ := h.sent m' hm'
    exact ⟨he', hrole, hpre', hle, hc.mono hacks' (le_refl _)⟩
  case ack =>
    rintro a (rfl | ha)
    · refine ⟨(hterms i).ge, hpre, hwon, fun P hP => Or.inl ?_⟩
      rw [hlog]
      exact hP.trans (prefix_graft _ _)
    · obtain ⟨hle, hapre, haw, hkeep⟩ := h.ack a ha
      refine ⟨by rw [hterms]; exact hle, hapre, haw, fun P hP => ?_⟩
      rw [hterms]
      rcases hkeep P hP with hk | hby
      · by_cases hai : a.node = i
        · rw [hai] at hk hle ⊢
          -- the leader of the term either came without `P` or has it in its book
          by_cases hPe : P <+: s.book (s.peer i).term
          · rw [hlog]
            exact Or.inl (prefix_graft_of_comparable hk hPe hpre)
          · right
            obtain ⟨e, he, het⟩ := hwon
            refine ⟨e, he, ?_, by omega, ?_⟩
            · rcases Nat.eq_or_lt_of_le hle with heq | hlt
              · rw [heq] at hapre
                exact absurd (hP.trans hapre) hPe
              · omega
            · exact fun hPelog => hPe (hPelog.trans (het ▸ hl.tenure_isPrefix he))
        · rw [hpeer _ hai]
          exact Or.inl hk
      · exact Or.inr hby
  case ballot =>
    intro b hb hun
    have hkeep : s.HoldsAcked b.voter b.term b.log := h.ballot b hb hun
    exact hkeep.mono hsub hnow (hel.bound b hb).1
  case tenure =>
    intro e' he'
    exact (h.tenure e' he').mono (State.supporters_mono (fun j => (hterms j).ge)
      (fun _ => List.prefix_refl _) hsub hnow)
  case commit =>
    intro j
    obtain ⟨hle, hc⟩ := h.commit j
    rw [hterms]
    by_cases hj : j = i
    · subst hj
      rw [hlog, hcommit]
      have hkeep := h.committed_graft hl hel hc hwon (List.take_prefix _ _) hpre
      have hlen := hkeep.length_le
      rw [List.length_take, Nat.min_eq_left hle] at hlen
      refine ⟨hlen, ?_⟩
      rw [List.prefix_iff_eq_take, List.length_take, Nat.min_eq_left hle] at hkeep
      rw [← hkeep]
      exact hc.mono hacks' (le_refl _)
    · rw [hpeer j hj]
      exact ⟨hle, hc.mono hacks' (le_refl _)⟩
  case leader =>
    intro j hj
    by_cases hji : j = i
    · subst hji; simp [State.next] at hj
    · rw [hpeer j hji] at hj ⊢
      exact hacks' _ (h.leader j hj)

/-- Every legal move keeps the protocol safe. -/
theorem step (h : Safe τ s) (hl : Logs τ s) (hel : Elections τ s) {m : Move ι α}
    (hen : s.Enabled τ m) (hlegal : s.Legal τ m) : Safe τ (s.next m) := by
  cases m with
  | win i e => exact h.win hl hel hen
  | extend i e => exact h.extend hl hel hen
  | accept i m => exact h.accept hl hel hen
  | tear i L => exact hlegal.elim
  | campaign i =>
    refine h.quiet rfl rfl rfl ?_ ?_ (fun _ hm => Or.inl hm) ?_ ?_ ?_
    · intro j; by_cases hj : j = i <;> simp [State.next, hj]
    · intro j; by_cases hj : j = i <;> simp [State.next, hj]
    · rintro b (rfl | hb)
      · exact Or.inr ⟨rfl, Nat.le_succ _⟩
      · exact Or.inl hb
    · intro j; by_cases hj : j = i <;> simp [State.next, hj]
    · intro j; by_cases hj : j = i <;> simp [State.next, hj]
  | grant i c L =>
    refine h.quiet rfl rfl rfl ?_ ?_ (fun _ hm => Or.inl hm) ?_ ?_ ?_
    · intro j; by_cases hj : j = i <;> simp [State.next, hj]
    · intro j; by_cases hj : j = i <;> simp [State.next, hj]
    · rintro b (rfl | hb)
      · exact Or.inr ⟨rfl, le_refl _⟩
      · exact Or.inl hb
    · intro j; by_cases hj : j = i <;> simp [State.next, hj]
    · intro j; by_cases hj : j = i <;> simp [State.next, hj]
  | publish i =>
    refine h.quiet rfl rfl rfl (fun _ => rfl) (fun _ => le_refl _) ?_ (fun _ hb => Or.inl hb)
      (fun _ => Or.inl rfl) (fun _ hj => ⟨hj, rfl⟩)
    rintro m (rfl | hm)
    · exact Or.inr ⟨hlegal, rfl, hl.leader i hlegal, hel.leader i hlegal⟩
    · exact Or.inl hm
  | commit i n =>
    obtain ⟨hle, hc⟩ := h.legal_commit hlegal
    refine h.quiet rfl rfl rfl ?_ ?_ (fun _ hm => Or.inl hm) (fun _ hb => Or.inl hb) ?_ ?_
    · intro j; by_cases hj : j = i <;> simp [State.next, hj]
    · intro j; by_cases hj : j = i <;> simp [State.next, hj]
    · intro j
      by_cases hj : j = i
      · subst hj; simp [State.next, hle, hc]
      · simp [State.next, hj]
    · intro j; by_cases hj : j = i <;> simp [State.next, hj]
  | raise i t v =>
    have hlt : (s.peer i).term < t := hen
    refine h.quiet rfl rfl rfl ?_ ?_ (fun _ hm => Or.inl hm) (fun _ hb => Or.inl hb) ?_ ?_ <;>
      intro j <;> by_cases hj : j = i <;> simp [State.next, hj, hlt.le]
  | mark i _ | demote i =>
    refine h.quiet rfl rfl rfl ?_ ?_ (fun _ hm => Or.inl hm) (fun _ hb => Or.inl hb) ?_ ?_ <;>
      intro j <;> by_cases hj : j = i <;> simp [State.next, hj]

end Step

end Safe

end Consensus
