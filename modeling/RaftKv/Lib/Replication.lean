-- SUMMARY: Log safety of the abstract protocol: every log, published or held, is anchored in the books of the terms.
import RaftKv.Lib.Consensus

/-!
# Replication

The book of a term is what its leader wrote. Every run keeps all logs anchored in the
books, whoever published the snapshot that was accepted and whatever was torn off: so
two logs that share an entry share everything below it.
-/

namespace Consensus

open TermLog

variable {ι α : Type*} (τ : α → ℕ)

structure Logs (s : State ι α) : Prop where
  peer : ∀ i, Anchored τ s.book (s.peer i).log
  peer_le : ∀ i, ∀ x ∈ (s.peer i).log, τ x ≤ (s.peer i).term
  sent : ∀ m ∈ s.sent, Anchored τ s.book m.state.log
  sent_le : ∀ m ∈ s.sent, ∀ x ∈ m.state.log, τ x ≤ m.state.term
  ballot : ∀ b ∈ s.ballots, Anchored τ s.book b.log
  /-- A campaign starts with older entries only. -/
  own_lt : ∀ b ∈ s.ballots, b.voter = b.candidate → ∀ x ∈ b.log, τ x < b.term
  /-- A tenure opens its book with an entry of its own. -/
  tenure : ∀ e ∈ s.tenures, ∃ x, τ x = e.term ∧ e.log ++ [x] <+: s.book e.term
  book_tenure : ∀ t, s.book t ≠ [] → ∃ e ∈ s.tenures, e.term = t
  book_le : ∀ t, ∀ x ∈ s.book t, τ x ≤ t
  book : ∀ t, Anchored τ s.book (s.book t)
  /-- A leader holds the whole book of its term. -/
  leader : ∀ i, (s.peer i).role = .leader → (s.peer i).log = s.book (s.peer i).term

namespace Logs

variable {τ} {s : State ι α}

theorem init : Logs τ (State.init : State ι α) where
  peer := fun _ => Anchored.nil
  peer_le := by intro i x hx; cases hx
  sent := by intro m hm; exact hm.elim
  sent_le := by intro m hm; exact hm.elim
  ballot := by intro b hb; exact hb.elim
  own_lt := by intro b hb; exact hb.elim
  tenure := by intro e he; exact he.elim
  book_tenure := by intro t ht; exact (ht rfl).elim
  book_le := by intro t x hx; cases hx
  book := fun _ => Anchored.nil
  leader := by intro i hi; cases hi

/-- Log matching between any two peers, by positions. -/
theorem matching (h : Logs τ s) {i j : ι} {k : ℕ} {x y : α}
    (hx : (s.peer i).log[k]? = some x) (hy : (s.peer j).log[k]? = some y)
    (hterm : τ x = τ y) : (s.peer i).log.take (k + 1) = (s.peer j).log.take (k + 1) :=
  (h.peer i).matching (h.peer j) hx hy hterm

theorem tenure_isPrefix (h : Logs τ s) {e : Tenure ι α} (he : e ∈ s.tenures) :
    e.log <+: s.book e.term := by
  obtain ⟨x, -, hx⟩ := h.tenure e he
  exact (List.prefix_append _ _).trans hx

/-- Until a term is won its book is empty. -/
theorem book_unwon (h : Logs τ s) {t : ℕ} (hun : ∀ e ∈ s.tenures, e.term ≠ t) :
    s.book t = [] := by
  by_contra hne
  obtain ⟨e, he, hterm⟩ := h.book_tenure t hne
  exact hun e he hterm

theorem tenure_anchored [Fintype ι] (h : Logs τ s) (hel : Elections τ s) {e : Tenure ι α}
    (he : e ∈ s.tenures) : Anchored τ s.book e.log :=
  h.ballot _ (hel.tenure e he).2.2.2

theorem tenure_lt [Fintype ι] (h : Logs τ s) (hel : Elections τ s) {e : Tenure ι α}
    (he : e ∈ s.tenures) : ∀ x ∈ e.log, τ x < e.term :=
  h.own_lt _ (hel.tenure e he).2.2.2 rfl

/-- Anchored entries are of a term that was won, so never of term 0. -/
theorem positive [Fintype ι] (h : Logs τ s) (hel : Elections τ s) {L : List α}
    (hL : Anchored τ s.book L) {x : α} (hx : x ∈ L) : 0 < τ x := by
  obtain ⟨P, Q, rfl⟩ := List.append_of_mem hx
  have hbook := hL P x ⟨Q, by simp⟩
  have hne : s.book (τ x) ≠ [] := by
    intro hnil
    rw [hnil] at hbook
    simpa using hbook.length_le
  obtain ⟨e, he, hterm⟩ := h.book_tenure _ hne
  rw [← hterm]
  exact hel.positive _ (hel.tenure e he).2.2.2

/-- A move of peer `i` that leaves the books alone and gives `i` an anchored log. -/
theorem frame (h : Logs τ s) {s' : State ι α} (i : ι) (hbook : s'.book = s.book)
    (htenures : s'.tenures = s.tenures) (hpeer : ∀ j, j ≠ i → s'.peer j = s.peer j)
    (hlog : Anchored τ s.book (s'.peer i).log)
    (hle : ∀ x ∈ (s'.peer i).log, τ x ≤ (s'.peer i).term)
    (hrole : (s'.peer i).role = .leader → (s.peer i).role = .leader ∧
      (s'.peer i).log = (s.peer i).log ∧ (s'.peer i).term = (s.peer i).term)
    (hsent : ∀ m ∈ s'.sent, m ∈ s.sent ∨ m.state = s.peer i)
    (hballot : ∀ b ∈ s'.ballots, b ∈ s.ballots ∨ b.log = (s.peer i).log ∧
      (b.voter = b.candidate → (s.peer i).term < b.term)) : Logs τ s' := by
  constructor
  case peer =>
    intro j
    rw [hbook]
    by_cases hj : j = i
    · subst hj; exact hlog
    · rw [hpeer j hj]; exact h.peer j
  case peer_le =>
    intro j
    by_cases hj : j = i
    · subst hj; exact hle
    · rw [hpeer j hj]; exact h.peer_le j
  case sent =>
    intro m hm
    rw [hbook]
    rcases hsent m hm with hold | heq
    · exact h.sent m hold
    · rw [heq]; exact h.peer i
  case sent_le =>
    intro m hm
    rcases hsent m hm with hold | heq
    · exact h.sent_le m hold
    · rw [heq]; exact h.peer_le i
  case ballot =>
    intro b hb
    rw [hbook]
    rcases hballot b hb with hold | ⟨heq, -⟩
    · exact h.ballot b hold
    · rw [heq]; exact h.peer i
  case own_lt =>
    intro b hb hown x hx
    rcases hballot b hb with hold | ⟨heq, hlt⟩
    · exact h.own_lt b hold hown x hx
    · rw [heq] at hx
      exact lt_of_le_of_lt (h.peer_le i x hx) (hlt hown)
  case tenure => rw [hbook, htenures]; exact h.tenure
  case book_tenure => rw [hbook, htenures]; exact h.book_tenure
  case book_le => rw [hbook]; exact h.book_le
  case book => rw [hbook]; exact h.book
  case leader =>
    intro j hj
    rw [hbook]
    by_cases hji : j = i
    · subst hji
      obtain ⟨hr, hl, ht⟩ := hrole hj
      rw [hl, ht]; exact h.leader j hr
    · rw [hpeer j hji] at hj ⊢; exact h.leader j hj

/-- A log torn off a held or a published log is anchored and within the term. -/
theorem torn [Fintype ι] (h : Logs τ s) {i : ι} {L : List α}
    (hen : s.Enabled τ (.tear i L)) :
    Anchored τ s.book L ∧ ∀ x ∈ L, τ x ≤ (s.peer i).term := by
  rcases hen with hpre | ⟨m, hm, hle, hpre⟩
  · exact ⟨(h.peer i).of_isPrefix hpre, fun x hx => h.peer_le i x (hpre.subset hx)⟩
  · exact ⟨(h.sent m hm).of_isPrefix hpre,
      fun x hx => (h.sent_le m hm x (hpre.subset hx)).trans hle⟩

section Step

variable [DecidableEq ι]

/-- Writing `e` behind the log of peer `i`, which so far is the book of its term. -/
theorem write (h : Logs τ s) {s' : State ι α} {i : ι} {e : α}
    (hterm : τ e = (s.peer i).term)
    (hgrow : s.book (s.peer i).term = [] ∨ s.book (s.peer i).term = (s.peer i).log)
    (hbook : s'.book = Function.update s.book (s.peer i).term ((s.peer i).log ++ [e]))
    (hpeer : ∀ j, j ≠ i → s'.peer j = s.peer j)
    (hlog : (s'.peer i).log = (s.peer i).log ++ [e])
    (hpterm : (s'.peer i).term = (s.peer i).term)
    (hsent : s'.sent = s.sent) (hballots : s'.ballots = s.ballots)
    (htenures : ∀ e' ∈ s'.tenures, e' ∈ s.tenures ∨
      e'.term = (s.peer i).term ∧ e'.log = (s.peer i).log)
    (hsub : ∀ e' ∈ s.tenures, e' ∈ s'.tenures)
    (hwon : ∃ e' ∈ s'.tenures, e'.term = (s.peer i).term)
    (hsole : ∀ j, (s.peer j).role = .leader → (s.peer j).term = (s.peer i).term → j = i) :
    Logs τ s' := by
  have hat : s'.book (s.peer i).term = (s.peer i).log ++ [e] := by
    rw [hbook]; simp
  have hmono : ∀ t, s.book t <+: s'.book t := by
    intro t
    by_cases ht : t = (s.peer i).term
    · subst ht
      rw [hat]
      rcases hgrow with hg | hg
      · rw [hg]; exact List.nil_prefix
      · rw [hg]; exact List.prefix_append _ _
    · rw [hbook, Function.update_of_ne ht]
  have hanch : Anchored τ s'.book ((s.peer i).log ++ [e]) := by
    refine ((h.peer i).mono hmono).concat ?_
    rw [hterm, hat]
  have hle : ∀ x ∈ (s.peer i).log ++ [e], τ x ≤ (s.peer i).term := by
    intro x hx
    rcases List.mem_append.mp hx with hx | hx
    · exact h.peer_le i x hx
    · rw [List.mem_singleton.mp hx, hterm]
  constructor
  case peer =>
    intro j
    by_cases hj : j = i
    · subst hj; rw [hlog]; exact hanch
    · rw [hpeer j hj]; exact (h.peer j).mono hmono
  case peer_le =>
    intro j
    by_cases hj : j = i
    · subst hj; rw [hlog, hpterm]; exact hle
    · rw [hpeer j hj]; exact h.peer_le j
  case sent =>
    rw [hsent]
    exact fun m hm => (h.sent m hm).mono hmono
  case sent_le => rw [hsent]; exact h.sent_le
  case ballot =>
    rw [hballots]
    exact fun b hb => (h.ballot b hb).mono hmono
  case own_lt => rw [hballots]; exact h.own_lt
  case tenure =>
    intro e' he'
    rcases htenures e' he' with hold | ⟨ht, hl⟩
    · obtain ⟨x, hx, hpre⟩ := h.tenure e' hold
      exact ⟨x, hx, hpre.trans (hmono _)⟩
    · exact ⟨e, by rw [ht, hterm], by rw [ht, hl, hat]⟩
  case book_tenure =>
    intro t hne
    by_cases ht : t = (s.peer i).term
    · subst ht; exact hwon
    · rw [hbook, Function.update_of_ne ht] at hne
      obtain ⟨e', he', hterm'⟩ := h.book_tenure t hne
      exact ⟨e', hsub e' he', hterm'⟩
  case book_le =>
    intro t x hx
    by_cases ht : t = (s.peer i).term
    · subst ht; rw [hat] at hx; exact hle x hx
    · rw [hbook, Function.update_of_ne ht] at hx
      exact h.book_le t x hx
  case book =>
    intro t
    by_cases ht : t = (s.peer i).term
    · subst ht; rw [hat]; exact hanch
    · have hsame : s'.book t = s.book t := by rw [hbook, Function.update_of_ne ht]
      rw [hsame]; exact (h.book t).mono hmono
  case leader =>
    intro j hj
    by_cases hji : j = i
    · subst hji; rw [hlog, hpterm, hat]
    · rw [hpeer j hji] at hj ⊢
      have ht : (s.peer j).term ≠ (s.peer i).term := fun heq => hji (hsole j hj heq)
      rw [hbook, Function.update_of_ne ht]
      exact h.leader j hj

variable [Fintype ι]

theorem win (h : Logs τ s) (hel : Elections τ s) {i : ι} {e : α}
    (hen : s.Enabled τ (.win i e)) : Logs τ (s.next (.win i e)) := by
  obtain ⟨hcand, hmaj, hterm⟩ := hen
  have hun := fun e' (he' : e' ∈ s.tenures) => hel.candidate_unwon hcand hmaj he'
  refine h.write hterm (Or.inl (h.book_unwon hun)) rfl ?_ ?_ ?_ rfl rfl ?_ ?_ ?_ ?_
  · intro j hj; simp [State.next, hj]
  · simp [State.next]
  · simp [State.next]
  · rintro e' (rfl | he')
    · exact Or.inr ⟨rfl, rfl⟩
    · exact Or.inl he'
  · exact fun e' he' => Set.mem_insert_of_mem _ he'
  · exact ⟨_, Set.mem_insert _ _, rfl⟩
  · intro j hj hjt
    obtain ⟨e', he', -, ht⟩ := hel.leader j hj
    exact absurd (ht.trans hjt) (hun e' he')

theorem extend (h : Logs τ s) (hel : Elections τ s) {i : ι} {e : α}
    (hen : s.Enabled τ (.extend i e)) : Logs τ (s.next (.extend i e)) := by
  obtain ⟨hrole, hterm⟩ := hen
  obtain ⟨e', he', hleader, ht⟩ := hel.leader i hrole
  refine h.write hterm (Or.inr (h.leader i hrole).symm) rfl ?_ ?_ ?_ rfl rfl ?_ ?_ ?_ ?_
  · intro j hj; simp [State.next, hj]
  · simp [State.next]
  · simp [State.next]
  · exact fun e' he' => Or.inl he'
  · exact fun e' he' => he'
  · exact ⟨e', he', ht⟩
  · intro j hj hjt
    obtain ⟨f, hf, hfl, hft⟩ := hel.leader j hj
    rw [← hfl, ← hleader, hel.tenure_unique hf he' (by rw [hft, ht, hjt])]

theorem accept (h : Logs τ s) {i : ι} {m : Message ι α} (hen : s.Enabled τ (.accept i m)) :
    Logs τ (s.next (.accept i m)) := by
  obtain ⟨hm, hterm⟩ := hen
  refine h.frame i rfl rfl ?_ ?_ ?_ ?_ (fun _ hm' => Or.inl hm') (fun _ hb => Or.inl hb)
  · intro j hj; simp [State.next, hj]
  · simpa [State.next] using (h.peer i).graft (h.sent m hm)
  · intro x hx
    simp only [State.next, State.setPeer_peer, if_true] at hx ⊢
    rcases mem_graft hx with hx | hx
    · exact h.peer_le i x hx
    · exact hterm ▸ h.sent_le m hm x hx
  · simp [State.next]

/-- Every enabled move keeps the logs anchored. -/
theorem step (h : Logs τ s) (hel : Elections τ s) {m : Move ι α} (hen : s.Enabled τ m) :
    Logs τ (s.next m) := by
  have hkeep : ∀ (i : ι) (t : ℕ), (s.peer i).term ≤ t → ∀ x ∈ (s.peer i).log, τ x ≤ t :=
    fun i t ht x hx => (h.peer_le i x hx).trans ht
  cases m with
  | win i e => exact h.win hel hen
  | extend i e => exact h.extend hel hen
  | accept i m => exact h.accept hen
  | campaign i =>
    refine h.frame i rfl rfl ?_ ?_ ?_ ?_ (fun _ hm => Or.inl hm) ?_
    · intro j hj; simp [State.next, hj]
    · simpa [State.next] using h.peer i
    · simpa [State.next] using hkeep i _ (Nat.le_succ _)
    · simp [State.next]
    · rintro b (rfl | hb)
      · exact Or.inr ⟨rfl, fun _ => Nat.lt_succ_self _⟩
      · exact Or.inl hb
  | raise i t v =>
    refine h.frame i rfl rfl ?_ ?_ ?_ ?_ (fun _ hm => Or.inl hm) (fun _ hb => Or.inl hb)
    · intro j hj; simp [State.next, hj]
    · simpa [State.next] using h.peer i
    · simpa [State.next] using hkeep i t (Nat.le_of_lt hen)
    · simp [State.next]
  | grant i c L =>
    refine h.frame i rfl rfl ?_ ?_ ?_ ?_ (fun _ hm => Or.inl hm) ?_
    · intro j hj; simp [State.next, hj]
    · simpa [State.next] using h.peer i
    · simpa [State.next] using h.peer_le i
    · simp [State.next]
    · rintro b (rfl | hb)
      · exact Or.inr ⟨rfl, fun heq => absurd heq.symm hen.2.1⟩
      · exact Or.inl hb
  | publish i =>
    refine h.frame i rfl rfl (fun _ _ => rfl) (h.peer i) (h.peer_le i) ?_ ?_ (fun _ hb => Or.inl hb)
    · exact fun hrole => ⟨hrole, rfl, rfl⟩
    · rintro m (rfl | hm)
      · exact Or.inr rfl
      · exact Or.inl hm
  | tear i L =>
    obtain ⟨hanch, hle⟩ := h.torn hen
    refine h.frame i rfl rfl ?_ ?_ ?_ ?_ (fun _ hm => Or.inl hm) (fun _ hb => Or.inl hb)
    · intro j hj; simp [State.next, hj]
    · simpa [State.next] using hanch
    · simpa [State.next] using hle
    · simp [State.next]
  | mark i _ | demote i | commit i _ =>
    refine h.frame i rfl rfl ?_ ?_ ?_ ?_ (fun _ hm => Or.inl hm) (fun _ hb => Or.inl hb)
    · intro j hj; simp [State.next, hj]
    · simpa [State.next] using h.peer i
    · simpa [State.next] using h.peer_le i
    · simp [State.next]

/-- A book is only written behind its end. -/
theorem book_next (h : Logs τ s) (hel : Elections τ s) {m : Move ι α} (hen : s.Enabled τ m)
    (t : ℕ) : s.book t <+: (s.next m).book t := by
  cases m with
  | win i e =>
    obtain ⟨hcand, hmaj, -⟩ := hen
    have hnil := h.book_unwon fun e' he' => hel.candidate_unwon hcand hmaj he'
    simp only [State.next, Function.update_apply]
    split
    · rename_i ht
      rw [ht, hnil]
      exact List.nil_prefix
    · exact List.prefix_refl _
  | extend i e =>
    simp only [State.next, Function.update_apply]
    split
    · rename_i ht
      rw [ht, ← h.leader i hen.1]
      exact List.prefix_append _ _
    · exact List.prefix_refl _
  | campaign _ | raise _ _ _ | mark _ _ | grant _ _ _ | demote _ | publish _ | accept _ _
  | tear _ _ | commit _ _ => exact List.prefix_refl _

end Step

end Logs

theorem Reachable.logs [Fintype ι] [DecidableEq ι] {τ : α → ℕ} {s : State ι α}
    (h : Reachable τ s) : Logs τ s := by
  refine h.invariant Logs.init ?_
  rintro s m _ hs hl - ⟨hen, rfl⟩
  exact hl.step (Reachable.elections hs) hen

end Consensus
