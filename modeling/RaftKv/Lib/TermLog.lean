-- SUMMARY: Logs whose entries carry terms: anchoring in one book per term, log matching, grafting, the up-to-date order.
import Mathlib.Data.List.Infix
import Mathlib.Order.Basic

/-!
# Term logs

A log is a list of entries with a term each. A `book` holds, for every term, the log
of the one author of that term. A log is *anchored* when every entry of it sits
where the book of its term has it, below the same entries; anchored logs that share
an entry therefore agree up to it. Nothing here speaks of nodes or messages.
-/

namespace TermLog

variable {α : Type*} (τ : α → ℕ)

/-! ## Anchored logs -/

/-- Every entry of `L`, with what precedes it, stands in the book of its term. -/
def Anchored (book : ℕ → List α) (L : List α) : Prop :=
  ∀ P e, P ++ [e] <+: L → P ++ [e] <+: book (τ e)

variable {τ} {book book' : ℕ → List α} {L M P F S : List α}

theorem Anchored.nil : Anchored τ book [] := by
  intro P e h
  have := h.length_le
  simp at this

theorem Anchored.of_isPrefix (h : Anchored τ book L) (hP : P <+: L) : Anchored τ book P :=
  fun Q e hQ => h Q e (hQ.trans hP)

theorem Anchored.mono (h : Anchored τ book L) (hbook : ∀ t, book t <+: book' t) :
    Anchored τ book' L :=
  fun Q e hQ => (h Q e hQ).trans (hbook _)

/-- Appending an entry of the author's own term keeps a log anchored, once the book
of that term has the same entries. -/
theorem Anchored.concat {x : α} (h : Anchored τ book L) (hx : L ++ [x] <+: book (τ x)) :
    Anchored τ book (L ++ [x]) := by
  intro Q e hQ
  rcases List.prefix_concat_iff.mp hQ with heq | hpre
  · obtain ⟨hQL, hex⟩ := List.append_inj' heq rfl
    simp only [List.cons.injEq, and_true] at hex
    subst hQL hex
    exact hx
  · exact h Q e hpre

/-- Entries of one term under the same number of others stand on the same entries. -/
theorem Anchored.concat_eq (hL : Anchored τ book L) (hM : Anchored τ book M)
    {Q R : List α} {x y : α} (hQ : Q ++ [x] <+: L) (hR : R ++ [y] <+: M)
    (hlen : Q.length = R.length) (hterm : τ x = τ y) : Q ++ [x] = R ++ [y] := by
  have hx := hL Q x hQ
  have hy := hM R y hR
  rw [← hterm] at hy
  have hle : (Q ++ [x]).length ≤ (R ++ [y]).length := by simp [hlen]
  exact (List.prefix_of_prefix_length_le hx hy hle).eq_of_length (by simp [hlen])

/-! ## Log matching -/

variable (τ) in
/-- An entry of the same term at the same place has the same past. -/
def Matching (L M : List α) : Prop :=
  ∀ ⦃k x y⦄, L[k]? = some x → M[k]? = some y → τ x = τ y → L.take (k + 1) = M.take (k + 1)

theorem Anchored.matching (hL : Anchored τ book L) (hM : Anchored τ book M) : Matching τ L M := by
  intro k x y hx hy hterm
  have hkL : k < L.length := (List.getElem?_eq_some_iff.mp hx).1
  have hkM : k < M.length := (List.getElem?_eq_some_iff.mp hy).1
  have hL' : L.take k ++ [x] = L.take (k + 1) := by
    rw [List.take_add_one, hx]; rfl
  have hM' : M.take k ++ [y] = M.take (k + 1) := by
    rw [List.take_add_one, hy]; rfl
  rw [← hL', ← hM']
  refine hL.concat_eq hM ?_ ?_ ?_ hterm
  · rw [hL']; exact List.take_prefix _ _
  · rw [hM']; exact List.take_prefix _ _
  · simp [Nat.le_of_lt hkL, Nat.le_of_lt hkM]

theorem Matching.of_isPrefix (h : L <+: M) : Matching τ L M := by
  rintro k x y hx - -
  obtain ⟨K, rfl⟩ := h
  rw [List.take_append_of_le_length (List.getElem?_eq_some_iff.mp hx).1]

theorem Matching.isPrefix_right (h : Matching τ L M) (hP : P <+: M) : Matching τ L P := by
  intro k x y hx hy hterm
  obtain ⟨K, rfl⟩ := hP
  have hlt := (List.getElem?_eq_some_iff.mp hy).1
  have htake := h hx ((List.getElem?_append_left hlt).trans hy) hterm
  rwa [List.take_append_of_le_length hlt] at htake

/-- Logs that agree on the first `p` entries, and on the terms of the next ones up to
`m`, agree up to `m` or to the end of the shorter one. -/
theorem Matching.take_prefix_or (h : Matching τ L M) {p m : ℕ}
    (hp : L.take p <+: M) (hagree : ∀ k x y, p ≤ k → k < m → L[k]? = some x → M[k]? = some y →
      τ x = τ y) : L.take m <+: M ∨ M <+: L := by
  induction m with
  | zero => exact Or.inl (by simp)
  | succ m ih =>
    rcases ih fun k x y hk hkm => hagree k x y hk (Nat.lt_succ_of_lt hkm) with hpre | hM
    · by_cases hmp : m + 1 ≤ p
      · exact Or.inl ((List.take_prefix_take_left hmp).trans hp)
      cases hx : L[m]? with
      | none =>
        have hlen := List.getElem?_eq_none_iff.mp hx
        rw [List.take_of_length_le hlen] at hpre
        exact Or.inl ((List.take_prefix _ _).trans hpre)
      | some x =>
        have hlen := (List.getElem?_eq_some_iff.mp hx).1
        cases hy : M[m]? with
        | none =>
          have hM := List.getElem?_eq_none_iff.mp hy
          rw [← hpre.eq_of_length_le (by simp; omega)]
          exact Or.inr (List.take_prefix _ _)
        | some y =>
          rw [h hx hy (hagree m x y (by omega) (Nat.lt_succ_self m) hx hy)]
          exact Or.inl (List.take_prefix _ _)
    · exact Or.inr hM

/-- A log that kept the first `c` entries of another has the same first `a ≤ c`. -/
theorem take_eq_of_take_prefix {a c : ℕ} (hac : a ≤ c) (hc : c ≤ L.length)
    (h : L.take c <+: M) : M.take a = L.take a := by
  obtain ⟨K, rfl⟩ := h
  rw [List.take_append_of_le_length (by simp; omega), List.take_take, Nat.min_eq_left hac]

/-! ## Grafting -/

/-- What a log becomes when it takes over `S`: nothing changes if it has `S` already. -/
noncomputable def graft (F S : List α) : List α :=
  open Classical in if S <+: F then F else S

theorem prefix_graft (F S : List α) : S <+: graft F S := by
  unfold graft
  split
  · assumption
  · exact List.prefix_refl _

theorem graft_eq_or (F S : List α) : graft F S = F ∨ (¬ S <+: F ∧ graft F S = S) := by
  unfold graft
  split
  · exact Or.inl rfl
  · exact Or.inr ⟨by assumption, rfl⟩

/-- What a log and a comparable prefix `P` of it keep through a graft. -/
theorem prefix_graft_of_comparable {F S B : List α} (hPF : P <+: F) (hPB : P <+: B)
    (hSB : S <+: B) : P <+: graft F S := by
  rcases graft_eq_or F S with heq | ⟨hnot, heq⟩
  · rw [heq]; exact hPF
  · rw [heq]
    rcases List.prefix_or_prefix_of_prefix hPB hSB with hle | hge
    · exact hle
    · exact absurd (hge.trans hPF) hnot

theorem Anchored.graft (hL : Anchored τ book L) (hM : Anchored τ book M) :
    Anchored τ book (graft L M) := by
  rcases graft_eq_or L M with heq | ⟨-, heq⟩
  · rw [heq]; exact hL
  · rw [heq]; exact hM

theorem Matching.take_prefix_graft (h : Matching τ L M) {p m : ℕ}
    (hp : L.take p <+: M) (hagree : ∀ k x y, p ≤ k → k < m → L[k]? = some x → M[k]? = some y →
      τ x = τ y) : L.take m <+: TermLog.graft L M := by
  rcases graft_eq_or L M with heq | ⟨hnot, heq⟩
  · rw [heq]; exact List.take_prefix _ _
  · rw [heq]; exact (h.take_prefix_or hp hagree).resolve_right hnot

theorem Matching.graft (h : Matching τ F M) (hS : S <+: M) : Matching τ (TermLog.graft F S) M := by
  rcases graft_eq_or F S with heq | ⟨-, heq⟩
  · rw [heq]; exact h
  · rw [heq]; exact .of_isPrefix hS

theorem mem_graft {x : α} (h : x ∈ graft L M) : x ∈ L ∨ x ∈ M := by
  rcases graft_eq_or L M with heq | ⟨-, heq⟩
  · rw [heq] at h; exact Or.inl h
  · rw [heq] at h; exact Or.inr h

/-! ## The up-to-date order -/

variable (τ) in
/-- The term of the last entry, 0 for the empty log. -/
def lastTerm (L : List α) : ℕ := (L.getLast?.map τ).getD 0

@[simp] theorem lastTerm_nil : lastTerm τ [] = 0 := rfl

@[simp] theorem lastTerm_concat (L : List α) (x : α) : lastTerm τ (L ++ [x]) = τ x := by
  simp [lastTerm]

variable (τ) in
/-- `L` is at least as up to date as `M`: a later last term, or the same one and at
least the length. -/
def UpToDate (L M : List α) : Prop :=
  lastTerm τ M < lastTerm τ L ∨ (lastTerm τ M = lastTerm τ L ∧ M.length ≤ L.length)

theorem UpToDate.refl (L : List α) : UpToDate τ L L := Or.inr ⟨rfl, le_refl _⟩

/-- In a log anchored in books that never exceed their term, the last term bounds
every term. -/
theorem Anchored.le_lastTerm (h : Anchored τ book L) (hbook : ∀ t, ∀ x ∈ book t, τ x ≤ t)
    {x : α} (hx : x ∈ L) : τ x ≤ lastTerm τ L := by
  rcases List.eq_nil_or_concat L with rfl | ⟨K, y, rfl⟩
  · simp at hx
  · simp only [List.concat_eq_append] at *
    rw [lastTerm_concat]
    exact hbook _ x ((h K y (List.prefix_refl _)).subset hx)

/-- The terms of such a log never decrease. -/
theorem Anchored.pairwise (h : Anchored τ book L) (hbook : ∀ t, ∀ x ∈ book t, τ x ≤ t) :
    L.Pairwise fun x y => τ x ≤ τ y := by
  induction L using List.reverseRecOn with
  | nil => exact .nil
  | append_singleton K y ih =>
    refine List.pairwise_append.mpr ⟨ih (h.of_isPrefix (List.prefix_append K [y])),
      List.pairwise_singleton _ y, fun x hx z hz => ?_⟩
    rw [List.mem_singleton.mp hz]
    exact hbook _ x ((h K y (List.prefix_refl _)).subset (List.mem_append_left _ hx))

end TermLog
