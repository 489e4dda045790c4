-- SUMMARY: Majorities of a finite set of nodes, and that any two of them meet.
import Mathlib.Data.Fintype.Card

/-!
# Majorities
-/

variable {ι : Type*} [Fintype ι]

/-- More than half of the nodes are in `Q`. -/
def Majority (Q : Set ι) : Prop :=
  ∃ F : Finset ι, (∀ i ∈ F, i ∈ Q) ∧ Fintype.card ι < 2 * F.card

namespace Majority

theorem mono {P Q : Set ι} (h : Majority P) (hsub : ∀ i ∈ P, i ∈ Q) : Majority Q := by
  obtain ⟨F, hF, hcard⟩ := h
  exact ⟨F, fun i hi => hsub i (hF i hi), hcard⟩

theorem inter {P Q : Set ι} (hP : Majority P) (hQ : Majority Q) : ∃ i, i ∈ P ∧ i ∈ Q := by
  classical
  obtain ⟨F, hF, hFcard⟩ := hP
  obtain ⟨G, hG, hGcard⟩ := hQ
  have hunion : (F ∪ G).card ≤ Fintype.card ι := Finset.card_le_univ _
  have hsum := Finset.card_union_add_card_inter F G
  have hpos : 0 < (F ∩ G).card := by omega
  obtain ⟨i, hi⟩ := Finset.card_pos.mp hpos
  rw [Finset.mem_inter] at hi
  exact ⟨i, hF i hi.1, hG i hi.2⟩

theorem nonempty {Q : Set ι} (h : Majority Q) : ∃ i, i ∈ Q := by
  obtain ⟨i, hi, _⟩ := h.inter h
  exact ⟨i, hi⟩

end Majority
