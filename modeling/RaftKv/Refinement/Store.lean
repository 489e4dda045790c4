-- SUMMARY: Well-formed stores: the cached fields agree with the log, positions agree with stored indices, and the operations say what they should.
import RaftKv.Store
import RaftKv.Lib.TermLog

/-!
# Well-formed stores

`Storage` looks entries up by position while `append` trusts `entry.index`. In a
well-formed store the two agree, and the index arithmetic of the readers reduces to
`take`, `drop` and `getElem?`.
-/

namespace RaftKv

open TermLog

/-- Every entry carries its own position, counted from 1. -/
def Indexed (L : List LogEntry) : Prop := ∀ k e, L[k]? = some e → e.index = k + 1

instance decidableIndexed (L : List LogEntry) : Decidable (Indexed L) :=
  decidable_of_iff (∀ k, (h : k < L.length) → L[k].index = k + 1) <| by
    constructor
    · intro h k e he
      obtain ⟨hk, rfl⟩ := List.getElem?_eq_some_iff.mp he
      exact h k hk
    · intro h k hk
      exact h k L[k] (List.getElem?_eq_getElem hk)

namespace Indexed

variable {L M : List LogEntry}

theorem nil : Indexed [] := by intro k e h; simp at h

theorem of_isPrefix (h : Indexed L) (hM : M <+: L) : Indexed M := by
  intro k e he
  obtain ⟨K, rfl⟩ := hM
  refine h k e ?_
  rw [List.getElem?_append_left (List.getElem?_eq_some_iff.mp he).1]
  exact he

theorem concat (h : Indexed L) {e : LogEntry} (he : e.index = L.length + 1) :
    Indexed (L ++ [e]) := by
  intro k x hx
  rcases Nat.lt_trichotomy k L.length with hlt | heq | hgt
  · rw [List.getElem?_append_left hlt] at hx
    exact h k x hx
  · subst heq
    simp only [List.getElem?_concat_length, Option.some.injEq] at hx
    subst hx
    exact he
  · have hlen := (List.getElem?_eq_some_iff.mp hx).1
    simp at hlen
    omega

/-- The index of the last entry is the length. -/
theorem getLast?_index (h : Indexed L) : (L.getLast?.map (·.index)).getD 0 = L.length := by
  rcases List.eq_nil_or_concat L with rfl | ⟨K, e, rfl⟩
  · rfl
  · rw [List.concat_eq_append] at h ⊢
    have he := h K.length e (by simp)
    simp [he]

end Indexed

namespace Store

variable {ι : Type}

structure Wf (s : Store ι) : Prop where
  length : s.logLength = s.log.length
  lastTerm : s.lastLogTerm = TermLog.lastTerm LogEntry.term s.log
  indexed : Indexed s.log

/-! ## Fields the operations leave alone -/

@[simp] theorem setTerm_log (s : Store ι) (t : Nat) : (s.setTerm t).log = s.log := rfl
@[simp] theorem setTerm_term (s : Store ι) (t : Nat) : (s.setTerm t).term = t := rfl
@[simp] theorem setTerm_voted (s : Store ι) (t : Nat) : (s.setTerm t).voted = s.voted := rfl
@[simp] theorem setTerm_commitIndex (s : Store ι) (t : Nat) :
    (s.setTerm t).commitIndex = s.commitIndex := rfl
@[simp] theorem setTerm_lastApplied (s : Store ι) (t : Nat) :
    (s.setTerm t).lastApplied = s.lastApplied := rfl
@[simp] theorem setTerm_logLength (s : Store ι) (t : Nat) :
    (s.setTerm t).logLength = s.logLength := rfl
@[simp] theorem setTerm_lastLogTerm (s : Store ι) (t : Nat) :
    (s.setTerm t).lastLogTerm = s.lastLogTerm := rfl
@[simp] theorem setVoted_log (s : Store ι) (v : Option ι) : (s.setVoted v).log = s.log := rfl
@[simp] theorem setVoted_term (s : Store ι) (v : Option ι) : (s.setVoted v).term = s.term := rfl
@[simp] theorem setVoted_voted (s : Store ι) (v : Option ι) : (s.setVoted v).voted = v := rfl
@[simp] theorem setVoted_commitIndex (s : Store ι) (v : Option ι) :
    (s.setVoted v).commitIndex = s.commitIndex := rfl
@[simp] theorem setVoted_lastApplied (s : Store ι) (v : Option ι) :
    (s.setVoted v).lastApplied = s.lastApplied := rfl
@[simp] theorem setVoted_logLength (s : Store ι) (v : Option ι) :
    (s.setVoted v).logLength = s.logLength := rfl
@[simp] theorem setVoted_lastLogTerm (s : Store ι) (v : Option ι) :
    (s.setVoted v).lastLogTerm = s.lastLogTerm := rfl
@[simp] theorem append_log (s : Store ι) (e : LogEntry) : (s.append e).log = s.log ++ [e] := rfl
@[simp] theorem append_term (s : Store ι) (e : LogEntry) : (s.append e).term = s.term := rfl
@[simp] theorem append_voted (s : Store ι) (e : LogEntry) : (s.append e).voted = s.voted := rfl
@[simp] theorem append_commitIndex (s : Store ι) (e : LogEntry) :
    (s.append e).commitIndex = s.commitIndex := rfl
@[simp] theorem append_lastApplied (s : Store ι) (e : LogEntry) :
    (s.append e).lastApplied = s.lastApplied := rfl

/-! ## Keeping well-formedness -/

variable {s : Store ι}

theorem Wf.setTerm (h : s.Wf) (t : Nat) : (s.setTerm t).Wf := ⟨h.length, h.lastTerm, h.indexed⟩

theorem Wf.setVoted (h : s.Wf) (v : Option ι) : (s.setVoted v).Wf :=
  ⟨h.length, h.lastTerm, h.indexed⟩

theorem Wf.setCommit (h : s.Wf) (c : Nat) : (s.setCommit c).Wf :=
  ⟨h.length, h.lastTerm, h.indexed⟩

theorem Wf.setApplied (h : s.Wf) (a : Nat) : (s.setApplied a).Wf :=
  ⟨h.length, h.lastTerm, h.indexed⟩

theorem Wf.append (h : s.Wf) {e : LogEntry} (he : e.index = s.log.length + 1) :
    (s.append e).Wf where
  length := by simp [Store.append, he]
  lastTerm := by simp [Store.append]
  indexed := h.indexed.concat he

theorem Wf.truncate (h : s.Wf) {k : Nat} (hk : k < s.log.length) :
    (s.truncate k).Wf ∧ (s.truncate k).log = s.log.take k ∧
      (s.truncate k).term = s.term ∧ (s.truncate k).voted = s.voted ∧
      (s.truncate k).commitIndex = s.commitIndex ∧
      (s.truncate k).lastApplied = s.lastApplied := by
  have hdef : s.truncate k = { s with
      log := s.log.take k
      logLength := k
      lastLogTerm := if k = 0 then 0 else ((s.log.take k).getLast?.map (·.term)).getD 0 } := by
    have hlen := h.length
    simp only [Store.truncate, hlen, ge_iff_le, Nat.not_le_of_lt hk, if_false]
  rw [hdef]
  refine ⟨⟨?_, ?_, h.indexed.of_isPrefix (List.take_prefix _ _)⟩, rfl, rfl, rfl, rfl, rfl⟩
  · simp [Nat.min_eq_left (Nat.le_of_lt hk)]
  · by_cases h0 : k = 0
    · subst h0; simp
    · simp only [h0, if_false]; rfl

theorem Wf.reopen {d : Disk ι} (h : Indexed d.log) : (Store.reopen d).Wf where
  length := h.getLast?_index
  lastTerm := rfl
  indexed := h

/-! ## The readers -/

theorem Wf.getTermAt (h : s.Wf) {k : Nat} (hk : 1 ≤ k) :
    s.getTermAt k = (s.log[k - 1]?.map (·.term)).getD 0 := by
  have hlen := h.length
  unfold Store.getTermAt
  by_cases hle : k ≤ s.log.length
  · rw [if_neg (by omega), if_pos hle]
  · have hnone : s.log[k - 1]? = none := List.getElem?_eq_none (by omega)
    rw [if_pos (by omega), hnone]
    rfl

theorem Wf.readFrom (h : s.Wf) {k : Nat} (hk : 1 ≤ k) : s.readFrom k = s.log.drop (k - 1) := by
  have hlen := h.length
  unfold Store.readFrom
  by_cases hle : k ≤ s.log.length
  · rw [if_neg (by omega), if_neg (by omega)]
  · rw [if_pos (by omega), List.drop_eq_nil_of_le (by omega)]

theorem Wf.readRange (h : s.Wf) {a b : Nat} (ha : 1 ≤ a) (hab : a ≤ b) (hb : b ≤ s.log.length) :
    s.readRange a b = (s.log.take b).drop (a - 1) := by
  have hlen := h.length
  unfold Store.readRange
  rw [if_neg (by omega), if_neg (by omega)]

end Store

end RaftKv
