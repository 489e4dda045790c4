-- SUMMARY: What handleAppendEntries does to a log: the conflict loop and the append loop together graft the sender's log.
import RaftKv.RaftNode
import RaftKv.Refinement.Store
import Mathlib.Data.Nat.Find

/-!
# Merging a batch into a log

`handleAppendEntries` compares a batch with the log by position and appends by stored
index, in two loops. The first loop truncates at most once, at the first disagreement. When
the batch is a tail of the sender's log and the two logs match, the log after the second loop
is the graft of the sender's.
-/

namespace RaftKv

open TermLog

variable {ι : Type}

/-- `n'` came from `n` by rewriting the log only, and every log that was on disk in
between meets `P`. -/
structure RaftNode.Rewrote (P : List LogEntry → Prop) (n n' : RaftNode ι) : Prop where
  term : n'.store.term = n.store.term
  voted : n'.store.voted = n.store.voted
  commit : n'.store.commitIndex = n.store.commitIndex
  applied : n'.store.lastApplied = n.store.lastApplied
  sm : n'.sm = n.sm
  state : n'.state = n.state
  next : n'.nextIndex = n.nextIndex
  matched : n'.matchIndex = n.matchIndex
  trace : ∃ events, n'.trace = n.trace ++ events ∧
    ∀ e ∈ events, ∃ L, P L ∧ e = .wrote ⟨n.store.term, n.store.voted, L⟩

namespace RaftNode

namespace Rewrote

variable {P Q : List LogEntry → Prop} {n n' n'' : RaftNode ι}

theorem refl (n : RaftNode ι) : Rewrote P n n :=
  ⟨rfl, rfl, rfl, rfl, rfl, rfl, rfl, rfl, [], by simp, by simp⟩

theorem trans (h : Rewrote P n n') (h' : Rewrote P n' n'') : Rewrote P n n'' := by
  obtain ⟨evs, htrace, hevs⟩ := h.trace
  obtain ⟨evs', htrace', hevs'⟩ := h'.trace
  refine ⟨h'.term.trans h.term, h'.voted.trans h.voted, h'.commit.trans h.commit,
    h'.applied.trans h.applied, h'.sm.trans h.sm, h'.state.trans h.state,
    h'.next.trans h.next, h'.matched.trans h.matched, evs ++ evs', ?_, ?_⟩
  · rw [htrace', htrace, List.append_assoc]
  · intro e he
    rcases List.mem_append.mp he with he | he
    · exact hevs e he
    · rw [← h.term, ← h.voted]; exact hevs' e he

theorem mono (h : Rewrote P n n') (hPQ : ∀ L, P L → Q L) : Rewrote Q n n' := by
  obtain ⟨evs, htrace, hevs⟩ := h.trace
  refine ⟨h.term, h.voted, h.commit, h.applied, h.sm, h.state, h.next, h.matched,
    evs, htrace, fun e he => ?_⟩
  obtain ⟨L, hL, heq⟩ := hevs e he
  exact ⟨L, hPQ L hL, heq⟩

theorem persist_append (n : RaftNode ι) (e : LogEntry) (hP : P (n.store.log ++ [e])) :
    Rewrote P n (n.persist (n.store.append e)) :=
  ⟨rfl, rfl, rfl, rfl, rfl, rfl, rfl, rfl, _, rfl, by
    intro x hx
    exact ⟨_, hP, List.mem_singleton.mp hx⟩⟩

theorem persist_truncate {n : RaftNode ι} (hwf : n.store.Wf) {m : Nat}
    (hm : m < n.store.log.length) (hP : P (n.store.log.take m)) :
    Rewrote P n (n.persist (n.store.truncate m)) := by
  obtain ⟨-, hlog, hterm, hvoted, hcommit, happlied⟩ := hwf.truncate hm
  refine ⟨hterm, hvoted, hcommit, happlied, rfl, rfl, rfl, rfl, _, rfl, ?_⟩
  intro x hx
  refine ⟨_, hP, ?_⟩
  rw [List.mem_singleton.mp hx, Store.disk, hlog, hterm, hvoted]

end Rewrote

variable {S : List LogEntry}

/-! ## The conflict loop -/

/-- Two logs have entries of different terms at position `m`, counted from 0. -/
def Disagree (F S : List LogEntry) (m : Nat) : Prop :=
  ∃ x y, F[m]? = some x ∧ S[m]? = some y ∧ x.term ≠ y.term

theorem Disagree.not_isPrefix {F S : List LogEntry} {m : Nat} (h : Disagree F S m) :
    ¬ S <+: F := by
  rintro ⟨K, rfl⟩
  obtain ⟨x, y, hx, hy, hne⟩ := h
  rw [List.getElem?_append_left (List.getElem?_eq_some_iff.mp hy).1, hy] at hx
  exact hne (congrArg LogEntry.term (Option.some.inj hx).symm)

theorem disagree_drop {F S : List LogEntry} {k j : Nat} :
    Disagree (F.drop k) (S.drop k) j ↔ Disagree F S (k + j) := by
  simp only [Disagree, List.getElem?_drop]

theorem disagree_cons_succ {F es : List LogEntry} {e : LogEntry} {k j : Nat} :
    Disagree (F.drop k) (e :: es) (j + 1) ↔ Disagree (F.drop (k + 1)) es j := by
  simp only [Disagree, List.getElem?_drop, List.getElem?_cons_succ]
  rw [show k + (j + 1) = k + 1 + j by omega]

theorem exists_first_disagree {F S : List LogEntry} (h : ∃ j, Disagree F S j) :
    ∃ j, Disagree F S j ∧ ∀ i < j, ¬ Disagree F S i := by
  classical exact ⟨Nat.find h, Nat.find_spec h, fun _ hi => Nat.find_min h hi⟩

/-- What one round of the loop tests. -/
theorem conflict_iff {s : Store ι} (hwf : s.Wf) (e : LogEntry) (es : List LogEntry) (k : Nat) :
    (k + 1 ≤ s.logLength ∧ s.getTermAt (k + 1) ≠ e.term) ↔ Disagree (s.log.drop k) (e :: es) 0 := by
  rw [hwf.length, hwf.getTermAt (Nat.le_add_left 1 k), Nat.add_sub_cancel]
  constructor
  · rintro ⟨hle, hne⟩
    have hx : s.log[k]? = some s.log[k] := List.getElem?_eq_getElem hle
    rw [hx] at hne
    exact ⟨s.log[k], e, by rw [List.getElem?_drop]; exact hx, rfl, hne⟩
  · rintro ⟨x, y, hx, hy, hne⟩
    rw [List.getElem?_drop, Nat.add_zero] at hx
    obtain rfl := Option.some.inj hy
    rw [hx]
    exact ⟨(List.getElem?_eq_some_iff.mp hx).1, hne⟩

/-- Past the end of the log the loop does nothing. -/
theorem resolveConflicts_of_lt (n : RaftNode ι) (es : List LogEntry) {idx : Nat}
    (hlt : n.store.logLength < idx) : n.resolveConflicts idx es = n := by
  induction es generalizing idx with
  | nil => rfl
  | cons e es ih =>
    have hskip : ¬ (idx ≤ n.store.logLength ∧ n.store.getTermAt idx ≠ e.term) :=
      fun h => absurd h.1 (Nat.not_le.mpr hlt)
    simp only [resolveConflicts, if_neg hskip]
    exact ih (Nat.lt_succ_of_lt hlt)

theorem resolveConflicts_of_agree (n : RaftNode ι) (hwf : n.store.Wf) (es : List LogEntry) (k : Nat)
    (hagree : ∀ j, ¬ Disagree (n.store.log.drop k) es j) : n.resolveConflicts (k + 1) es = n := by
  induction es generalizing k with
  | nil => rfl
  | cons e es ih =>
    have hskip := mt (conflict_iff hwf e es k).mp (hagree 0)
    simp only [resolveConflicts, if_neg hskip]
    exact ih (k + 1) fun j => mt disagree_cons_succ.mpr (hagree (j + 1))

/-- The loop truncates at the first disagreement and at no other place. -/
theorem resolveConflicts_of_disagree (n : RaftNode ι) (hwf : n.store.Wf) (es : List LogEntry)
    (k j : Nat) (hdis : Disagree (n.store.log.drop k) es j)
    (hfirst : ∀ i < j, ¬ Disagree (n.store.log.drop k) es i) :
    n.resolveConflicts (k + 1) es = n.persist (n.store.truncate (k + j)) := by
  induction es generalizing k j with
  | nil =>
    obtain ⟨x, y, -, hy, -⟩ := hdis
    cases hy
  | cons e es ih =>
    cases j with
    | zero =>
      have hcut := (conflict_iff hwf e es k).mpr hdis
      have hlt : k < n.store.log.length := hwf.length ▸ hcut.1
      obtain ⟨hwf', hlog', -⟩ := hwf.truncate hlt
      simp only [resolveConflicts, if_pos hcut, Nat.add_sub_cancel, Nat.add_zero]
      -- the log now ends before every later position of the batch
      apply resolveConflicts_of_lt
      have hlen : (n.store.truncate k).logLength = k := by
        rw [hwf'.length, hlog', List.length_take, Nat.min_eq_left hlt.le]
      show (n.store.truncate k).logLength < k + 1 + 1
      omega
    | succ j =>
      have hskip := mt (conflict_iff hwf e es k).mp (hfirst 0 (Nat.succ_pos j))
      simp only [resolveConflicts, if_neg hskip]
      rw [ih (k + 1) j (disagree_cons_succ.mp hdis)
        fun i hi => mt disagree_cons_succ.mpr (hfirst (i + 1) (Nat.succ_lt_succ hi))]
      rw [show k + 1 + j = k + (j + 1) by omega]

/-! ## The append loop -/

/-- The entries carry the positions from `p` on. -/
def IndexedFrom (p : Nat) (es : List LogEntry) : Prop :=
  ∀ i e, es[i]? = some e → e.index = p + 1 + i

theorem indexedFrom_drop {S : List LogEntry} (hS : Indexed S) (p : Nat) : IndexedFrom p (S.drop p) := by
  intro i e he
  rw [List.getElem?_drop] at he
  have hindex := hS (p + i) e he
  omega

/-- An entry is appended when its position is the next one, and skipped when the log reaches
it. -/
theorem appendNew_spec (n : RaftNode ι) (hwf : n.store.Wf) (es : List LogEntry) (p : Nat)
    (hidx : IndexedFrom p es) (hp : p ≤ n.store.log.length) :
    (n.appendNew es).store.log = n.store.log ++ es.drop (n.store.log.length - p) ∧
      (n.appendNew es).store.Wf ∧
      Rewrote (· <+: n.store.log ++ es.drop (n.store.log.length - p)) n (n.appendNew es) := by
  induction es generalizing p n with
  | nil => exact ⟨by simp [appendNew], hwf, Rewrote.refl n⟩
  | cons e es ih =>
    have hindex : e.index = p + 1 := hidx 0 e rfl
    have hrest : IndexedFrom (p + 1) es := by
      intro i x hx
      have hx' := hidx (i + 1) x hx
      omega
    rcases Nat.eq_or_lt_of_le hp with heq | hlt
    · -- the entry is the next one
      have hnew : e.index > n.store.logLength := by rw [hwf.length]; omega
      have hstep := ih (n.persist (n.store.append e)) (hwf.append (by omega)) (p + 1) hrest
        (by simp [persist]; omega)
      have hdrop : (n.persist (n.store.append e)).store.log ++
          es.drop ((n.persist (n.store.append e)).store.log.length - (p + 1)) =
            n.store.log ++ (e :: es).drop (n.store.log.length - p) := by
        simp [persist, heq]
      rw [hdrop] at hstep
      obtain ⟨hlog, hwf', hrw⟩ := hstep
      simp only [appendNew, if_pos hnew]
      refine ⟨hlog, hwf', (Rewrote.persist_append n e ?_).trans hrw⟩
      rw [heq, Nat.sub_self, List.drop_zero]
      exact ⟨es, (List.append_cons ..).symm⟩
    · have hskip : ¬ e.index > n.store.logLength := by rw [hwf.length]; omega
      have hstep := ih n hwf (p + 1) hrest hlt
      rw [show n.store.log.length - p = n.store.log.length - (p + 1) + 1 by omega, List.drop_succ_cons]
      simp only [appendNew, if_neg hskip]
      exact hstep

/-! ## Both loops -/

variable {es : List LogEntry} {p : Nat}

/-- Without a disagreement the log gains the entries it does not reach. -/
theorem merge_of_agree (n : RaftNode ι) (hwf : n.store.Wf) (hidx : IndexedFrom p es)
    (hp : p ≤ n.store.log.length) (hagree : ∀ j, ¬ Disagree (n.store.log.drop p) es j) :
    let n' := (n.resolveConflicts (p + 1) es).appendNew es
    n'.store.log = n.store.log ++ es.drop (n.store.log.length - p) ∧ n'.store.Wf ∧
      Rewrote (· <+: n.store.log ++ es.drop (n.store.log.length - p)) n n' := by
  intro n'
  simp only [n', resolveConflicts_of_agree n hwf es p hagree]
  exact appendNew_spec n hwf es p hidx hp

/-- At the first disagreement the log is cut, and takes over the rest of the batch. -/
theorem merge_of_disagree (n : RaftNode ι) (hwf : n.store.Wf) (hidx : IndexedFrom p es) {j : Nat}
    (hdis : Disagree (n.store.log.drop p) es j)
    (hfirst : ∀ i < j, ¬ Disagree (n.store.log.drop p) es i) :
    let n' := (n.resolveConflicts (p + 1) es).appendNew es
    n'.store.log = n.store.log.take (p + j) ++ es.drop j ∧ n'.store.Wf ∧
      Rewrote (· <+: n.store.log.take (p + j) ++ es.drop j) n n' := by
  intro n'
  have hlt : p + j < n.store.log.length := by
    obtain ⟨x, y, hx, -⟩ := hdis
    rw [List.getElem?_drop] at hx
    exact (List.getElem?_eq_some_iff.mp hx).1
  obtain ⟨hwf₁, hlog₁, -⟩ := hwf.truncate hlt
  have hlen : (n.store.truncate (p + j)).log.length = p + j := by
    rw [hlog₁, List.length_take, Nat.min_eq_left hlt.le]
  obtain ⟨hlog, hwf', hrw⟩ := appendNew_spec (n.persist (n.store.truncate (p + j))) hwf₁ es p hidx
    (show p ≤ (n.store.truncate (p + j)).log.length by omega)
  have hdrop : (n.persist (n.store.truncate (p + j))).store.log ++
      es.drop ((n.persist (n.store.truncate (p + j))).store.log.length - p) =
        n.store.log.take (p + j) ++ es.drop j := by
    show (n.store.truncate (p + j)).log ++ es.drop ((n.store.truncate (p + j)).log.length - p) = _
    rw [hlen, hlog₁, Nat.add_sub_cancel_left]
  rw [hdrop] at hlog hrw
  simp only [n', resolveConflicts_of_disagree n hwf es p j hdis hfirst]
  exact ⟨hlog, hwf', (Rewrote.persist_truncate hwf hlt (List.prefix_append _ _)).trans hrw⟩

theorem merge_spec (n : RaftNode ι) (hwf : n.store.Wf) (hmatch : Matching LogEntry.term n.store.log S)
    (hidx : Indexed S) (hp : p ≤ n.store.log.length) (hagree : n.store.log.take p <+: S) :
    let n' := (n.resolveConflicts (p + 1) (S.drop p)).appendNew (S.drop p)
    n'.store.log = graft n.store.log S ∧ n'.store.Wf ∧
      Rewrote (fun L => L <+: n.store.log ∨ L <+: S) n n' := by
  intro n'
  by_cases hconflict : ∃ j, Disagree (n.store.log.drop p) (S.drop p) j
  · obtain ⟨j, hdis, hfirst⟩ := exists_first_disagree hconflict
    have hnot : ¬ S <+: n.store.log := (disagree_drop.mp hdis).not_isPrefix
    have hcut : n.store.log.take (p + j) <+: S := by
      refine (hmatch.take_prefix_or hagree ?_).resolve_right hnot
      intro k x y hpk hkj hx hy
      by_contra hne
      refine hfirst (k - p) (by omega) (disagree_drop.mpr ⟨x, y, ?_, ?_, hne⟩)
      · rwa [Nat.add_sub_cancel' hpk]
      · rwa [Nat.add_sub_cancel' hpk]
    have hlen : (n.store.log.take (p + j)).length = p + j := by
      obtain ⟨x, y, hx, -⟩ := disagree_drop.mp hdis
      rw [List.length_take, Nat.min_eq_left (List.getElem?_eq_some_iff.mp hx).1.le]
    have hjoin : n.store.log.take (p + j) ++ (S.drop p).drop j = S := by
      have h := List.prefix_iff_eq_append.mp hcut
      rwa [hlen, ← List.drop_drop] at h
    obtain ⟨hlog, hwf', hrw⟩ := merge_of_disagree n hwf (indexedFrom_drop hidx p) hdis hfirst
    rw [hjoin] at hlog hrw
    exact ⟨by simp [n', graft, hnot, hlog], hwf', hrw.mono fun _ h => Or.inr h⟩
  · obtain ⟨hlog, hwf', hrw⟩ := merge_of_agree n hwf (indexedFrom_drop hidx p) hp
      fun j hj => hconflict ⟨j, hj⟩
    have hjoin : n.store.log ++ (S.drop p).drop (n.store.log.length - p) = graft n.store.log S := by
      rw [List.drop_drop, Nat.add_sub_cancel' hp]
      by_cases hS : S <+: n.store.log
      · rw [List.drop_eq_nil_of_le hS.length_le, List.append_nil, graft, if_pos hS]
      · rw [graft, if_neg hS]
        refine List.prefix_iff_eq_append.mp ?_
        have hall := hmatch.take_prefix_or (m := n.store.log.length) hagree ?_
        · rw [List.take_length] at hall
          exact hall.resolve_right hS
        · intro k x y hpk _ hx hy
          by_contra hne
          refine hconflict ⟨k - p, disagree_drop.mpr ⟨x, y, ?_, ?_, hne⟩⟩
          · rwa [Nat.add_sub_cancel' hpk]
          · rwa [Nat.add_sub_cancel' hpk]
    rw [hjoin] at hlog hrw
    refine ⟨hlog, hwf', hrw.mono fun L hL => ?_⟩
    rcases graft_eq_or n.store.log S with heq | ⟨-, heq⟩
    · exact Or.inl (heq ▸ hL)
    · exact Or.inr (heq ▸ hL)

end RaftNode

/-! ## The message -/

/-- `rpc` was built from a sender in `term` with log `S`, from position `prevLogIndex` on. -/
structure AppendEntries.Carries (rpc : AppendEntries ι) (S : List LogEntry) : Prop where
  entries : rpc.entries = S.drop rpc.prevLogIndex
  prevTerm : rpc.prevLogIndex > 0 →
    rpc.prevLogTerm = (S[rpc.prevLogIndex - 1]?.map (·.term)).getD 0

namespace RaftNode

theorem buildAppendEntries_carries (self peer : ι) (n : RaftNode ι)
    (hwf : n.store.Wf) (hnext : 1 ≤ n.nextIndex peer) :
    (n.buildAppendEntries self peer).Carries n.store.log where
  entries := by
    have hlen := hwf.length
    simp only [buildAppendEntries]
    split
    · exact hwf.readFrom hnext
    · rw [List.drop_eq_nil_of_le (by omega)]
  prevTerm := by
    intro hpos
    simp only [buildAppendEntries] at hpos ⊢
    rw [if_neg (by omega), hwf.getTermAt (by omega)]

/-- What the log matching check finds out. -/
theorem prevMatches_iff {s : Store ι} (hwf : s.Wf) (rpc : AppendEntries ι) :
    prevMatches s rpc = true ↔ rpc.prevLogIndex = 0 ∨
      ∃ x, 0 < rpc.prevLogIndex ∧ s.log[rpc.prevLogIndex - 1]? = some x ∧ x.term = rpc.prevLogTerm := by
  unfold prevMatches
  split
  · rename_i hpos
    rw [Bool.and_eq_true, decide_eq_true_eq, decide_eq_true_eq, hwf.length, hwf.getTermAt hpos]
    constructor
    · rintro ⟨hle, hterm⟩
      have hx : s.log[rpc.prevLogIndex - 1]? = some s.log[rpc.prevLogIndex - 1] :=
        List.getElem?_eq_getElem (by omega)
      rw [hx] at hterm
      exact Or.inr ⟨_, hpos, hx, hterm⟩
    · rintro (hzero | ⟨x, -, hx, hterm⟩)
      · omega
      · have hlt := (List.getElem?_eq_some_iff.mp hx).1
        rw [hx]
        exact ⟨by omega, hterm⟩
  · exact ⟨fun _ => Or.inl (by omega), fun _ => rfl⟩

/-- A passed check, when the sender has the entry it names: the logs agree up to the batch. -/
theorem agree_of_prevMatches {s : Store ι} (hwf : s.Wf) (hmatch : Matching LogEntry.term s.log S)
    {rpc : AppendEntries ι} (hrpc : rpc.Carries S) (hle : rpc.prevLogIndex ≤ S.length)
    (h : prevMatches s rpc = true) :
    rpc.prevLogIndex ≤ s.log.length ∧ s.log.take rpc.prevLogIndex <+: S := by
  rcases (prevMatches_iff hwf rpc).mp h with hzero | ⟨x, hpos, hx, hterm⟩
  · simp [hzero]
  · have hlt := (List.getElem?_eq_some_iff.mp hx).1
    have hy : S[rpc.prevLogIndex - 1]? = some S[rpc.prevLogIndex - 1] :=
      List.getElem?_eq_getElem (by omega)
    rw [hrpc.prevTerm hpos, hy] at hterm
    have htake := hmatch hx hy hterm
    rw [Nat.sub_add_cancel hpos] at htake
    exact ⟨by omega, htake ▸ List.take_prefix _ _⟩

/-- The same without that assumption, where every term is positive: the check compares with 0
what the sender does not have. -/
theorem prevMatches_spec {s : Store ι} (hwf : s.Wf) (hmatch : Matching LogEntry.term s.log S)
    (hpos : ∀ x ∈ s.log, 0 < x.term) {rpc : AppendEntries ι} (hrpc : rpc.Carries S)
    (h : prevMatches s rpc = true) :
    rpc.prevLogIndex ≤ s.log.length ∧ s.log.take rpc.prevLogIndex <+: S := by
  refine agree_of_prevMatches hwf hmatch hrpc ?_ h
  rcases (prevMatches_iff hwf rpc).mp h with hzero | ⟨x, hprev, hx, hterm⟩
  · omega
  · by_contra hlt
    have hnone : S[rpc.prevLogIndex - 1]? = none := List.getElem?_eq_none (by omega)
    rw [hrpc.prevTerm hprev, hnone] at hterm
    have hxpos := hpos x (List.mem_of_getElem? hx)
    simp only [Option.map_none, Option.getD_none] at hterm
    omega

end RaftNode

end RaftKv
