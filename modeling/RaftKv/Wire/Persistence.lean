-- SUMMARY: The byte-level store against its purpose: a term, a vote and a list of records that survive closing and reopening.
import RaftKv.Wire.Recovery

/-!
# The store as a persistent triple

What `Storage` is for: to remember a term, a vote and a list of records (`Persistent`). The
byte-level store stays in step with that triple under every operation, `reopen` included.
The invariant is `Holds` for the log file, and for `raft.meta` that it loads to the term and
the vote in memory.
-/

namespace RaftKv.Wire

open Decoder

/-- The term, the vote and the log, with no thought of files. -/
structure Persistent where
  term : UInt64
  voted : Bytes
  entries : List LogEntry

def Persistent.empty : Persistent := { term := 0, voted := [], entries := [] }

inductive StoreOp where
  | setTerm (t : UInt64)
  | setVoted (v : Bytes)
  | append (entry : LogEntry)
  | truncate (keepUpToIndex : UInt64)
  | reopen

namespace StoreOp

/-- What an operation means for the triple. -/
def effect (p : Persistent) : StoreOp → Persistent
  | setTerm t => { p with term := t }
  | setVoted v => { p with voted := v }
  | append entry => { p with entries := p.entries ++ [entry] }
  | truncate keepUpToIndex => { p with entries := p.entries.take keepUpToIndex.toNat }
  | reopen => p

/-- A vote fits its length field, and an appended record is intact and carries the next
index. -/
def Allowed (p : Persistent) : StoreOp → Prop
  | setVoted v => v.length < 2 ^ 32
  | append entry => entry.Intact ∧ entry.index.toNat = p.entries.length + 1
  | _ => True

def AllAllowed (p : Persistent) : List StoreOp → Prop
  | [] => True
  | op :: ops => op.Allowed p ∧ AllAllowed (op.effect p) ops

variable [Host]

/-- The same operation on the files. -/
def perform (s : Storage) : StoreOp → Result Storage
  | setTerm t => .ok (s.setTerm t)
  | setVoted v => .ok (s.setVoted v)
  | append entry => .ok (s.append entry)
  | truncate keepUpToIndex => s.truncate keepUpToIndex
  | reopen => Storage.reopen s.files

def performAll (s : Storage) (ops : List StoreOp) : Result Storage :=
  ops.foldlM perform s

end StoreOp

namespace Storage

def getTerm (s : Storage) : UInt64 := s.term

def getVoted (s : Storage) : Bytes := s.voted

def getLastLogIndex (s : Storage) : UInt64 := s.logLength

section

variable [Host]

/-- Every getter and reader answers as the triple says. -/
structure Agrees (s : Storage) (p : Persistent) : Prop where
  getTerm : s.getTerm = p.term
  getVoted : s.getVoted = p.voted
  getLastLogIndex : s.getLastLogIndex.toNat = p.entries.length
  serves : s.Serves p.entries

/-- `raft.meta` loads to this term and this vote. -/
def MetaLoads (files : Files) (term : UInt64) (voted : Bytes) : Prop :=
  ∀ s : Storage, s.files.metaData = files.metaData →
    (loadMeta s).term = term ∧ (loadMeta s).voted = voted

structure InStep (s : Storage) (p : Persistent) : Prop where
  log : s.Holds p.entries
  numbered : Numbered p.entries
  term : s.term = p.term
  voted : s.voted = p.voted
  saved : MetaLoads s.files p.term p.voted
  short : p.voted.length < 2 ^ 32

variable {s : Storage} {p : Persistent}

theorem InStep.agrees (h : s.InStep p) : s.Agrees p where
  getTerm := h.term
  getVoted := h.voted
  getLastLogIndex := h.log.length
  serves := h.log.serves

/-- `saveMeta` makes the file agree with memory. -/
theorem metaLoads_saveMeta (s : Storage) (h : s.voted.length < 2 ^ 32) :
    MetaLoads (saveMeta s).files s.term s.voted := by
  intro t ht
  exact loadMeta_saveMeta s t h ht

/-! ## One operation -/

theorem InStep.setTerm (h : s.InStep p) (t : UInt64) :
    (s.setTerm t).InStep { p with term := t } where
  log := ⟨h.log.file, h.log.intact, h.log.length, h.log.last⟩
  numbered := h.numbered
  term := rfl
  voted := h.voted
  saved := by
    have hshort : s.voted.length < 2 ^ 32 := h.voted ▸ h.short
    have hsaved := metaLoads_saveMeta { s with term := t } hshort
    rw [← h.voted]
    exact hsaved
  short := h.short

theorem InStep.setVoted (h : s.InStep p) {v : Bytes} (hv : v.length < 2 ^ 32) :
    (s.setVoted v).InStep { p with voted := v } where
  log := ⟨h.log.file, h.log.intact, h.log.length, h.log.last⟩
  numbered := h.numbered
  term := h.term
  voted := rfl
  saved := by
    have hsaved := metaLoads_saveMeta { s with voted := v } hv
    rw [← h.term]
    exact hsaved
  short := hv

/-- After a change of the log that ends in `saveMeta`. -/
theorem InStep.of_log (h : s.InStep p) {s' : Storage} {entries : List LogEntry}
    (hlog : (saveMeta s').Holds entries) (hnum : Numbered entries) (hterm : s'.term = s.term)
    (hvoted : s'.voted = s.voted) : (saveMeta s').InStep { p with entries := entries } where
  log := hlog
  numbered := hnum
  term := hterm.trans h.term
  voted := hvoted.trans h.voted
  saved := by
    have hshort : s'.voted.length < 2 ^ 32 := by
      rw [hvoted, h.voted]
      exact h.short
    have hsaved := metaLoads_saveMeta s' hshort
    rw [← h.term, ← h.voted, ← hterm, ← hvoted]
    exact hsaved
  short := h.short

theorem InStep.append (h : s.InStep p) {entry : LogEntry} (hentry : entry.Intact)
    (hindex : entry.index.toNat = p.entries.length + 1) :
    (s.append entry).InStep { p with entries := p.entries ++ [entry] } :=
  h.of_log (h.log.append hentry hindex) (h.numbered.concat hindex) rfl rfl

theorem InStep.truncate (h : s.InStep p) (k : UInt64) :
    ∃ s', s.truncate k = .ok s' ∧ s'.InStep { p with entries := p.entries.take k.toNat } := by
  by_cases hcut : k.toNat < p.entries.length
  · obtain ⟨s', htrunc, hholds, hterm, hvoted⟩ := h.log.truncate hcut
    exact ⟨_, htrunc, h.of_log hholds (h.numbered.take _) hterm hvoted⟩
  · refine ⟨s, h.log.truncate_of_length_le (Nat.le_of_not_lt hcut), ?_⟩
    rw [List.take_of_length_le (Nat.le_of_not_lt hcut)]
    exact h

/-- What the constructor loads from `raft.meta` it keeps, in memory and on disk. -/
theorem reopen_meta {files : Files} {term : UInt64} {voted : Bytes}
    (hopen : reopen files = .ok s) (hloads : MetaLoads files term voted)
    (hshort : voted.length < 2 ^ 32) :
    s.term = term ∧ s.voted = voted ∧ MetaLoads s.files term voted := by
  obtain ⟨hterm, hvoted⟩ : (loaded files).term = term ∧ (loaded files).voted = voted := hloads _ rfl
  have hfiles : (loaded files).files = files := by rw [loaded, loadMeta_files]
  obtain ⟨entries, -, ⟨-, rfl⟩ | ⟨entry, -, rfl⟩⟩ := reopen_cases hopen
  · exact ⟨hterm, hvoted, hfiles.symm ▸ hloads⟩
  · have hsaved := metaLoads_saveMeta
      { loaded files with logLength := entry.index, lastLogTerm := entry.term } (hvoted ▸ hshort)
    rw [← hterm, ← hvoted]
    exact ⟨rfl, rfl, hsaved⟩

theorem InStep.reopen (h : s.InStep p) :
    ∃ s', Storage.reopen s.files = .ok s' ∧ s'.InStep p := by
  obtain ⟨s', hopen, hlog⟩ := reopen_holds h.log.file h.log.intact h.numbered
  obtain ⟨hterm, hvoted, hsaved⟩ := reopen_meta hopen h.saved h.short
  exact ⟨s', hopen, hlog, h.numbered, hterm, hvoted, hsaved, h.short⟩

/-- The step lemma: any allowed operation succeeds and keeps the two in step. -/
theorem InStep.perform (h : s.InStep p) {op : StoreOp} (hop : op.Allowed p) :
    ∃ s', op.perform s = .ok s' ∧ s'.InStep (op.effect p) := by
  cases op with
  | setTerm t => exact ⟨_, rfl, h.setTerm t⟩
  | setVoted v => exact ⟨_, rfl, h.setVoted hop⟩
  | append entry => exact ⟨_, rfl, h.append hop.1 hop.2⟩
  | truncate k => exact h.truncate k
  | reopen => exact h.reopen

/-! ## Every sequence of operations -/

/-- The run lemma, by induction on the operations. -/
theorem InStep.performAll {ops : List StoreOp} (h : s.InStep p) (hops : StoreOp.AllAllowed p ops) :
    ∃ s', StoreOp.performAll s ops = .ok s' ∧ s'.InStep (ops.foldl StoreOp.effect p) := by
  induction ops generalizing s p with
  | nil => exact ⟨s, rfl, h⟩
  | cons op ops ih =>
    obtain ⟨s₁, hstep, h₁⟩ := h.perform hops.1
    obtain ⟨s', hrun, h'⟩ := ih h₁ hops.2
    refine ⟨s', ?_, h'⟩
    rw [StoreOp.performAll, List.foldlM_cons, hstep]
    exact hrun

/-- An empty directory opens to the empty triple. -/
theorem reopen_empty : ∃ s, Storage.reopen ⟨[], none⟩ = .ok s ∧ s.InStep .empty := by
  have hfile : (⟨[], none⟩ : Files).log = encodeLog [] := rfl
  obtain ⟨s, hopen, hlog⟩ := reopen_holds hfile (by simp) Numbered.nil
  have hloads : MetaLoads ⟨[], none⟩ 0 [] := by
    intro t ht
    unfold loadMeta
    rw [ht]
    exact ⟨rfl, rfl⟩
  obtain ⟨hterm, hvoted, hsaved⟩ := reopen_meta hopen hloads (by decide)
  exact ⟨s, hopen, hlog, Numbered.nil, hterm, hvoted, hsaved, by decide⟩

/-- From an empty directory, after every sequence of allowed operations, no operation has
failed and the store answers every question as the triple does. -/
theorem refines_persistent (ops : List StoreOp) (hops : StoreOp.AllAllowed .empty ops) :
    ∃ s₀ s, Storage.reopen ⟨[], none⟩ = .ok s₀ ∧ StoreOp.performAll s₀ ops = .ok s ∧
      s.Agrees (ops.foldl StoreOp.effect .empty) := by
  obtain ⟨s₀, hopen, h₀⟩ := reopen_empty
  obtain ⟨s, hrun, h⟩ := h₀.performAll hops
  exact ⟨s₀, s, hopen, hrun, h.agrees⟩

end

/-- A term, a vote, two records, the second cut off again, and a reopen. -/
theorem refines_persistent_cut :
    let ops : List StoreOp := [.setTerm 1, .setVoted [50], .append (noopEntry 1 1),
      .append (noopEntry 1 2), .truncate 1, .reopen]
    ∃ s₀ s, Storage.reopen ⟨[], none⟩ = .ok s₀ ∧ StoreOp.performAll s₀ ops = .ok s ∧
      s.Agrees (ops.foldl StoreOp.effect .empty) := by
  intro ops
  have hvote : ([50] : Bytes).length < 2 ^ 32 := by decide
  refine refines_persistent ops ⟨trivial, hvote, ?_, ?_, trivial, trivial, trivial⟩
  · exact ⟨noopEntry_intact 1 1, rfl⟩
  · exact ⟨noopEntry_intact 1 2, rfl⟩

end Storage

end RaftKv.Wire
