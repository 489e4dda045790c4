-- SUMMARY: What a log file must hold for the store to serve its records, and which crashes during an append it recovers from.
import RaftKv.Wire.Storage

/-!
# Recovery

`Holds` is the invariant of a store on an undamaged file. It is established by
`reopen`, kept by `append`, and gives the answer of every read.
-/

namespace RaftKv.Wire

/-- The record at position `i`, counted from 1, carries index `i`. -/
def Numbered (entries : List LogEntry) : Prop :=
  ∀ i entry, entries[i]? = some entry → entry.index.toNat = i + 1

/-- The term of the last record, and 0 for an empty log. -/
def lastTerm (entries : List LogEntry) : UInt64 := (entries.getLast?.map (·.term)).getD 0

/-- The term at position `i`, and 0 outside the log. -/
def termAt (entries : List LogEntry) (i : Nat) : UInt64 :=
  if i = 0 then 0 else (entries[i - 1]?.map (·.term)).getD 0

/-- The records from position `i` on. -/
def entriesFrom (entries : List LogEntry) (i : Nat) : List LogEntry :=
  if i = 0 then [] else entries.drop (i - 1)

/-- The records at positions `i` to `j`, if the log has them all. -/
def entriesBetween (entries : List LogEntry) (i j : Nat) : List LogEntry :=
  if 1 ≤ i ∧ i ≤ j ∧ j ≤ entries.length then (entries.take j).drop (i - 1) else []

theorem Numbered.nil : Numbered [] := by
  intro i entry hi
  cases hi

theorem Numbered.of_append {entries more : List LogEntry} (h : Numbered (entries ++ more)) :
    Numbered entries := by
  intro i entry hi
  obtain ⟨hlt, -⟩ := List.getElem?_eq_some_iff.mp hi
  exact h i entry (by rw [List.getElem?_append_left hlt, hi])

theorem Numbered.take {entries : List LogEntry} (h : Numbered entries) (k : Nat) :
    Numbered (entries.take k) := by
  rw [← List.take_append_drop k entries] at h
  exact h.of_append

theorem Numbered.concat {entries : List LogEntry} {entry : LogEntry} (h : Numbered entries)
    (hindex : entry.index.toNat = entries.length + 1) : Numbered (entries ++ [entry]) := by
  intro i e he
  rcases Nat.lt_trichotomy i entries.length with hlt | heq | hgt
  · rw [List.getElem?_append_left hlt] at he
    exact h i e he
  · subst heq
    rw [List.getElem?_concat_length] at he
    cases he
    exact hindex
  · have hlen := (List.getElem?_eq_some_iff.mp he).1
    rw [List.length_append, List.length_singleton] at hlen
    omega

theorem Numbered.last {entries : List LogEntry} {entry : LogEntry}
    (h : Numbered (entries ++ [entry])) : entry.index.toNat = entries.length + 1 :=
  h entries.length entry List.getElem?_concat_length

theorem lastTerm_concat (entries : List LogEntry) (entry : LogEntry) :
    lastTerm (entries ++ [entry]) = entry.term := by
  rw [lastTerm, List.getLast?_concat]
  rfl

/-- The host of the runs on fixed inputs. -/
instance (priority := low) littleEndianHost : Host where
  littleEndian := true

namespace Storage

section

variable [Host]

/-- The store answers every question as the log `entries` says. -/
structure Serves (s : Storage) (entries : List LogEntry) : Prop where
  logLen : s.logLen.toNat = entries.length
  lastLogTerm : s.getLastLogTerm = lastTerm entries
  readAll : s.readAll = .ok entries
  getTermAt : ∀ index, s.getTermAt index = .ok (termAt entries index.toNat)
  readFrom : ∀ start, s.readFrom start = .ok (entriesFrom entries start.toNat)
  readRange : ∀ start stop,
    s.readRange start stop = .ok (entriesBetween entries start.toNat stop.toNat)

/-- The file is undamaged and the cached fields belong to its last record. -/
structure Holds (s : Storage) (entries : List LogEntry) : Prop where
  file : s.files.log = encodeLog entries
  intact : ∀ e ∈ entries, e.Intact
  length : s.logLength.toNat = entries.length
  last : s.lastLogTerm = lastTerm entries

variable {s : Storage} {entries : List LogEntry}

/-! ## What the constructor returns -/

/-- The store once `raft.meta` is loaded. -/
def loaded (files : Files) : Storage :=
  loadMeta
    { files, term := 0, lastLogTerm := 0, voted := [], logLength := 0, commitIndex := 0, lastApplied := 0 }

theorem reopen_cases {files : Files} (hopen : reopen files = .ok s) :
    ∃ entries, (loaded files).readAll = .ok entries ∧
      (entries.getLast? = none ∧ s = loaded files ∨
        ∃ entry, entries.getLast? = some entry ∧
          s = saveMeta { loaded files with logLength := entry.index, lastLogTerm := entry.term }) := by
  rw [reopen] at hopen
  change ((loaded files).readAll >>= _) = _ at hopen
  cases hread : (loaded files).readAll with
  | error e =>
    rw [hread] at hopen
    cases hopen
  | ok entries =>
    rw [hread] at hopen
    refine ⟨entries, rfl, ?_⟩
    cases hlast : entries.getLast? with
    | none =>
      simp only [bind, Except.bind, hlast] at hopen
      cases hopen
      exact .inl ⟨rfl, rfl⟩
    | some entry =>
      simp only [bind, Except.bind, hlast] at hopen
      cases hopen
      exact .inr ⟨entry, rfl, rfl⟩

theorem reopen_log {files : Files} (hopen : reopen files = .ok s) : s.files.log = files.log := by
  have hloaded : (loaded files).files.log = files.log := by rw [loaded, loadMeta_files]
  obtain ⟨entries, -, ⟨-, rfl⟩ | ⟨entry, -, rfl⟩⟩ := reopen_cases hopen
  · exact hloaded
  · exact hloaded

/-! ## Establishing and keeping the invariant -/

theorem reopen_holds {files : Files} (hfile : files.log = encodeLog entries)
    (hintact : ∀ e ∈ entries, e.Intact) (hnum : Numbered entries) :
    ∃ s, reopen files = .ok s ∧ s.Holds entries := by
  let s₀ := loaded files
  have hlog : s₀.files.log = encodeLog entries := by
    rw [show s₀ = loaded files from rfl, loaded, loadMeta_files]
    exact hfile
  have hread : s₀.readAll = .ok entries := by
    rw [readAll, hlog, readLog_encodeLog hintact]
  rcases List.eq_nil_or_concat' entries with rfl | ⟨init, entry, rfl⟩
  · have hopen : reopen files = .ok s₀ := by
      rw [reopen]
      show (s₀.readAll >>= _) = _
      rw [hread]
      rfl
    refine ⟨s₀, hopen, hlog, hintact, ?_, ?_⟩
    · exact congrArg UInt64.toNat (loadMeta_logLength _)
    · exact loadMeta_lastLogTerm _
  · have hopen : reopen files =
        .ok (saveMeta { s₀ with logLength := entry.index, lastLogTerm := entry.term }) := by
      rw [reopen]
      show (s₀.readAll >>= _) = _
      rw [hread]
      simp only [bind, Except.bind, List.getLast?_concat]
      rfl
    refine ⟨_, hopen, hlog, hintact, ?_, ?_⟩
    · rw [saveMeta_logLength, List.length_append, List.length_singleton]
      exact hnum.last
    · rw [saveMeta_lastLogTerm, lastTerm_concat]

theorem Holds.append {entry : LogEntry} (h : s.Holds entries) (hentry : entry.Intact)
    (hindex : entry.index.toNat = entries.length + 1) :
    (s.append entry).Holds (entries ++ [entry]) where
  file := by
    rw [encodeLog_concat, ← h.file]
    rfl
  intact e he := by
    rcases List.mem_append.mp he with he | he
    · exact h.intact e he
    · rwa [List.mem_singleton.mp he]
  length := by
    rw [List.length_append, List.length_singleton, ← hindex]
    rfl
  last := by
    rw [lastTerm_concat]
    rfl

/-- The run of `append`s: induction over the records, the invariant carried by
`Holds.append`. -/
theorem Holds.appendAll {more : List LogEntry} (h : s.Holds entries)
    (hmore : ∀ e ∈ more, e.Intact) (hnum : Numbered (entries ++ more)) :
    (more.foldl Storage.append s).Holds (entries ++ more) := by
  induction more generalizing s entries with
  | nil => rwa [List.append_nil]
  | cons entry more ih =>
    have hsplit : entries ++ entry :: more = (entries ++ [entry]) ++ more := List.append_cons ..
    rw [hsplit] at hnum ⊢
    have hentry := hmore entry List.mem_cons_self
    have hstep := h.append hentry hnum.of_append.last
    exact ih hstep (fun e he => hmore e (List.mem_cons_of_mem entry he)) hnum

/-! ## What the reads return -/

theorem Holds.readAll (h : s.Holds entries) : s.readAll = .ok entries := by
  rw [Storage.readAll, h.file, readLog_encodeLog h.intact]

theorem Holds.getTermAt (h : s.Holds entries) (index : UInt64) :
    s.getTermAt index = .ok (termAt entries index.toNat) := by
  have hzero : index = 0 ↔ index.toNat = 0 := UInt64.toNat_inj.symm
  have hlen : index > s.logLength ↔ index.toNat > entries.length := by
    rw [gt_iff_lt, UInt64.lt_iff_toNat_lt, h.length]
  rw [Storage.getTermAt, termAt]
  split
  · rename_i hout
    rw [hzero, hlen] at hout
    split
    · rfl
    · rename_i hpos
      have hnone : entries[index.toNat - 1]? = none := List.getElem?_eq_none (by omega)
      rw [hnone]
      rfl
  · rename_i hin
    rw [hzero, hlen] at hin
    rw [h.readAll, if_neg (by omega)]
    show (if index.toNat ≤ entries.length then _ else _) = _
    rw [if_pos (by omega)]
    rfl

theorem Holds.readFrom (h : s.Holds entries) (start : UInt64) :
    s.readFrom start = .ok (entriesFrom entries start.toNat) := by
  have hone : start < 1 ↔ start.toNat < 1 := UInt64.lt_iff_toNat_lt
  have hlen : start > s.logLength ↔ start.toNat > entries.length := by
    rw [gt_iff_lt, UInt64.lt_iff_toNat_lt, h.length]
  rw [Storage.readFrom, entriesFrom]
  split
  · rename_i hout
    rw [hone, hlen] at hout
    split
    · rfl
    · rw [List.drop_eq_nil_of_le (by omega)]
  · rename_i hin
    rw [hone, hlen] at hin
    rw [h.readAll, if_neg (by omega)]
    show (if start.toNat > entries.length then _ else _) = _
    rw [if_neg (by omega)]
    rfl

theorem Holds.readRange (h : s.Holds entries) (start stop : UInt64) :
    s.readRange start stop = .ok (entriesBetween entries start.toNat stop.toNat) := by
  have hone : start < 1 ↔ start.toNat < 1 := UInt64.lt_iff_toNat_lt
  have horder : stop < start ↔ stop.toNat < start.toNat := UInt64.lt_iff_toNat_lt
  have hlen : stop > s.logLength ↔ stop.toNat > entries.length := by
    rw [gt_iff_lt, UInt64.lt_iff_toNat_lt, h.length]
  rw [Storage.readRange, entriesBetween]
  split
  · rename_i hout
    rw [hone, horder, hlen] at hout
    rw [if_neg (by omega)]
  · rename_i hin
    rw [hone, horder, hlen] at hin
    rw [h.readAll, if_pos (by omega)]
    show (if stop.toNat > entries.length then _ else _) = _
    rw [if_neg (by omega)]
    rfl

theorem Holds.serves (h : s.Holds entries) : s.Serves entries where
  logLen := h.length
  lastLogTerm := h.last
  readAll := h.readAll
  getTermAt := h.getTermAt
  readFrom := h.readFrom
  readRange := h.readRange

/-! ## What a truncation writes -/

theorem Holds.truncate_of_length_le {k : UInt64} (h : s.Holds entries)
    (hk : entries.length ≤ k.toNat) : s.truncate k = .ok s := by
  have hlen : k ≥ s.logLength := by
    rw [ge_iff_le, UInt64.le_iff_toNat_le, h.length]
    exact hk
  rw [Storage.truncate, if_pos hlen]

theorem Holds.truncate {k : UInt64} (h : s.Holds entries) (hk : k.toNat < entries.length) :
    ∃ s', s.truncate k = .ok (saveMeta s') ∧ (saveMeta s').Holds (entries.take k.toNat) ∧
      s'.term = s.term ∧ s'.voted = s.voted := by
  have hlen : ¬ k ≥ s.logLength := by
    rw [ge_iff_le, UInt64.le_iff_toNat_le, h.length]
    omega
  let s' : Storage := { s with
    files := { s.files with log := (entries.take k.toNat).flatMap LogEntry.serialize }
    logLength := k
    lastLogTerm := if k = 0 then 0 else ((entries.take k.toNat).getLast?.map (·.term)).getD 0 }
  refine ⟨s', ?_, ⟨rfl, fun e he => h.intact e (List.mem_of_mem_take he), ?_, ?_⟩, rfl, rfl⟩
  · rw [Storage.truncate, if_neg hlen, h.readAll]
    show (if k.toNat ≥ entries.length then _ else _) = _
    rw [if_neg (by omega)]
    rfl
  · rw [List.length_take, Nat.min_eq_left hk.le]
    rfl
  · show (if k = 0 then 0 else _) = _
    split
    · rename_i hzero
      rw [hzero]
      rfl
    · rfl

/-! ## A crash during an append -/

/-- `raft.log` after a crash that let `k` bytes of the record `entry` reach the file. -/
def crashLog (entries : List LogEntry) (entry : LogEntry) (k : Nat) : Bytes :=
  encodeLog entries ++ entry.serialize.take k

/-- The records that are in that file with all their bytes. -/
def complete (entries : List LogEntry) (entry : LogEntry) (k : Nat) : List LogEntry :=
  if k < entry.serialize.length then entries else entries ++ [entry]

/-- Reopening stays inside the file, serves the records `entries`, and so does the store
for whatever is appended to it afterwards. -/
def Recovers (files : Files) (entries : List LogEntry) : Prop :=
  ∃ s, reopen files = .ok s ∧ s.Serves entries ∧
    ∀ more, (∀ e ∈ more, e.Intact) → Numbered (entries ++ more) →
      (more.foldl append s).Serves (entries ++ more)

theorem recovers_encodeLog {files : Files} (hfile : files.log = encodeLog entries)
    (hintact : ∀ e ∈ entries, e.Intact) (hnum : Numbered entries) : Recovers files entries := by
  obtain ⟨s, hopen, hs⟩ := reopen_holds hfile hintact hnum
  exact ⟨s, hopen, hs.serves, fun more hmore hmoreNum => (hs.appendAll hmore hmoreNum).serves⟩

/-- A record that is only partly in the file stops the constructor: the decoder reads
past the end of the file before the CRC is looked at. -/
theorem reopen_cut {files : Files} {entry : LogEntry} {k : Nat}
    (hfile : files.log = crashLog entries entry k) (hintact : ∀ e ∈ entries, e.Intact)
    (hentry : entry.Intact) (hpos : 0 < k) (hlt : k < entry.serialize.length) :
    reopen files = .error .outOfBounds := by
  have hlen : (entry.serialize.take k).length = k := List.length_take_of_le hlt.le
  have hne : entry.serialize.take k ≠ entry.serialize := by
    intro heq
    rw [heq] at hlen
    omega
  have hnil : entry.serialize.take k ≠ [] := List.length_pos_iff.mp (by omega)
  have hcut := readLog_cut hintact hentry (List.take_prefix k _) hne hnil
  rw [reopen]
  show (Storage.readAll (loadMeta _) >>= _) = _
  rw [Storage.readAll, loadMeta_files]
  show (readLog files.log.length files.log >>= _) = _
  rw [hfile, crashLog, hcut]
  rfl

/-- For every log of intact, consecutively numbered records, every further record and
every number of its bytes that reached the file: the store recovers if and only if none
of them or all of them did. -/
theorem torn_append_recovers_iff (files : Files) (entries : List LogEntry) (entry : LogEntry) (k : Nat)
    (hfile : files.log = crashLog entries entry k)
    (hintact : ∀ e ∈ entries ++ [entry], e.Intact) (hnum : Numbered (entries ++ [entry]))
    (hk : k ≤ entry.serialize.length) :
    Recovers files (complete entries entry k) ↔ k = 0 ∨ k = entry.serialize.length := by
  have hentries : ∀ e ∈ entries, e.Intact := fun e he => hintact e (List.mem_append_left _ he)
  have hentry : entry.Intact := hintact entry (by simp)
  constructor
  · rintro ⟨s, hopen, -⟩
    by_contra hmiddle
    have hcut := reopen_cut hfile hentries hentry (by omega) (by omega)
    rw [hopen] at hcut
    cases hcut
  · rintro (rfl | rfl)
    · have hnone : complete entries entry 0 = entries := if_pos (by simp)
      rw [hnone]
      refine recovers_encodeLog ?_ hentries hnum.of_append
      rw [hfile, crashLog, List.take_zero, List.append_nil]
    · have hall : complete entries entry entry.serialize.length = entries ++ [entry] :=
        if_neg (Nat.lt_irrefl _)
      rw [hall]
      refine recovers_encodeLog ?_ hintact hnum
      rw [hfile, crashLog, List.take_length, encodeLog_concat]

end

theorem noopEntry_pair_intact : ∀ e ∈ [noopEntry 1 1] ++ [noopEntry 1 2], e.Intact := by
  intro e he
  simp only [List.cons_append, List.nil_append, List.mem_cons, List.not_mem_nil, or_false] at he
  rcases he with rfl | rfl <;> exact noopEntry_intact _ _

theorem noopEntry_pair_numbered : Numbered ([noopEntry 1 1] ++ [noopEntry 1 2]) := by
  intro i entry hi
  match i, hi with
  | 0, rfl => rfl
  | 1, rfl => rfl

theorem torn_append_recovers_iff_noop :
    let files : Files := ⟨crashLog [noopEntry 1 1] (noopEntry 1 2) 29, none⟩
    Recovers files (complete [noopEntry 1 1] (noopEntry 1 2) 29) ↔
      29 = 0 ∨ 29 = (noopEntry 1 2).serialize.length :=
  torn_append_recovers_iff _ [noopEntry 1 1] (noopEntry 1 2) 29 rfl noopEntry_pair_intact
    noopEntry_pair_numbered (by decide)

/-- One no-op in the file and ten bytes of the next: the constructor reads past the end. -/
theorem torn_append_lost :
    let files : Files := ⟨crashLog [noopEntry 1 1] (noopEntry 1 2) 10, none⟩
    (∀ e ∈ [noopEntry 1 1] ++ [noopEntry 1 2], e.Intact) ∧
      Numbered ([noopEntry 1 1] ++ [noopEntry 1 2]) ∧
      reopen files = .error .outOfBounds ∧
      ¬ Recovers files (complete [noopEntry 1 1] (noopEntry 1 2) 10) := by
  have hopen : reopen ⟨crashLog [noopEntry 1 1] (noopEntry 1 2) 10, none⟩ = .error .outOfBounds :=
    reopen_cut rfl (fun e he => noopEntry_pair_intact e (List.mem_append_left _ he))
      (noopEntry_intact 1 2) (by decide) (by decide)
  refine ⟨noopEntry_pair_intact, noopEntry_pair_numbered, hopen, ?_⟩
  rintro ⟨s, hs, -⟩
  rw [hopen] at hs
  cases hs

end Storage

end RaftKv.Wire
