-- SUMMARY: The persistent store at byte level: raft.log, raft.meta, and what each operation reads and writes.
import RaftKv.Wire.LogEntry

/-!
# The store on disk

`Storage.h` over the bytes of its two files. Writes reach the end of `raft.log` in the
order they are made; after `truncate` the descriptor is no longer in append mode, but
its position is the end of the file, so the next write lands there as well.

Every read of the log parses the whole file anew. `LogEntry::deserialize` does not check
bounds, so a read can end in `Fault.outOfBounds`, which no handler of the source catches.
-/

namespace RaftKv.Wire

open ByteOrder Decoder

/-- The bytes of `raft.log`, and of `raft.meta` once it exists. -/
structure Files where
  log : Bytes
  metaData : Option Bytes
  deriving DecidableEq, Repr

structure Storage where
  files : Files
  term : UInt64
  lastLogTerm : UInt64
  voted : Bytes
  logLength : UInt64
  commitIndex : UInt64
  lastApplied : UInt64

namespace Storage

variable [Host]

/-! ## raft.meta -/

def saveMeta (s : Storage) : Storage :=
  { s with files := { s.files with
      metaData := some (pushUInt64 s.term ++ pushUInt32 (htonl (UInt32.ofNat s.voted.length)) ++ s.voted) } }

/-- `f.get()` at position `i`: past the end it is `EOF`, whose low byte is `0xFF`. -/
def metaByte (data : Bytes) (i : Nat) : UInt8 := data.getD i 0xFF

/-- `f.read(buf.data(), len)` into a zeroed buffer. -/
def readPadded (data : Bytes) (len : Nat) : Bytes :=
  data.take len ++ List.replicate (len - data.length) 0

def loadMeta (s : Storage) : Storage :=
  match s.files.metaData with
  | none => { s with term := 0, lastLogTerm := 0, voted := [] }
  | some data =>
    let term := UInt64.ofNat (ofLE ((List.range 8).map (metaByte data)))
    let len := htonl (UInt32.ofNat (ofLE ((List.range 4).map fun i => metaByte data (8 + i))))
    let voted := if len > 0 then readPadded (data.drop 12) len.toNat else []
    { s with term := term, lastLogTerm := 0, voted := voted }

/-! ## raft.log -/

/-- The loop of `readAll` from the read offset on. Each record it keeps is at least one
byte long, so the length of the file bounds the number of rounds. -/
def readLog : Nat → Bytes → Result (List LogEntry)
  | 0, _ => .ok []
  | fuel + 1, rest =>
    if rest = [] then .ok []
    else
      match LogEntry.deserialize.run rest with
      | .ok (entry, rest) =>
        if entry.verify then do
          let entries ← readLog fuel rest
          return entry :: entries
        else .ok []
      | .error (.thrown _) => .ok []
      | .error .outOfBounds => .error .outOfBounds

def readAll (s : Storage) : Result (List LogEntry) :=
  readLog s.files.log.length s.files.log

/-- The constructor `Storage()`. -/
def reopen (files : Files) : Result Storage := do
  let s := loadMeta
    { files, term := 0, lastLogTerm := 0, voted := [], logLength := 0, commitIndex := 0, lastApplied := 0 }
  let entries ← s.readAll
  match entries.getLast? with
  | none => return s
  | some entry => return saveMeta { s with logLength := entry.index, lastLogTerm := entry.term }

def logLen (s : Storage) : UInt64 := s.logLength

def getLastLogTerm (s : Storage) : UInt64 := s.lastLogTerm

def setTerm (s : Storage) (t : UInt64) : Storage := saveMeta { s with term := t }

def setVoted (s : Storage) (v : Bytes) : Storage := saveMeta { s with voted := v }

def append (s : Storage) (entry : LogEntry) : Storage :=
  saveMeta { s with
    files := { s.files with log := s.files.log ++ entry.serialize }
    logLength := entry.index
    lastLogTerm := entry.term }

def getTermAt (s : Storage) (index : UInt64) : Result UInt64 :=
  if index = 0 ∨ index > s.logLength then .ok 0
  else do
    let entries ← s.readAll
    if index.toNat ≤ entries.length then return (entries[index.toNat - 1]?.map (·.term)).getD 0
    else return 0

def truncate (s : Storage) (keepUpToIndex : UInt64) : Result Storage :=
  if keepUpToIndex ≥ s.logLength then .ok s
  else do
    let entries ← s.readAll
    if keepUpToIndex.toNat ≥ entries.length then return s
    else
      let kept := entries.take keepUpToIndex.toNat
      return saveMeta { s with
        files := { s.files with log := kept.flatMap LogEntry.serialize }
        logLength := keepUpToIndex
        lastLogTerm := if keepUpToIndex = 0 then 0 else (kept.getLast?.map (·.term)).getD 0 }

def readFrom (s : Storage) (startIndex : UInt64) : Result (List LogEntry) :=
  if startIndex < 1 ∨ startIndex > s.logLength then .ok []
  else do
    let entries ← s.readAll
    if startIndex.toNat > entries.length then return []
    else return entries.drop (startIndex.toNat - 1)

def readRange (s : Storage) (start stop : UInt64) : Result (List LogEntry) :=
  if start < 1 ∨ stop < start ∨ stop > s.logLength then .ok []
  else do
    let entries ← s.readAll
    if stop.toNat > entries.length then return []
    else return (entries.take stop.toNat).drop (start.toNat - 1)

@[simp] theorem saveMeta_log (s : Storage) : (saveMeta s).files.log = s.files.log := rfl

@[simp] theorem saveMeta_logLength (s : Storage) : (saveMeta s).logLength = s.logLength := rfl

@[simp] theorem saveMeta_lastLogTerm (s : Storage) : (saveMeta s).lastLogTerm = s.lastLogTerm := rfl

@[simp] theorem loadMeta_files (s : Storage) : (loadMeta s).files = s.files := by
  unfold loadMeta
  split <;> rfl

@[simp] theorem loadMeta_logLength (s : Storage) : (loadMeta s).logLength = s.logLength := by
  unfold loadMeta
  split <;> rfl

@[simp] theorem loadMeta_lastLogTerm (s : Storage) : (loadMeta s).lastLogTerm = 0 := by
  unfold loadMeta
  split <;> rfl

/-- The term and the vote survive a crash: what one instance saved, the next one loads. -/
theorem loadMeta_saveMeta (s t : Storage) (h : s.voted.length < 2 ^ 32)
    (hfile : t.files.metaData = (saveMeta s).files.metaData) :
    (loadMeta t).term = s.term ∧ (loadMeta t).voted = s.voted := by
  let data := pushUInt64 s.term ++ pushUInt32 (htonl (UInt32.ofNat s.voted.length)) ++ s.voted
  have hfile' : t.files.metaData = some data := hfile
  have hterm : UInt64.ofNat (ofLE ((List.range 8).map (metaByte data))) = s.term := by
    have hbytes : (List.range 8).map (metaByte data) = toLE 8 s.term.toNat := rfl
    rw [hbytes, ofLE_toLE_of_lt s.term.toNat_lt, UInt64.ofNat_toNat]
  have hlen : htonl (UInt32.ofNat (ofLE ((List.range 4).map fun i => metaByte data (8 + i)))) =
      UInt32.ofNat s.voted.length := by
    let x := htonl (UInt32.ofNat s.voted.length)
    have hbytes : (List.range 4).map (fun i => metaByte data (8 + i)) = toLE 4 x.toNat := rfl
    rw [hbytes, ofLE_toLE_of_lt x.toNat_lt, UInt32.ofNat_toNat, htonl_htonl]
  have hrest : data.drop 12 = s.voted := rfl
  have hsize : (UInt32.ofNat s.voted.length).toNat = s.voted.length := UInt32.toNat_ofNat_of_lt' h
  unfold loadMeta
  simp only [hfile', hterm, hlen, hrest, true_and]
  split
  · rw [readPadded, hsize, List.take_length, Nat.sub_self, List.replicate_zero, List.append_nil]
  · rename_i hzero
    have hempty : s.voted.length = 0 := by
      rw [← hsize]
      have hle : UInt32.ofNat s.voted.length ≤ 0 := UInt32.not_lt.mp hzero
      exact Nat.le_zero.mp (UInt32.le_iff_toNat_le.mp hle)
    exact (List.length_eq_zero_iff.mp hempty).symm

/-! ## Reading the log -/

/-- A log file without damage. -/
def encodeLog (entries : List LogEntry) : Bytes := entries.flatMap LogEntry.serialize

theorem encodeLog_concat (entries : List LogEntry) (entry : LogEntry) :
    encodeLog (entries ++ [entry]) = encodeLog entries ++ entry.serialize := by
  rw [encodeLog, List.flatMap_append, List.flatMap_singleton, ← encodeLog]

theorem length_le_encodeLog (entries : List LogEntry) :
    entries.length ≤ (encodeLog entries).length := by
  induction entries with
  | nil => exact Nat.zero_le _
  | cons entry entries ih =>
    rw [encodeLog, List.flatMap_cons, List.length_append, LogEntry.length_serialize,
      List.length_cons, ← encodeLog]
    omega

theorem readLog_nil (fuel : Nat) : readLog fuel [] = .ok [] := by
  cases fuel <;> rfl

/-- One round of the loop on an intact record. -/
theorem readLog_cons {entry : LogEntry} (h : entry.Intact) (fuel : Nat) (tail : Bytes) :
    readLog (fuel + 1) (entry.serialize ++ tail) =
      (readLog fuel tail).map (entry :: ·) := by
  have hne : entry.serialize ++ tail ≠ [] := by
    intro hnil
    exact entry.serialize_ne_nil (List.append_eq_nil_iff.mp hnil).1
  rw [readLog, if_neg hne, LogEntry.reads_deserialize h tail]
  simp only [h.verify, if_true]
  cases readLog fuel tail <;> rfl

theorem readLog_append {entries : List LogEntry} (h : ∀ e ∈ entries, e.Intact) (fuel : Nat)
    (tail : Bytes) : readLog (entries.length + fuel) (encodeLog entries ++ tail) =
      (readLog fuel tail).map (entries ++ ·) := by
  induction entries with
  | nil =>
    rw [List.length_nil, Nat.zero_add]
    show readLog fuel tail = _
    cases readLog fuel tail <;> rfl
  | cons entry entries ih =>
    have hentry := h entry List.mem_cons_self
    have hentries := ih fun e he => h e (List.mem_cons_of_mem entry he)
    rw [List.length_cons, Nat.add_right_comm, encodeLog, List.flatMap_cons, List.append_assoc,
      readLog_cons hentry, ← encodeLog, hentries]
    cases readLog fuel tail <;> rfl

/-- The bound on the rounds is never what ends the loop. -/
theorem readLog_fuel {fuel fuel' : Nat} {data : Bytes} (h : data.length ≤ fuel)
    (h' : data.length ≤ fuel') : readLog fuel data = readLog fuel' data := by
  induction fuel generalizing fuel' data with
  | zero =>
    obtain rfl := List.length_eq_zero_iff.mp (Nat.le_zero.mp h)
    rw [readLog_nil, readLog_nil]
  | succ fuel ih =>
    cases fuel' with
    | zero =>
      obtain rfl := List.length_eq_zero_iff.mp (Nat.le_zero.mp h')
      rw [readLog_nil, readLog_nil]
    | succ fuel' =>
      rw [readLog, readLog]
      split
      · rfl
      · cases hrun : LogEntry.deserialize.run data with
        | error e => cases e <;> rfl
        | ok r =>
          obtain ⟨entry, rest⟩ := r
          obtain ⟨-, rfl⟩ := LogEntry.deserialize_ok.mp hrun
          rw [List.length_append, LogEntry.length_serialize] at h h'
          have hrest : readLog fuel rest = readLog fuel' rest := ih (by omega) (by omega)
          simp only [hrest]

/-- An undamaged file reads back as the records it was written from. -/
theorem readLog_encodeLog {entries : List LogEntry} (h : ∀ e ∈ entries, e.Intact) :
    readLog (encodeLog entries).length (encodeLog entries) = .ok entries := by
  obtain ⟨fuel, hfuel⟩ := Nat.exists_eq_add_of_le (length_le_encodeLog entries)
  have hread := readLog_append h fuel []
  rw [List.append_nil, readLog_nil] at hread
  rw [hfuel, hread]
  exact congrArg _ (List.append_nil _)

/-- Behind the intact records the loop meets a record that lost its end: the decoder
runs past the end of the file. -/
theorem readLog_cut {entries : List LogEntry} (h : ∀ e ∈ entries, e.Intact) {entry : LogEntry}
    (hentry : entry.Intact) {cut : Bytes} (hcut : cut <+: entry.serialize)
    (hne : cut ≠ entry.serialize) (hnil : cut ≠ []) :
    readLog (encodeLog entries ++ cut).length (encodeLog entries ++ cut) = .error .outOfBounds := by
  have hpos : 0 < cut.length := List.length_pos_iff.mpr hnil
  have hfuel : entries.length + 1 ≤ (encodeLog entries ++ cut).length := by
    have := length_le_encodeLog entries
    rw [List.length_append]
    omega
  obtain ⟨fuel, hfuel⟩ := Nat.exists_eq_add_of_le hfuel
  have hrun := LogEntry.local_deserialize.cut (LogEntry.reads_deserialize hentry) hcut hne
  have hread : readLog (1 + fuel) cut = .error .outOfBounds := by
    rw [Nat.add_comm, readLog, if_neg hnil, hrun]
  rw [hfuel, Nat.add_assoc, readLog_append h, hread]
  rfl

/-- Whatever the file holds: the records a read returns are intact, and the file begins
with them. -/
theorem readLog_sound {fuel : Nat} {data : Bytes} {entries : List LogEntry}
    (h : readLog fuel data = .ok entries) :
    (∀ e ∈ entries, e.Intact) ∧ encodeLog entries <+: data := by
  have hnil : (∀ e ∈ ([] : List LogEntry), e.Intact) ∧ encodeLog [] <+: data :=
    ⟨by simp, List.nil_prefix⟩
  induction fuel generalizing data entries with
  | zero =>
    cases h
    exact hnil
  | succ fuel ih =>
    rw [readLog] at h
    split at h
    · cases h
      exact hnil
    split at h
    · rename_i entry rest hrun
      obtain ⟨hentry, rfl⟩ := LogEntry.deserialize_ok.mp hrun
      split at h
      · cases hrest : readLog fuel rest with
        | error e =>
          rw [hrest] at h
          cases h
        | ok tail =>
          rw [hrest] at h
          cases h
          obtain ⟨htail, hprefix⟩ := ih hrest ⟨by simp, List.nil_prefix⟩
          refine ⟨List.forall_mem_cons.mpr ⟨hentry, htail⟩, ?_⟩
          rw [encodeLog, List.flatMap_cons]
          exact (List.prefix_append_right_inj _).mpr hprefix
      · cases h
        exact hnil
    · cases h
      exact hnil
    · cases h

theorem readFrom_intact {s : Storage} {start : UInt64} {entries : List LogEntry}
    (h : s.readFrom start = .ok entries) : ∀ e ∈ entries, e.Intact := by
  rw [readFrom] at h
  split at h
  · cases h
    simp
  · cases hread : s.readAll with
    | error e =>
      rw [hread] at h
      cases h
    | ok all =>
      rw [hread] at h
      change (if start.toNat > all.length then _ else _) = _ at h
      split at h
      · cases h
        simp
      · cases h
        exact fun e he => (readLog_sound hread).1 e (List.mem_of_mem_drop he)

end Storage

end RaftKv.Wire
