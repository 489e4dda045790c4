-- SUMMARY: The store of the protocol model in words and bytes: every operation of the byte-level store does what the model's does.
import RaftKv.Wire.Persistence
import RaftKv.Wire.RoundTrip
import RaftKv.Wire.Text
import RaftKv.RPC

/-!
# From numbers to words

The protocol model counts in natural numbers, names nodes by their 64-bit numbers and keeps a
log as a list; the source keeps words and files. As long as the numbers fit, the byte-level store
(`Storage`) keeps what the store of the model (`Store`) says, under every operation.
-/

namespace RaftKv.Wire

open Decimal

/-! ## Numbers -/

/-- The number fits a `uint64_t`. -/
def Fits (n : Nat) : Prop := n < 18446744073709551616

instance (n : Nat) : Decidable (Fits n) := inferInstanceAs (Decidable (_ < _))

theorem Fits.toNat {n : Nat} (h : Fits n) : (UInt64.ofNat n).toNat = n :=
  UInt64.toNat_ofNat_of_lt' h

theorem Fits.inj {m n : Nat} (hm : Fits m) (hn : Fits n) :
    UInt64.ofNat m = UInt64.ofNat n ↔ m = n := by
  rw [← UInt64.toNat_inj, hm.toNat, hn.toNat]

theorem fits_one : Fits 1 := by decide

theorem fits_toNat (x : UInt64) : Fits x.toNat := x.toNat_lt

theorem Fits.of_le {m n : Nat} (hn : Fits n) (h : m ≤ n) : Fits m := Nat.lt_of_le_of_lt h hn

theorem toNat_succ {x : UInt64} (h : Fits (x.toNat + 1)) : (x + 1).toNat = x.toNat + 1 := by
  rw [UInt64.toNat_add]
  exact Nat.mod_eq_of_lt h

theorem max_toNat (x y : UInt64) : (max x y).toNat = max x.toNat y.toNat := by
  show (if x ≤ y then y else x).toNat = _
  split
  · rename_i hle
    exact (max_eq_right (UInt64.le_iff_toNat_le.mp hle)).symm
  · rename_i hlt
    exact (max_eq_left (Nat.le_of_not_le (mt UInt64.le_iff_toNat_le.mpr hlt))).symm

theorem min_toNat (x y : UInt64) : (min x y).toNat = min x.toNat y.toNat := by
  show (if x ≤ y then x else y).toNat = _
  split
  · rename_i hle
    exact (min_eq_left (UInt64.le_iff_toNat_le.mp hle)).symm
  · rename_i hlt
    exact (min_eq_right (Nat.le_of_not_le (mt UInt64.le_iff_toNat_le.mpr hlt))).symm

/-! ## Records and votes -/

/-- The numbers that the nodes go by: different ones, and each one an `int`. -/
class NodeIds (ι : Type) where
  idOf : ι → UInt64
  idOf_injective : Function.Injective idOf
  idOf_lt : ∀ i, (idOf i).toNat < 2147483648

open NodeIds

section Encoding

variable [Host] {ι : Type} [NodeIds ι]

/-- A log entry as the constructor of `LogEntry` builds it. -/
def entryWords (e : RaftKv.LogEntry) : LogEntry :=
  .ofCommand (UInt64.ofNat e.term) (UInt64.ofNat e.index) e.command

structure EntryFits (e : RaftKv.LogEntry) : Prop where
  term : Fits e.term
  index : Fits e.index
  short : e.command.Short

/-- A vote in `raft.meta`. -/
def voteText : Option ι → Bytes
  | none => []
  | some id => ofString (toString (idOf id).toNat)

omit [Host] in
theorem voteText_some (id : ι) : voteText (some id) = numeral (idOf id).toNat := ofString_nat _

omit [Host] in
theorem voteText_injective : Function.Injective (voteText : Option ι → Bytes) := by
  intro v v' h
  have hnumeral := Function.LeftInverse.injective value_numeral
  cases v with
  | none =>
    cases v' with
    | none => rfl
    | some id =>
      rw [voteText_some] at h
      exact absurd h.symm (numeral_ne_nil _)
  | some id =>
    cases v' with
    | none =>
      rw [voteText_some] at h
      exact absurd h (numeral_ne_nil _)
    | some id' =>
      rw [voteText_some, voteText_some] at h
      exact congrArg some (idOf_injective (UInt64.toNat_inj.mp (hnumeral h)))

omit [Host] in
theorem voteText_short (v : Option ι) : (voteText v).length < 2 ^ 32 := by
  cases v with
  | none => exact Nat.two_pow_pos 32
  | some id =>
    have hlt : (idOf id).toNat < 10 ^ 20 := lt_trans (idOf id).toNat_lt (by decide)
    have hlen : (numeral (idOf id).toNat).length ≤ 20 := by
      rw [numeral, List.length_map]
      exact (Nat.length_toDigits_le_iff (by decide) (by decide)).mpr hlt
    rw [voteText_some]
    exact lt_of_le_of_lt hlen (by decide)

theorem EntryFits.intact {e : RaftKv.LogEntry} (h : EntryFits e) : (entryWords e).Intact :=
  LogEntry.intact_ofCommand _ _ h.short

theorem EntryFits.getCommand {e : RaftKv.LogEntry} (h : EntryFits e) :
    (entryWords e).getCommand = .ok e.command :=
  LogEntry.getCommand_ofCommand _ _ h.short

/-! ## The store -/

namespace Storage

/-- The files and fields of `s` say what `d` says, in words that hold its numbers. -/
structure Keeps (s : Storage) (d : Store ι) : Prop where
  file : s.files.log = encodeLog (d.log.map entryWords)
  fits : ∀ e ∈ d.log, EntryFits e
  term : s.term.toNat = d.term
  lastLogTerm : s.lastLogTerm.toNat = d.lastLogTerm
  voted : s.voted = voteText d.voted
  logLength : s.logLength.toNat = d.logLength
  commitIndex : s.commitIndex.toNat = d.commitIndex
  lastApplied : s.lastApplied.toNat = d.lastApplied
  saved : MetaLoads s.files s.term s.voted

variable {s : Storage} {d : Store ι}

theorem Keeps.intact (h : s.Keeps d) : ∀ e ∈ d.log.map entryWords, e.Intact := by
  intro e he
  obtain ⟨e', he', rfl⟩ := List.mem_map.mp he
  exact (h.fits e' he').intact

theorem Keeps.readAll (h : s.Keeps d) : s.readAll = .ok (d.log.map entryWords) := by
  rw [Storage.readAll, h.file, readLog_encodeLog h.intact]

/-- What `saveMeta` writes loads again. -/
theorem saved_saveMeta (s : Storage) {v : Option ι} (hv : s.voted = voteText v) :
    MetaLoads (saveMeta s).files s.term s.voted :=
  metaLoads_saveMeta s (hv ▸ voteText_short v)

theorem Keeps.setTerm (h : s.Keeps d) {t : Nat} (ht : Fits t) :
    (s.setTerm (UInt64.ofNat t)).Keeps (d.setTerm t) where
  file := h.file
  fits := h.fits
  term := ht.toNat
  lastLogTerm := h.lastLogTerm
  voted := h.voted
  logLength := h.logLength
  commitIndex := h.commitIndex
  lastApplied := h.lastApplied
  saved := saved_saveMeta { s with term := UInt64.ofNat t } h.voted

theorem Keeps.setVoted (h : s.Keeps d) (v : Option ι) :
    (s.setVoted (voteText v)).Keeps (d.setVoted v) where
  file := h.file
  fits := h.fits
  term := h.term
  lastLogTerm := h.lastLogTerm
  voted := rfl
  logLength := h.logLength
  commitIndex := h.commitIndex
  lastApplied := h.lastApplied
  saved := saved_saveMeta { s with voted := voteText v } rfl

theorem Keeps.append (h : s.Keeps d) {e : RaftKv.LogEntry} (he : EntryFits e) :
    (s.append (entryWords e)).Keeps (d.append e) where
  file := by
    have hlog : (d.append e).log.map entryWords = d.log.map entryWords ++ [entryWords e] :=
      List.map_append
    rw [hlog, encodeLog_concat, ← h.file]
    rfl
  fits e' he' := by
    rcases List.mem_append.mp he' with hold | hnew
    · exact h.fits e' hold
    · rwa [List.mem_singleton.mp hnew]
  term := h.term
  lastLogTerm := he.term.toNat
  voted := h.voted
  logLength := he.index.toNat
  commitIndex := h.commitIndex
  lastApplied := h.lastApplied
  saved := saved_saveMeta { s with
    files := { s.files with log := s.files.log ++ (entryWords e).serialize }
    logLength := (entryWords e).index
    lastLogTerm := (entryWords e).term } h.voted

/-- The term of an entry, found by position in words and in numbers. -/
theorem map_term {entry : Option RaftKv.LogEntry} (h : ∀ e ∈ entry, EntryFits e) :
    (((entry.map entryWords).map LogEntry.term).getD 0).toNat =
      (entry.map RaftKv.LogEntry.term).getD 0 := by
  cases entry with
  | none => rfl
  | some e => exact (h e rfl).term.toNat

theorem Keeps.getTermAt (h : s.Keeps d) {i : UInt64} :
    ∃ t, s.getTermAt i = .ok t ∧ t.toNat = d.getTermAt i.toNat := by
  have hzero : i = 0 ↔ i.toNat = 0 := UInt64.toNat_inj.symm
  have hlen : i > s.logLength ↔ i.toNat > d.logLength := by
    rw [gt_iff_lt, UInt64.lt_iff_toNat_lt, h.logLength]
  rw [Storage.getTermAt, Store.getTermAt]
  by_cases hout : i.toNat = 0 ∨ i.toNat > d.logLength
  · exact ⟨0, if_pos (by rwa [hzero, hlen]), by rw [if_pos hout]; rfl⟩
  · rw [if_neg (by rwa [hzero, hlen]), if_neg hout, h.readAll]
    by_cases hin : i.toNat ≤ d.log.length
    · refine ⟨_, if_pos (by rwa [List.length_map]), ?_⟩
      rw [if_pos hin, List.getElem?_map]
      exact map_term fun e he => h.fits e (List.mem_of_getElem? he)
    · exact ⟨0, if_neg (by rwa [List.length_map]), by rw [if_neg hin]; rfl⟩

theorem Keeps.readFrom (h : s.Keeps d) (start : UInt64) :
    s.readFrom start = .ok ((d.readFrom start.toNat).map entryWords) := by
  have hone : start < 1 ↔ start.toNat < 1 := UInt64.lt_iff_toNat_lt
  have hlen : start > s.logLength ↔ start.toNat > d.logLength := by
    rw [gt_iff_lt, UInt64.lt_iff_toNat_lt, h.logLength]
  rw [Storage.readFrom, Store.readFrom]
  by_cases hout : start.toNat < 1 ∨ start.toNat > d.logLength
  · rw [if_pos (by rwa [hone, hlen]), if_pos hout]
    rfl
  · rw [if_neg (by rwa [hone, hlen]), if_neg hout, h.readAll]
    show (if start.toNat > (d.log.map entryWords).length then _ else _) = _
    rw [List.length_map]
    by_cases hpast : start.toNat > d.log.length
    · rw [if_pos hpast, if_pos hpast]
      rfl
    · rw [if_neg hpast, if_neg hpast, List.map_drop]
      rfl

theorem Keeps.readRange (h : s.Keeps d) (start stop : UInt64) :
    s.readRange start stop = .ok ((d.readRange start.toNat stop.toNat).map entryWords) := by
  have hone : start < 1 ↔ start.toNat < 1 := UInt64.lt_iff_toNat_lt
  have horder : stop < start ↔ stop.toNat < start.toNat := UInt64.lt_iff_toNat_lt
  have hlen : stop > s.logLength ↔ stop.toNat > d.logLength := by
    rw [gt_iff_lt, UInt64.lt_iff_toNat_lt, h.logLength]
  rw [Storage.readRange, Store.readRange]
  by_cases hout : start.toNat < 1 ∨ stop.toNat < start.toNat ∨ stop.toNat > d.logLength
  · rw [if_pos (by rwa [hone, horder, hlen]), if_pos hout]
    rfl
  · rw [if_neg (by rwa [hone, horder, hlen]), if_neg hout, h.readAll]
    show (if stop.toNat > (d.log.map entryWords).length then _ else _) = _
    rw [List.length_map]
    by_cases hpast : stop.toNat > d.log.length
    · rw [if_pos hpast, if_pos hpast]
      rfl
    · rw [if_neg hpast, if_neg hpast, List.map_drop, List.map_take]
      rfl

theorem Keeps.truncate (h : s.Keeps d) (k : UInt64) :
    ∃ s', s.truncate k = .ok s' ∧ s'.Keeps (d.truncate k.toNat) := by
  have hlen : k ≥ s.logLength ↔ k.toNat ≥ d.logLength := by
    rw [ge_iff_le, UInt64.le_iff_toNat_le, h.logLength]
  rw [Storage.truncate, Store.truncate]
  by_cases hout : k.toNat ≥ d.logLength
  · exact ⟨s, if_pos (hlen.mpr hout), by rwa [if_pos hout]⟩
  · rw [if_neg (mt hlen.mp hout), if_neg hout, h.readAll]
    by_cases hpast : k.toNat ≥ d.log.length
    · exact ⟨s, if_pos (by rwa [List.length_map]), by rwa [if_pos hpast]⟩
    · refine ⟨_, if_neg (by rwa [List.length_map]), ?_⟩
      rw [if_neg hpast]
      have hkept : (d.log.map entryWords).take k.toNat = (d.log.take k.toNat).map entryWords :=
        List.map_take.symm
      have hlast : (if k = 0 then (0 : UInt64) else
          (((d.log.map entryWords).take k.toNat).getLast?.map (·.term)).getD 0).toNat =
          if k.toNat = 0 then 0 else ((d.log.take k.toNat).getLast?.map (·.term)).getD 0 := by
        have hnat : k = 0 ↔ k.toNat = 0 := UInt64.toNat_inj.symm
        by_cases hzero : k = 0
        · rw [if_pos hzero, if_pos (hnat.mp hzero)]
          rfl
        · rw [if_neg hzero, if_neg (mt hnat.mpr hzero), hkept, List.getLast?_map]
          exact map_term fun e he => h.fits e (List.mem_of_mem_take (List.mem_of_getLast? he))
      exact
        { file := congrArg (List.flatMap LogEntry.serialize) hkept
          fits := fun e he => h.fits e (List.mem_of_mem_take he)
          term := h.term
          lastLogTerm := hlast
          voted := h.voted
          logLength := rfl
          commitIndex := h.commitIndex
          lastApplied := h.lastApplied
          saved := saved_saveMeta _ h.voted }

theorem fresh_indices (files : Files) :
    (loaded files).commitIndex = 0 ∧ (loaded files).lastApplied = 0 := by
  unfold loaded loadMeta
  split <;> exact ⟨rfl, rfl⟩

/-- A new instance on the same files says what the store of the model says after a restart. -/
theorem Keeps.reopen (h : s.Keeps d) :
    ∃ s', Storage.reopen s.files = .ok s' ∧ s'.Keeps (.reopen d.disk) := by
  obtain ⟨hterm, hvoted⟩ : (loaded s.files).term = s.term ∧ (loaded s.files).voted = s.voted :=
    h.saved _ rfl
  obtain ⟨hcommit, happlied⟩ := fresh_indices s.files
  have hfiles : (loaded s.files).files = s.files := by rw [loaded, loadMeta_files]
  have hread : (loaded s.files).readAll = .ok (d.log.map entryWords) := by
    rw [Storage.readAll, hfiles, h.file, readLog_encodeLog h.intact]
  have hlast : (d.log.map entryWords).getLast? = d.log.getLast?.map entryWords :=
    List.getLast?_map
  rw [Storage.reopen]
  change ∃ s', ((loaded s.files).readAll >>= _) = _ ∧ _
  rw [hread]
  cases hd : d.log.getLast? with
  | none =>
    rw [hd, Option.map_none] at hlast
    refine ⟨loaded s.files, by simp only [bind, Except.bind, hlast]; rfl, ?_⟩
    exact
      { file := by rw [hfiles]; exact h.file
        fits := h.fits
        term := by rw [hterm]; exact h.term
        lastLogTerm := by rw [loaded, loadMeta_lastLogTerm, Store.reopen, Store.disk, hd]; rfl
        voted := by rw [hvoted]; exact h.voted
        logLength := by rw [loaded, loadMeta_logLength, Store.reopen, Store.disk, hd]; rfl
        commitIndex := by rw [hcommit]; rfl
        lastApplied := by rw [happlied]; rfl
        saved := by rw [hfiles, hterm, hvoted]; exact h.saved }
  | some e =>
    rw [hd, Option.map_some] at hlast
    have he := h.fits e (List.mem_of_getLast? hd)
    refine ⟨_, by simp only [bind, Except.bind, hlast]; rfl, ?_⟩
    have hsaved := saved_saveMeta
      { loaded s.files with
        logLength := (entryWords e).index, lastLogTerm := (entryWords e).term } (hvoted.trans h.voted)
    exact
      { file := (congrArg Files.log hfiles).trans h.file
        fits := h.fits
        term := (congrArg UInt64.toNat hterm).trans h.term
        lastLogTerm := by rw [saveMeta_lastLogTerm, Store.reopen, Store.disk, hd]; exact he.term.toNat
        voted := hvoted.trans h.voted
        logLength := by rw [saveMeta_logLength, Store.reopen, Store.disk, hd]; exact he.index.toNat
        commitIndex := congrArg UInt64.toNat hcommit
        lastApplied := congrArg UInt64.toNat happlied
        saved := hsaved }

end Storage

end Encoding

end RaftKv.Wire
