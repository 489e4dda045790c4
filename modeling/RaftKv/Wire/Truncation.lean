-- SUMMARY: Which crashes inside a truncation leave the entries that were to be kept.
import RaftKv.Wire.Recovery

/-!
# A crash during a truncation

`truncate` empties `raft.log` and writes the kept records anew, while `save_meta` writes a
new file and renames it. So a crash in between leaves a log file that is only a part of the
records to be kept.
-/

namespace RaftKv.Wire.Storage

section

variable [Host]

/-- Reopening gives either the old log or exactly its first `k` records. -/
def KeepsFirst (files : Files) (entries : List LogEntry) (k : Nat) : Prop :=
  ∃ s kept, reopen files = .ok s ∧ s.readAll = .ok kept ∧ (kept = entries ∨ kept = entries.take k)

/-- What a reopened store reads is in the file it was opened on. -/
theorem reopen_readAll {files : Files} {s : Storage} {kept : List LogEntry}
    (hopen : reopen files = .ok s) (hread : s.readAll = .ok kept) :
    encodeLog kept <+: files.log := by
  have hlog : s.files.log = files.log := reopen_log hopen
  rw [← hlog]
  exact (readLog_sound hread).2

theorem encodeLog_take_isPrefix (entries : List LogEntry) (k : Nat) :
    encodeLog (entries.take k) <+: encodeLog entries := by
  conv => rhs; rw [← List.take_append_drop k entries, encodeLog, List.flatMap_append]
  exact List.prefix_append _ _

/-- For every store on an undamaged file of consecutively numbered records, every `k` below
their number and every crash inside `truncate(k)`, when the file has been emptied and `j`
bytes of what it is to hold are written: the kept records survive if and only if all the
bytes are. -/
theorem truncate_crash_iff (s s' : Storage) (entries : List LogEntry) (k : UInt64) (files : Files)
    (j : Nat) (hs : s.Holds entries) (hnum : Numbered entries) (hk : k.toNat < entries.length)
    (htrunc : s.truncate k = .ok s') (hfile : files.log = s'.files.log.take j)
    (hj : j ≤ s'.files.log.length) :
    KeepsFirst files entries k.toNat ↔ j = s'.files.log.length := by
  obtain ⟨s₁, htrunc₁, hs', -⟩ := hs.truncate hk
  obtain rfl : saveMeta s₁ = s' := Except.ok.inj (htrunc₁.symm.trans htrunc)
  have hwhole : (saveMeta s₁).files.log = encodeLog (entries.take k.toNat) := hs'.file
  rw [hwhole] at hfile hj ⊢
  constructor
  · rintro ⟨s₂, kept, hopen, hread, hkept⟩
    have hbytes := (reopen_readAll hopen hread).length_le
    rw [hfile, List.length_take] at hbytes
    rcases hkept with rfl | rfl
    · have hold := (encodeLog_take_isPrefix kept k.toNat).length_le
      omega
    · omega
  · rintro rfl
    rw [List.take_length] at hfile
    obtain ⟨s₂, hopen, hs₂⟩ := reopen_holds hfile hs'.intact (hnum.take k.toNat)
    exact ⟨s₂, _, hopen, hs₂.readAll, .inr rfl⟩

end

/-- Two no-ops of term 1 and nothing else. -/
def twoNoops : Storage where
  files := ⟨encodeLog ([noopEntry 1 1] ++ [noopEntry 1 2]), none⟩
  term := 1
  lastLogTerm := 1
  voted := []
  logLength := 2
  commitIndex := 0
  lastApplied := 0

theorem twoNoops_holds : twoNoops.Holds ([noopEntry 1 1] ++ [noopEntry 1 2]) :=
  ⟨rfl, noopEntry_pair_intact, rfl, rfl⟩

/-- The first no-op is kept, and its 29 bytes are written again. -/
theorem truncate_crash_iff_noop :
    ∃ s', twoNoops.truncate 1 = .ok s' ∧
      (KeepsFirst ⟨s'.files.log.take 29, none⟩ ([noopEntry 1 1] ++ [noopEntry 1 2]) 1 ↔
        29 = s'.files.log.length) := by
  obtain ⟨s', htrunc, hs', -⟩ := twoNoops_holds.truncate (k := 1) (by decide)
  have hj : 29 ≤ (saveMeta s').files.log.length := by
    rw [hs'.file]
    decide
  exact ⟨_, htrunc, truncate_crash_iff twoNoops _ _ 1 _ 29 twoNoops_holds noopEntry_pair_numbered
    (by decide) htrunc rfl hj⟩

/-- A crash right after the file has been emptied loses the no-op that was to be kept. -/
theorem truncate_crash_loses :
    ∃ s', twoNoops.Holds ([noopEntry 1 1] ++ [noopEntry 1 2]) ∧ twoNoops.truncate 1 = .ok s' ∧
      ¬ KeepsFirst ⟨s'.files.log.take 0, none⟩ ([noopEntry 1 1] ++ [noopEntry 1 2]) 1 := by
  obtain ⟨s', htrunc, -⟩ := twoNoops_holds.truncate (k := 1) (by decide)
  refine ⟨_, twoNoops_holds, htrunc, ?_⟩
  rintro ⟨s, kept, hopen, hread, hkept⟩
  have hbytes := (reopen_readAll hopen hread).length_le
  rw [List.take_zero] at hbytes
  rcases hkept with rfl | rfl
  · exact absurd hbytes (by decide)
  · exact absurd hbytes (by decide)

end RaftKv.Wire.Storage
