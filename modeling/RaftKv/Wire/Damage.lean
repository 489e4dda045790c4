-- SUMMARY: Which damaged bytes of raft.log cost only the records from the damaged one on.
import RaftKv.Wire.Checksum
import RaftKv.Wire.Recovery

/-!
# One damaged byte

The CRC of a record is computed over its term, index and command. The command length is outside
of it and decides where the decoder looks for the command and for the CRC.
-/

namespace RaftKv.Wire

open ByteOrder Decoder

namespace LogEntry

section

variable [Host]

/-! ## The decoder on any fields -/

/-- The term, the index and the length field, with whatever stands behind them. -/
def withLength (term index : UInt64) (len : UInt32) (behind : Bytes) : Bytes :=
  pushUInt64 term ++ pushUInt64 index ++ pushUInt32 len ++ behind

/-- What the decoder does behind the length field. -/
theorem deserialize_withLength (term index : UInt64) (len : UInt32) (behind : Bytes) :
    deserialize.run (withLength term index len behind) =
      (do
        let command ← take (htonl len).toNat
        let crc ← readUInt32
        let temp : LogEntry := { term, index, command, crc }
        if !temp.verify then throw "CRC mismatch in the log entry!" else return temp :
          Decoder String LogEntry).run behind := by
  unfold deserialize
  simp only [withLength, List.append_assoc]
  rw [bind_of_ok (reads_readUInt64 term _), bind_of_ok (reads_readUInt64 index _),
    bind_of_ok (reads_readUInt32 len _)]

theorem deserialize_short {term index : UInt64} {len : UInt32} {behind : Bytes}
    (h : behind.length < (htonl len).toNat + 4) :
    deserialize.run (withLength term index len behind) = .error .outOfBounds := by
  rw [deserialize_withLength]
  by_cases hcommand : behind.length < (htonl len).toNat
  · exact bind_of_error (by rw [take_run, if_pos hcommand])
  · rw [bind_of_ok (by rw [take_run, if_neg hcommand])]
    refine bind_of_error (bind_of_error ?_)
    rw [take_run, if_pos (by rw [List.length_drop]; omega)]

theorem deserialize_fields (term index : UInt64) {len : UInt32} {command : Bytes} (crc : UInt32)
    (rest : Bytes) (h : (htonl len).toNat = command.length) :
    deserialize.run (withLength term index len (command ++ pushUInt32 crc ++ rest)) =
      if ({ term, index, command, crc } : LogEntry).verify then
        .ok ({ term, index, command, crc }, rest)
      else .error (.thrown "CRC mismatch in the log entry!") := by
  rw [deserialize_withLength, List.append_assoc, bind_of_ok (reads_take h.symm _),
    bind_of_ok (reads_readUInt32 crc rest)]
  dsimp only
  cases ({ term, index, command, crc } : LogEntry).verify <;> rfl

/-- The bytes behind the length field hold a command of `n` bytes and a CRC, which does not fit. -/
def Mismatch (term index : UInt64) (n : Nat) (behind : Bytes) : Prop :=
  n + 4 ≤ behind.length ∧
    crc32Compute (guarded term index (behind.take n)) ≠ UInt32.ofNat (ofLE ((behind.drop n).take 4))

/-- Which fields make the decoder throw: the CRC is found where the length says, and is another. -/
theorem deserialize_thrown_iff (term index : UInt64) (len : UInt32) (behind : Bytes) :
    (∃ what, deserialize.run (withLength term index len behind) = .error (.thrown what)) ↔
      Mismatch term index (htonl len).toNat behind := by
  by_cases hshort : behind.length < (htonl len).toNat + 4
  · rw [deserialize_short hshort, Mismatch]
    constructor
    · rintro ⟨what, h⟩
      cases h
    · rintro ⟨hle, -⟩
      omega
  · let n := (htonl len).toNat
    let crc := UInt32.ofNat (ofLE ((behind.drop n).take 4))
    have hcrc : ((behind.drop n).take 4).length = 4 := by
      rw [List.length_take, List.length_drop]
      omega
    have hn : n = (behind.take n).length := by
      rw [List.length_take]
      omega
    have hbehind : behind = behind.take n ++ pushUInt32 crc ++ (behind.drop n).drop 4 := by
      rw [pushUInt32_ofLE hcrc, List.append_assoc, List.take_append_drop, List.take_append_drop]
    have hrun := deserialize_fields term index crc ((behind.drop n).drop 4) hn
    rw [← hbehind] at hrun
    rw [hrun]
    have hverify : ({ term, index, command := behind.take n, crc } : LogEntry).verify = true ↔
        crc = crc32Compute (guarded term index (behind.take n)) := beq_iff_eq
    constructor
    · rintro ⟨what, h⟩
      refine ⟨by omega, fun heq => ?_⟩
      rw [if_pos (hverify.mpr heq.symm)] at h
      cases h
    · rintro ⟨-, hne⟩
      exact ⟨_, if_neg fun hok => hne (hverify.mp hok).symm⟩

/-! ## A byte of the record -/

/-- The command length that a record announces. -/
def announced (record : Bytes) : Nat := (htonl (UInt32.ofNat (ofLE ((record.drop 16).take 4)))).toNat

@[simp] theorem announced_withLength (term index : UInt64) (len : UInt32) (behind : Bytes) :
    announced (withLength term index len behind) = (htonl len).toNat := by
  have hheader : (pushUInt64 term ++ pushUInt64 index).length = 16 := by simp
  have hlen : (pushUInt32 len).length = 4 := length_pushUInt32 len
  rw [announced, withLength, List.append_assoc, List.drop_left' hheader, List.take_left' hlen, ofLE_pushUInt32]

theorem serialize_eq_withLength (entry : LogEntry) :
    entry.serialize = withLength entry.term entry.index
      (htonl (UInt32.ofNat entry.command.length)) (entry.command ++ pushUInt32 entry.crc) := by
  rw [serialize, withLength]
  simp only [List.append_assoc]

theorem thrown_of_not_verify {entry : LogEntry} (hshort : entry.command.length < 2 ^ 32)
    (hverify : entry.verify = false) (rest : Bytes) :
    ∃ what, deserialize.run (entry.serialize ++ rest) = .error (.thrown what) := by
  have hlen : (htonl (htonl (UInt32.ofNat entry.command.length))).toNat = entry.command.length := by
    rw [htonl_htonl, UInt32.toNat_ofNat_of_lt' hshort]
  have hrun := deserialize_fields entry.term entry.index entry.crc rest hlen
  have hbytes : entry.serialize ++ rest = withLength entry.term entry.index
      (htonl (UInt32.ofNat entry.command.length)) (entry.command ++ pushUInt32 entry.crc ++ rest) := by
    rw [serialize_eq_withLength, withLength, withLength, List.append_assoc]
  rw [hbytes, hrun, hverify]
  exact ⟨_, if_neg Bool.false_ne_true⟩

omit [Host] in
theorem exists_header (bs : Bytes) (h : bs.length = 16) :
    ∃ term index, pushUInt64 term ++ pushUInt64 index = bs := by
  refine ⟨.ofNat (ofLE (bs.take 8)), .ofNat (ofLE (bs.drop 8)), ?_⟩
  rw [pushUInt64_ofLE (by simp [h]), pushUInt64_ofLE (by simp [h]), List.take_append_drop]

section

variable {entry : LogEntry} {k : Nat} {b : UInt8}

/-- A byte of the term or of the index. -/
theorem set_serialize_header (hk : k < 16) (hb : entry.serialize[k]? ≠ some b) :
    ∃ term index, entry.serialize.set k b = ({ entry with term, index } : LogEntry).serialize ∧
      Crc.Burst 1 (guarded entry.term entry.index entry.command) (guarded term index entry.command) := by
  let header := pushUInt64 entry.term ++ pushUInt64 entry.index
  let len := pushUInt32 (htonl (UInt32.ofNat entry.command.length))
  have hheader : header.length = 16 := by simp [header]
  have hrecord : entry.serialize = header ++ (len ++ entry.command ++ pushUInt32 entry.crc) := by
    simp only [serialize, header, len, List.append_assoc]
  have hguarded : guarded entry.term entry.index entry.command = header ++ entry.command := rfl
  obtain ⟨term, index, hfields⟩ := exists_header (header.set k b) (by rw [List.length_set, hheader])
  have hset : guarded term index entry.command =
      (guarded entry.term entry.index entry.command).set k b := by
    rw [hguarded, List.set_append_left _ _ (by omega), ← hfields]
    rfl
  refine ⟨term, index, ?_, ?_⟩
  · rw [hrecord, List.set_append_left _ _ (by omega), ← hfields]
    simp only [serialize, len, List.append_assoc]
  · rw [hset]
    refine Crc.Burst.set (by rw [hguarded, List.length_append]; omega) ?_
    rw [hguarded, List.getElem?_append_left (by omega)]
    rwa [hrecord, List.getElem?_append_left (by omega)] at hb

/-- A byte of the command. -/
theorem set_serialize_command (hlow : 20 ≤ k) (hk : k < 20 + entry.command.length)
    (hb : entry.serialize[k]? ≠ some b) :
    ∃ command, entry.serialize.set k b = ({ entry with command } : LogEntry).serialize ∧
      command.length = entry.command.length ∧
      Crc.Burst 1 (guarded entry.term entry.index entry.command)
        (guarded entry.term entry.index command) := by
  let fields := pushUInt64 entry.term ++ pushUInt64 entry.index ++
    pushUInt32 (htonl (UInt32.ofNat entry.command.length))
  have hfields : fields.length = 20 := by simp [fields]
  have hheader : (pushUInt64 entry.term ++ pushUInt64 entry.index).length = 16 := by simp
  have hrecord : entry.serialize = fields ++ (entry.command ++ pushUInt32 entry.crc) := by
    simp only [serialize, fields, List.append_assoc]
  have hset : guarded entry.term entry.index (entry.command.set (k - 20) b) =
      (guarded entry.term entry.index entry.command).set (k - 4) b := by
    rw [guarded, guarded, List.set_append_right _ _ (by omega), hheader, Nat.sub_sub]
  refine ⟨entry.command.set (k - 20) b, ?_, List.length_set, ?_⟩
  · rw [hrecord, List.set_append_right _ _ (by omega), hfields, List.set_append_left _ _ (by omega)]
    simp only [serialize, fields, List.length_set, List.append_assoc]
  · rw [hset]
    refine Crc.Burst.set (by rw [guarded, List.length_append]; omega) ?_
    rw [guarded, List.getElem?_append_right (by omega), hheader, Nat.sub_sub]
    rwa [hrecord, List.getElem?_append_right (by omega), hfields,
      List.getElem?_append_left (by omega)] at hb

/-- A byte of the CRC. -/
theorem set_serialize_crc (hlow : 20 + entry.command.length ≤ k) (hk : k < entry.serialize.length)
    (hb : entry.serialize[k]? ≠ some b) :
    ∃ crc, entry.serialize.set k b = ({ entry with crc } : LogEntry).serialize ∧ crc ≠ entry.crc := by
  let fields := pushUInt64 entry.term ++ pushUInt64 entry.index ++
    pushUInt32 (htonl (UInt32.ofNat entry.command.length)) ++ entry.command
  have hfields : fields.length = 20 + entry.command.length := by
    simp only [fields, List.length_append, length_pushUInt64, length_pushUInt32]
  have hrecord : entry.serialize = fields ++ pushUInt32 entry.crc := rfl
  let i := k - (20 + entry.command.length)
  have hcrc : pushUInt32 (UInt32.ofNat (ofLE ((pushUInt32 entry.crc).set i b))) =
      (pushUInt32 entry.crc).set i b :=
    pushUInt32_ofLE (by rw [List.length_set, length_pushUInt32])
  refine ⟨.ofNat (ofLE ((pushUInt32 entry.crc).set i b)), ?_, fun heq => hb ?_⟩
  · rw [hrecord, List.set_append_right _ _ (by omega), hfields]
    exact congrArg (fields ++ ·) hcrc.symm
  · rw [length_serialize] at hk
    rw [heq] at hcrc
    rw [hrecord, List.getElem?_append_right (by omega), hfields, hcrc]
    exact List.getElem?_set_self (by rw [length_pushUInt32]; omega)

/-- Outside of the length field the damaged record is the record of some other fields, and they
do not fit together. -/
theorem set_serialize_eq (hverify : entry.verify = true) (hk : k < entry.serialize.length)
    (hb : entry.serialize[k]? ≠ some b) (hfield : k < 16 ∨ 20 ≤ k) :
    ∃ damaged : LogEntry, entry.serialize.set k b = damaged.serialize ∧
      damaged.command.length = entry.command.length ∧ damaged.verify = false := by
  have hcrc : entry.crc = crc32Compute (guarded entry.term entry.index entry.command) :=
    beq_iff_eq.mp hverify
  have hother {term index : UInt64} {command : Bytes}
      (h : Crc.Burst 1 (guarded entry.term entry.index entry.command) (guarded term index command)) :
      ({ entry with term, index, command } : LogEntry).verify = false := by
    rw [verify, beq_eq_false_iff_ne]
    exact hcrc ▸ crc32Compute_ne_of_burst (burst_messageBits (h.mono (by decide)))
  by_cases hlow : k < 16
  · obtain ⟨term, index, hset, hburst⟩ := set_serialize_header hlow hb
    exact ⟨_, hset, rfl, hother hburst⟩
  · by_cases hmid : k < 20 + entry.command.length
    · obtain ⟨command, hset, hlen, hburst⟩ := set_serialize_command (by omega) hmid hb
      exact ⟨_, hset, hlen, hother hburst⟩
    · obtain ⟨crc, hset, hne⟩ := set_serialize_crc (by omega) hk hb
      refine ⟨_, hset, rfl, ?_⟩
      rw [verify, beq_eq_false_iff_ne]
      exact hcrc ▸ hne

/-- A byte of the length field. -/
theorem set_serialize_length (entry : LogEntry) (b : UInt8) (hlow : 16 ≤ k) (hhigh : k < 20) :
    ∃ len, entry.serialize.set k b =
      withLength entry.term entry.index len (entry.command ++ pushUInt32 entry.crc) := by
  let header := pushUInt64 entry.term ++ pushUInt64 entry.index
  let len := pushUInt32 (htonl (UInt32.ofNat entry.command.length))
  have hheader : header.length = 16 := by simp [header]
  have hlen : len.length = 4 := length_pushUInt32 _
  have hrecord : entry.serialize = header ++ (len ++ (entry.command ++ pushUInt32 entry.crc)) := by
    simp only [serialize, header, len, List.append_assoc]
  have hset : pushUInt32 (UInt32.ofNat (ofLE (len.set (k - 16) b))) = len.set (k - 16) b :=
    pushUInt32_ofLE (by rw [List.length_set, hlen])
  refine ⟨.ofNat (ofLE (len.set (k - 16) b)), ?_⟩
  rw [hrecord, List.set_append_right _ _ (by omega), hheader, List.set_append_left _ _ (by omega),
    withLength, hset]
  simp only [header, List.append_assoc]

/-- Which bytes of a record leave the decoder with an exception when they are replaced, whatever
stands behind the record. -/
theorem deserialize_damaged_iff (hintact : entry.Intact) (hk : k < entry.serialize.length)
    (hb : entry.serialize[k]? ≠ some b) (after : Bytes) :
    (∃ what, deserialize.run (entry.serialize.set k b ++ after) = .error (.thrown what)) ↔
      (16 ≤ k → k < 20 → Mismatch entry.term entry.index (announced (entry.serialize.set k b))
        (entry.command ++ pushUInt32 entry.crc ++ after)) := by
  by_cases hfield : k < 16 ∨ 20 ≤ k
  · obtain ⟨damaged, hset, hlen, hverify⟩ := set_serialize_eq hintact.verify hk hb hfield
    rw [hset]
    refine iff_of_true (thrown_of_not_verify (hlen ▸ hintact.short) hverify after) ?_
    omega
  · obtain ⟨len, hset⟩ := set_serialize_length (k := k) entry b (by omega) (by omega)
    have hrun : entry.serialize.set k b ++ after = withLength entry.term entry.index len
        (entry.command ++ pushUInt32 entry.crc ++ after) := by
      rw [hset, withLength, withLength, List.append_assoc]
    rw [hrun, deserialize_thrown_iff, hset, announced_withLength]
    exact ⟨fun h _ _ => h, fun h => h (by omega) (by omega)⟩

end

end

end LogEntry

namespace Storage

section

variable [Host]

/-- With a record in front that does not come through the decoder, only an exception ends the
read without a fault and without a record. -/
theorem readLog_eq_nil_iff {fuel : Nat} {data : Bytes} (hne : data ≠ []) :
    readLog (fuel + 1) data = .ok [] ↔ ∃ what, LogEntry.deserialize.run data = .error (.thrown what) := by
  rw [readLog, if_neg hne]
  cases hrun : LogEntry.deserialize.run data with
  | error e =>
    cases e with
    | outOfBounds =>
      constructor
      · intro h
        cases h
      · rintro ⟨what, h⟩
        cases h
    | thrown what => exact ⟨fun _ => ⟨what, rfl⟩, fun _ => rfl⟩
  | ok r =>
    obtain ⟨entry, rest⟩ := r
    obtain ⟨hintact, -⟩ := LogEntry.deserialize_ok.mp hrun
    constructor
    · intro h
      simp only [hintact.verify, if_true] at h
      cases hrest : readLog fuel rest with
      | error e =>
        rw [hrest] at h
        cases h
      | ok entries =>
        rw [hrest] at h
        cases h
    · rintro ⟨what, h⟩
      cases h

/-- Behind intact records the read stops cleanly at whatever makes the decoder throw. -/
theorem readLog_stops_iff {entries : List LogEntry} (h : ∀ e ∈ entries, e.Intact) {data : Bytes}
    (hne : data ≠ []) :
    readLog (encodeLog entries ++ data).length (encodeLog entries ++ data) = .ok entries ↔
      ∃ what, LogEntry.deserialize.run data = .error (.thrown what) := by
  have hpos : 0 < data.length := List.length_pos_iff.mpr hne
  have hfuel : entries.length + 1 ≤ (encodeLog entries ++ data).length := by
    have := length_le_encodeLog entries
    rw [List.length_append]
    omega
  obtain ⟨fuel, hfuel⟩ := Nat.exists_eq_add_of_le hfuel
  rw [hfuel, Nat.add_assoc, readLog_append h, Nat.add_comm 1, ← readLog_eq_nil_iff hne]
  cases readLog (fuel + 1) data with
  | error e =>
    constructor
    · intro heq
      cases heq
    · intro heq
      cases heq
  | ok more =>
    constructor
    · intro heq
      have hmore : entries ++ more = entries := Except.ok.inj heq
      have hnone : more = [] := by simpa using hmore
      rw [hnone]
    · intro heq
      cases heq
      exact congrArg Except.ok (List.append_nil entries)

/-- For every file of intact records and every byte of one of them that is replaced by another
value: the read returns exactly the records before the damaged one if and only if the byte is not
part of the command length, or the announced command and a CRC behind it are within the file and do
not fit together. -/
theorem readAll_damaged_iff (s : Storage) (before after : List LogEntry) (entry : LogEntry) (k : Nat)
    (b : UInt8) (hintact : ∀ e ∈ before ++ entry :: after, e.Intact) (hk : k < entry.serialize.length)
    (hb : entry.serialize[k]? ≠ some b)
    (hfile : s.files.log =
      (encodeLog (before ++ entry :: after)).set ((encodeLog before).length + k) b) :
    s.readAll = .ok before ↔
      (16 ≤ k → k < 20 → LogEntry.Mismatch entry.term entry.index
        (LogEntry.announced (entry.serialize.set k b))
        (entry.command ++ pushUInt32 entry.crc ++ encodeLog after)) := by
  have hentry : entry.Intact := hintact entry (by simp)
  have hbefore : ∀ e ∈ before, e.Intact := fun e he => hintact e (List.mem_append_left _ he)
  have hlog : s.files.log = encodeLog before ++ (entry.serialize.set k b ++ encodeLog after) := by
    rw [hfile, encodeLog, List.flatMap_append, List.flatMap_cons, ← encodeLog, ← encodeLog,
      List.set_append_right _ _ (Nat.le_add_right _ k), Nat.add_sub_cancel_left,
      List.set_append_left _ _ hk]
  have hne : entry.serialize.set k b ++ encodeLog after ≠ [] := by
    intro hnil
    have hempty : entry.serialize.set k b = [] := (List.append_eq_nil_iff.mp hnil).1
    exact entry.serialize_ne_nil (by simpa using hempty)
  rw [readAll, hlog, readLog_stops_iff hbefore hne]
  exact LogEntry.deserialize_damaged_iff hentry hk hb (encodeLog after)

/-- A store on the file `log`. -/
def onLog (log : Bytes) : Storage where
  files := { log, metaData := none }
  term := 0
  lastLogTerm := 0
  voted := []
  logLength := 0
  commitIndex := 0
  lastApplied := 0

end

/-- The command length of the second of three no-ops changes from 5 to 6. -/
theorem readAll_damaged_length :
    (onLog ((encodeLog [noopEntry 1 1, noopEntry 1 2, noopEntry 1 3]).set 48 6)).readAll =
      .ok [noopEntry 1 1] := by
  have hintact : ∀ e ∈ [noopEntry 1 1] ++ noopEntry 1 2 :: [noopEntry 1 3], e.Intact := by
    intro e he
    simp only [List.singleton_append, List.mem_cons, List.not_mem_nil, or_false] at he
    rcases he with rfl | rfl | rfl <;> exact noopEntry_intact _ _
  refine (readAll_damaged_iff _ [noopEntry 1 1] [noopEntry 1 3] (noopEntry 1 2) 19 6 hintact
    (by decide) (by decide) rfl).mpr fun _ _ => ⟨by decide +kernel, by decide +kernel⟩

/-- The command length of a no-op changes from 5 to 16777221, and the decoder reads on behind the
end of the file. -/
theorem readAll_damaged_length_out_of_bounds :
    ¬ ∀ (s : Storage) (before after : List LogEntry) (entry : LogEntry) (k : Nat) (b : UInt8),
      (∀ e ∈ before ++ entry :: after, e.Intact) → k < entry.serialize.length →
      entry.serialize[k]? ≠ some b →
      s.files.log = (encodeLog (before ++ entry :: after)).set ((encodeLog before).length + k) b →
      s.readAll = .ok before := by
  intro h
  have hintact : ∀ e ∈ [] ++ noopEntry 1 1 :: [], e.Intact := by
    intro e he
    rw [List.mem_singleton.mp he]
    exact noopEntry_intact 1 1
  have hread := h (onLog ((encodeLog [noopEntry 1 1]).set 16 1)) [] [] (noopEntry 1 1) 16 1 hintact
    (by decide) (by decide) rfl
  have hbad : (onLog ((encodeLog [noopEntry 1 1]).set 16 1)).readAll = .error .outOfBounds := by
    decide +kernel
  rw [hbad] at hread
  cases hread

-- A value that is the CRC of the bytes in front of it: with a shorter length a record is read that
-- was never written.
example :
    let start : Bytes := [1, 1, 0, 4, 0, 1]
    let crc := crc32Compute (LogEntry.guarded 1 1 start)
    let entry := LogEntry.ofCommand 1 1 { oper := .put, key := [1], val := pushUInt32 crc }
    (onLog ((encodeLog [entry, noopEntry 1 2]).set 19 6)).readAll =
      .ok [{ term := 1, index := 1, command := start, crc }] := by
  decide +kernel

end Storage

end RaftKv.Wire
