-- SUMMARY: crc32_compute against CRC-32 fed bit by bit, and the changes that it never misses.
import RaftKv.Lib.Crc
import RaftKv.Wire.LogEntry

/-!
# The checksum

The table of `crc32.h` takes eight steps of the register at once. So `crc32_compute` is CRC-32,
and a change within 32 consecutive bits of what it is computed over changes its value.
-/

namespace RaftKv.Wire

open ByteOrder

/-! ## Bit by bit -/

/-- `poly` of `crc32_compute`. -/
def polynomial : BitVec 32 := 0xEDB88320#32

/-- The bits of a string in the order in which they are fed, those of a byte from the least
significant one on. -/
def messageBits (data : Bytes) : List Bool := data.flatMap fun b => Crc.bitsOf b.toBitVec

/-- CRC-32: the register starts with ones, takes in one bit at a time and is complemented. -/
def crc32Bitwise (data : Bytes) : UInt32 :=
  .ofBitVec (~~~ Crc.feedAll polynomial (BitVec.allOnes 32) (messageBits data))

/-! ## The table -/

theorem crcRound_toBitVec (crc : UInt32) : (crcRound crc).toBitVec = Crc.step polynomial crc.toBitVec := by
  have hlow : crc &&& 1 = 1 ↔ crc.toBitVec.getLsbD 0 = true := by
    rw [← UInt32.toBitVec_inj, UInt32.toBitVec_and]
    have hone : (1 : UInt32).toBitVec = 1#32 := rfl
    rw [hone, BitVec.and_one_eq_setWidth_ofBool_getLsbD]
    cases crc.toBitVec.getLsbD 0 <;> decide
  unfold crcRound Crc.step
  simp only [hlow]
  split
  · rw [UInt32.toBitVec_xor, UInt32.toBitVec_shiftRight]
    rfl
  · rw [UInt32.toBitVec_shiftRight]
    rfl

theorem crcTable_toBitVec (i : UInt32) :
    (crcTable i).toBitVec = (Crc.step polynomial)^[8] i.toBitVec := by
  simp only [crcTable, Nat.repeat, crcRound_toBitVec]
  rfl

/-- A table step takes in the eight bits of its byte. -/
theorem crcByte_toBitVec (crc : UInt32) (b : UInt8) :
    (crcByte crc b).toBitVec = Crc.feedAll polynomial crc.toBitVec (Crc.bitsOf b.toBitVec) := by
  have hsum : (crc ^^^ b.toUInt32).toBitVec = crc.toBitVec ^^^ b.toBitVec.setWidth 32 := rfl
  have hmask : ((crc ^^^ b.toUInt32) &&& 0xFF).toBitVec =
      (crc.toBitVec ^^^ b.toBitVec.setWidth 32) &&& 0xFF#32 := rfl
  have hff : ∀ i, (0xFF#32).getLsbD i = decide (i < 8) := by
    intro i
    rw [BitVec.getLsbD_ofNat, show (0xFF : Nat) = 2 ^ 8 - 1 from rfl, Nat.testBit_two_pow_sub_one]
    by_cases hi : i < 8
    · simp [hi, Nat.lt_trans hi (by decide : 8 < 32)]
    · simp [hi]
  have hgone : (b.toBitVec.setWidth 32) >>> 8 = 0#32 := by
    apply BitVec.eq_of_getLsbD_eq
    intro i hi
    rw [BitVec.getLsbD_ushiftRight, BitVec.getLsbD_setWidth, BitVec.getLsbD_of_ge b.toBitVec _ (by omega)]
    simp
  rw [Crc.feedAll_bitsOf polynomial (by decide),
    Crc.iterate_step_eq_table polynomial 8 _ ((crc.toBitVec ^^^ b.toBitVec.setWidth 32) &&& 0xFF#32),
    crcByte, UInt32.toBitVec_xor, crcTable_toBitVec, hmask, UInt32.toBitVec_shiftRight,
    BitVec.ushiftRight_xor_distrib, hgone, BitVec.xor_zero]
  · rfl
  · intro i hi
    rw [BitVec.getLsbD_and, hff, decide_eq_true hi, Bool.and_true]
  · intro i hi
    rw [BitVec.getLsbD_and, hff, decide_eq_false (Nat.not_lt.mpr hi), Bool.and_false]

theorem foldl_crcByte_toBitVec (data : Bytes) (crc : UInt32) :
    (data.foldl crcByte crc).toBitVec = Crc.feedAll polynomial crc.toBitVec (messageBits data) := by
  induction data generalizing crc with
  | nil => rfl
  | cons b data ih =>
    rw [List.foldl_cons, ih, crcByte_toBitVec, ← Crc.feedAll_append]
    rfl

theorem crc32Compute_toBitVec (data : Bytes) :
    (crc32Compute data).toBitVec =
      ~~~ Crc.feedAll polynomial (BitVec.allOnes 32) (messageBits data) := by
  have hones : (0xFFFFFFFF : UInt32).toBitVec = BitVec.allOnes 32 := rfl
  rw [crc32Compute, UInt32.toBitVec_xor, foldl_crcByte_toBitVec, hones, BitVec.xor_allOnes]

/-- For every string: the table-driven loop computes CRC-32. -/
theorem crc32Compute_eq_bitwise (data : Bytes) : crc32Compute data = crc32Bitwise data :=
  UInt32.toBitVec_inj.mp (crc32Compute_toBitVec data)

/-! ## Bursts -/

/-- Up to four bytes in a row are up to 32 bits in a row. -/
theorem burst_messageBits {data data' : Bytes} (h : Crc.Burst 4 data data') :
    Crc.Burst 32 (messageBits data) (messageBits data') := by
  have hinj : Function.Injective fun b : UInt8 => Crc.bitsOf b.toBitVec := by
    intro b b' heq
    exact UInt8.toBitVec_inj.mp (Crc.bitsOf_injective 8 heq)
  exact h.flatMap (fun b => Crc.length_bitsOf b.toBitVec) hinj

theorem crc32Compute_ne_of_burst {data data' : Bytes}
    (h : Crc.Burst 32 (messageBits data) (messageBits data')) :
    crc32Compute data ≠ crc32Compute data' := by
  intro heq
  rw [← UInt32.toBitVec_inj, crc32Compute_toBitVec, crc32Compute_toBitVec] at heq
  exact Crc.feedAll_ne_of_burst (by decide) _ h (BitVec.not_inj.mp heq)

namespace LogEntry

/-- For every entry and every change of its term, index and command within four consecutive bytes,
or within 32 consecutive bits, of the string that the CRC is computed over: the CRC changes, and
under the stored CRC the changed entry is rejected. -/
theorem verify_detects_burst (entry : LogEntry) (term index : UInt64) (command : Bytes)
    (h : Crc.Burst 4 (guarded entry.term entry.index entry.command) (guarded term index command) ∨
      Crc.Burst 32 (messageBits (guarded entry.term entry.index entry.command))
        (messageBits (guarded term index command))) :
    crc32Compute (guarded entry.term entry.index entry.command) ≠
        crc32Compute (guarded term index command) ∧
      (entry.verify = true → ({ entry with term, index, command } : LogEntry).verify = false) := by
  have hburst : Crc.Burst 32 (messageBits (guarded entry.term entry.index entry.command))
      (messageBits (guarded term index command)) := h.elim burst_messageBits id
  have hne := crc32Compute_ne_of_burst hburst
  refine ⟨hne, fun hverify => ?_⟩
  have hstored : entry.crc = crc32Compute (guarded entry.term entry.index entry.command) :=
    beq_iff_eq.mp hverify
  rw [verify, beq_eq_false_iff_ne]
  exact fun heq => hne (hstored.symm.trans heq)

/-- The index changes from 1 to 256: two bytes next to each other. -/
theorem verify_detects_burst_index :
    ({ term := 1, index := 256, command := [2], crc := crc32Compute (guarded 1 1 [2]) } :
      LogEntry).verify = false := by
  have hburst : Crc.Burst 4 (guarded 1 1 [2]) (guarded 1 256 [2]) :=
    ⟨pushUInt64 1, List.replicate 6 0 ++ [2], [1, 0], [0, 1], rfl, rfl, rfl, by decide, by decide⟩
  let entry : LogEntry := ⟨1, 1, [2], crc32Compute (guarded 1 1 [2])⟩
  exact (verify_detects_burst entry 1 256 [2] (.inl hburst)).2 (beq_self_eq_true _)

end LogEntry

end RaftKv.Wire
