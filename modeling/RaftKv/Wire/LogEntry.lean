-- SUMMARY: Log records as bytes: the CRC, the encoder, the decoder and where it stops.
import RaftKv.Wire.Command

/-!
# Log records on the wire

`crc32.h` and `LogEntry.h`. The same encoding is used in `raft.log` and inside an
AppendEntries message. `LogEntry::deserialize` reads its buffer without a bounds check
and checks the CRC afterwards.
-/

namespace RaftKv.Wire

open ByteOrder Decoder

/-! ## Words -/

/-- The loop that pushes the eight bytes of a word (`push_uint64`). -/
def pushUInt64 (val : UInt64) : Bytes := toLE 8 val.toNat

/-- The loop that collects them (`read_uint64`). -/
def readUInt64 : Decoder String UInt64 := do
  let bs ← take 8
  return UInt64.ofNat (ofLE bs)

def pushUInt32 (val : UInt32) : Bytes := toLE 4 val.toNat

def readUInt32 : Decoder String UInt32 := do
  let bs ← take 4
  return UInt32.ofNat (ofLE bs)

/-- `htonl` and `ntohl`. -/
def htonl [Host] (x : UInt32) : UInt32 :=
  if Host.littleEndian then UInt32.ofNat (swap 4 x.toNat) else x

@[simp] theorem length_pushUInt64 (val : UInt64) : (pushUInt64 val).length = 8 := length_toLE _ _

@[simp] theorem length_pushUInt32 (val : UInt32) : (pushUInt32 val).length = 4 := length_toLE _ _

theorem pushUInt64_ofLE {bs : Bytes} (h : bs.length = 8) : pushUInt64 (UInt64.ofNat (ofLE bs)) = bs := by
  have hlt : ofLE bs < 256 ^ 8 := h ▸ ofLE_lt bs
  rw [pushUInt64, UInt64.toNat_ofNat_of_lt' hlt, ← h, toLE_ofLE]

theorem pushUInt32_ofLE {bs : Bytes} (h : bs.length = 4) : pushUInt32 (UInt32.ofNat (ofLE bs)) = bs := by
  have hlt : ofLE bs < 256 ^ 4 := h ▸ ofLE_lt bs
  rw [pushUInt32, UInt32.toNat_ofNat_of_lt' hlt, ← h, toLE_ofLE]

theorem ofLE_pushUInt64 (val : UInt64) : UInt64.ofNat (ofLE (pushUInt64 val)) = val := by
  have hval : val.toNat < 256 ^ 8 := val.toNat_lt
  rw [pushUInt64, ofLE_toLE_of_lt hval, UInt64.ofNat_toNat]

theorem ofLE_pushUInt32 (val : UInt32) : UInt32.ofNat (ofLE (pushUInt32 val)) = val := by
  have hval : val.toNat < 256 ^ 4 := val.toNat_lt
  rw [pushUInt32, ofLE_toLE_of_lt hval, UInt32.ofNat_toNat]

theorem reads_readUInt64 (val : UInt64) : Reads readUInt64 (pushUInt64 val) val := by
  have h := (reads_take (ε := String) (length_pushUInt64 val)).map
    (g := fun bs => UInt64.ofNat (ofLE bs))
  rwa [ofLE_pushUInt64] at h

theorem reads_readUInt32 (val : UInt32) : Reads readUInt32 (pushUInt32 val) val := by
  have h := (reads_take (ε := String) (length_pushUInt32 val)).map
    (g := fun bs => UInt32.ofNat (ofLE bs))
  rwa [ofLE_pushUInt32] at h

theorem local_readUInt64 : Local readUInt64 := (Local.take 8).bind fun _ => .pure _

theorem local_readUInt32 : Local readUInt32 := (Local.take 4).bind fun _ => .pure _

theorem readUInt64_ok {input rest : Bytes} {val : UInt64} :
    readUInt64.run input = .ok (val, rest) ↔ input = pushUInt64 val ++ rest := by
  constructor
  · intro h
    obtain ⟨bs, mid, hbs, h⟩ := bind_ok.mp h
    obtain ⟨rfl, rfl⟩ := pure_ok.mp h
    obtain ⟨hlen, rfl⟩ := take_ok.mp hbs
    rw [pushUInt64_ofLE hlen]
  · rintro rfl
    exact reads_readUInt64 val rest

theorem readUInt32_ok {input rest : Bytes} {val : UInt32} :
    readUInt32.run input = .ok (val, rest) ↔ input = pushUInt32 val ++ rest := by
  constructor
  · intro h
    obtain ⟨bs, mid, hbs, h⟩ := bind_ok.mp h
    obtain ⟨rfl, rfl⟩ := pure_ok.mp h
    obtain ⟨hlen, rfl⟩ := take_ok.mp hbs
    rw [pushUInt32_ofLE hlen]
  · rintro rfl
    exact reads_readUInt32 val rest

theorem htonl_htonl [Host] (x : UInt32) : htonl (htonl x) = x := by
  have hx : x.toNat < 256 ^ 4 := x.toNat_lt
  have hs : swap 4 x.toNat < 2 ^ 32 := swap_lt 4 x.toNat
  unfold htonl
  split
  · rw [UInt32.toNat_ofNat_of_lt' hs, swap_swap hx, UInt32.ofNat_toNat]
  · rfl

/-! ## CRC -/

/-- One of the eight rounds that fill a table entry. -/
def crcRound (crc : UInt32) : UInt32 :=
  if crc &&& 1 = 1 then (crc >>> 1) ^^^ 0xEDB88320 else crc >>> 1

/-- `table[i]` of `crc32_compute`. -/
def crcTable (i : UInt32) : UInt32 := Nat.repeat crcRound 8 i

/-- The body of the loop over the bytes. -/
def crcByte (crc : UInt32) (b : UInt8) : UInt32 :=
  (crc >>> 8) ^^^ crcTable ((crc ^^^ b.toUInt32) &&& 0xFF)

def crc32Compute (data : Bytes) : UInt32 :=
  data.foldl crcByte 0xFFFFFFFF ^^^ 0xFFFFFFFF

-- The check value of this CRC: the digits 1 to 9.
example : crc32Compute [49, 50, 51, 52, 53, 54, 55, 56, 57] = 0xCBF43926 := by decide +kernel

/-! ## Records -/

structure LogEntry where
  term : UInt64
  index : UInt64
  command : Bytes
  crc : UInt32
  deriving DecidableEq, Repr

namespace LogEntry

/-- The bytes the CRC is computed over. -/
def guarded (term index : UInt64) (command : Bytes) : Bytes :=
  pushUInt64 term ++ pushUInt64 index ++ command

/-- The constructor `LogEntry(t, i, cmd)`. -/
def ofCommand [Host] (t i : UInt64) (cmd : Command) : LogEntry where
  term := t
  index := i
  command := cmd.serialize
  crc := crc32Compute (guarded t i cmd.serialize)

def verify (entry : LogEntry) : Bool :=
  entry.crc == crc32Compute (guarded entry.term entry.index entry.command)

def serialize [Host] (entry : LogEntry) : Bytes :=
  pushUInt64 entry.term ++ pushUInt64 entry.index ++
    pushUInt32 (htonl (UInt32.ofNat entry.command.length)) ++ entry.command ++ pushUInt32 entry.crc

def deserialize [Host] : Decoder String LogEntry := do
  let term ← readUInt64
  let index ← readUInt64
  let cmdLen ← readUInt32
  let command ← take (htonl cmdLen).toNat
  let crc ← readUInt32
  let temp : LogEntry := { term, index, command, crc }
  if !temp.verify then throw "CRC mismatch in the log entry!" else return temp

def getCommand [Host] (entry : LogEntry) : Result Command := Command.deserialize entry.command

/-- A record as the program makes them: the CRC fits, and the command is shorter than
its 32-bit length field can say. -/
structure Intact (entry : LogEntry) : Prop where
  verify : entry.verify = true
  short : entry.command.length < 2 ^ 32

@[simp] theorem length_serialize [Host] (entry : LogEntry) :
    entry.serialize.length = 24 + entry.command.length := by
  simp only [serialize, List.length_append, length_pushUInt64, length_pushUInt32]
  omega

theorem serialize_ne_nil [Host] (entry : LogEntry) : entry.serialize ≠ [] := by
  intro h
  have := congrArg List.length h
  rw [length_serialize] at this
  simp at this

/-! ## The decoder -/

theorem reads_deserialize [Host] {entry : LogEntry} (h : entry.Intact) :
    Reads deserialize entry.serialize entry := by
  have hlen : (htonl (htonl (UInt32.ofNat entry.command.length))).toNat = entry.command.length := by
    rw [htonl_htonl, UInt32.toNat_ofNat_of_lt' h.short]
  unfold deserialize
  simp only [serialize, List.append_assoc]
  refine (reads_readUInt64 entry.term).bind ?_
  refine (reads_readUInt64 entry.index).bind ?_
  refine (reads_readUInt32 _).bind ?_
  refine (reads_take hlen.symm).bind ?_
  intro rest
  rw [bind_of_ok (reads_readUInt32 entry.crc rest)]
  have hverify : (!entry.verify) = false := by rw [h.verify]; rfl
  show StateT.run (if (!entry.verify) = true then _ else _) rest = _
  rw [hverify]
  rfl

theorem local_deserialize [Host] : Local deserialize := by
  refine local_readUInt64.bind fun term => ?_
  refine local_readUInt64.bind fun index => ?_
  refine local_readUInt32.bind fun cmdLen => ?_
  refine (Local.take _).bind fun command => ?_
  refine local_readUInt32.bind fun crc => ?_
  dsimp only
  split
  · exact .throw _
  · exact .pure _

/-- The decoder accepts exactly the encodings of intact records, with anything behind
them. -/
theorem deserialize_ok [Host] {input rest : Bytes} {entry : LogEntry} :
    deserialize.run input = .ok (entry, rest) ↔ entry.Intact ∧ input = entry.serialize ++ rest := by
  constructor
  · intro h
    obtain ⟨term, in₁, hterm, h⟩ := bind_ok.mp h
    obtain ⟨index, in₂, hindex, h⟩ := bind_ok.mp h
    obtain ⟨cmdLen, in₃, hcmdLen, h⟩ := bind_ok.mp h
    obtain ⟨command, in₄, hcommand, h⟩ := bind_ok.mp h
    obtain ⟨crc, in₅, hcrc, h⟩ := bind_ok.mp h
    dsimp only at h
    split at h
    · cases h
    rename_i hverify
    obtain ⟨rfl, rfl⟩ := pure_ok.mp h
    obtain rfl := readUInt64_ok.mp hterm
    obtain rfl := readUInt64_ok.mp hindex
    obtain rfl := readUInt32_ok.mp hcmdLen
    obtain rfl := readUInt32_ok.mp hcrc
    obtain ⟨hlen, rfl⟩ := take_ok.mp hcommand
    have hshort : command.length < 2 ^ 32 := hlen ▸ (htonl cmdLen).toNat_lt
    refine ⟨⟨by simpa using hverify, hshort⟩, ?_⟩
    simp only [serialize, hlen, UInt32.ofNat_toNat, htonl_htonl, List.append_assoc]
  · rintro ⟨hintact, rfl⟩
    exact reads_deserialize hintact rest

/-- A constructed record is intact when its command came from a client's packet or is a
no-op; both are `Short`. -/
theorem intact_ofCommand [Host] (t i : UInt64) {cmd : Command} (h : cmd.Short) :
    (ofCommand t i cmd).Intact where
  verify := beq_self_eq_true _
  short := by
    show cmd.serialize.length < 2 ^ 32
    have hkey := h.1
    have hval := h.2
    rw [Command.length_serialize]
    omega

end LogEntry

/-- The record a new leader appends. -/
def noopEntry [Host] (t i : UInt64) : LogEntry := .ofCommand t i { oper := .noop }

theorem noopEntry_intact [Host] (t i : UInt64) : (noopEntry t i).Intact :=
  LogEntry.intact_ofCommand t i ⟨by decide, by decide⟩

end RaftKv.Wire
