-- SUMMARY: The byte encoding of a command.
import RaftKv.Command
import RaftKv.Lib.ByteOrder
import RaftKv.Lib.Decoder

/-!
# Commands on the wire

`Command::serialize` and `Command::deserialize` of `Command.h`: one byte for the
operation, two for each length, the key, the value. What `htons` and `htonl` do depends
on the byte order of the host (`Host`), so the bytes of a message do, too.
-/

namespace RaftKv

open ByteOrder Decoder

/-- The exceptions of the source are `std::runtime_error`s; the text is `what()`. -/
abbrev Result (α : Type) := Except (Fault String) α

/-- The byte order of the host. -/
class Host where
  littleEndian : Bool

/-- `htons` and `ntohs`: the byte swap on a little-endian host, else the identity. -/
def htons [Host] (x : UInt16) : UInt16 :=
  if Host.littleEndian then UInt16.ofNat (swap 2 x.toNat) else x

theorem htons_htons [Host] (x : UInt16) : htons (htons x) = x := by
  have hx : x.toNat < 256 ^ 2 := x.toNat_lt
  have hs : swap 2 x.toNat < 2 ^ 16 := swap_lt 2 x.toNat
  unfold htons
  split
  · rw [UInt16.toNat_ofNat_of_lt' hs, swap_swap hx, UInt16.ofNat_toNat]
  · rfl

namespace Command

section Encoding

variable [Host]

/-- The two bytes of a length field, the high byte of the converted length first. -/
def serializeLength (n : Nat) : Bytes :=
  let len := htons (UInt16.ofNat n)
  [(len >>> 8).toUInt8, len.toUInt8]

def serialize (cmd : Command) : Bytes :=
  [cmd.oper.code] ++ serializeLength cmd.key.length ++ serializeLength cmd.val.length ++
    cmd.key ++ cmd.val

/-- A length field back from its two bytes. -/
def deserializeLength (bs : Bytes) : UInt16 :=
  htons (UInt16.ofNat (ofLE bs.reverse))

/-- What `deserialize` reads once it has checked that the five header bytes are there:
the key and the value are cut out of the buffer without a check. -/
def decode : Decoder String Command := do
  let oper ← take 1
  let keyLen ← take 2
  let valLen ← take 2
  let key ← take (deserializeLength keyLen).toNat
  let val ← take (deserializeLength valLen).toNat
  return { oper := ⟨oper.headD 0⟩, key := key, val := val }

/-- Bytes behind the value are ignored. -/
def deserialize (data : Bytes) : Result Command :=
  if data.length < 5 then .error (.thrown "Command too short")
  else (decode.run data).map (·.1)

end Encoding

/-! ## Round trip -/

/-- Both strings fit the 16-bit length fields. -/
def Short (cmd : Command) : Prop := cmd.key.length < 2 ^ 16 ∧ cmd.val.length < 2 ^ 16

instance (cmd : Command) : Decidable cmd.Short := inferInstanceAs (Decidable (_ ∧ _))

@[simp] theorem length_serializeLength [Host] (n : Nat) : (serializeLength n).length = 2 := rfl

@[simp] theorem length_serialize [Host] (cmd : Command) :
    cmd.serialize.length = 5 + cmd.key.length + cmd.val.length := by
  simp only [serialize, List.length_append, List.length_singleton, length_serializeLength]

/-- The length field in both directions: the bytes of the converted length, high byte
first, and the union of the two. -/
theorem serializeLength_deserializeLength [Host] {bs : Bytes} (h : bs.length = 2) :
    serializeLength (deserializeLength bs).toNat = bs := by
  obtain ⟨hi, lo, rfl⟩ := List.length_eq_two.mp h
  have hhi : hi.toNat < 256 := hi.toNat_lt
  have hlo : lo.toNat < 256 := lo.toNat_lt
  have hval : (UInt16.ofNat (ofLE [lo, hi])).toNat = lo.toNat + 256 * hi.toNat := by
    rw [UInt16.toNat_ofNat', ofLE_cons, ofLE_cons]
    simp only [ofLE]
    omega
  have hhigh : (UInt16.ofNat (ofLE [lo, hi]) >>> 8).toUInt8 = hi := by
    apply UInt8.toNat_inj.mp
    rw [UInt16.toNat_toUInt8, UInt16.toNat_shiftRight, hval]
    show (lo.toNat + 256 * hi.toNat) >>> 8 % 256 = hi.toNat
    rw [Nat.shiftRight_eq_div_pow]
    omega
  have hlow : (UInt16.ofNat (ofLE [lo, hi])).toUInt8 = lo := by
    apply UInt8.toNat_inj.mp
    rw [UInt16.toNat_toUInt8, hval]
    omega
  rw [serializeLength, deserializeLength, UInt16.ofNat_toNat, htons_htons]
  show [(UInt16.ofNat (ofLE [lo, hi]) >>> 8).toUInt8, (UInt16.ofNat (ofLE [lo, hi])).toUInt8] = _
  rw [hhigh, hlow]

theorem deserializeLength_serializeLength [Host] {n : Nat} (h : n < 2 ^ 16) :
    (deserializeLength (serializeLength n)).toNat = n := by
  have hword : ∀ x : UInt16, UInt16.ofNat (ofLE [x.toUInt8, (x >>> 8).toUInt8]) = x := by
    intro x
    have hx : x.toNat < 2 ^ 16 := x.toNat_lt
    apply UInt16.toNat_inj.mp
    have hlow : x.toUInt8.toNat = x.toNat % 256 := UInt16.toNat_toUInt8 x
    have hhigh : (x >>> 8).toUInt8.toNat = x.toNat / 256 % 256 := by
      rw [UInt16.toNat_toUInt8, UInt16.toNat_shiftRight]
      exact congrArg (· % 256) (Nat.shiftRight_eq_div_pow _ _)
    rw [ofLE_cons, ofLE_cons, hlow, hhigh, UInt16.toNat_ofNat']
    simp only [ofLE]
    omega
  show (htons (UInt16.ofNat (ofLE [_, _]))).toNat = n
  rw [hword, htons_htons, UInt16.toNat_ofNat_of_lt' h]

theorem reads_decode [Host] {cmd : Command} (h : cmd.Short) : Reads decode cmd.serialize cmd := by
  have hkey := deserializeLength_serializeLength h.1
  have hval := deserializeLength_serializeLength h.2
  unfold decode
  simp only [serialize, List.append_assoc]
  refine Reads.bind (reads_take (n := 1) rfl) ?_
  refine (reads_take (length_serializeLength _)).bind ?_
  refine (reads_take (length_serializeLength _)).bind ?_
  exact (reads_take hkey.symm).bind (reads_take hval.symm).map

theorem deserialize_serialize [Host] {cmd : Command} (h : cmd.Short) :
    deserialize cmd.serialize = .ok cmd := by
  have hlen : ¬ cmd.serialize.length < 5 := by
    rw [length_serialize]
    omega
  rw [deserialize, if_neg hlen, (reads_decode h).run]
  rfl

/-- The decoder accepts exactly the encodings, with anything behind them. -/
theorem decode_ok [Host] {input rest : Bytes} {cmd : Command} :
    decode.run input = .ok (cmd, rest) ↔ cmd.Short ∧ input = cmd.serialize ++ rest := by
  constructor
  · intro h
    obtain ⟨oper, in₁, hoper, h⟩ := bind_ok.mp h
    obtain ⟨keyLen, in₂, hkeyLen, h⟩ := bind_ok.mp h
    obtain ⟨valLen, in₃, hvalLen, h⟩ := bind_ok.mp h
    obtain ⟨key, in₄, hkey, h⟩ := bind_ok.mp h
    obtain ⟨val, in₅, hval, h⟩ := bind_ok.mp h
    obtain ⟨rfl, rfl⟩ := pure_ok.mp h
    obtain ⟨hoperLen, rfl⟩ := take_ok.mp hoper
    obtain ⟨hkeyLenLen, rfl⟩ := take_ok.mp hkeyLen
    obtain ⟨hvalLenLen, rfl⟩ := take_ok.mp hvalLen
    obtain ⟨hkeySize, rfl⟩ := take_ok.mp hkey
    obtain ⟨hvalSize, rfl⟩ := take_ok.mp hval
    obtain ⟨code, rfl⟩ := List.length_eq_one_iff.mp hoperLen
    refine ⟨⟨hkeySize ▸ UInt16.toNat_lt _, hvalSize ▸ UInt16.toNat_lt _⟩, ?_⟩
    simp only [serialize, hkeySize, hvalSize, serializeLength_deserializeLength hkeyLenLen,
      serializeLength_deserializeLength hvalLenLen, List.append_assoc, List.headD_cons]
  · rintro ⟨hshort, rfl⟩
    exact reads_decode hshort rest

/-- What a client's packet decodes to is `Short`, and its encoding is at the front of the
packet. -/
theorem deserialize_ok [Host] {data : Bytes} {cmd : Command} (h : deserialize data = .ok cmd) :
    cmd.Short ∧ cmd.serialize <+: data := by
  rw [deserialize] at h
  split at h
  · cases h
  cases hrun : decode.run data with
  | error e =>
    rw [hrun] at h
    cases h
  | ok r =>
    obtain ⟨cmd', rest⟩ := r
    rw [hrun] at h
    obtain rfl : cmd' = cmd := Except.ok.inj h
    obtain ⟨hshort, rfl⟩ := decode_ok.mp hrun
    exact ⟨hshort, List.prefix_append _ _⟩

end Command

end RaftKv
