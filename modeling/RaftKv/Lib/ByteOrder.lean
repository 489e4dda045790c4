-- SUMMARY: Fixed-width numbers as byte strings, in both byte orders.
import Mathlib.Algebra.Order.Group.Nat

/-!
# Byte order

A number in `w` bytes with the least significant byte first (`toLE`), the number such a
string stands for (`ofLE`), and the byte swap between the two orders.
-/

namespace ByteOrder

/-- `n` in `w` bytes, least significant first: byte `i` is `(n >> 8 * i) & 0xFF`. -/
def toLE : Nat → Nat → List UInt8
  | 0, _ => []
  | w + 1, n => UInt8.ofNat n :: toLE w (n >>> 8)

/-- The union over all `i` of byte `i` shifted left by `8 * i`. -/
def ofLE : List UInt8 → Nat
  | [] => 0
  | b :: bs => b.toNat ||| ofLE bs <<< 8

@[simp] theorem length_toLE (w n : Nat) : (toLE w n).length = w := by
  induction w generalizing n with
  | zero => rfl
  | succ w ih => simp only [toLE, List.length_cons, ih]

/-- The bytes of a string do not overlap, so their union is their sum. -/
theorem ofLE_cons (b : UInt8) (bs : List UInt8) :
    ofLE (b :: bs) = b.toNat + 256 * ofLE bs := by
  have hb : b.toNat < 2 ^ 8 := b.toNat_lt
  have hsum := Nat.shiftLeft_add_eq_or_of_lt hb (ofLE bs)
  have hshift : ofLE bs <<< 8 = ofLE bs * 256 := Nat.shiftLeft_eq _ _
  have hunion : ofLE (b :: bs) = ofLE bs <<< 8 ||| b.toNat := Nat.or_comm _ _
  rw [hunion, ← hsum, hshift]
  omega

theorem ofLE_lt (bs : List UInt8) : ofLE bs < 256 ^ bs.length := by
  induction bs with
  | nil => simp [ofLE]
  | cons b bs ih =>
    have hb : b.toNat < 256 := b.toNat_lt
    rw [ofLE_cons, List.length_cons, Nat.pow_succ]
    omega

theorem ofLE_toLE (w n : Nat) : ofLE (toLE w n) = n % 256 ^ w := by
  induction w generalizing n with
  | zero => simp [toLE, ofLE, Nat.mod_one]
  | succ w ih =>
    have hb : (UInt8.ofNat n).toNat = n % 256 := UInt8.toNat_ofNat'
    have hshift : n >>> 8 = n / 256 := Nat.shiftRight_eq_div_pow n 8
    rw [toLE, ofLE_cons, ih, hb, hshift, Nat.pow_succ', Nat.mod_mul]

theorem ofLE_toLE_of_lt {w n : Nat} (h : n < 256 ^ w) : ofLE (toLE w n) = n := by
  rw [ofLE_toLE, Nat.mod_eq_of_lt h]

theorem toLE_ofLE (bs : List UInt8) : toLE bs.length (ofLE bs) = bs := by
  induction bs with
  | nil => rfl
  | cons b bs ih =>
    have hb : b.toNat < 256 := b.toNat_lt
    have hhead : UInt8.ofNat (ofLE (b :: bs)) = b := by
      apply UInt8.toNat_inj.mp
      rw [UInt8.toNat_ofNat', ofLE_cons]
      omega
    have htail : ofLE (b :: bs) >>> 8 = ofLE bs := by
      rw [Nat.shiftRight_eq_div_pow, ofLE_cons]
      omega
    rw [List.length_cons, toLE, hhead, htail, ih]

/-! ## The other order -/

/-- Reverse the `w` bytes of `n`. -/
def swap (w n : Nat) : Nat := ofLE (toLE w n).reverse

theorem swap_lt (w n : Nat) : swap w n < 256 ^ w := by
  have h := ofLE_lt (toLE w n).reverse
  rwa [List.length_reverse, length_toLE] at h

theorem swap_swap {w n : Nat} (h : n < 256 ^ w) : swap w (swap w n) = n := by
  have hback := toLE_ofLE (toLE w n).reverse
  rw [List.length_reverse, length_toLE] at hback
  rw [swap, swap, hback, List.reverse_reverse, ofLE_toLE_of_lt h]

end ByteOrder
