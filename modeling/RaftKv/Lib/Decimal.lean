-- SUMMARY: Decimal numerals as bytes: writing an integer, reading the longest numeral at the front, and the round trip.
import Mathlib.Data.List.Basic

/-!
# Decimal numerals

`numeral` and `signed` write a number in decimal, in ASCII. `readSigned` reads an optional
sign and the longest run of digits behind it, and leaves the rest.
-/

namespace Decimal

def isDigit (b : UInt8) : Bool := 48 ≤ b && b ≤ 57

/-- The value of a run of digits. -/
def value (bs : List UInt8) : Nat := bs.foldl (fun n b => 10 * n + (b.toNat - 48)) 0

def ofChar (c : Char) : UInt8 := UInt8.ofNat c.toNat

def numeral (n : Nat) : List UInt8 := (Nat.toDigits 10 n).map ofChar

def minus : UInt8 := 45
def plus : UInt8 := 43

def signed (z : Int) : List UInt8 :=
  if z < 0 then minus :: numeral z.natAbs else numeral z.natAbs

/-- The digits at the front, and what follows them. -/
def readDigits (bs : List UInt8) : Option (Nat × List UInt8) :=
  if bs.takeWhile isDigit = [] then none
  else some (value (bs.takeWhile isDigit), bs.dropWhile isDigit)

/-- A sign, if there is one, and the digits behind it. -/
def readSigned : List UInt8 → Option (Int × List UInt8)
  | [] => none
  | b :: bs =>
    if b = minus then (readDigits bs).map fun (n, rest) => (-(n : Int), rest)
    else if b = plus then (readDigits bs).map fun (n, rest) => ((n : Int), rest)
    else (readDigits (b :: bs)).map fun (n, rest) => ((n : Int), rest)

/-! ## Numerals -/

theorem toNat_ofChar {c : Char} (h : c.toNat < 256) : (ofChar c).toNat = c.toNat :=
  UInt8.toNat_ofNat_of_lt' h

theorem digit_bounds {n : Nat} {c : Char} (h : c ∈ Nat.toDigits 10 n) :
    48 ≤ c.toNat ∧ c.toNat ≤ 57 := by
  have hdigit := Nat.isDigit_of_mem_toDigits (by decide) (by decide) h
  simp only [Char.isDigit, Bool.and_eq_true, decide_eq_true_eq] at hdigit
  exact ⟨UInt32.le_iff_toNat_le.mp hdigit.1, UInt32.le_iff_toNat_le.mp hdigit.2⟩

theorem isDigit_iff {b : UInt8} : isDigit b = true ↔ 48 ≤ b.toNat ∧ b.toNat ≤ 57 := by
  simp only [isDigit, Bool.and_eq_true, decide_eq_true_eq, UInt8.le_iff_toNat_le]
  rfl

theorem isDigit_of_mem_numeral {n : Nat} {b : UInt8} (h : b ∈ numeral n) : isDigit b = true := by
  obtain ⟨c, hc, rfl⟩ := List.mem_map.mp h
  have hbounds := digit_bounds hc
  rw [isDigit_iff, toNat_ofChar (by omega)]
  exact hbounds

theorem numeral_ne_nil (n : Nat) : numeral n ≠ [] := by
  rw [numeral, Ne, List.map_eq_nil_iff]
  exact Nat.toDigits_ne_nil

theorem value_numeral (n : Nat) : value (numeral n) = n := by
  have hfold : ∀ (cs : List Char) (k : Nat), (∀ c ∈ cs, c.toNat < 256) →
      (cs.map ofChar).foldl (fun n b => 10 * n + (b.toNat - 48)) k = Nat.ofDigitChars 10 cs k := by
    intro cs
    induction cs with
    | nil => intro k _; rfl
    | cons c cs ih =>
      intro k hcs
      rw [List.map_cons, List.foldl_cons, Nat.ofDigitChars_cons,
        toNat_ofChar (hcs c List.mem_cons_self)]
      exact ih _ fun c' hc' => hcs c' (List.mem_cons_of_mem _ hc')
  rw [value, numeral, hfold _ _ fun c hc => by have := digit_bounds hc; omega]
  exact Nat.ofDigitChars_ten_toDigits

/-! ## Reading back -/

/-- No digit follows. -/
def Ends (rest : List UInt8) : Prop := ∀ b ∈ rest.head?, isDigit b = false

theorem Ends.cut {ds rest : List UInt8} (hds : ∀ b ∈ ds, isDigit b = true) (hrest : Ends rest) :
    (ds ++ rest).takeWhile isDigit = ds ∧ (ds ++ rest).dropWhile isDigit = rest := by
  induction ds with
  | nil =>
    cases rest with
    | nil => exact ⟨rfl, rfl⟩
    | cons b bs =>
      have hb := hrest b rfl
      exact ⟨by simp [hb], by simp [hb]⟩
  | cons d ds ih =>
    have hd := hds d List.mem_cons_self
    obtain ⟨htake, hdrop⟩ := ih fun b hb => hds b (List.mem_cons_of_mem _ hb)
    exact ⟨by simp [hd, htake], by simp [hd, hdrop]⟩

theorem readDigits_numeral (n : Nat) {rest : List UInt8} (hrest : Ends rest) :
    readDigits (numeral n ++ rest) = some (n, rest) := by
  obtain ⟨htake, hdrop⟩ := Ends.cut (fun b hb => isDigit_of_mem_numeral hb) hrest
  rw [readDigits, htake, hdrop, if_neg (numeral_ne_nil n), value_numeral]

theorem readSigned_signed (z : Int) {rest : List UInt8} (hrest : Ends rest) :
    readSigned (signed z ++ rest) = some (z, rest) := by
  by_cases hz : z < 0
  · have hval : -(z.natAbs : Int) = z := by omega
    simp only [signed, if_pos hz, List.cons_append, readSigned, if_true,
      readDigits_numeral _ hrest, Option.map_some, hval]
  · have hval : (z.natAbs : Int) = z := by omega
    have hread := readDigits_numeral z.natAbs hrest
    simp only [signed, if_neg hz]
    cases hcons : numeral z.natAbs with
    | nil => exact absurd hcons (numeral_ne_nil _)
    | cons b bs =>
      -- a digit is no sign
      have hb : isDigit b = true :=
        isDigit_of_mem_numeral (n := z.natAbs) (hcons ▸ List.mem_cons_self)
      have hminus : b ≠ minus := by rintro rfl; exact absurd hb (by decide)
      have hplus : b ≠ plus := by rintro rfl; exact absurd hb (by decide)
      rw [hcons, List.cons_append] at hread
      simp only [List.cons_append, readSigned, if_neg hminus, if_neg hplus, hread,
        Option.map_some, hval]

end Decimal
