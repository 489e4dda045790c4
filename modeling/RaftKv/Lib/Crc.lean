-- SUMMARY: Reflected CRC registers of any width: linearity, many bits at a time, detection of bursts.
import Mathlib.Logic.Function.Iterate

/-!
# Cyclic redundancy checks

The register of a reflected CRC holds the coefficient of the highest power in its lowest bit and
takes in a message bit by bit. A step is linear over XOR, so the bits of a word can be added to
the register before its steps, and the steps of a low part can be looked up in a table. With the
constant coefficient in the polynomial no step loses anything, which is why no burst that is
shorter than the register goes unnoticed.
-/

namespace Crc

variable {w : Nat} (p : BitVec w)

/-- One step of the register: the coefficient that leaves it is made up for by `p`. -/
def step (x : BitVec w) : BitVec w :=
  if x.getLsbD 0 then (x >>> 1) ^^^ p else x >>> 1

/-- Take in one bit of the message. -/
def feed (x : BitVec w) (b : Bool) : BitVec w := step p (x ^^^ (BitVec.ofBool b).setWidth w)

def feedAll (x : BitVec w) (bits : List Bool) : BitVec w := bits.foldl (feed p) x

/-- The bits of a word, the least significant one first. -/
def bitsOf {n : Nat} (x : BitVec n) : List Bool := (List.range n).map x.getLsbD

@[simp] theorem length_bitsOf {n : Nat} (x : BitVec n) : (bitsOf x).length = n := by simp [bitsOf]

@[simp] theorem feedAll_nil (x : BitVec w) : feedAll p x [] = x := rfl

@[simp] theorem feedAll_cons (x : BitVec w) (b : Bool) (bits : List Bool) :
    feedAll p x (b :: bits) = feedAll p (feed p x b) bits := rfl

theorem feedAll_append (x : BitVec w) (bits bits' : List Bool) :
    feedAll p x (bits ++ bits') = feedAll p (feedAll p x bits) bits' := List.foldl_append

/-! ## Linearity -/

theorem step_xor (x y : BitVec w) : step p (x ^^^ y) = step p x ^^^ step p y := by
  have hcancel (a b : BitVec w) : a ^^^ p ^^^ (b ^^^ p) = a ^^^ b := by
    rw [BitVec.xor_comm b p, ← BitVec.xor_assoc, BitVec.xor_assoc a, BitVec.xor_self, BitVec.xor_zero]
  unfold step
  rw [BitVec.getLsbD_xor, BitVec.ushiftRight_xor_distrib]
  cases x.getLsbD 0 <;> cases y.getLsbD 0
  · simp
  · simp [BitVec.xor_assoc]
  · simp only [Bool.true_xor, Bool.not_false, if_true, Bool.false_eq_true, if_false]
    rw [BitVec.xor_assoc, BitVec.xor_comm (y >>> 1), BitVec.xor_assoc]
  · simp [hcancel]

theorem iterate_step_xor (n : Nat) (x y : BitVec w) :
    (step p)^[n] (x ^^^ y) = (step p)^[n] x ^^^ (step p)^[n] y := by
  induction n generalizing x y with
  | zero => rfl
  | succ n ih => rw [Function.iterate_succ_apply, step_xor, ih]; rfl

/-- As long as nothing but zeros leaves the register, steps are a shift. -/
theorem iterate_step_of_low {n : Nat} {x : BitVec w} (hlow : ∀ i < n, x.getLsbD i = false) :
    (step p)^[n] x = x >>> n := by
  induction n with
  | zero => exact (BitVec.ushiftRight_zero x).symm
  | succ n ih =>
    rw [Function.iterate_succ_apply', ih fun i hi => hlow i (Nat.lt_succ_of_lt hi)]
    have hbit : (x >>> n).getLsbD 0 = false := by
      rw [BitVec.getLsbD_ushiftRight]
      exact hlow n (Nat.lt_succ_self n)
    rw [step, hbit, BitVec.shiftRight_add]
    rfl

/-! ## Many bits at a time -/

/-- Bits as a register, the first one lowest. -/
def word (bits : List Bool) : BitVec w := (BitVec.ofBoolListLE bits).setWidth w

theorem getLsbD_word (bits : List Bool) (i : Nat) :
    (word bits : BitVec w).getLsbD i = (decide (i < w) && bits[i]?.getD false) := by
  rw [word, BitVec.getLsbD_setWidth, BitVec.getLsbD_ofBoolListLE, List.getD_eq_getElem?_getD]

theorem word_cons (b : Bool) (bits : List Bool) :
    (word (b :: bits) : BitVec w) = (BitVec.ofBool b).setWidth w ^^^ (word bits <<< 1) := by
  apply BitVec.eq_of_getLsbD_eq
  intro i hi
  rw [BitVec.getLsbD_xor, BitVec.getLsbD_shiftLeft, getLsbD_word, getLsbD_word,
    BitVec.getLsbD_setWidth, BitVec.getLsbD_ofBool]
  cases i with
  | zero => simp [hi]
  | succ i => simp [hi, Nat.lt_of_succ_lt hi]

theorem step_word_shift {bits : List Bool} (hlen : bits.length < w) :
    step p (word bits <<< 1) = word bits := by
  have hlow : (word bits <<< 1 : BitVec w).getLsbD 0 = false := by simp
  rw [step, hlow]
  apply BitVec.eq_of_getLsbD_eq
  intro i hi
  simp only [Bool.false_eq_true, if_false, BitVec.getLsbD_ushiftRight, BitVec.getLsbD_shiftLeft,
    getLsbD_word]
  by_cases heq : i + 1 = w
  · have hend : bits[i]? = none := List.getElem?_eq_none (by omega)
    simp [hend]
  · have hin : 1 + i < w := by omega
    simp [hi, hin]

/-- By induction on the bits; the ones still to come move down one place with each step. -/
theorem feedAll_eq_iterate {bits : List Bool} (hlen : bits.length ≤ w) (x : BitVec w) :
    feedAll p x bits = (step p)^[bits.length] (x ^^^ word bits) := by
  induction bits generalizing x with
  | nil =>
    have hzero : (word [] : BitVec w) = 0#w := by
      apply BitVec.eq_of_getLsbD_eq
      intro i hi
      rw [getLsbD_word]
      simp
    rw [hzero, BitVec.xor_zero]
    rfl
  | cons b bits ih =>
    have hlen' : bits.length < w := hlen
    rw [feedAll_cons, ih (Nat.le_of_lt hlen'), List.length_cons, Function.iterate_succ_apply, word_cons,
      ← BitVec.xor_assoc, step_xor p (x ^^^ _), step_word_shift p hlen']
    rfl

theorem word_bitsOf {n : Nat} (x : BitVec n) : (word (bitsOf x) : BitVec w) = x.setWidth w := by
  apply BitVec.eq_of_getLsbD_eq
  intro i hi
  rw [getLsbD_word, BitVec.getLsbD_setWidth]
  by_cases hin : i < n
  · simp [bitsOf, hin]
  · have hend : (bitsOf x)[i]? = none := List.getElem?_eq_none (by simpa using hin)
    rw [hend, BitVec.getLsbD_of_ge x i (by omega)]
    simp

/-- A whole word of the message is added to the register before its steps. -/
theorem feedAll_bitsOf {n : Nat} (hn : n ≤ w) (x : BitVec w) (b : BitVec n) :
    feedAll p x (bitsOf b) = (step p)^[n] (x ^^^ b.setWidth w) := by
  have hlen : (bitsOf b).length ≤ w := by simpa using hn
  rw [feedAll_eq_iterate p hlen, word_bitsOf, length_bitsOf]

/-- The table step: the low part of the register goes through its steps alone, and the rest is
shifted down. -/
theorem iterate_step_eq_table (n : Nat) (x low : BitVec w) (hlow : ∀ i < n, low.getLsbD i = x.getLsbD i)
    (hhigh : ∀ i, n ≤ i → low.getLsbD i = false) :
    (step p)^[n] x = (x >>> n) ^^^ (step p)^[n] low := by
  have hsplit : x = (x ^^^ low) ^^^ low := by
    rw [BitVec.xor_assoc, BitVec.xor_self, BitVec.xor_zero]
  have hclear : ∀ i < n, (x ^^^ low).getLsbD i = false := by
    intro i hi
    rw [BitVec.getLsbD_xor, hlow i hi, Bool.xor_self]
  have hshift : low >>> n = 0#w := by
    apply BitVec.eq_of_getLsbD_eq
    intro i _
    rw [BitVec.getLsbD_ushiftRight, hhigh _ (Nat.le_add_right n i), BitVec.getLsbD_zero]
  calc (step p)^[n] x = (step p)^[n] (x ^^^ low) ^^^ (step p)^[n] low := by
        rw [← iterate_step_xor, ← hsplit]
    _ = (x >>> n) ^^^ (step p)^[n] low := by
        rw [iterate_step_of_low p hclear, BitVec.ushiftRight_xor_distrib, hshift, BitVec.xor_zero]

/-! ## Bursts -/

/-- Strings of one length that differ, and only within `n` consecutive places. -/
def Burst {α : Type*} (n : Nat) (xs ys : List α) : Prop :=
  ∃ before after mid mid', xs = before ++ mid ++ after ∧ ys = before ++ mid' ++ after ∧
    mid.length = mid'.length ∧ mid.length ≤ n ∧ mid ≠ mid'

theorem Burst.mono {α : Type*} {m n : Nat} (hmn : m ≤ n) {xs ys : List α} (h : Burst m xs ys) :
    Burst n xs ys := by
  obtain ⟨before, after, mid, mid', hxs, hys, hlen, hle, hne⟩ := h
  exact ⟨before, after, mid, mid', hxs, hys, hlen, Nat.le_trans hle hmn, hne⟩

/-- One symbol replaced by another. -/
theorem Burst.set {α : Type*} {xs : List α} {k : Nat} {a : α} (hk : k < xs.length)
    (hne : xs[k]? ≠ some a) : Burst 1 xs (xs.set k a) := by
  have hother : xs[k] ≠ a := by
    rintro rfl
    exact hne (List.getElem?_eq_getElem hk)
  refine ⟨xs.take k, xs.drop (k + 1), [xs[k]], [a], ?_, ?_, rfl, Nat.le_refl 1, by simpa using hother⟩
  · rw [List.append_assoc, List.singleton_append, List.getElem_cons_drop, List.take_append_drop]
  · rw [List.set_eq_take_append_cons_drop, if_pos hk, List.append_assoc, List.singleton_append]

theorem flatMap_injective {α β : Type*} {f : α → List β} {k : Nat} (hlen : ∀ a, (f a).length = k)
    (hinj : Function.Injective f) {xs ys : List α} (hsame : xs.length = ys.length)
    (heq : xs.flatMap f = ys.flatMap f) : xs = ys := by
  induction xs generalizing ys with
  | nil => exact (List.length_eq_zero_iff.mp hsame.symm).symm
  | cons a xs ih =>
    cases ys with
    | nil => cases hsame
    | cons b ys =>
      rw [List.flatMap_cons, List.flatMap_cons] at heq
      obtain ⟨hhead, htail⟩ := List.append_inj heq ((hlen a).trans (hlen b).symm)
      rw [hinj hhead, ih (Nat.succ.inj hsame) htail]

/-- A burst of symbols is one of their codes. -/
theorem Burst.flatMap {α β : Type*} {f : α → List β} {k n : Nat} (hlen : ∀ a, (f a).length = k)
    (hinj : Function.Injective f) {xs ys : List α} (h : Burst n xs ys) :
    Burst (n * k) (xs.flatMap f) (ys.flatMap f) := by
  obtain ⟨before, after, mid, mid', rfl, rfl, hsame, hle, hne⟩ := h
  have hcode (zs : List α) : (zs.flatMap f).length = zs.length * k := by
    induction zs with
    | nil => simp
    | cons z zs ih => rw [List.flatMap_cons, List.length_append, hlen, ih, List.length_cons, Nat.succ_mul,
        Nat.add_comm]
  refine ⟨before.flatMap f, after.flatMap f, mid.flatMap f, mid'.flatMap f, by simp, by simp, ?_, ?_, ?_⟩
  · rw [hcode, hcode, hsame]
  · rw [hcode]
    exact Nat.mul_le_mul_right k hle
  · exact fun heq => hne (flatMap_injective hlen hinj hsame heq)

theorem bitsOf_injective (n : Nat) : Function.Injective (bitsOf : BitVec n → List Bool) := by
  intro x y hxy
  apply BitVec.eq_of_getLsbD_eq
  intro i hi
  have hbit := congrArg (fun bits : List Bool => bits[i]?) hxy
  simpa [bitsOf, hi] using hbit

section Bursts

variable {p}

/-- The top bit of `p` is the constant coefficient: it tells which branch a step took. -/
theorem step_injective (hp : p.msb = true) : Function.Injective (step p) := by
  have hzero : ∀ z : BitVec w, step p z = 0#w → z = 0#w := by
    intro z hz
    have hpos : 0 < w := by
      rcases Nat.eq_zero_or_pos w with rfl | hpos
      · rw [BitVec.eq_nil p] at hp
        cases hp
      · exact hpos
    have htop : ∀ i, w ≤ i + 1 → (z >>> 1).getLsbD i = false := by
      intro i hi
      rw [BitVec.getLsbD_ushiftRight, BitVec.getLsbD_of_ge z _ (by omega)]
    have hlow : z.getLsbD 0 = false := by
      cases hbit : z.getLsbD 0 with
      | false => rfl
      | true =>
        have hlast := congrArg (fun y : BitVec w => y.getLsbD (w - 1)) hz
        rw [BitVec.msb_eq_getLsbD_last] at hp
        simp only [step, hbit, if_true, BitVec.getLsbD_xor, htop (w - 1) (by omega), hp] at hlast
        simp at hlast
    rw [step, hlow] at hz
    apply BitVec.eq_of_getLsbD_eq
    intro i hi
    cases i with
    | zero => simpa using hlow
    | succ i =>
      have hbit := congrArg (fun y : BitVec w => y.getLsbD i) hz
      simpa [BitVec.getLsbD_ushiftRight, Nat.add_comm 1 i] using hbit
  intro x y hxy
  have hdiff : step p (x ^^^ y) = 0#w := by rw [step_xor, hxy, BitVec.xor_self]
  have hxor := hzero _ hdiff
  calc x = (x ^^^ y) ^^^ y := by rw [BitVec.xor_assoc, BitVec.xor_self, BitVec.xor_zero]
    _ = y := by rw [hxor, BitVec.zero_xor]

theorem feed_injective (hp : p.msb = true) (b : Bool) : Function.Injective (feed p · b) := by
  intro x y hxy
  exact (BitVec.xor_left_inj _).mp (step_injective hp hxy)

theorem feedAll_injective (hp : p.msb = true) (bits : List Bool) :
    Function.Injective (feedAll p · bits) := by
  induction bits with
  | nil => exact fun _ _ h => h
  | cons b bits ih => exact fun x y h => feed_injective hp b (ih h)

/-- Up to `w` bits drive the register to a state of their own. -/
theorem feedAll_bits_injective (hp : p.msb = true) (x : BitVec w) {bits bits' : List Bool}
    (hlen : bits.length = bits'.length) (hle : bits.length ≤ w)
    (heq : feedAll p x bits = feedAll p x bits') : bits = bits' := by
  rw [feedAll_eq_iterate p hle, feedAll_eq_iterate p (hlen ▸ hle), ← hlen] at heq
  have hword := (BitVec.xor_right_inj x).mp ((step_injective hp).iterate bits.length heq)
  apply List.ext_getElem hlen
  intro i hi hi'
  have hbit := congrArg (fun y : BitVec w => y.getLsbD i) hword
  have hin : i < w := Nat.lt_of_lt_of_le hi hle
  simp only [getLsbD_word, hin, decide_true, Bool.true_and, List.getElem?_eq_getElem hi,
    List.getElem?_eq_getElem hi', Option.getD_some] at hbit
  exact hbit

/-- A burst that is no longer than the register changes it. -/
theorem feedAll_ne_of_burst (hp : p.msb = true) (x : BitVec w) {bits bits' : List Bool}
    (h : Burst w bits bits') : feedAll p x bits ≠ feedAll p x bits' := by
  obtain ⟨before, after, mid, mid', rfl, rfl, hlen, hle, hne⟩ := h
  intro heq
  simp only [feedAll_append] at heq
  exact hne (feedAll_bits_injective hp _ hlen hle (feedAll_injective hp after heq))

end Bursts

end Crc
