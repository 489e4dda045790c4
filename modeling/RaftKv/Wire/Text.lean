-- SUMMARY: The functions of the standard library that the client and the server's command line use on text.
import RaftKv.Wire.TCPServer
import RaftKv.Lib.Decimal
import Mathlib.Data.List.DropRight

/-!
# Text

`std::string::find`, `std::stoi`, reading a word from a stream, and `std::to_string`, all on
bytes.
-/

namespace RaftKv.Wire

open Decimal

/-! ## Bytes of a text -/

/-- Lean's loop over a byte array collects its bytes. -/
theorem toList_loop (bs : ByteArray) (i : Nat) (r : Bytes) :
    ByteArray.toList.loop bs i r = r.reverse ++ bs.data.toList.drop i := by
  fun_induction ByteArray.toList.loop bs i r with
  | case1 i r h ih =>
    have h' : i < bs.data.toList.length := h
    have hget : bs.get! i = bs.data.toList[i] := by
      show bs.data[i]! = _
      rw [getElem!_pos bs.data i h, Array.getElem_toList]
    rw [ih, List.drop_eq_getElem_cons h', hget, List.reverse_cons, List.append_assoc]
    rfl
  | case2 i r h =>
    have h' : bs.data.toList.length ≤ i := Nat.le_of_not_lt h
    rw [List.drop_eq_nil_of_le h', List.append_nil]

theorem ofString_eq (s : String) : ofString s = s.toByteArray.data.toList := by
  rw [ofString, ByteArray.toList, toList_loop]
  rfl

theorem ofString_append (s t : String) : ofString (s ++ t) = ofString s ++ ofString t := by
  simp only [ofString_eq, String.toByteArray_append, ByteArray.data_append, Array.toList_append]

/-- An ASCII text is one byte a character. -/
theorem ofString_ofList {cs : List Char} (h : ∀ c ∈ cs, c.toNat < 128) :
    ofString (String.ofList cs) = cs.map ofChar := by
  rw [ofString_eq, String.toByteArray_ofList, List.utf8Encode, List.toList_data_toByteArray]
  induction cs with
  | nil => rfl
  | cons c cs ih =>
    have hc : c.val.toNat ≤ 0x7f := Nat.le_of_lt_succ (h c List.mem_cons_self)
    have hone : String.utf8EncodeChar c = [ofChar c] := by
      simp only [String.utf8EncodeChar, if_pos hc]
      rfl
    rw [List.flatMap_cons, hone, ih fun c' hc' => h c' (List.mem_cons_of_mem _ hc')]
    rfl

theorem ofString_nat (n : Nat) : ofString (toString n) = numeral n := by
  rw [Nat.toString_eq_ofList_toDigits, ofString_ofList]
  · rfl
  · intro c hc
    have := digit_bounds hc
    omega

/-- `std::to_string`. -/
theorem ofString_int (z : Int) : ofString (toString z) = signed z := by
  have hsign : toString z = if z < 0 then "-" ++ toString z.natAbs else toString z.natAbs := by
    cases z with
    | ofNat n => simp; rfl
    | negSucc n => simp; rfl
  have hminus : ofString "-" = [minus] := by decide +kernel
  rw [hsign, signed]
  split
  · rw [ofString_append, ofString_nat, hminus]
    rfl
  · exact ofString_nat _

/-! ## Words and numbers -/

/-- `isspace` of the C locale: blank, tab, and the four line and page controls. -/
def isSpace (b : UInt8) : Bool := b = 32 || (9 ≤ b && b ≤ 13)

/-- `stream >> word`: blanks are skipped and the word ends before the next one. At the end of
the stream the word stays empty. -/
def extract (stream : Bytes) : Bytes × Bytes :=
  let stream := stream.dropWhile isSpace
  (stream.takeWhile fun b => !isSpace b, stream.dropWhile fun b => !isSpace b)

/-- The next word, behind any blanks and in front of a blank or the end. -/
theorem extract_append {blanks word rest : Bytes} (hblanks : ∀ b ∈ blanks, isSpace b = true)
    (hword : ∀ b ∈ word, isSpace b = false) (hne : word ≠ [])
    (hrest : ∀ b ∈ rest.head?, isSpace b = true) :
    extract (blanks ++ (word ++ rest)) = (word, rest) := by
  have hskip : (blanks ++ (word ++ rest)).dropWhile isSpace = word ++ rest := by
    rw [List.dropWhile_append_of_pos hblanks]
    cases word with
    | nil => exact absurd rfl hne
    | cons b bs => simp [hword b List.mem_cons_self]
  have hstop : rest.takeWhile (fun b => !isSpace b) = [] ∧
      rest.dropWhile (fun b => !isSpace b) = rest := by
    cases rest with
    | nil => exact ⟨rfl, rfl⟩
    | cons b bs => simp [hrest b rfl]
  have hnot : ∀ b ∈ word, (!isSpace b) = true := fun b hb => by simp [hword b hb]
  simp only [extract, hskip, List.takeWhile_append_of_pos hnot, List.dropWhile_append_of_pos hnot,
    hstop, List.append_nil]

/-- `::toupper` of the C locale. -/
def toUpper (b : UInt8) : UInt8 := if 97 ≤ b && b ≤ 122 then b - 32 else b

/-- `std::stoi`. Without digits, or past the range of `int`, it throws: `none`. -/
def stoi (s : Bytes) : Option Int :=
  match readSigned (s.dropWhile isSpace) with
  | some (z, _) => if -2147483648 ≤ z ∧ z ≤ 2147483647 then some z else none
  | none => none

/-- An `int`. -/
def InRange (z : Int) : Prop := -2147483648 ≤ z ∧ z ≤ 2147483647

instance (z : Int) : Decidable (InRange z) := inferInstanceAs (Decidable (_ ∧ _))

theorem isSpace_of_isDigit {b : UInt8} (h : isDigit b = true) : isSpace b = false := by
  have hb := isDigit_iff.mp h
  have hne : b ≠ 32 := by rintro rfl; exact absurd h (by decide)
  have hgt : ¬ b ≤ 13 := by
    rw [UInt8.le_iff_toNat_le]
    have : (13 : UInt8).toNat = 13 := rfl
    omega
  simp [isSpace, hne, hgt]

/-- The bytes of a numeral are digits and perhaps a minus, so none is a blank. -/
theorem mem_signed {z : Int} {b : UInt8} (h : b ∈ signed z) : isDigit b = true ∨ b = minus := by
  unfold signed at h
  split at h
  · rcases List.mem_cons.mp h with h | h
    · exact Or.inr h
    · exact Or.inl (isDigit_of_mem_numeral h)
  · exact Or.inl (isDigit_of_mem_numeral h)

theorem isSpace_of_mem_signed {z : Int} {b : UInt8} (h : b ∈ signed z) : isSpace b = false := by
  rcases mem_signed h with h | rfl
  · exact isSpace_of_isDigit h
  · decide

theorem signed_ne_nil (z : Int) : signed z ≠ [] := by
  unfold signed
  split
  · exact List.cons_ne_nil _ _
  · exact numeral_ne_nil _

theorem stoi_signed {z : Int} (hz : InRange z) {rest : Bytes} (hrest : Ends rest) :
    stoi (signed z ++ rest) = some z := by
  have hskip : (signed z ++ rest).dropWhile isSpace = signed z ++ rest := by
    cases hcons : signed z with
    | nil => exact absurd hcons (signed_ne_nil z)
    | cons b bs =>
      have hb := isSpace_of_mem_signed (z := z) (b := b) (hcons ▸ List.mem_cons_self)
      simp [hb]
  rw [stoi, hskip, readSigned_signed z hrest]
  exact if_pos hz

/-! ## Searching -/

/-- `s.find(pattern)`. -/
def find (pattern : Bytes) : Bytes → Option Nat
  | [] => if pattern = [] then some 0 else none
  | b :: bs =>
    if pattern.isPrefixOf (b :: bs) then some 0 else (find pattern bs).map (· + 1)

/-- A pattern is found behind bytes that it cannot start with. -/
theorem find_append {pattern before : Bytes} {b : UInt8} (hb : pattern.head? = some b)
    (hbefore : b ∉ before) (after : Bytes) :
    find pattern (before ++ (pattern ++ after)) = some before.length := by
  cases pattern with
  | nil => cases hb
  | cons p ps =>
    obtain rfl : p = b := Option.some.inj hb
    induction before with
    | nil =>
      have hpre : (p :: ps).isPrefixOf (p :: (ps ++ after)) = true :=
        List.isPrefixOf_iff_prefix.mpr (List.prefix_append (p :: ps) after)
      simp only [List.nil_append, List.cons_append, find, hpre, if_true, List.length_nil]
    | cons c cs ih =>
      have hc : p ≠ c := fun heq => hbefore (heq ▸ List.mem_cons_self)
      have hnot : (p :: ps).isPrefixOf (c :: (cs ++ (p :: ps ++ after))) = false := by
        simp [List.isPrefixOf, hc]
      rw [List.cons_append, find, hnot, if_neg Bool.false_ne_true,
        ih fun h => hbefore (List.mem_cons_of_mem _ h)]
      rfl

end RaftKv.Wire
