import Mathlib.Algebra.Order.Ring.Int
import Mathlib.Data.List.Basic
import Mathlib.Tactic.Common

/-! Integers as decimal texts in bytes. -/
namespace Foundation

def isDigit (c : UInt8) : Bool := 48 ≤ c && c ≤ 57

def digitsOf (n : ℕ) : List UInt8 := (Nat.toDigits 10 n).map fun c => c.val.toUInt8

/-- The number that digits denote. -/
def ofDigits (cs : List UInt8) : ℕ := cs.foldl (fun n c => 10 * n + (c.toNat - 48)) 0

theorem toUInt8_digit {c : Char} (h : c.isDigit) :
    isDigit c.val.toUInt8 ∧ c.val.toUInt8.toNat = c.toNat := by
  simp only [Char.isDigit, Bool.and_eq_true, decide_eq_true_eq, UInt32.le_iff_toNat_le] at h
  have hlow : 48 ≤ c.val.toNat := by simpa using h.1
  have hhigh : c.val.toNat ≤ 57 := by simpa using h.2
  have hnat : c.val.toUInt8.toNat = c.val.toNat := by
    rw [UInt32.toNat_toUInt8, Nat.mod_eq_of_lt (by omega)]
  refine ⟨?_, hnat⟩
  simp only [isDigit, Bool.and_eq_true, decide_eq_true_eq, UInt8.le_iff_toNat_le, hnat]
  exact ⟨by simpa using hlow, by simpa using hhigh⟩

theorem digitsOf_ne_nil (n : ℕ) : digitsOf n ≠ [] := by
  simp [digitsOf]

theorem isDigit_of_mem_digitsOf {n : ℕ} {c : UInt8} (h : c ∈ digitsOf n) : isDigit c := by
  obtain ⟨d, hd, rfl⟩ := List.mem_map.mp h
  exact (toUInt8_digit (Nat.isDigit_of_mem_toDigits (by decide) (by decide) hd)).1

theorem ofDigits_map {cs : List Char} (h : ∀ c ∈ cs, c.isDigit) :
    ofDigits (cs.map fun c => c.val.toUInt8) = Nat.ofDigitChars 10 cs 0 := by
  rw [ofDigits, Nat.ofDigitChars_eq_foldl, List.foldl_map]
  refine List.foldl_ext _ _ 0 fun n c hc => ?_
  rw [(toUInt8_digit (h c hc)).2]
  rfl

theorem ofDigits_digitsOf (n : ℕ) : ofDigits (digitsOf n) = n := by
  rw [digitsOf, ofDigits_map fun c hc => Nat.isDigit_of_mem_toDigits (by decide) (by decide) hc]
  exact Nat.ofDigitChars_ten_toDigits

def minus : UInt8 := 45

def plus : UInt8 := 43

def intText (n : ℤ) : List UInt8 :=
  if n < 0 then minus :: digitsOf n.natAbs else digitsOf n.natAbs

/-- The integer of a text that is all digits behind at most one sign. -/
def readInt (cs : List UInt8) : Option ℤ :=
  let (negative, digits) := match cs with
    | [] => (false, [])
    | c :: rest => if c = minus then (true, rest) else (false, if c = plus then rest else c :: rest)
  if digits = [] ∨ ¬ digits.all isDigit then none
  else some (if negative then -(ofDigits digits : ℤ) else ofDigits digits)

theorem intText_ne_nil (n : ℤ) : intText n ≠ [] := by
  unfold intText
  split_ifs
  · exact List.cons_ne_nil _ _
  · exact digitsOf_ne_nil _

theorem mem_intText {n : ℤ} {c : UInt8} (h : c ∈ intText n) : c = minus ∨ isDigit c := by
  unfold intText at h
  split_ifs at h
  · exact (List.mem_cons.mp h).imp_right isDigit_of_mem_digitsOf
  · exact .inr (isDigit_of_mem_digitsOf h)

theorem readInt_intText (n : ℤ) : readInt (intText n) = some n := by
  have hall : ∀ k, (digitsOf k).all isDigit := fun k =>
    List.all_eq_true.mpr fun c hc => isDigit_of_mem_digitsOf hc
  unfold intText
  split_ifs with hneg
  · have habs : -(n.natAbs : ℤ) = n := by omega
    simpa [readInt, digitsOf_ne_nil, hall, ofDigits_digitsOf] using habs
  · have habs : (n.natAbs : ℤ) = n := by omega
    obtain ⟨c, rest, hc⟩ := List.exists_cons_of_ne_nil (digitsOf_ne_nil n.natAbs)
    have hdigit : isDigit c := isDigit_of_mem_digitsOf (hc ▸ List.mem_cons_self)
    have hminus : c ≠ minus := by
      rintro rfl
      exact absurd hdigit (by decide)
    have hplus : c ≠ plus := by
      rintro rfl
      exact absurd hdigit (by decide)
    have hrest := hall n.natAbs
    rw [hc] at hrest ⊢
    simp only [readInt, if_neg hminus, if_neg hplus]
    rw [if_neg (by simpa using hrest), ← hc, ofDigits_digitsOf]
    simp [habs]

end Foundation
