import BrushLink.Number.Shortest
import Mathlib.Data.List.TakeWhile

/-! # Whole numbers can be read back

A whole number is written by its decimal digits, a negative one with a sign before them.
There is no zero before other digits, so this is a literal (`Literal.parse?_toDigits`), and
one without fraction and exponent.  Where the number fits a word, the literal stands for it
again (`parse?_toChars`).
-/
namespace BrushLink.Number

/-- Whether a number is whole and fits a signed or an unsigned word. -/
def isWord : Number → Bool
  | .integer n => -(maxNegative : Int) ≤ n && n ≤ maxWord
  | .float _ => false

/-! ## Digits -/

theorem ofDigits_toDigits (n : Nat) : ofDigits (Nat.toDigits 10 n) = n := by
  have hfold : ofDigits (Nat.toDigits 10 n) = Nat.ofDigitChars 10 (Nat.toDigits 10 n) 0 := by
    rw [Nat.ofDigitChars_eq_foldl, ofDigits]
    simp only [Nat.mul_comm]
    rfl
  rw [hfold, Nat.ofDigitChars_ten_toDigits]

theorem isDigit_of_mem_toDigits {n : Nat} {c : Char} (h : c ∈ Nat.toDigits 10 n) :
    c.isDigit = true :=
  Nat.isDigit_of_mem_toDigits (by decide) (by decide) h

/-- A zero is written only for the number zero, and then alone. -/
theorem toDigits_ne_zero_cons (n : Nat) (c : Char) (cs : List Char) :
    Nat.toDigits 10 n ≠ '0' :: c :: cs := by
  intro h
  induction n using Nat.strongRecOn generalizing c cs with
  | ind n ih =>
    by_cases hn : n < 10
    · rw [Nat.toDigits_of_lt_base hn] at h
      exact List.cons_ne_nil c cs (List.cons.inj h).2.symm
    · have hbase : 10 ≤ n := Nat.le_of_not_lt hn
      rw [Nat.toDigits_of_base_le (by decide) hbase] at h
      match hlead : Nat.toDigits 10 (n / 10) with
      | [] => exact Nat.toDigits_ne_nil hlead
      | [d] =>
        -- all that stands before the last digit is a zero
        rw [hlead] at h
        obtain rfl : d = '0' := (List.cons.inj h).1
        have hzero : n / 10 = 0 := by
          rw [← ofDigits_toDigits (n / 10), hlead]
          rfl
        omega
      | d :: e :: ds =>
        rw [hlead] at h
        obtain rfl : d = '0' := (List.cons.inj h).1
        exact ih (n / 10) (by omega) e ds hlead

/-! ## Literals -/

namespace Literal

theorem whole?_toDigits (n : Nat) :
    whole? (Nat.toDigits 10 n) = some (Nat.toDigits 10 n, []) := by
  have hall : ∀ c ∈ Nat.toDigits 10 n, c.isDigit = true := fun c hc => isDigit_of_mem_toDigits hc
  have hdigits : digits? (Nat.toDigits 10 n) = some (Nat.toDigits 10 n, []) := by
    rw [digits?, List.takeWhile_eq_self_iff.mpr hall, List.dropWhile_eq_nil_iff.mpr hall]
    split
    · rename_i h
      exact absurd h Nat.toDigits_ne_nil
    · rfl
  rw [whole?, hdigits]
  split
  · rename_i h
    exact absurd (congrArg Prod.fst (Option.some.inj h)) (toDigits_ne_zero_cons n _ _)
  · rfl

theorem parse?_toDigits (n : Nat) :
    parse? (Nat.toDigits 10 n) = some ⟨false, Nat.toDigits 10 n, none, none⟩ := by
  unfold parse?
  split
  rename_i hsign
  split at hsign
  · rename_i h
    have hminus : '-' ∈ Nat.toDigits 10 n := h ▸ List.mem_cons_self
    exact absurd (isDigit_of_mem_toDigits hminus) (by decide)
  · obtain ⟨rfl, rfl⟩ := Prod.mk.inj hsign
    rw [whole?_toDigits]
    rfl

theorem parse?_minus_toDigits (n : Nat) :
    parse? ('-' :: Nat.toDigits 10 n) = some ⟨true, Nat.toDigits 10 n, none, none⟩ := by
  unfold parse?
  simp only [whole?_toDigits]
  rfl

end Literal

/-- The text of a whole number is a digit or a sign, and then digits. -/
theorem toChars_eq_cons {n : Number} (h : n.isWord = true) :
    ∃ c cs, n.toChars = c :: cs ∧ (c.isDigit = true ∨ c = '-') ∧ ∀ d ∈ cs, d.isDigit = true := by
  cases n with
  | float b => cases h
  | integer n =>
    cases n with
    | ofNat n =>
      obtain ⟨c, cs, hcs⟩ := List.exists_cons_of_ne_nil (Nat.toDigits_ne_nil (n := n) (b := 10))
      have hdigit : ∀ d ∈ c :: cs, d.isDigit = true :=
        fun d hd => isDigit_of_mem_toDigits (n := n) (hcs ▸ hd)
      exact ⟨c, cs, hcs, Or.inl (hdigit c List.mem_cons_self),
        fun d hd => hdigit d (List.mem_cons_of_mem c hd)⟩
    | negSucc n => exact ⟨'-', _, rfl, Or.inr rfl, fun d hd => isDigit_of_mem_toDigits hd⟩

/-- The text of a whole number that fits a word is a literal that stands for it. -/
theorem parse?_toChars {n : Number} (h : n.isWord = true) :
    ∃ l, Literal.parse? n.toChars = some l ∧ l.toNumber? = some n := by
  cases n with
  | float b => cases h
  | integer n =>
    simp only [isWord, Bool.and_eq_true, decide_eq_true_eq] at h
    cases n with
    | ofNat n =>
      refine ⟨_, Literal.parse?_toDigits n, ?_⟩
      have hn : n ≤ maxWord := Int.ofNat_le.mp h.2
      simp [Literal.toNumber?, ofDigits_toDigits, hn]
    | negSucc n =>
      refine ⟨_, Literal.parse?_minus_toDigits (n + 1), ?_⟩
      have hn : n + 1 ≤ maxNegative := by omega
      simp [Literal.toNumber?, ofDigits_toDigits, hn, Int.negSucc_eq]

end BrushLink.Number
