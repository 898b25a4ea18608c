import Coverage.Number.Numeral
import Mathlib.Data.List.TakeWhile

/-!
The decimal digits of a natural number are a numeral of it: reading them gives
the number back, as a whole numeral without sign.
-/
namespace Coverage.Numeral

theorem natOfDigits_eq (digits : List Char) :
    natOfDigits digits = Nat.ofDigitChars 10 digits 0 := rfl

@[simp]
theorem natOfDigits_toDigits (n : Nat) : natOfDigits (Nat.toDigits 10 n) = n := by
  rw [natOfDigits_eq, Nat.ofDigitChars_ten_toDigits]

/-- A number can be read off its text. -/
theorem toString_inj {m n : Nat} (h : toString m = toString n) : m = n := by
  rw [Nat.toString_eq_ofList_toDigits, Nat.toString_eq_ofList_toDigits] at h
  rw [← natOfDigits_toDigits m, ← natOfDigits_toDigits n, String.ofList_injective h]

/-- A greater number has at least as long a text. -/
theorem length_toString_mono {m n : Nat} (h : m ≤ n) :
    (toString m).length ≤ (toString n).length := by
  have hn : n < 10 ^ (Nat.toDigits 10 n).length :=
    (Nat.length_toDigits_le_iff (by decide) Nat.length_toDigits_pos).1 (Nat.le_refl _)
  rw [Nat.toString_eq_ofList_toDigits, Nat.toString_eq_ofList_toDigits, String.length_ofList,
    String.length_ofList, Nat.length_toDigits_le_iff (by decide) Nat.length_toDigits_pos]
  exact Nat.lt_of_le_of_lt h hn

theorem isDigit_of_mem_toDigits {n : Nat} {c : Char} (h : c ∈ Nat.toDigits 10 n) :
    isDigit c = true :=
  Nat.isDigit_of_mem_toDigits (by omega) (Nat.le_refl 10) h

/-- Only zero begins with the digit zero. -/
theorem head?_toDigits_ne_zero {n : Nat} (h : n ≠ 0) :
    (Nat.toDigits 10 n).head? ≠ some '0' := by
  induction n using Nat.strongRecOn with
  | ind n ih =>
      by_cases hsmall : n < 10
      · rw [Nat.toDigits_of_lt_base hsmall]
        have hdigit : ∀ d < 10, d ≠ 0 → [Nat.digitChar d].head? ≠ some '0' := by decide
        exact hdigit n hsmall h
      · have hge : 10 ≤ n := by omega
        have hrec := ih (n / 10) (by omega) (by omega)
        rw [Nat.toDigits_of_base_le (by omega) hge, List.head?_append]
        cases hhead : (Nat.toDigits 10 (n / 10)).head? with
        | none => exact absurd (List.head?_eq_none_iff.1 hhead) Nat.toDigits_ne_nil
        | some c => simpa [hhead] using hrec

@[simp]
theorem hasLeadingZero_toDigits (n : Nat) : hasLeadingZero (Nat.toDigits 10 n) = false := by
  by_cases h : n = 0
  · subst h
    rfl
  · have hhead := head?_toDigits_ne_zero h
    cases hdigits : Nat.toDigits 10 n with
    | nil => rfl
    | cons c rest =>
        rw [hdigits] at hhead
        have hc : c ≠ '0' := fun he => hhead (by simp [he])
        cases rest with
        | nil => simp [hasLeadingZero]
        | cons d more => simp [hasLeadingZero, hc]

theorem readUnsigned_toDigits (negative : Bool) (n : Nat) :
    readUnsigned negative (Nat.toDigits 10 n) = some ⟨negative, n, 0, true⟩ := by
  have hall : ∀ c ∈ Nat.toDigits 10 n, isDigit c = true := fun c => isDigit_of_mem_toDigits
  have htake : (Nat.toDigits 10 n).takeWhile isDigit = Nat.toDigits 10 n :=
    List.takeWhile_eq_self_iff.2 hall
  have hdrop : (Nat.toDigits 10 n).dropWhile isDigit = [] := List.dropWhile_eq_nil_iff.2 hall
  have hne : (Nat.toDigits 10 n).isEmpty = false := by
    simp
  simp [readUnsigned, htake, hdrop, hne, readFraction, readPower]

theorem read_toDigits (n : Nat) : read (Nat.toDigits 10 n) = some ⟨false, n, 0, true⟩ := by
  cases hdigits : Nat.toDigits 10 n with
  | nil => exact absurd hdigits Nat.toDigits_ne_nil
  | cons c rest =>
      have hc : c ≠ '-' := by
        intro hminus
        subst hminus
        have hdigit := isDigit_of_mem_toDigits (n := n) (c := '-') (by simp [hdigits])
        revert hdigit
        decide
      have hread : read (c :: rest) = readUnsigned false (c :: rest) := by
        simp [read, hc]
      rw [hread, ← hdigits, readUnsigned_toDigits]

theorem toWord?_whole (n : UInt64) : toWord? ⟨false, n.toNat, 0, true⟩ = some n := by
  have hn : n.toNat < UInt64.size := n.toNat_lt
  simp [toWord?, hn]

end Coverage.Numeral
