import Mathlib

/-!
Rounding to doubles, in exact rational arithmetic. An operation on doubles cuts its
exact result off somewhere and keeps how the rest compares with one half; from this the
significand is rounded to the nearest one, ties going to the even one.
-/
namespace Coverage.Rounding

open Float.Model Float.Model.UnpackedFloat

/-- The number cut off to a natural number, as far as the accuracy tells. -/
def Truncates (x : Rat) (n : Nat) : Accuracy → Prop
  | .exact => x = n
  | .inexact .lt => n < x ∧ x < n + 1 / 2
  | .inexact .eq => x = n + 1 / 2
  | .inexact .gt => n + 1 / 2 < x ∧ x < n + 1

/-- The nearest natural number, the even one of two that are equally near. -/
structure Nearest (x : Rat) (n : Nat) : Prop where
  low : (n : Rat) - 1 / 2 ≤ x
  high : x ≤ (n : Rat) + 1 / 2
  even : x = (n : Rat) - 1 / 2 ∨ x = (n : Rat) + 1 / 2 → n % 2 = 0

theorem Nearest.unique {x : Rat} {m n : Nat} (hm : Nearest x m) (hn : Nearest x n) : m = n := by
  wlog hle : m ≤ n generalizing m n
  · exact (this hn hm (Nat.le_of_not_le hle)).symm
  by_contra hne
  have hstep : ((m + 1 : Nat) : Rat) ≤ n := by exact_mod_cast (by omega : m + 1 ≤ n)
  push_cast at hstep
  have htie : x = (m : Rat) + 1 / 2 ∧ x = (n : Rat) - 1 / 2 := by
    constructor <;> linarith [hm.high, hn.low]
  have hnext : n = m + 1 := by
    have hcast : (n : Rat) = ((m + 1 : Nat) : Rat) := by
      push_cast
      linarith [htie.1, htie.2]
    exact_mod_cast hcast
  have hmeven := hm.even (.inr htie.1)
  have hneven := hn.even (.inl htie.2)
  omega

section Truncates

variable {x : Rat} {n : Nat} {accuracy : Accuracy}

theorem Truncates.le (h : Truncates x n accuracy) : (n : Rat) ≤ x := by
  unfold Truncates at h
  split at h <;> linarith

theorem Truncates.lt (h : Truncates x n accuracy) : x < n + 1 := by
  unfold Truncates at h
  split at h <;> linarith

theorem Truncates.nearest (h : Truncates x n accuracy) :
    Nearest x (accuracy.roundToNearestEven n) := by
  unfold Truncates at h
  split at h <;> simp only [Accuracy.roundToNearestEven]
  · refine ⟨by linarith, by linarith, fun htie => ?_⟩
    rcases htie with htie | htie <;> linarith
  · refine ⟨by linarith, by linarith, fun htie => ?_⟩
    rcases htie with htie | htie <;> linarith
  · obtain hn | hn := Nat.mod_two_eq_zero_or_one n <;> rw [hn]
    · refine ⟨by push_cast; linarith, by push_cast; linarith, fun _ => hn⟩
    · refine ⟨by push_cast; linarith, by push_cast; linarith, fun _ => by omega⟩
  · refine ⟨by push_cast; linarith, by push_cast; linarith, fun htie => ?_⟩
    push_cast at htie
    rcases htie with htie | htie <;> linarith

/-- Halving moves the last bit among the bits that were cut off. -/
theorem Truncates.shiftRightOne {em : ExtendedMantissa}
    (h : Truncates x em.mantissa em.accuracy) :
    Truncates (x / 2) em.shiftRightOne.mantissa em.shiftRightOne.accuracy := by
  obtain ⟨n, roundBit, stickyBit⟩ := em
  have hn : (n : Rat) = 2 * (n / 2 : Nat) + (n % 2 : Nat) := by
    exact_mod_cast (Nat.div_add_mod n 2).symm
  -- the bit that moves and the two below it
  obtain hmod | hmod := Nat.mod_two_eq_zero_or_one n
  all_goals
    rw [hmod] at hn
    push_cast at hn
    cases roundBit <;> cases stickyBit <;>
      simp only [ExtendedMantissa.accuracy, ExtendedMantissa.shiftRightOne, Truncates, hmod, hn,
        bne_self_eq_false, Nat.reduceBNe, Bool.or_false, Bool.or_true] at h ⊢ <;>
      first
        | linarith
        | constructor <;> linarith

theorem Truncates.shiftRight {em : ExtendedMantissa}
    (h : Truncates x em.mantissa em.accuracy) (k : Nat) :
    Truncates (x / 2 ^ k) (em >>> k).mantissa (em >>> k).accuracy := by
  induction k with
  | zero =>
      rw [pow_zero, div_one]
      exact h
  | succ k ih =>
      have hhalf : x / 2 ^ (k + 1) = x / 2 ^ k / 2 := by
        rw [pow_succ, div_mul_eq_div_div]
      rw [hhalf]
      exact ih.shiftRightOne

theorem Truncates.ofMantissaAndAccuracy (h : Truncates x n accuracy) :
    Truncates x (ExtendedMantissa.ofMantissaAndAccuracy n accuracy).mantissa
      (ExtendedMantissa.ofMantissaAndAccuracy n accuracy).accuracy := by
  cases accuracy with
  | exact => exact h
  | inexact half => cases half <;> exact h

/-- What is left over in a division is compared with half of the divisor. -/
theorem truncates_div (a : Nat) {b : Nat} (hb : 0 < b) :
    Truncates ((a : Rat) / b) (a / b) (accuracyOfFraction (a % b) b) := by
  have hpos : (0 : Rat) < b := by exact_mod_cast hb
  have hsplit : (a : Rat) = (a / b : Nat) * b + (a % b : Nat) := by
    exact_mod_cast (Nat.div_add_mod' a b).symm
  have hdiv : (a : Rat) / b = (a / b : Nat) + ((a % b : Nat) : Rat) / b := by
    rw [hsplit, add_div, mul_div_cancel_right₀ _ hpos.ne']
  have hlt : ((a % b : Nat) : Rat) < b := by exact_mod_cast Nat.mod_lt a hb
  rw [hdiv]
  generalize a % b = r at *
  generalize a / b = q at *
  unfold accuracyOfFraction
  split
  · rename_i hr
    simp [Truncates, hr]
  · rename_i hr
    have hr' : (0 : Rat) < r := by exact_mod_cast Nat.pos_of_ne_zero hr
    have hfraction : (0 : Rat) < r / b ∧ (r : Rat) / b < 1 :=
      ⟨div_pos hr' hpos, (div_lt_one hpos).2 hlt⟩
    rcases hcompare : compare (2 * r) b with _ | _ | _
    · have hhalf : (2 : Rat) * r < b := by exact_mod_cast Nat.compare_eq_lt.1 hcompare
      have : (r : Rat) / b < 1 / 2 := by rw [div_lt_iff₀ hpos]; linarith
      constructor <;> linarith
    · have hhalf : (2 : Rat) * r = b := by exact_mod_cast Nat.compare_eq_eq.1 hcompare
      have : (r : Rat) / b = 1 / 2 := by rw [div_eq_iff hpos.ne']; linarith
      simp [Truncates, this]
    · have hhalf : (b : Rat) < 2 * r := by exact_mod_cast Nat.compare_eq_gt.1 hcompare
      have : 1 / 2 < (r : Rat) / b := by rw [lt_div_iff₀ hpos]; linarith
      constructor <;> linarith

end Truncates

/-- The exponent that a number is rounded at is the least one for which the significand has
fifty-three bits, and at least that of the least double. -/
theorem targetExponent_binary64 (total : Int) :
    Format.binary64.targetExponent total = max (total - 53) (-1074) := rfl

theorem targetExponent_eq (m : Nat) (e : Int) :
    Format.binary64.targetExponent (totalExponent m e) = max (m.log2 + e - 52) (-1074) := by
  rw [targetExponent_binary64, totalExponent]
  omega

/-- A significand on its way to being rounded: it stands for the number `v`, cut off at an
exponent not above that of the result. -/
structure Approximates (v : Rat) (m : Nat) (e : Int) (accuracy : Accuracy) : Prop where
  truncates : Truncates (v / 2 ^ e) m accuracy
  le_target : e ≤ Format.binary64.targetExponent (totalExponent m e)

/-- Two to a power as a rational number. -/
theorem two_zpow_pos (e : Int) : (0 : Rat) < 2 ^ e := zpow_pos (by norm_num) e

theorem two_zpow_add (e k : Int) : (2 : Rat) ^ (e + k) = 2 ^ e * 2 ^ k :=
  zpow_add₀ (by norm_num) e k

theorem two_zpow_le {e k : Int} : (2 : Rat) ^ e ≤ 2 ^ k ↔ e ≤ k :=
  zpow_le_zpow_iff_right₀ (by norm_num)

theorem two_zpow_lt {e k : Int} : (2 : Rat) ^ e < 2 ^ k ↔ e < k :=
  zpow_lt_zpow_iff_right₀ (by norm_num)

/-- The double with the rounded significand, which may have carried into a further bit. -/
def rounded (s : Sign) (n : Nat) (e : Int) : UnpackedFloat :=
  if h : n = 0 then .zero s
  else if n = 2 ^ 53 then .finite s (2 ^ 52) (e + 1) (by decide)
  else .finite s n e (Nat.pos_of_ne_zero h)

/-- A double is the nearest one to a number, at the exponent that the number asks for. -/
structure RoundsAt (v : Rat) (n : Nat) (e : Int) : Prop where
  nearest : Nearest (v / 2 ^ e) n
  least : -1074 ≤ e
  lt : v < 2 ^ (e + 53)
  ge : e = -1074 ∨ 2 ^ (e + 52) ≤ v

theorem RoundsAt.le {v : Rat} {n : Nat} {e : Int} (h : RoundsAt v n e) : n ≤ 2 ^ 53 := by
  have hpos := two_zpow_pos e
  have hlt : v / 2 ^ e < 2 ^ 53 := by
    have hv := h.lt
    rw [two_zpow_add] at hv
    rw [div_lt_iff₀ hpos]
    calc v < 2 ^ e * 2 ^ (53 : Int) := hv
      _ = 2 ^ 53 * 2 ^ e := by norm_num; ring
  by_contra hgt
  have hcast : ((2 ^ 53 + 1 : Nat) : Rat) ≤ n := by exact_mod_cast (by omega : 2 ^ 53 + 1 ≤ n)
  have hlow := h.nearest.low
  push_cast at hcast
  linarith

theorem shiftToTargetExponent_of_lt {n : Nat} (hn : n < 2 ^ 53) {e : Int} (he : -1074 ≤ e) :
    shiftToTargetExponent Format.binary64 n e .exact = (⟨n, false, false⟩, e) := by
  have hlog : n.log2 < 53 := by
    rcases Nat.eq_zero_or_pos n with rfl | hpos
    · decide
    · exact (Nat.log2_lt hpos.ne').2 hn
  have hshift : (Format.binary64.targetExponent (totalExponent n e) - e).toNat = 0 := by
    rw [targetExponent_eq]
    omega
  simp only [shiftToTargetExponent, shiftToExponent, hshift]
  change (_, e + 0) = _
  rw [add_zero]
  rfl

theorem shiftToTargetExponent_carry {e : Int} (he : -1074 ≤ e) :
    shiftToTargetExponent Format.binary64 (2 ^ 53) e .exact = (⟨2 ^ 52, false, false⟩, e + 1) := by
  have hshift : (Format.binary64.targetExponent (totalExponent (2 ^ 53) e) - e).toNat = 1 := by
    rw [targetExponent_eq, Nat.log2_two_pow]
    omega
  simp only [shiftToTargetExponent, shiftToExponent, hshift]
  rfl

namespace Approximates

variable {v : Rat} {m : Nat} {e : Int} {accuracy : Accuracy}

theorem roundsAt (h : Approximates v m e accuracy) :
    RoundsAt v (shiftToTargetExponent Format.binary64 m e accuracy).1.roundedMantissa
      (Format.binary64.targetExponent (totalExponent m e)) := by
  have hpos := two_zpow_pos e
  obtain ⟨k, hk⟩ : ∃ k : Nat, Format.binary64.targetExponent (totalExponent m e) = e + k :=
    ⟨_, by rw [Int.toNat_of_nonneg (sub_nonneg.2 h.le_target)]; ring⟩
  have hshift : (Format.binary64.targetExponent (totalExponent m e) - e).toNat = k := by omega
  have htarget := targetExponent_eq m e
  refine ⟨?_, by omega, ?_, ?_⟩
  · have hvalue : v / 2 ^ (e + (k : Int)) = v / 2 ^ e / 2 ^ k := by
      rw [two_zpow_add, zpow_natCast, div_mul_eq_div_div]
    rw [hk, hvalue]
    simp only [shiftToTargetExponent, shiftToExponent, hshift]
    exact (h.truncates.ofMantissaAndAccuracy.shiftRight k).nearest
  · have hm : ((m + 1 : Nat) : Rat) ≤ 2 ^ (m.log2 + 1) := by
      exact_mod_cast Nat.succ_le_of_lt Nat.lt_log2_self
    have hv := h.truncates.lt
    rw [div_lt_iff₀ hpos] at hv
    push_cast at hm
    calc v < (m + 1) * 2 ^ e := hv
      _ ≤ 2 ^ (m.log2 + 1) * 2 ^ e := mul_le_mul_of_nonneg_right hm hpos.le
      _ = 2 ^ ((m.log2 + 1 : Nat) + e : Int) := by rw [two_zpow_add, zpow_natCast]
      _ ≤ _ := two_zpow_le.2 (by push_cast; omega)
  · rcases Nat.eq_zero_or_pos m with rfl | hm
    · have hle := h.le_target
      simp only [Nat.log2_zero, Nat.cast_zero] at htarget
      exact .inl (by omega)
    · refine or_iff_not_imp_left.2 fun hne => ?_
      have hlog : ((2 ^ m.log2 : Nat) : Rat) ≤ m := by exact_mod_cast Nat.log2_self_le hm.ne'
      have hv := h.truncates.le
      rw [le_div_iff₀ hpos] at hv
      push_cast at hlog
      calc (2 : Rat) ^ (_ + 52 : Int) = 2 ^ ((m.log2 : Int) + e) := by congr 1; omega
        _ = 2 ^ m.log2 * 2 ^ e := by rw [two_zpow_add, zpow_natCast]
        _ ≤ m * 2 ^ e := mul_le_mul_of_nonneg_right hlog hpos.le
        _ ≤ v := hv

/-- Rounding happens once: the second shift only makes room for a carry. -/
theorem roundWithAccuracy_eq (h : Approximates v m e accuracy) (s : Sign) :
    ∃ n k, RoundsAt v n k ∧
      roundWithAccuracy Format.binary64 s m e accuracy = rounded s n k := by
  have hround := h.roundsAt
  have hexponent : (shiftToTargetExponent Format.binary64 m e accuracy).2 =
      Format.binary64.targetExponent (totalExponent m e) := by
    have hle := h.le_target
    simp only [shiftToTargetExponent, shiftToExponent]
    omega
  refine ⟨_, _, hround, ?_⟩
  rw [roundWithAccuracy]
  generalize hfirst : shiftToTargetExponent Format.binary64 m e accuracy = first at *
  obtain ⟨em, k⟩ := first
  simp only at hexponent hround ⊢
  rw [← hexponent] at hround ⊢
  rcases Nat.lt_or_eq_of_le hround.le with hlt | heq
  · rw [shiftToTargetExponent_of_lt hlt hround.least, rounded]
    simp only [hlt.ne, if_false]
  · rw [heq, shiftToTargetExponent_carry hround.least, rounded]
    simp

end Approximates

/-- A quotient has at most one bit less than the lengths of its operands tell. -/
theorem log2_add_le_log2_div {a : Nat} (ha : 0 < a) {b : Nat} (hb : 0 < b) (k : Nat) :
    a.log2 + k ≤ b.log2 + 1 + (a * 2 ^ k / b).log2 := by
  by_contra hlt
  have hle : 2 ^ ((a * 2 ^ k / b).log2 + 1) ≤ a * 2 ^ k / b := by
    rw [Nat.le_div_iff_mul_le hb]
    calc 2 ^ ((a * 2 ^ k / b).log2 + 1) * b
        ≤ 2 ^ ((a * 2 ^ k / b).log2 + 1) * 2 ^ (b.log2 + 1) :=
          Nat.mul_le_mul_left _ Nat.lt_log2_self.le
      _ = 2 ^ ((a * 2 ^ k / b).log2 + 1 + (b.log2 + 1)) := (pow_add ..).symm
      _ ≤ 2 ^ (a.log2 + k) := Nat.pow_le_pow_right (by decide) (by omega)
      _ = 2 ^ a.log2 * 2 ^ k := pow_add ..
      _ ≤ a * 2 ^ k := Nat.mul_le_mul_right _ (Nat.log2_self_le ha.ne')
  exact absurd (Nat.lt_log2_self (n := a * 2 ^ k / b)) (Nat.not_lt.2 hle)

/-- A quotient is cut off with enough bits for rounding. -/
theorem approximates_div {m₁ : Nat} (hm₁ : 0 < m₁) (e₁ : Int) {m₂ : Nat} (hm₂ : 0 < m₂) (e₂ : Int) :
    Approximates ((m₁ * 2 ^ e₁) / (m₂ * 2 ^ e₂))
      (divCore Format.binary64 m₁ e₁ m₂ e₂).1 (divCore Format.binary64 m₁ e₁ m₂ e₂).2.1
      (divCore Format.binary64 m₁ e₁ m₂ e₂).2.2 := by
  have htarget := targetExponent_binary64 (totalExponent m₁ e₁ - totalExponent m₂ e₂)
  obtain ⟨k, hk⟩ := Int.le.dest (min_le_left (e₁ - e₂) (Format.binary64.targetExponent
      (totalExponent m₁ e₁ - totalExponent m₂ e₂)))
  simp only [divCore]
  generalize hcut : min (e₁ - e₂) (Format.binary64.targetExponent
      (totalExponent m₁ e₁ - totalExponent m₂ e₂)) = t at *
  have hshift : (e₁ - e₂ - t).toNat = k := by omega
  rw [hshift, Nat.shiftLeft_eq]
  constructor
  · have hvalue : (m₁ * 2 ^ e₁ : Rat) / (m₂ * 2 ^ e₂) / 2 ^ t = ((m₁ * 2 ^ k : Nat) : Rat) / m₂ := by
      have he₁ : e₁ = t + e₂ + k := by omega
      have ht := (two_zpow_pos t).ne'
      have he₂ := (two_zpow_pos e₂).ne'
      rw [he₁, two_zpow_add, two_zpow_add, zpow_natCast]
      push_cast
      field_simp
    rw [hvalue]
    exact truncates_div _ hm₂
  · have hbits := log2_add_le_log2_div hm₁ hm₂ k
    rw [targetExponent_eq]
    simp only [totalExponent] at htarget hcut
    omega

/-- The product of two doubles is the nearest double to the exact product, where the product
of the significands is long enough or of the least exponent. -/
theorem approximates_mul {m₁ m₂ : Nat} {e₁ e₂ : Int}
    (h : 2 ^ 52 ≤ m₁ * m₂ ∨ e₁ + e₂ ≤ -1074) :
    Approximates ((m₁ * 2 ^ e₁) * (m₂ * 2 ^ e₂)) (m₁ * m₂) (e₁ + e₂) .exact := by
  constructor
  · have he₁ := (two_zpow_pos e₁).ne'
    have he₂ := (two_zpow_pos e₂).ne'
    simp only [Truncates]
    rw [two_zpow_add]
    push_cast
    field_simp
  · rw [targetExponent_eq]
    rcases h with h | h
    · have hbits : 52 ≤ (m₁ * m₂).log2 := (Nat.le_log2 (by omega)).2 h
      omega
    · omega

end Coverage.Rounding
