import Coverage.Number.Shortest
import Coverage.Proofs.Number.Bits
import Coverage.Proofs.Number.Rounding

/-!
The decimal that is written for a double lies in the interval of numbers that are
rounded to this double. A grid of seventeen digits always has a neighbour of the double
in the interval, since its steps are smaller than the interval.
-/
namespace Coverage.Shortest

open Rounding

/-- The exact value of a decimal. -/
def Decimal.value (d : Decimal) : Rat := d.digits * 10 ^ d.exponent

namespace Interval

/-- The number is one of those that the interval stands for. -/
def Holds (i : Interval) (v : Rat) : Prop :=
  if i.closed then i.low * 2 ^ i.exponent ≤ v ∧ v ≤ i.high * 2 ^ i.exponent
  else i.low * 2 ^ i.exponent < v ∧ v < i.high * 2 ^ i.exponent

end Interval

theorem twoTo_eq (n : Nat) : twoTo n = 2 ^ n := rfl

theorem tenTo_eq (n : Nat) : tenTo n = 10 ^ n := rfl

theorem ten_zpow_pos (e : Int) : (0 : Rat) < 10 ^ e := zpow_pos (by norm_num) e

theorem ten_zpow_add (e k : Int) : (10 : Rat) ^ (e + k) = 10 ^ e * 10 ^ k :=
  zpow_add₀ (by norm_num) e k

/-- How far the doubles' interval reaches below, in units of the last place. -/
def lowerReach (m : Nat) (e : Int) : Rat := if m = twoTo 52 ∧ -1074 < e then 1 / 4 else 1 / 2

theorem lowerReach_pos (m : Nat) (e : Int) : 0 < lowerReach m e := by
  unfold lowerReach
  split <;> norm_num

theorem lowerReach_le (m : Nat) (e : Int) : lowerReach m e ≤ 1 / 2 := by
  unfold lowerReach
  split <;> norm_num

theorem two_zpow_sub_two (e : Int) : (2 : Rat) ^ (e - 2) = 2 ^ e / 4 := by
  rw [sub_eq_add_neg, two_zpow_add]
  norm_num
  ring

theorem cast_low {m : Nat} (hm : 0 < m) (e : Int) :
    ((interval m e).low : Rat) = 4 * (m - lowerReach m e) := by
  simp only [interval, lowerReach]
  by_cases hclose : m = twoTo 52 ∧ -1074 < e
  · rw [if_pos hclose, if_pos hclose, Nat.cast_sub (by omega)]
    push_cast
    ring
  · rw [if_neg hclose, if_neg hclose, Nat.cast_sub (by omega)]
    push_cast
    ring

/-- The interval of a double in units of its last place. -/
theorem holds_iff {m : Nat} (hm : 0 < m) (e : Int) (v : Rat) : (interval m e).Holds v ↔
    if m % 2 = 0 then m - lowerReach m e ≤ v / 2 ^ e ∧ v / 2 ^ e ≤ m + 1 / 2
    else m - lowerReach m e < v / 2 ^ e ∧ v / 2 ^ e < m + 1 / 2 := by
  have hpos := two_zpow_pos e
  have hlow : ((interval m e).low : Rat) * 2 ^ (interval m e).exponent =
      (m - lowerReach m e) * 2 ^ e := by
    rw [cast_low hm]
    simp only [interval, two_zpow_sub_two]
    ring
  have hhigh : ((interval m e).high : Rat) * 2 ^ (interval m e).exponent =
      (m + 1 / 2) * 2 ^ e := by
    simp only [interval, two_zpow_sub_two]
    push_cast
    ring
  have hclosed : (interval m e).closed = (m % 2 == 0) := rfl
  simp only [Interval.Holds, hlow, hhigh, hclosed, beq_iff_eq, le_div_iff₀ hpos,
    div_le_iff₀ hpos, lt_div_iff₀ hpos, div_lt_iff₀ hpos]

/-- A power of two or ten of either sign is a fraction of two that are natural numbers. -/
theorem pow_toNat_eq {a : Rat} (ha : a ≠ 0) (e : Int) : a ^ e.toNat = a ^ e * a ^ (-e).toNat := by
  rw [← zpow_natCast, ← zpow_natCast, ← zpow_add₀ ha]
  congr 1
  omega

@[simp]
theorem cast_twoTo (n : Nat) : ((twoTo n : Nat) : Rat) = 2 ^ n := by
  rw [twoTo_eq]
  push_cast
  rfl

@[simp]
theorem cast_tenTo (n : Nat) : ((tenTo n : Nat) : Rat) = 10 ^ n := by
  rw [tenTo_eq]
  push_cast
  rfl

/-- The factors have the ratio of the two powers. -/
theorem scales_eq (p e : Int) : ∃ c : Rat, 0 < c ∧
    ((scales p e).1 : Rat) = 2 ^ p * c ∧ ((scales p e).2 : Rat) = 10 ^ e * c := by
  refine ⟨2 ^ (-p).toNat * 10 ^ (-e).toNat, by positivity, ?_, ?_⟩
  · simp only [scales]
    rw [Nat.cast_mul, cast_twoTo, cast_tenTo, pow_toNat_eq (by norm_num) p]
    ring
  · simp only [scales]
    rw [Nat.cast_mul, cast_twoTo, cast_tenTo, pow_toNat_eq (by norm_num) e]
    ring

theorem contains_iff (i : Interval) (d : Decimal) : contains i d = true ↔ i.Holds d.value := by
  obtain ⟨c, hc, hs, ht⟩ := scales_eq i.exponent d.exponent
  have hend : ∀ a : Nat, ((a * (scales i.exponent d.exponent).1 : Nat) : Rat) =
      a * 2 ^ i.exponent * c := by
    intro a
    push_cast
    rw [hs]
    ring
  have hvalue : ((d.digits * (scales i.exponent d.exponent).2 : Nat) : Rat) = d.value * c := by
    push_cast
    rw [ht, Decimal.value]
    ring
  have hlow : ∀ a : Nat, a * (scales i.exponent d.exponent).1 ≤
      d.digits * (scales i.exponent d.exponent).2 ↔ a * 2 ^ i.exponent ≤ d.value := by
    intro a
    rw [← Nat.cast_le (α := Rat), hend, hvalue, mul_le_mul_iff_left₀ hc]
  have hhigh : ∀ a : Nat, d.digits * (scales i.exponent d.exponent).2 ≤
      a * (scales i.exponent d.exponent).1 ↔ d.value ≤ a * 2 ^ i.exponent := by
    intro a
    rw [← Nat.cast_le (α := Rat), hend, hvalue, mul_le_mul_iff_left₀ hc]
  simp only [contains, Interval.Holds]
  split
  · simp only [Bool.and_eq_true, decide_eq_true_eq, hlow, hhigh]
  · simp only [Bool.and_eq_true, decide_eq_true_eq, ← not_le, hlow, hhigh]

theorem onGrid_holds {i : Interval} {e : Int} {d : Decimal} (h : onGrid i e = some d) :
    i.Holds d.value := by
  rw [← contains_iff]
  simp only [onGrid] at h
  split at h
  · rename_i hbelow habove
    cases h
    rw [nearer]
    split
    · exact hbelow
    · split
      · exact habove
      · split
        · exact hbelow
        · exact habove
  · rename_i hbelow _
    cases h
    exact hbelow
  · rename_i _ habove
    cases h
    exact habove
  · cases h

theorem search_holds {i : Interval} {magnitude : Int} {counts : List Nat} {count : Nat}
    (hcount : count ∈ counts) (h : (onGrid i (magnitude - count)).isSome) :
    i.Holds (search i magnitude counts).value := by
  induction counts with
  | nil => cases hcount
  | cons first more ih =>
      rw [search]
      cases hgrid : onGrid i (magnitude - first) with
      | some d => exact onGrid_holds hgrid
      | none =>
          rcases List.mem_cons.1 hcount with rfl | hmore
          · rw [hgrid] at h
            cases h
          · exact ih hmore

/-- The exact value of the double in an interval. -/
def Interval.center (i : Interval) : Rat := i.value * 2 ^ i.exponent

theorem lt_ten_pow_length (n : Nat) : n < 10 ^ (Nat.toDigits 10 n).length :=
  (Nat.length_toDigits_le_iff (by decide) Nat.length_toDigits_pos).1 (Nat.le_refl _)

theorem ten_pow_length_le {n : Nat} (hn : 0 < n) : 10 ^ ((Nat.toDigits 10 n).length - 1) ≤ n := by
  by_contra hlt
  rcases Nat.eq_zero_or_pos ((Nat.toDigits 10 n).length - 1) with hzero | hpos
  · rw [hzero, pow_zero] at hlt
    omega
  · have hlength := (Nat.length_toDigits_le_iff (by decide) hpos).2 (Nat.not_le.1 hlt)
    omega

/-- What is scaled up by a power of ten and cut off has as many digits as the magnitude and
the power ask for. -/
theorem ten_zpow_length_le {i : Interval} {k : Nat} (h : 1 ≤ i.center * 10 ^ k) :
    (10 : Rat) ^ (((Nat.toDigits 10 (i.value * twoTo i.exponent.toNat * tenTo k /
      twoTo (-i.exponent).toNat)).length : Int) - k - 1) ≤ i.center := by
  have hpos : (0 : Rat) < (twoTo (-i.exponent).toNat : Nat) := by
    rw [cast_twoTo]
    positivity
  have hscale : ((i.value * twoTo i.exponent.toNat * tenTo k : Nat) : Rat) =
      i.center * 10 ^ k * (twoTo (-i.exponent).toNat : Nat) := by
    rw [Nat.cast_mul, Nat.cast_mul, cast_twoTo, cast_twoTo, cast_tenTo,
      pow_toNat_eq (by norm_num) i.exponent, Interval.center]
    ring
  have hfloor : ((i.value * twoTo i.exponent.toNat * tenTo k /
      twoTo (-i.exponent).toNat : Nat) : Rat) ≤ i.center * 10 ^ k := by
    refine le_trans Nat.cast_div_le ?_
    rw [hscale, mul_div_cancel_right₀ _ hpos.ne']
  have hsome : 0 < i.value * twoTo i.exponent.toNat * tenTo k / twoTo (-i.exponent).toNat := by
    refine Nat.div_pos ?_ (Nat.pow_pos (by decide))
    rw [← Nat.cast_le (α := Rat), hscale]
    exact le_mul_of_one_le_left hpos.le h
  generalize i.value * twoTo i.exponent.toNat * tenTo k / twoTo (-i.exponent).toNat = scaled at *
  have hdigits : ((10 ^ ((Nat.toDigits 10 scaled).length - 1) : Nat) : Rat) ≤ scaled := by
    exact_mod_cast ten_pow_length_le hsome
  have hlength := Nat.length_toDigits_pos (b := 10) (n := scaled)
  have hsplit : ((Nat.toDigits 10 scaled).length : Int) - k - 1 =
      (((Nat.toDigits 10 scaled).length - 1 : Nat) : Int) + (-k) := by omega
  push_cast at hdigits
  rw [hsplit, ten_zpow_add, zpow_natCast, zpow_neg, zpow_natCast, ← div_eq_mul_inv,
    div_le_iff₀ (by positivity)]
  exact hdigits.trans hfloor

/-- A double has at least the magnitude that the search starts from. -/
theorem magnitude_le {i : Interval} (h : 1 ≤ i.center * 10 ^ 330) :
    (10 : Rat) ^ (magnitude i - 1) ≤ i.center :=
  ten_zpow_length_le h

/-- The two neighbours of a double on a grid. -/
theorem center_between (i : Interval) (e : Int) :
    let below := i.value * (scales i.exponent e).1 / (scales i.exponent e).2
    (below : Rat) * 10 ^ e ≤ i.center ∧ i.center < (below + 1) * 10 ^ e := by
  obtain ⟨c, hc, hs, ht⟩ := scales_eq i.exponent e
  have hpos : 0 < (scales i.exponent e).2 := by
    rw [← Nat.cast_pos (α := Rat), ht]
    exact mul_pos (ten_zpow_pos e) hc
  intro below
  have hlow : below * (scales i.exponent e).2 ≤ i.value * (scales i.exponent e).1 :=
    Nat.div_mul_le_self _ _
  have hhigh : i.value * (scales i.exponent e).1 < (below + 1) * (scales i.exponent e).2 :=
    (Nat.div_lt_iff_lt_mul hpos).1 (Nat.lt_succ_self below)
  rw [← Nat.cast_le (α := Rat)] at hlow
  rw [← Nat.cast_lt (α := Rat)] at hhigh
  push_cast at hlow hhigh
  rw [hs, ht, ← mul_assoc, ← mul_assoc] at hlow hhigh
  exact ⟨le_of_mul_le_mul_right hlow hc, lt_of_mul_lt_mul_right hhigh hc.le⟩

theorem center_interval (m : Nat) (e : Int) : (interval m e).center = m * 2 ^ e := by
  simp only [Interval.center, interval, two_zpow_sub_two]
  push_cast
  ring

theorem holds_of_lt {m : Nat} (hm : 0 < m) {e : Int} {v : Rat}
    (hlow : (m - lowerReach m e) * 2 ^ e < v) (hhigh : v < (m + 1 / 2) * 2 ^ e) :
    (interval m e).Holds v := by
  have hpos := two_zpow_pos e
  rw [← lt_div_iff₀ hpos] at hlow
  rw [← div_lt_iff₀ hpos] at hhigh
  rw [holds_iff hm]
  split
  · exact ⟨hlow.le, hhigh.le⟩
  · exact ⟨hlow, hhigh⟩

/-- A grid holds a number of the interval, if its steps are smaller than the interval. -/
theorem onGrid_isSome {m : Nat} {e g : Int} (hm : 0 < m)
    (hstep : (10 : Rat) ^ g < (lowerReach m e + 1 / 2) * 2 ^ e) :
    (onGrid (interval m e) g).isSome := by
  obtain ⟨hlow, hhigh⟩ := center_between (interval m e) g
  rw [center_interval] at hlow hhigh
  simp only [onGrid]
  generalize (interval m e).value * (scales (interval m e).exponent g).1 /
    (scales (interval m e).exponent g).2 = below at *
  have hreach := mul_pos (lowerReach_pos m e) (two_zpow_pos e)
  have hpos := two_zpow_pos e
  -- if the neighbour below is too far away, the one above is not
  have hnear : contains (interval m e) ⟨below, g⟩ = true ∨
      contains (interval m e) ⟨below + 1, g⟩ = true := by
    simp only [contains_iff, Decimal.value]
    push_cast
    rcases lt_or_ge ((m - lowerReach m e) * 2 ^ e) (below * 10 ^ g) with hbelow | hbelow
    · exact .inl (holds_of_lt hm hbelow (by linarith))
    · exact .inr (holds_of_lt hm (by linarith) (by linarith))
  rcases hnear with hbelow | habove
  · rw [hbelow]
    split <;> first | rfl | simp_all
  · rw [habove]
    split <;> first | rfl | simp_all

/-- The least double, scaled up by the power of ten, is not cut off to zero. -/
theorem one_le_center {m : Nat} {e : Int} (hcanonical : Binary64.Canonical m e) (hm : 0 < m) :
    1 ≤ (interval m e).center * 10 ^ 330 := by
  have hone : (1 : Rat) ≤ m := by exact_mod_cast hm
  have hleast := hcanonical.least
  have hpow : (2 : Rat) ^ 1089 ≤ 10 ^ 330 := by
    calc (2 : Rat) ^ 1089 = (2 ^ 33) ^ 33 := by rw [← pow_mul]
      _ ≤ (10 ^ 10) ^ 33 := pow_le_pow_left₀ (by positivity) (by norm_num) 33
      _ = 10 ^ 330 := by rw [← pow_mul]
  rw [center_interval]
  calc (1 : Rat) = 2 ^ (0 : Int) := (zpow_zero 2).symm
    _ ≤ 2 ^ (e + (1089 : Nat)) := two_zpow_le.2 (by push_cast; omega)
    _ = 2 ^ e * 2 ^ 1089 := by rw [two_zpow_add, zpow_natCast]
    _ ≤ 2 ^ e * 10 ^ 330 := mul_le_mul_of_nonneg_left hpow (two_zpow_pos e).le
    _ ≤ m * 2 ^ e * 10 ^ 330 := by
      refine mul_le_mul_of_nonneg_right ?_ (by positivity)
      exact le_mul_of_one_le_left (two_zpow_pos e).le hone

/-- Steps of seventeen digits are smaller than the interval. -/
theorem step_lt {m : Nat} {e : Int} (hcanonical : Binary64.Canonical m e) (hm : 0 < m) :
    (10 : Rat) ^ (magnitude (interval m e) - 17) < (lowerReach m e + 1 / 2) * 2 ^ e := by
  have hpos := two_zpow_pos e
  have hmagnitude := magnitude_le (one_le_center hcanonical hm)
  rw [center_interval] at hmagnitude
  have hsplit : magnitude (interval m e) - 1 = magnitude (interval m e) - 17 + 16 := by ring
  rw [hsplit, ten_zpow_add] at hmagnitude
  norm_num at hmagnitude
  have hlt : (m : Rat) < 2 ^ 53 := by exact_mod_cast hcanonical.lt
  unfold lowerReach
  split
  · rename_i hclose
    have hm52 : (m : Rat) = 2 ^ 52 := by rw [hclose.1, cast_twoTo]
    rw [hm52] at hmagnitude
    linarith
  · nlinarith

theorem ten_pow_trailing_dvd (n : Nat) :
    tenTo ((Nat.toDigits 10 n).reverse.takeWhile (· == '0')).length ∣ n := by
  induction n using Nat.strongRecOn with
  | ind n ih =>
      have hdigit : ∀ d < 10, d = 0 ∨ (Nat.digitChar d == '0') = false := by decide
      by_cases hsmall : n < 10
      · rw [Nat.toDigits_of_lt_base hsmall, List.reverse_singleton]
        rcases hdigit n hsmall with rfl | hne
        · exact dvd_zero _
        · rw [List.takeWhile_cons, hne]
          exact one_dvd n
      · rw [Nat.toDigits_of_base_le (by omega) (by omega), List.reverse_append,
          List.reverse_singleton, List.singleton_append, List.takeWhile_cons]
        rcases hdigit (n % 10) (Nat.mod_lt n (by omega)) with hzero | hne
        · obtain ⟨q, hq⟩ := ih (n / 10) (by omega)
          refine ⟨q, ?_⟩
          rw [hzero, if_pos (by decide), List.length_cons, tenTo_eq, pow_succ', ← tenTo_eq,
            Nat.mul_assoc, ← hq]
          omega
        · rw [hne]
          exact one_dvd n

theorem value_withoutTrailingZeros (d : Decimal) : (withoutTrailingZeros d).value = d.value := by
  obtain ⟨q, hq⟩ := ten_pow_trailing_dvd d.digits
  have hpos : 0 < tenTo ((Nat.toDigits 10 d.digits).reverse.takeWhile (· == '0')).length :=
    Nat.pow_pos (by decide)
  simp only [withoutTrailingZeros, Decimal.value]
  generalize ((Nat.toDigits 10 d.digits).reverse.takeWhile (· == '0')).length = zeros at *
  have hdigits : d.digits / tenTo zeros = q := Nat.div_eq_of_eq_mul_right hpos hq
  rw [hdigits, hq, Nat.cast_mul, cast_tenTo, ten_zpow_add, zpow_natCast]
  ring

/-- The decimal for a double is rounded to that double. -/
theorem decimal_holds {m : Nat} {e : Int} (hcanonical : Binary64.Canonical m e) (hm : 0 < m) :
    (interval m e).Holds (decimal m e).value := by
  rw [decimal, value_withoutTrailingZeros]
  have hcount : 17 ∈ List.range' 1 17 := by simp
  exact search_holds hcount (onGrid_isSome hm (step_lt hcanonical hm))

end Coverage.Shortest
