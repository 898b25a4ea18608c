import Coverage.Number.Numeral
import Coverage.Proofs.Number.Shortest

/-!
Numerals read as doubles. The reading rounds once, so that a numeral whose value lies in
the interval of a double is read as that double.
-/
namespace Coverage.Rounding

open Float.Model Float.Model.UnpackedFloat
open Binary64 (Canonical isNegative)

variable {v : Rat} {m n : Nat} {e k : Int}

/-- In units of the last place, the numbers of an interval are rounded to the significand. -/
theorem nearest_of_holds (hm : 0 < m) (h : (Shortest.interval m e).Holds v) :
    (m : Rat) - Shortest.lowerReach m e ≤ v / 2 ^ e ∧ Nearest (v / 2 ^ e) m := by
  have hreach := Shortest.lowerReach_le m e
  rw [Shortest.holds_iff hm] at h
  split at h
  · rename_i heven
    exact ⟨h.1, by linarith, h.2, fun _ => heven⟩
  · refine ⟨h.1.le, by linarith, h.2.le, fun htie => ?_⟩
    rcases htie with htie | htie <;> linarith

section Exponent

variable (h : RoundsAt v n k) (hcanonical : Canonical m e) (hm : 0 < m)
  (hv : (Shortest.interval m e).Holds v)
include h hcanonical hm hv

theorem RoundsAt.exponent_le : k ≤ e := by
  have hhigh := (nearest_of_holds hm hv).2.high
  have hm53 : ((m + 1 : Nat) : Rat) ≤ ((2 ^ 53 : Nat) : Rat) := by exact_mod_cast hcanonical.lt
  push_cast at hm53
  have hlt : v < 2 ^ (e + 53) := by
    rw [two_zpow_add, mul_comm, ← div_lt_iff₀ (two_zpow_pos e)]
    norm_num
    linarith
  rcases h.ge with hk | hge
  · exact hk ▸ hcanonical.least
  · have := two_zpow_lt.1 (lt_of_le_of_lt hge hlt)
    omega

/-- Just below a power of two, where doubles are closer, the significand carries. -/
theorem RoundsAt.carries (hk : k < e) : e = k + 1 ∧ m = 2 ^ 52 ∧ n = 2 ^ 53 := by
  obtain ⟨hlow, hnearest⟩ := nearest_of_holds hm hv
  have hpos := two_zpow_pos e
  have hleast := h.least
  have hge : (2 ^ 52 : Rat) ≤ m := by
    have := hcanonical.normal.resolve_right (by omega)
    exact_mod_cast this
  have hgt : (2 : Rat) ^ (e + 51) < v := by
    rw [two_zpow_add, mul_comm, ← lt_div_iff₀ hpos]
    norm_num
    linarith [hnearest.low]
  obtain rfl : e = k + 1 := by
    have := two_zpow_lt.1 (hgt.trans h.lt)
    omega
  have hhalf : v / 2 ^ k = 2 * (v / 2 ^ (k + 1)) := by
    rw [two_zpow_add, zpow_one]
    field_simp
  have hbelow : v / 2 ^ (k + 1) < 2 ^ 52 := by
    rw [div_lt_iff₀ hpos]
    refine lt_of_lt_of_eq h.lt ?_
    rw [two_zpow_add, two_zpow_add]
    norm_num
    ring
  obtain rfl : m = 2 ^ 52 := by
    have hcast : (m : Rat) < ((2 ^ 52 + 1 : Nat) : Rat) := by
      push_cast
      linarith [hnearest.low]
    have hlt : m < 2 ^ 52 + 1 := by exact_mod_cast hcast
    have := hcanonical.normal
    omega
  have hreach : Shortest.lowerReach (2 ^ 52) (k + 1) = 1 / 4 := if_pos ⟨rfl, by omega⟩
  refine ⟨rfl, rfl, h.nearest.unique ⟨?_, ?_, fun _ => by norm_num⟩⟩
  all_goals
    rw [hhalf]
    rw [hreach] at hlow
    push_cast at hlow ⊢
    linarith

/-- A number of the interval of a double is rounded to that double. -/
theorem RoundsAt.eq_of_holds (s : Sign) : rounded s n k = .finite s m e hm := by
  rcases (h.exponent_le hcanonical hm hv).lt_or_eq with hk | rfl
  · obtain ⟨rfl, rfl, rfl⟩ := h.carries hcanonical hm hv hk
    rw [rounded, dif_neg (by omega), if_pos rfl]
  · obtain rfl : n = m := h.nearest.unique (nearest_of_holds hm hv).2
    rw [rounded, dif_neg hm.ne', if_neg hcanonical.lt.ne]

end Exponent

theorem Approximates.eq_of_holds {a : Nat} {x : Int} {accuracy : Accuracy}
    (h : Approximates v a x accuracy) (hcanonical : Canonical m e) (hm : 0 < m)
    (hv : (Shortest.interval m e).Holds v) (s : Sign) :
    roundWithAccuracy Format.binary64 s a x accuracy = .finite s m e hm := by
  obtain ⟨n, k, hround, heq⟩ := h.roundWithAccuracy_eq s
  rw [heq, hround.eq_of_holds hcanonical hm hv]

section Operations

variable {s₁ s₂ : Sign} {m₁ m₂ : Nat} {e₁ e₂ : Int} {hm₁ : 0 < m₁} {hm₂ : 0 < m₂}

theorem div_eq_of_holds (hcanonical : Canonical m e) (hm : 0 < m)
    (hv : (Shortest.interval m e).Holds ((m₁ * 2 ^ e₁) / (m₂ * 2 ^ e₂))) :
    UnpackedFloat.div Format.binary64 (.finite s₁ m₁ e₁ hm₁) (.finite s₂ m₂ e₂ hm₂) =
      .finite (s₁ / s₂) m e hm :=
  (approximates_div hm₁ e₁ hm₂ e₂).eq_of_holds hcanonical hm hv (s₁ / s₂)

theorem mul_eq_of_holds (hlong : 2 ^ 52 ≤ m₁ * m₂) (hcanonical : Canonical m e) (hm : 0 < m)
    (hv : (Shortest.interval m e).Holds ((m₁ * 2 ^ e₁) * (m₂ * 2 ^ e₂))) :
    UnpackedFloat.mul Format.binary64 (.finite s₁ m₁ e₁ hm₁) (.finite s₂ m₂ e₂ hm₂) =
      .finite (s₁ * s₂) m e hm :=
  (approximates_mul (.inl hlong)).eq_of_holds hcanonical hm hv (s₁ * s₂)

end Operations

/-- What is rounded to a finite double is neither tiny nor huge. -/
theorem bounds_of_holds (hcanonical : Canonical m e) (hm : 0 < m)
    (hv : (Shortest.interval m e).Holds v) : 2 ^ (-1075 : Int) ≤ v ∧ v < 2 ^ (1024 : Int) := by
  have hnearest := (nearest_of_holds hm hv).2
  have hpos := two_zpow_pos e
  have hlow := hnearest.low
  have hhigh := hnearest.high
  have hone : (1 : Rat) ≤ m := by exact_mod_cast hm
  have hm53 : ((m + 1 : Nat) : Rat) ≤ ((2 ^ 53 : Nat) : Rat) := by exact_mod_cast hcanonical.lt
  push_cast at hm53
  constructor
  · calc (2 : Rat) ^ (-1075 : Int)
        ≤ 2 ^ (e + -1) := two_zpow_le.2 (by have := hcanonical.least; omega)
      _ = 1 / 2 * 2 ^ e := by rw [two_zpow_add]; norm_num; ring
      _ ≤ v := by rw [← le_div_iff₀ hpos]; linarith
  · calc v < 2 ^ 53 * 2 ^ e := by rw [← div_lt_iff₀ hpos]; linarith
      _ = 2 ^ (((53 : Nat) : Int) + e) := by rw [two_zpow_add, zpow_natCast]
      _ ≤ _ := two_zpow_le.2 (by have := hcanonical.greatest; push_cast; omega)

theorem two_zpow_le_ten {x : Int} (hx : 0 ≤ x) : (2 : Rat) ^ (3 * x) ≤ 10 ^ x := by
  obtain ⟨n, rfl⟩ := Int.eq_ofNat_of_zero_le hx
  rw [zpow_mul, zpow_natCast, zpow_natCast]
  exact pow_le_pow_left₀ (by norm_num) (by norm_num) n

theorem ten_zpow_le_two {x : Int} (hx : x ≤ 0) : (10 : Rat) ^ x ≤ 2 ^ (3 * x) := by
  have h := two_zpow_le_ten (x := -x) (by omega)
  rw [mul_neg, zpow_neg, zpow_neg] at h
  exact (inv_le_inv₀ (two_zpow_pos _) (Shortest.ten_zpow_pos x)).1 h

theorem ten_zpow_eq_pow {x : Int} {n : Nat} (h : x = n) : (10 : Rat) ^ x = 10 ^ n := by
  rw [h, zpow_natCast]

theorem ten_zpow_eq_inv {x : Int} {n : Nat} (h : x = -n) : (10 : Rat) ^ x = (10 ^ n)⁻¹ := by
  rw [h, zpow_neg, zpow_natCast]

section Scientific

variable {digits : Nat} {exponent : Int} (hdigits : 0 < digits)

include hdigits in
theorem exponent_le_of_lt (h : (digits : Rat) * 10 ^ exponent < 2 ^ (1024 : Int)) :
    exponent ≤ 2048 := by
  by_contra hgt
  have hone : (1 : Rat) ≤ digits := by exact_mod_cast hdigits
  have hten : (2 : Rat) ^ (3 * exponent) ≤ digits * 10 ^ exponent :=
    (two_zpow_le_ten (by omega)).trans
      (le_mul_of_one_le_left (Shortest.ten_zpow_pos exponent).le hone)
  have := two_zpow_lt.1 (hten.trans_lt h)
  omega

theorem le_exponent_of_le (h : 2 ^ (-1075 : Int) ≤ (digits : Rat) * 10 ^ exponent) :
    -(2048 + digits.log2) ≤ exponent := by
  by_contra hlt
  have hlog : (digits : Rat) ≤ 2 ^ ((digits.log2 + 1 : Nat) : Int) := by
    rw [zpow_natCast]
    exact_mod_cast Nat.lt_log2_self.le
  have hten : (digits : Rat) * 10 ^ exponent ≤ 2 ^ ((digits.log2 + 1 : Nat) + 3 * exponent) := by
    rw [two_zpow_add]
    exact mul_le_mul hlog (ten_zpow_le_two (by omega)) (Shortest.ten_zpow_pos exponent).le
      (two_zpow_pos _).le
  have := two_zpow_le.1 (h.trans hten)
  push_cast at this
  omega

variable (hcanonical : Canonical m e) (hm : 0 < m)
  (hv : (Shortest.interval m e).Holds (digits * 10 ^ exponent))
include hdigits hcanonical hv

/-- Fifty-three more bits make the product of a small numeral long enough. -/
theorem mul_pow_ten_of_holds (hsign : 0 ≤ exponent) :
    UnpackedFloat.mul Format.binary64
      (.finite .positive (digits <<< 53) (-53) (by rw [Nat.shiftLeft_eq]; positivity))
      (.finite .positive (10 ^ exponent.toNat) 0 (by positivity)) = .finite .positive m e hm := by
  have hshift : digits <<< 53 = digits * 2 ^ 53 := Nat.shiftLeft_eq _ _
  have hvalue : ((digits <<< 53 : Nat) * 2 ^ (-53 : Int)) *
      ((10 ^ exponent.toNat : Nat) * 2 ^ (0 : Int)) = (digits : Rat) * 10 ^ exponent := by
    have htwo : (2 : Rat) ^ 53 * 2 ^ (-53 : Int) = 1 := by norm_num
    rw [hshift, ten_zpow_eq_pow (Int.toNat_of_nonneg hsign).symm, zpow_zero, mul_one]
    rw [Nat.cast_mul, Nat.cast_pow, Nat.cast_pow, Nat.cast_ofNat, Nat.cast_ofNat,
      mul_assoc (digits : Rat), htwo, mul_one]
  have hlong : 2 ^ 52 ≤ digits <<< 53 * 10 ^ exponent.toNat := by
    have hpower : 0 < 10 ^ exponent.toNat := by positivity
    rw [hshift]
    nlinarith
  exact mul_eq_of_holds hlong hcanonical hm (by rw [hvalue]; exact hv)

theorem div_pow_ten_of_holds (hsign : exponent < 0) :
    UnpackedFloat.div Format.binary64 (.finite .positive digits 0 hdigits)
      (.finite .positive (10 ^ (-exponent).toNat) 0 (by positivity)) =
        .finite .positive m e hm := by
  have hvalue : (digits * 2 ^ (0 : Int)) /
      ((10 ^ (-exponent).toNat : Nat) * 2 ^ (0 : Int)) = (digits : Rat) * 10 ^ exponent := by
    rw [ten_zpow_eq_inv (n := (-exponent).toNat) (by omega), zpow_zero, mul_one, mul_one,
      div_eq_mul_inv]
    push_cast
    rfl
  exact div_eq_of_holds hcanonical hm (by rw [hvalue]; exact hv)

/-- A scientific numeral is rounded once, as its exponent is not beyond the range. -/
theorem ofScientific_of_holds :
    UnpackedFloat.ofScientific Format.binary64 digits exponent = .finite .positive m e hm := by
  obtain ⟨hlow, hhigh⟩ := bounds_of_holds hcanonical hm hv
  have hle := exponent_le_of_lt hdigits hhigh
  have hge := le_exponent_of_le hlow
  rw [UnpackedFloat.ofScientific, dif_neg hdigits.ne']
  refine (if_neg (not_lt.2 hle)).trans ((if_neg (not_lt.2 hge)).trans ?_)
  rcases le_or_gt 0 exponent with hsign | hsign
  · rw [if_pos hsign]
    exact mul_pow_ten_of_holds hdigits hcanonical hm hv hsign
  · rw [if_neg (not_le.2 hsign)]
    exact div_pow_ten_of_holds hdigits hcanonical hm hv hsign

end Scientific

theorem log2_shiftLeft {m : Nat} (hm : 0 < m) (k : Nat) : (m <<< k).log2 = m.log2 + k := by
  have hpos : m <<< k ≠ 0 := by
    rw [Nat.shiftLeft_eq]
    positivity
  rw [Nat.log2_eq_iff hpos, Nat.shiftLeft_eq, pow_add, pow_succ, pow_add]
  have hlow := Nat.log2_self_le hm.ne'
  have hhigh := Nat.lt_log2_self (n := m)
  rw [pow_succ] at hhigh
  constructor <;> nlinarith [Nat.pow_pos (n := k) (show 0 < 2 by decide)]

/-- A number with any exponent is first brought to the exponent of its rounding. -/
theorem approximates_decreaseExponent (hm : 0 < m) (e : Int) :
    Approximates (m * 2 ^ e)
      (decreaseExponent m e (Format.binary64.targetExponent (totalExponent m e))).1
      (decreaseExponent m e (Format.binary64.targetExponent (totalExponent m e))).2 .exact := by
  have htarget := targetExponent_eq m e
  generalize Format.binary64.targetExponent (totalExponent m e) = t at *
  simp only [decreaseExponent]
  generalize hk : (e - t).toNat = k
  constructor
  · have hpos := two_zpow_pos (e - k)
    have hsplit : (2 : Rat) ^ e = 2 ^ k * 2 ^ (e - k) := by
      rw [← zpow_natCast, ← two_zpow_add]
      congr 1
      omega
    simp only [Truncates]
    rw [div_eq_iff hpos.ne', Nat.shiftLeft_eq, Nat.cast_mul, Nat.cast_pow, Nat.cast_ofNat, hsplit,
      mul_assoc]
  · rw [targetExponent_eq, log2_shiftLeft hm]
    push_cast
    omega

/-- The double nearest to a word. -/
theorem exists_roundsAt_toFloat {n : UInt64} (hn : 0 < n.toNat) :
    ∃ m e, RoundsAt n.toNat m e ∧ n.toFloat = .ofModel (.pack (rounded .positive m e)) := by
  have hcompare : compare (n.toNat : Int) 0 = .gt := Int.compare_eq_gt.2 (by omega)
  have hround : UnpackedFloat.ofUInt64 Format.binary64 n =
      UnpackedFloat.round Format.binary64 .positive n.toNat 0 := by
    rw [UnpackedFloat.ofUInt64, UnpackedFloat.ofNat, UnpackedFloat.ofInt,
      UnpackedFloat.normalize, hcompare]
    rfl
  obtain ⟨m, e, hnearest, heq⟩ :=
    (approximates_decreaseExponent hn 0).roundWithAccuracy_eq .positive
  rw [zpow_zero, mul_one] at hnearest
  refine ⟨m, e, hnearest, ?_⟩
  rw [← heq]
  exact congrArg (fun u => Float.ofModel (.pack u)) hround

theorem holds_self (hm : 0 < m) (e : Int) : (Shortest.interval m e).Holds (m * 2 ^ e) := by
  have hpos := two_zpow_pos e
  have hreach := mul_pos (Shortest.lowerReach_pos m e) hpos
  exact Shortest.holds_of_lt hm (by linarith) (by linarith)

/-- Words of fifty-three bits are doubles. -/
theorem unpack_toFloat_of_lt {n : UInt64} (hpos : 0 < n.toNat) (hlt : n.toNat < 2 ^ 53) :
    ∃ (m : Nat) (e : Int) (hm : 0 < m), 2 ^ 52 ≤ m ∧ (m : Rat) * 2 ^ e = n.toNat ∧
      n.toFloat.toModel.unpack = .finite .positive m e hm := by
  obtain ⟨k, hk⟩ : ∃ k, n.toNat.log2 + k = 52 :=
    ⟨_, Nat.add_sub_cancel' (Nat.le_of_lt_succ ((Nat.log2_lt hpos.ne').2 hlt))⟩
  have hlog : (n.toNat <<< k).log2 = 52 := by rw [log2_shiftLeft hpos, hk]
  have hm : 0 < n.toNat <<< k := by
    rw [Nat.shiftLeft_eq]
    positivity
  obtain ⟨hlow, hhigh⟩ := (Nat.log2_eq_iff hm.ne').1 hlog
  have hcanonical : Canonical (n.toNat <<< k) (-k) := ⟨hhigh, by omega, by omega, .inl hlow⟩
  have hvalue : ((n.toNat <<< k : Nat) : Rat) * 2 ^ (-k : Int) = n.toNat := by
    rw [Nat.shiftLeft_eq, zpow_neg, zpow_natCast]
    push_cast
    field_simp
  obtain ⟨m, e, hround, hfloat⟩ := exists_roundsAt_toFloat hpos
  have hself := holds_self hm (-k)
  rw [hvalue] at hself
  refine ⟨_, _, hm, hlow, hvalue, ?_⟩
  rw [hfloat, hround.eq_of_holds hcanonical hm hself]
  exact Binary64.unpack_pack hm hcanonical

/-- The powers of ten that are doubles, with significands of fifty-three bits. -/
theorem powerOfTen_table : ∀ i : Fin 23,
    Binary64.ofFloat Float.exactlyRepresentablePowersOfTen[i] =
        .finite false (10 ^ i.val * 2 ^ 52 / 2 ^ (10 ^ i.val).log2) ((10 ^ i.val).log2 - 52) ∧
      10 ^ i.val * 2 ^ 52 / 2 ^ (10 ^ i.val).log2 * 2 ^ (10 ^ i.val).log2 =
        10 ^ i.val * 2 ^ 52 := by
  decide +kernel

theorem unpack_powerOfTen {i : Nat} (hi : i < Float.exactlyRepresentablePowersOfTen.size) :
    ∃ (m : Nat) (e : Int) (hm : 0 < m), (m : Rat) * 2 ^ e = 10 ^ i ∧
      Float.exactlyRepresentablePowersOfTen[i].toModel.unpack = .finite .positive m e hm := by
  obtain ⟨hfloat, hpower⟩ := powerOfTen_table ⟨i, hi⟩
  simp only [Fin.getElem_fin] at hfloat hpower
  generalize 10 ^ i * 2 ^ 52 / 2 ^ (10 ^ i).log2 = m at hfloat hpower
  generalize (10 ^ i).log2 = l at hfloat hpower
  have hm : 0 < m := by
    refine Nat.pos_of_ne_zero fun hzero => ?_
    rw [hzero, Nat.zero_mul] at hpower
    have : 0 < 10 ^ i * 2 ^ 52 := by positivity
    omega
  rw [← Nat.cast_inj (R := Rat)] at hpower
  refine ⟨m, l - 52, hm, ?_, Binary64.unpack_of_ofFloat hm hfloat⟩
  rw [sub_eq_add_neg, two_zpow_add, zpow_natCast]
  push_cast at hpower
  rw [← mul_assoc, hpower]
  norm_num
  ring

theorem div_eq (x y : Float) : x / y =
    .ofModel (.pack (UnpackedFloat.div Format.binary64 x.toModel.unpack y.toModel.unpack)) := rfl

theorem mul_eq (x y : Float) : x * y =
    .ofModel (.pack (UnpackedFloat.mul Format.binary64 x.toModel.unpack y.toModel.unpack)) := rfl

/-- Reading a scientific numeral gives the double in whose interval it lies. -/
theorem ofFloat_ofScientific {digits : Nat} {exponent : Int} (hdigits : 0 < digits)
    (hcanonical : Canonical m e) (hm : 0 < m)
    (hv : (Shortest.interval m e).Holds (digits * 10 ^ exponent)) :
    Binary64.ofFloat (Float.ofScientific digits (exponent < 0) exponent.natAbs) =
      .finite false m e := by
  rw [Float.ofScientific]
  split
  · -- both operands are doubles, and one operation rounds
    rename_i hfast
    have htoNat : digits.toUInt64.toNat = digits :=
      UInt64.toNat_ofNat_of_lt (lt_trans hfast.1 (by decide))
    obtain ⟨m₁, e₁, hm₁, hlong, hvalue₁, hunpack₁⟩ :=
      unpack_toFloat_of_lt (by rwa [htoNat]) (by rw [htoNat]; exact hfast.1)
    obtain ⟨m₂, e₂, hm₂, hvalue₂, hunpack₂⟩ :=
      unpack_powerOfTen (Nat.lt_of_le_of_lt hfast.2 (by decide))
    rw [htoNat] at hvalue₁
    split
    · rename_i hnegative
      simp only [decide_eq_true_eq] at hnegative
      rw [ten_zpow_eq_inv (n := exponent.natAbs) (by omega), ← div_eq_mul_inv, ← hvalue₁, ← hvalue₂] at hv
      rw [div_eq, hunpack₁, hunpack₂, div_eq_of_holds hcanonical hm hv]
      exact Binary64.ofFloat_pack hm hcanonical
    · rename_i hnegative
      simp only [decide_eq_true_eq] at hnegative
      rw [ten_zpow_eq_pow (n := exponent.natAbs) (by omega), ← hvalue₁, ← hvalue₂] at hv
      rw [mul_eq, hunpack₁, hunpack₂, mul_eq_of_holds (by nlinarith) hcanonical hm hv]
      exact Binary64.ofFloat_pack hm hcanonical
  · have hexponent : (if (exponent < 0 : Bool) then Int.negOfNat exponent.natAbs
        else Int.ofNat exponent.natAbs) = exponent := by
      split <;> rename_i hsign <;> simp only [decide_eq_true_eq] at hsign
      · rw [Int.negOfNat_eq]
        change -(exponent.natAbs : Int) = exponent
        omega
      · change (exponent.natAbs : Int) = exponent
        omega
    have hslow : Float.Model.ofScientific digits exponent = .pack (.finite .positive m e hm) :=
      congrArg Float.Model.pack (ofScientific_of_holds hdigits hcanonical hm hv)
    simp only [hexponent, hslow]
    exact Binary64.ofFloat_pack hm hcanonical

end Coverage.Rounding

namespace Coverage.Numeral

open Rounding

/-- The exact value, apart from the sign. -/
def magnitudeValue (n : Numeral) : Rat := n.digits * 10 ^ n.exponent

/-- Digits that are neither tiny nor huge are converted. -/
theorem magnitude_bounds {n : Numeral} (hdigits : 0 < n.digits)
    (hlow : 2 ^ (-1075 : Int) ≤ n.magnitudeValue) (hhigh : n.magnitudeValue < 2 ^ (1024 : Int)) :
    ¬ ((Nat.toDigits 10 n.digits).length + n.exponent < -400) ∧
      ¬ (400 < (Nat.toDigits 10 n.digits).length + n.exponent) := by
  have hten := Shortest.ten_zpow_pos n.exponent
  have hlength := Nat.length_toDigits_pos (b := 10) (n := n.digits)
  constructor
  · intro hlt
    have h1 : (n.digits : Rat) ≤ 10 ^ (((Nat.toDigits 10 n.digits).length : Nat) : Int) := by
      rw [zpow_natCast]
      exact_mod_cast (Shortest.lt_ten_pow_length n.digits).le
    have h2 : n.magnitudeValue ≤ 10 ^ ((Nat.toDigits 10 n.digits).length + n.exponent) := by
      rw [Shortest.ten_zpow_add]
      exact mul_le_mul_of_nonneg_right h1 hten.le
    have := two_zpow_le.1 ((hlow.trans h2).trans (ten_zpow_le_two (by omega)))
    omega
  · intro hgt
    have h1 : (10 : Rat) ^ (((Nat.toDigits 10 n.digits).length - 1 : Nat) : Int) ≤ n.digits := by
      rw [zpow_natCast]
      exact_mod_cast Shortest.ten_pow_length_le hdigits
    have h2 : (10 : Rat) ^ (((Nat.toDigits 10 n.digits).length - 1 : Nat) + n.exponent) ≤
        n.magnitudeValue := by
      rw [Shortest.ten_zpow_add]
      exact mul_le_mul_of_nonneg_right h1 hten.le
    have := two_zpow_lt.1 (((two_zpow_le_ten (by omega)).trans h2).trans_lt hhigh)
    omega

/-- A double is found by the exact number that it is. -/
theorem signed_eq {x y : Float} {negative : Bool} {m : Nat} {e : Int}
    (hy : Binary64.ofFloat y = .finite false m e)
    (hx : Binary64.ofFloat x = .finite negative m e) : (if negative then -y else y) = x := by
  cases negative with
  | false => exact Binary64.ofFloat_inj hy hx
  | true => exact Binary64.ofFloat_inj (Binary64.ofFloat_neg hy) hx

theorem toFloat?_of_holds {n : Numeral} {x : Float} {m : Nat} {e : Int} (hm : 0 < m)
    (hx : Binary64.ofFloat x = .finite n.negative m e)
    (hv : (Shortest.interval m e).Holds n.magnitudeValue) : n.toFloat? = some x := by
  have hcanonical := Binary64.canonical_ofBits hx
  obtain ⟨hlow, hhigh⟩ := bounds_of_holds hcanonical hm hv
  have hdigits : 0 < n.digits := by
    refine Nat.pos_of_ne_zero fun hzero => ?_
    have hpos := lt_of_lt_of_le (two_zpow_pos (-1075)) hlow
    rw [magnitudeValue, hzero, Nat.cast_zero, zero_mul] at hpos
    exact lt_irrefl _ hpos
  obtain ⟨hnotTiny, hnotHuge⟩ := magnitude_bounds hdigits hlow hhigh
  have hfloat := ofFloat_ofScientific hdigits hcanonical hm hv
  simp only [toFloat?]
  rw [if_neg (not_or.2 ⟨hdigits.ne', hnotTiny⟩), if_neg hnotHuge, hfloat]
  exact (if_pos rfl).trans (congrArg some (signed_eq hfloat hx))

theorem toFloat?_of_zero {n : Numeral} {x : Float} {e : Int} (hzero : n.digits = 0)
    (hx : Binary64.ofFloat x = .finite n.negative 0 e) : n.toFloat? = some x := by
  obtain rfl : e = -1074 := (Binary64.canonical_ofBits hx).normal.resolve_left (by omega)
  have hfloat : Binary64.ofFloat 0.0 = .finite false 0 (-1074) := by decide +kernel
  simp only [toFloat?]
  rw [if_pos (.inl hzero)]
  exact congrArg some (signed_eq hfloat hx)

end Coverage.Numeral
