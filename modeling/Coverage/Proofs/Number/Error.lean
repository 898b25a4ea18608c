import Coverage.Proofs.Number.Rounding

/-!
How far rounding moves a number. It keeps the order of numbers, also where their exponents
differ, and moves a normal number by at most a share of it, half a unit of the last of the
fifty-three bits.
-/
namespace Coverage.Rounding

variable {v w : Rat} {m n : Nat} {e k : Int}

theorem Nearest.mono {x y : Rat} (hm : Nearest x m) (hn : Nearest y n) (h : x ≤ y) : m ≤ n := by
  by_contra hlt
  have hstep : ((n + 1 : Nat) : Rat) ≤ m := by exact_mod_cast not_le.1 hlt
  have hlow := hm.low
  have hhigh := hn.high
  push_cast at hstep
  -- only a tie is left, which both round alike
  have hxy : x = y := by linarith
  subst hxy
  exact hlt (hm.unique hn).le

theorem RoundsAt.two_pow_le (h : RoundsAt v n k) (hv : (2 : Rat) ^ (k + 52) ≤ v) : 2 ^ 52 ≤ n := by
  rw [two_zpow_add, mul_comm, ← le_div_iff₀ (two_zpow_pos k)] at hv
  have hhigh := h.nearest.high
  by_contra hlt
  have hcast : ((n + 1 : Nat) : Rat) ≤ ((2 ^ 52 : Nat) : Rat) := by exact_mod_cast not_le.1 hlt
  push_cast at hcast
  norm_num at hv hcast
  linarith

/-- Rounding keeps the order of numbers. -/
theorem RoundsAt.mono (hv : RoundsAt v m e) (hw : RoundsAt w n k) (h : v ≤ w) :
    (m : Rat) * 2 ^ e ≤ n * 2 ^ k := by
  have hpos := two_zpow_pos e
  rcases lt_trichotomy e k with hlt | rfl | hgt
  · -- the greater number begins where the significands of the smaller one end
    have hleast := hv.least
    have hm : (m : Rat) ≤ 2 ^ (53 : Int) := by exact_mod_cast hv.le
    have hn : (2 : Rat) ^ (52 : Int) ≤ n := by
      exact_mod_cast hw.two_pow_le (hw.ge.resolve_left (by omega))
    calc (m : Rat) * 2 ^ e ≤ 2 ^ (53 : Int) * 2 ^ e := mul_le_mul_of_nonneg_right hm hpos.le
      _ = 2 ^ (53 + e) := (two_zpow_add ..).symm
      _ ≤ 2 ^ (52 + k) := two_zpow_le.2 (by omega)
      _ = 2 ^ (52 : Int) * 2 ^ k := two_zpow_add ..
      _ ≤ n * 2 ^ k := mul_le_mul_of_nonneg_right hn (two_zpow_pos k).le
  · have hle : (m : Rat) ≤ n := by
      exact_mod_cast hv.nearest.mono hw.nearest (div_le_div_of_nonneg_right h hpos.le)
    exact mul_le_mul_of_nonneg_right hle hpos.le
  · have hge := hv.ge.resolve_left (by have := hw.least; omega)
    have hlt := two_zpow_lt.1 (hge.trans_lt (h.trans_lt hw.lt))
    omega

/-- The exponent of a normal number is just that at which the significand fits. -/
theorem RoundsAt.normal (h : RoundsAt v n k) (hv : (2 : Rat) ^ (-1022 : Int) ≤ v) :
    (2 : Rat) ^ (k + 52) ≤ v := by
  rcases h.ge with rfl | hge
  · exact hv
  · exact hge

/-- A normal number is moved by at most half a unit in its last place. -/
theorem RoundsAt.error (h : RoundsAt v n k) (hv : (2 : Rat) ^ (-1022 : Int) ≤ v) :
    v - v / 2 ^ 53 ≤ n * 2 ^ k ∧ n * 2 ^ k ≤ v + v / 2 ^ 53 := by
  have hpos := two_zpow_pos k
  have hlow : ((n : Rat) - 1 / 2) * 2 ^ k ≤ v := (le_div_iff₀ hpos).1 h.nearest.low
  have hhigh : v ≤ ((n : Rat) + 1 / 2) * 2 ^ k := (div_le_iff₀ hpos).1 h.nearest.high
  have hunit : (2 : Rat) ^ k / 2 ≤ v / 2 ^ 53 := by
    have hnormal := h.normal hv
    rw [two_zpow_add] at hnormal
    norm_num at hnormal ⊢
    linarith
  constructor <;> linarith

/-- Rounding as a relation of numbers. -/
def RoundsTo (v w : Rat) : Prop := ∃ n k, RoundsAt v n k ∧ (n : Rat) * 2 ^ k = w

namespace RoundsTo

variable {v' w' : Rat}

theorem mono (hw : RoundsTo v w) (hw' : RoundsTo v' w') (h : v ≤ v') : w ≤ w' := by
  obtain ⟨n, k, hround, rfl⟩ := hw
  obtain ⟨n', k', hround', rfl⟩ := hw'
  exact hround.mono hround' h

theorem unique (hw : RoundsTo v w) (hw' : RoundsTo v w') : w = w' :=
  le_antisymm (hw.mono hw' le_rfl) (hw'.mono hw le_rfl)

theorem error (hw : RoundsTo v w) (hv : (2 : Rat) ^ (-1022 : Int) ≤ v) :
    v - v / 2 ^ 53 ≤ w ∧ w ≤ v + v / 2 ^ 53 := by
  obtain ⟨n, k, hround, rfl⟩ := hw
  exact hround.error hv

end RoundsTo

end Coverage.Rounding
