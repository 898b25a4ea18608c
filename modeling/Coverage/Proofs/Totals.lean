import Coverage.Proofs.Number.Error
import Coverage.Proofs.Number.Reading
import Coverage.Totals

/-!
Shares are finite. A number of sixty-four bits is rounded to a double far from both ends of
the range, and so is the quotient of two of them.
-/
namespace Coverage

namespace Rounding

open Float.Model Float.Model.UnpackedFloat
open Binary64 (Canonical)

variable {v : Rat} {n : Nat} {k : Int}

theorem RoundsAt.exponent_lt (h : RoundsAt v n k) {x : Int} (hx : -1022 < x)
    (hv : v < 2 ^ x) : k + 52 < x := by
  rcases h.ge with hk | hge
  · omega
  · exact two_zpow_lt.1 (hge.trans_lt hv)

theorem RoundsAt.canonical (h : RoundsAt v n k) (hn : n < 2 ^ 53) (hv : v < 2 ^ (1023 : Int)) :
    Canonical n k := by
  have hexponent := h.exponent_lt (by omega) hv
  refine ⟨hn, h.least, by omega, ?_⟩
  rcases h.ge with hk | hge
  · exact .inr hk
  · exact .inl (h.two_pow_le hge)

/-- The double that is rounded to has the rounded value, whether or not there is a carry. -/
theorem RoundsAt.exists_finite (h : RoundsAt v n k) (hn : 0 < n) (hv : v < 2 ^ (1023 : Int))
    (s : Sign) :
    ∃ (m : Nat) (e : Int) (hm : 0 < m), rounded s n k = .finite s m e hm ∧ Canonical m e ∧
      (m : Rat) * 2 ^ e = n * 2 ^ k ∧ k ≤ e ∧ e ≤ k + 1 := by
  have hleast := h.least
  have hexponent := h.exponent_lt (by omega) hv
  rcases h.le.lt_or_eq with hlt | rfl
  · refine ⟨n, k, hn, ?_, h.canonical hlt hv, rfl, le_rfl, by omega⟩
    rw [rounded, dif_neg hn.ne', if_neg hlt.ne]
  · refine ⟨2 ^ 52, k + 1, by decide, ?_, ⟨by decide, by omega, by omega, .inl le_rfl⟩, ?_,
      by omega, le_rfl⟩
    · rw [rounded, dif_neg (by decide), if_pos rfl]
    · rw [two_zpow_add]
      norm_num
      ring

/-- What is not close to the end of the range is rounded to a double. -/
theorem RoundsAt.isFinite (h : RoundsAt v n k) (hv : v < 2 ^ (1023 : Int)) (s : Sign) :
    (Binary64.ofFloat (.ofModel (.pack (rounded s n k)))).isFinite = true := by
  rcases Nat.eq_zero_or_pos n with rfl | hn
  · rw [rounded, dif_pos rfl, Binary64.ofFloat_pack_zero]
    rfl
  · obtain ⟨m, e, hm, hfinite, hcanonical, -⟩ := h.exists_finite hn hv s
    rw [hfinite, Binary64.ofFloat_pack hm hcanonical]
    rfl

theorem unpack_toFloat {w : UInt64} (hw : 0 < w.toNat) :
    ∃ (m : Nat) (e : Int) (hm : 0 < m), w.toFloat.toModel.unpack = .finite .positive m e hm ∧
      m < 2 ^ 53 ∧ -52 ≤ e ∧ e ≤ 12 := by
  obtain ⟨n, k, hround, hfloat⟩ := exists_roundsAt_toFloat hw
  have hone : (2 : Rat) ^ (0 : Int) ≤ w.toNat := by
    rw [zpow_zero]
    exact_mod_cast hw
  have hword : (w.toNat : Rat) < 2 ^ (64 : Int) := by exact_mod_cast w.toNat_lt
  have hlow := two_zpow_lt.1 (hone.trans_lt hround.lt)
  have hhigh := hround.exponent_lt (by omega) hword
  have hpos := hround.two_pow_le (hround.normal ((two_zpow_le.2 (by omega)).trans hone))
  obtain ⟨m, e, hm, hfinite, hcanonical, -, hle, hge⟩ :=
    hround.exists_finite (by omega) (hword.trans (two_zpow_lt.2 (by omega))) .positive
  refine ⟨m, e, hm, ?_, hcanonical.lt, by omega, by omega⟩
  rw [hfloat, hfinite]
  exact Binary64.unpack_pack hm hcanonical

/-- Nothing is no share of the whole. -/
theorem ofFloat_zero_div {w : UInt64} (h : 0 < w.toNat) :
    Binary64.ofFloat ((0 : UInt64).toFloat / w.toFloat) = .finite false 0 (-1074) := by
  obtain ⟨m, e, hm, hunpack, -⟩ := unpack_toFloat h
  have hzero : (0 : UInt64).toFloat.toModel.unpack = .zero .positive := by rfl
  have hdiv : UnpackedFloat.div Format.binary64 (.zero .positive) (.finite .positive m e hm) =
    .zero (.positive / .positive) := rfl
  rw [div_eq, hunpack, hzero, hdiv]
  exact Binary64.ofFloat_pack_zero _

theorem isFinite_div {w₁ w₂ : UInt64} (h : 0 < w₂.toNat) :
    (Binary64.ofFloat (w₁.toFloat / w₂.toFloat)).isFinite = true := by
  rcases Nat.eq_zero_or_pos w₁.toNat with hzero | hpos
  · obtain rfl : w₁ = 0 := UInt64.toNat_inj.1 hzero
    rw [ofFloat_zero_div h]
    rfl
  · obtain ⟨m₁, e₁, hm₁, hunpack₁, hlt₁, hlow₁, hhigh₁⟩ := unpack_toFloat hpos
    obtain ⟨m₂, e₂, hm₂, hunpack₂, hlt₂, hlow₂, hhigh₂⟩ := unpack_toFloat h
    obtain ⟨n, k, hround, hquotient⟩ :=
      (approximates_div hm₁ e₁ hm₂ e₂).roundWithAccuracy_eq (.positive / .positive)
    have hpos₁ := two_zpow_pos e₁
    have hpos₂ := two_zpow_pos e₂
    have hone : (1 : Rat) ≤ m₂ := by exact_mod_cast hm₂
    have hbound : ((m₁ * 2 ^ e₁) / (m₂ * 2 ^ e₂) : Rat) < 2 ^ (1023 : Int) := by
      rw [div_lt_iff₀ (by positivity)]
      calc (m₁ : Rat) * 2 ^ e₁ < 2 ^ (53 : Int) * 2 ^ e₁ := by
            rw [mul_lt_mul_iff_of_pos_right hpos₁]
            exact_mod_cast hlt₁
        _ = 2 ^ (53 + e₁ : Int) := (two_zpow_add ..).symm
        _ ≤ 2 ^ (1023 + e₂ : Int) := two_zpow_le.2 (by omega)
        _ = 2 ^ (1023 : Int) * 2 ^ e₂ := two_zpow_add ..
        _ ≤ 2 ^ (1023 : Int) * (m₂ * 2 ^ e₂) :=
            mul_le_mul_of_nonneg_left (le_mul_of_one_le_left hpos₂.le hone) (two_zpow_pos _).le
    have hfinite := hround.isFinite hbound (.positive / .positive)
    rw [← hquotient] at hfinite
    rw [div_eq, hunpack₁, hunpack₂]
    exact hfinite

end Rounding

theorem ratio_isFinite (part : Nat) {whole : Nat} (h : whole < 2 ^ 64) :
    (Binary64.ofFloat (ratio part whole)).isFinite = true := by
  rw [ratio]
  split
  · decide +kernel
  · refine Rounding.isFinite_div ?_
    rw [Nat.toUInt64_eq, UInt64.toNat_ofNat_of_lt' h]
    omega

end Coverage
