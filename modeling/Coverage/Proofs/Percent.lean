import Coverage.Percent
import Coverage.Proofs.Totals

/-!
Which percentage is printed of a share. Two roundings precede the cut: that of the quotient
and that of its hundredfold. They keep the order of shares, so at least that is printed which
is printed of the whole percentage below, and a table of these is all that has to be evaluated.
They move the hundredfold by less than `2 ^ (-45)`, so beyond the table only those shares are
printed as another percentage that are closer than this to it.
-/
namespace Coverage

open Float.Model Float.Model.UnpackedFloat
open Binary64 (Canonical)
open Rounding

namespace Rounding

variable {v : Rat} {m : Nat} {e : Int} {accuracy : Accuracy}

/-- A double is rounded to itself. -/
theorem roundsTo_self (h : Canonical m e) : RoundsTo (m * 2 ^ e) (m * 2 ^ e) := by
  have hpos := two_zpow_pos e
  have hlt : (m : Rat) < 2 ^ (53 : Int) := by exact_mod_cast h.lt
  refine ⟨m, e, ⟨?_, h.least, ?_, ?_⟩, rfl⟩
  · rw [mul_div_cancel_right₀ _ hpos.ne']
    exact ⟨by linarith, by linarith, fun htie => by rcases htie with htie | htie <;> linarith⟩
  · rw [two_zpow_add, mul_comm]
    exact mul_lt_mul_of_pos_left hlt hpos
  · refine h.normal.symm.imp_right fun hnormal => ?_
    have hle : (2 : Rat) ^ (52 : Int) ≤ m := by exact_mod_cast hnormal
    rw [two_zpow_add, mul_comm]
    exact mul_le_mul_of_nonneg_right hle hpos.le

theorem roundsTo_zero : RoundsTo 0 0 := by
  simpa using roundsTo_self (m := 0) ⟨by decide, le_rfl, by decide, .inr rfl⟩

theorem roundsTo_one : RoundsTo 1 1 := by
  have hone := roundsTo_self (m := 2 ^ 52) (e := -52)
    ⟨by decide, by decide, by decide, .inl le_rfl⟩
  norm_num at hone
  exact hone

theorem canonical_hundred : Canonical (100 * 2 ^ 46) (-46) :=
  ⟨by decide, by decide, by decide, .inl (by decide)⟩

/-- The result of an operation, if the exact one is normal and far from the end of the range. -/
theorem Approximates.exists_finite (h : Approximates v m e accuracy)
    (hlow : (2 : Rat) ^ (-1022 : Int) ≤ v) (hhigh : v < 2 ^ (1023 : Int)) (s : Sign) :
    ∃ (n : Nat) (k : Int) (hn : 0 < n),
      roundWithAccuracy Format.binary64 s m e accuracy = .finite s n k hn ∧ Canonical n k ∧
        RoundsTo v (n * 2 ^ k) := by
  obtain ⟨n, k, hround, heq⟩ := h.roundWithAccuracy_eq s
  have hn := hround.two_pow_le (hround.normal hlow)
  obtain ⟨n', k', hn', hfinite, hcanonical, hvalue, -⟩ :=
    hround.exists_finite (by omega) hhigh s
  exact ⟨n', k', hn', heq.trans hfinite, hcanonical, n, k, hround, hvalue.symm⟩

theorem two_zpow_least_le : (2 : Rat) ^ (-1022 : Int) ≤ 1 / 2 ^ 54 :=
  (two_zpow_le.2 (by decide : (-1022 : Int) ≤ -54)).trans (by norm_num)

end Rounding

/-- The hundredfold of a share, rounded after the division and again after the multiplication. -/
def Hundredfold (share hundredfold : Rat) : Prop :=
  ∃ quotient, RoundsTo share quotient ∧ RoundsTo (quotient * 100) hundredfold

namespace Hundredfold

variable {s s' y y' : Rat}

theorem mono (h : Hundredfold s y) (h' : Hundredfold s' y') (hle : s ≤ s') : y ≤ y' := by
  obtain ⟨x, hquotient, hproduct⟩ := h
  obtain ⟨x', hquotient', hproduct'⟩ := h'
  exact hproduct.mono hproduct' (by linarith [hquotient.mono hquotient' hle])

theorem zero : Hundredfold 0 0 := by
  refine ⟨0, roundsTo_zero, ?_⟩
  rw [zero_mul]
  exact roundsTo_zero

theorem one : Hundredfold 1 100 := by
  have hhundred := roundsTo_self canonical_hundred
  norm_num at hhundred
  exact ⟨1, roundsTo_one, by rwa [one_mul]⟩

theorem error (h : Hundredfold s y) (hlow : s = 0 ∨ 1 / 2 ^ 53 ≤ s) (hhigh : s ≤ 1) :
    100 * s - 1 / 2 ^ 45 < y ∧ y < 100 * s + 1 / 2 ^ 45 := by
  rcases hlow with rfl | hlow
  · obtain rfl : y = 0 := le_antisymm (h.mono zero le_rfl) (zero.mono h le_rfl)
    norm_num
  · have hleast := two_zpow_least_le
    obtain ⟨x, hquotient, hproduct⟩ := h
    obtain ⟨hx, hx'⟩ := hquotient.error (by linarith)
    obtain ⟨hy, hy'⟩ := hproduct.error (by linarith)
    constructor <;> linarith

end Hundredfold

theorem floorFinite_eq (m : Nat) (e : Int) :
    Binary64.floorFinite false m e = ⌊(m : Rat) * 2 ^ e⌋ := by
  simp only [Binary64.floorFinite, Bool.false_eq_true, if_false]
  split
  · rename_i he
    obtain ⟨n, rfl⟩ := Int.eq_ofNat_of_zero_le he
    have hvalue : (m : Rat) * 2 ^ (n : Int) = ((m * twoTo n : Int) : Rat) := by
      rw [Shortest.twoTo_eq, zpow_natCast]
      push_cast
      rfl
    rw [hvalue, Int.floor_intCast, Int.toNat_natCast]
  · rename_i he
    obtain ⟨n, hn⟩ := Int.eq_ofNat_of_zero_le (by omega : 0 ≤ -e)
    have hvalue : (m : Rat) * 2 ^ e = ((m : Int) : Rat) / (twoTo n : Nat) := by
      rw [Shortest.cast_twoTo, ← zpow_natCast, ← hn, zpow_neg, div_inv_eq_mul, Int.cast_natCast]
    rw [hvalue, Rat.floor_intCast_div_natCast, hn, Int.toNat_natCast,
      Int.fdiv_eq_ediv_of_nonneg _ (Int.natCast_nonneg _)]

theorem unpack_hundred : (100.0 : Float).toModel.unpack =
    .finite .positive (100 * 2 ^ 46) (-46) (by decide) :=
  Binary64.unpack_of_ofFloat (by decide) (by decide +kernel)

/-- The percentage of a normal double up to one is its rounded hundredfold, rounded down. -/
theorem percentValue_of_unpack {x : Float} {m : Nat} {e : Int} {hm : 0 < m}
    (hx : x.toModel.unpack = .finite .positive m e hm)
    (hlow : (2 : Rat) ^ (-1022 : Int) ≤ m * 2 ^ e * 100) (hhigh : (m : Rat) * 2 ^ e ≤ 1) :
    ∃ y, RoundsTo (m * 2 ^ e * 100) y ∧ percentValue x = ⌊y⌋ := by
  have hhundred : ((100 * 2 ^ 46 : Nat) : Rat) * 2 ^ (-46 : Int) = 100 := by norm_num
  have hproduct : Approximates (m * 2 ^ e * 100) (m * (100 * 2 ^ 46)) (e + -46) .exact := by
    rw [← hhundred]
    exact approximates_mul (.inl (by omega))
  have hrange : (m : Rat) * 2 ^ e * 100 < 2 ^ (1023 : Int) :=
    lt_of_lt_of_le (b := 2 ^ (7 : Int)) (by norm_num; linarith) (two_zpow_le.2 (by decide))
  obtain ⟨n, k, hn, heq, hcanonical, hround⟩ := hproduct.exists_finite hlow hrange .positive
  have hmul : UnpackedFloat.mul Format.binary64 (.finite .positive m e hm)
      (.finite .positive (100 * 2 ^ 46) (-46) (by decide)) = .finite .positive n k hn := heq
  have hfloat : Binary64.ofFloat (x * 100.0) = .finite false n k := by
    rw [mul_eq, hx, unpack_hundred, hmul]
    exact Binary64.ofFloat_pack hn hcanonical
  refine ⟨_, hround, ?_⟩
  -- far from where the conversion to an integer is cut off
  have hnonneg : (0 : Int) ≤ ⌊(n : Rat) * 2 ^ k⌋ := Int.floor_nonneg.2 (by positivity)
  have hbound : ⌊(n : Rat) * 2 ^ k⌋ ≤ 101 := by
    have herror := (hround.error hlow).2
    refine Int.floor_le_iff.2 ?_
    push_cast
    linarith
  have hmin : minPercent ≤ 0 := by decide
  have hmax : 101 ≤ maxPercent := by decide
  simp only [percentValue, hfloat, floorFinite_eq]
  omega

section Ratio

variable {part whole part' whole' : Nat}

theorem share_bounds (hpart : 0 < part) (hle : part ≤ whole) (hwhole : whole < 2 ^ 53) :
    (1 / 2 ^ 53 : Rat) ≤ part / whole ∧ (part / whole : Rat) ≤ 1 := by
  have hpos : (0 : Rat) < whole := by exact_mod_cast hpart.trans_le hle
  constructor
  · have hone : (1 : Rat) ≤ part := by exact_mod_cast hpart
    exact div_le_div₀ (by linarith) hone hpos (by exact_mod_cast hwhole.le)
  · rw [div_le_one hpos]
    exact_mod_cast hle

theorem toNat_toUInt64 {n : Nat} (h : n < 2 ^ 53) : n.toUInt64.toNat = n := by
  rw [Nat.toUInt64_eq, UInt64.toNat_ofNat_of_lt' (h.trans (by decide))]

/-- Numbers of fifty-three bits are doubles, so that only their quotient is rounded. -/
theorem unpack_ratio (hpart : 0 < part) (hlt : part < whole) (hwhole : whole < 2 ^ 53) :
    ∃ (m : Nat) (e : Int) (hm : 0 < m), RoundsTo (part / whole) (m * 2 ^ e) ∧
      (ratio part whole).toModel.unpack = .finite .positive m e hm := by
  have hpart' := toNat_toUInt64 (hlt.trans hwhole)
  have hwhole' := toNat_toUInt64 hwhole
  obtain ⟨m₁, e₁, hm₁, -, hvalue₁, hunpack₁⟩ :=
    unpack_toFloat_of_lt (n := part.toUInt64) (by omega) (by omega)
  obtain ⟨m₂, e₂, hm₂, -, hvalue₂, hunpack₂⟩ :=
    unpack_toFloat_of_lt (n := whole.toUInt64) (by omega) (by omega)
  have hquotient := approximates_div hm₁ e₁ hm₂ e₂
  rw [hvalue₁, hvalue₂, hpart', hwhole'] at hquotient
  obtain ⟨hlow, hhigh⟩ := share_bounds hpart hlt.le hwhole
  have hleast := two_zpow_least_le
  obtain ⟨n, k, hn, heq, hcanonical, hround⟩ := hquotient.exists_finite (by linarith)
    (hhigh.trans_lt (one_lt_zpow₀ (by norm_num) (by decide))) .positive
  refine ⟨n, k, hn, hround, ?_⟩
  have hdiv : UnpackedFloat.div Format.binary64 (.finite .positive m₁ e₁ hm₁)
      (.finite .positive m₂ e₂ hm₂) = .finite .positive n k hn := heq
  rw [ratio, if_neg (by omega), div_eq, hunpack₁, hunpack₂, hdiv]
  exact Binary64.unpack_pack hn hcanonical

theorem percentValue_one : percentValue 1.0 = 100 := by
  decide +kernel

theorem percentValue_zero_ratio (hpos : 0 < whole) (hwhole : whole < 2 ^ 53) :
    percentValue (ratio 0 whole) = 0 := by
  have hzero : ratio 0 whole = 0.0 := by
    rw [ratio, if_neg (by omega)]
    exact Binary64.ofFloat_inj (ofFloat_zero_div (by rwa [toNat_toUInt64 hwhole]))
      (by decide +kernel)
  rw [hzero]
  decide +kernel

theorem exists_hundredfold (hpos : 0 < whole) (hle : part ≤ whole) (hwhole : whole < 2 ^ 53) :
    ∃ y, Hundredfold (part / whole) y ∧ percentValue (ratio part whole) = ⌊y⌋ := by
  rcases Nat.eq_zero_or_pos part with rfl | hpart
  · refine ⟨0, ?_, ?_⟩
    · simpa using Hundredfold.zero
    · rw [percentValue_zero_ratio hpos hwhole, Int.floor_zero]
  rcases hle.lt_or_eq with hlt | rfl
  · obtain ⟨m, e, hm, hquotient, hunpack⟩ := unpack_ratio hpart hlt hwhole
    obtain ⟨hlow, hhigh⟩ := share_bounds hpart hle hwhole
    have hleast := two_zpow_least_le
    have herror := (hquotient.error (by linarith)).1
    obtain ⟨y, hproduct, hvalue⟩ :=
      percentValue_of_unpack hunpack (by linarith) (hquotient.mono roundsTo_one hhigh)
    exact ⟨y, ⟨_, hquotient, hproduct⟩, hvalue⟩
  · refine ⟨100, ?_, ?_⟩
    · rw [div_self (by exact_mod_cast hpos.ne')]
      exact Hundredfold.one
    · rw [ratio, if_pos (.inr le_rfl), percentValue_one]
      rfl

/-- A greater share is printed with at least the same percentage. -/
theorem percentValue_ratio_mono (hpos : 0 < whole) (hle : part ≤ whole) (hwhole : whole < 2 ^ 53)
    (hpos' : 0 < whole') (hle' : part' ≤ whole') (hwhole' : whole' < 2 ^ 53)
    (h : part * whole' ≤ part' * whole) :
    percentValue (ratio part whole) ≤ percentValue (ratio part' whole') := by
  obtain ⟨y, hy, hvalue⟩ := exists_hundredfold hpos hle hwhole
  obtain ⟨y', hy', hvalue'⟩ := exists_hundredfold hpos' hle' hwhole'
  have hshare : (part / whole : Rat) ≤ part' / whole' := by
    rw [div_le_div_iff₀ (by exact_mod_cast hpos) (by exact_mod_cast hpos')]
    exact_mod_cast h
  rw [hvalue, hvalue']
  exact Int.floor_le_floor (hy.mono hy' hshare)

end Ratio

/-- The whole percentages that are printed as the one below. -/
def slipping : List Nat := [29, 57, 58]

/-- What is printed of a whole percentage. -/
def printedWhole (percentage : Nat) : Nat :=
  if percentage ∈ slipping then percentage - 1 else percentage

theorem percentValue_hundredths : ∀ q : Fin 101, percentValue (ratio q 100) = printedWhole q := by
  decide +kernel

/-- Instead of the percentage one next to it is printed at most: the one below of shares that have
just reached theirs, and the one above of shares that are just about to reach it. -/
def PrintsNear (whole percentage rest printed : Nat) : Prop :=
  printed = percentage ∨
    (printed + 1 = percentage ∧ percentage ∈ slipping ∧ rest * 2 ^ 45 < whole) ∨
    (printed = percentage + 1 ∧ (whole - rest) * 2 ^ 45 < whole)

/-- What is printed of a share that comes to a percentage and a rest. -/
structure Prints (whole percentage rest printed : Nat) : Prop where
  near : PrintsNear whole percentage rest printed
  exact_share : rest = 0 → printed = printedWhole percentage
  short_whole : whole ≤ 2 ^ 45 → (printed = percentage ↔ ¬ (rest = 0 ∧ percentage ∈ slipping))

section PrintsNear

variable {whole percentage rest printed : Nat}

/-- The bounds say that the hundredfold has not been moved as far as `2 ^ (-45)`. -/
theorem printsNear_of_bounds (hrest : rest < whole) (hle : printedWhole percentage ≤ printed)
    (habove : (percentage * whole + rest) * 2 ^ 45 < (printed + 1) * whole * 2 ^ 45 + whole)
    (hbelow : printed * whole * 2 ^ 45 < (percentage * whole + rest) * 2 ^ 45 + whole) :
    PrintsNear whole percentage rest printed := by
  rcases lt_trichotomy printed percentage with hlt | heq | hgt
  · have hslipping : percentage ∈ slipping := by
      by_contra hnone
      rw [printedWhole, if_neg hnone] at hle
      omega
    rw [printedWhole, if_pos hslipping] at hle
    obtain rfl : percentage = printed + 1 := by omega
    rw [Nat.add_mul] at habove
    exact .inr (.inl ⟨rfl, hslipping, Nat.lt_of_add_lt_add_left habove⟩)
  · exact .inl heq
  · have hnext : printed * (whole * 2 ^ 45) < (percentage + 2) * (whole * 2 ^ 45) := by
      calc printed * (whole * 2 ^ 45) = printed * whole * 2 ^ 45 := (Nat.mul_assoc ..).symm
        _ < (percentage * whole + rest) * 2 ^ 45 + whole := hbelow
        _ ≤ (percentage * whole + whole) * 2 ^ 45 + whole * 2 ^ 45 := by
          gcongr
          exact Nat.le_mul_of_pos_right _ (by positivity)
        _ = (percentage + 2) * (whole * 2 ^ 45) := by ring
    have hlt := Nat.lt_of_mul_lt_mul_right hnext
    obtain rfl : printed = percentage + 1 := by omega
    have hgap : (percentage * whole + rest) * 2 ^ 45 + (whole - rest) * 2 ^ 45 <
        (percentage * whole + rest) * 2 ^ 45 + whole := by
      rw [← Nat.add_mul, Nat.add_assoc, Nat.add_sub_cancel' hrest.le, ← Nat.succ_mul]
      exact hbelow
    exact .inr (.inr ⟨rfl, Nat.lt_of_add_lt_add_left hgap⟩)

/-- A share of a short whole is a whole percentage or further away from it than `2 ^ (-45)`. -/
theorem PrintsNear.eq_iff (h : PrintsNear whole percentage rest printed) (hrest : rest < whole)
    (hexact : rest = 0 → printed = printedWhole percentage) (hwhole : whole ≤ 2 ^ 45) :
    printed = percentage ↔ ¬ (rest = 0 ∧ percentage ∈ slipping) := by
  constructor
  · rintro rfl ⟨hzero, hslipping⟩
    have hprinted := hexact hzero
    rw [printedWhole, if_pos hslipping] at hprinted
    obtain rfl : printed = 0 := by omega
    exact absurd hslipping (by decide)
  · intro hnone
    rcases h with heq | ⟨-, hslipping, hclose⟩ | ⟨-, hclose⟩
    · exact heq
    · have hzero : rest = 0 := by omega
      exact absurd ⟨hzero, hslipping⟩ hnone
    · have hgap : 1 * 2 ^ 45 ≤ (whole - rest) * 2 ^ 45 := Nat.mul_le_mul_right _ (by omega)
      omega

end PrintsNear

section Printed

variable {part whole printed : Nat} (hpos : 0 < whole) (hle : part ≤ whole)
  (hwhole : whole < 2 ^ 53) (hprinted : percentValue (ratio part whole) = printed)

include hpos hle

theorem percentage_le : 100 * part / whole ≤ 100 :=
  calc 100 * part / whole ≤ 100 * whole / whole :=
        Nat.div_le_div_right (Nat.mul_le_mul_left 100 hle)
    _ = 100 := Nat.mul_div_cancel _ hpos

include hwhole hprinted

theorem printedWhole_le : printedWhole (100 * part / whole) ≤ printed := by
  have hq := percentage_le hpos hle
  have hshare : 100 * part / whole * whole ≤ part * 100 := by
    rw [Nat.mul_comm part]
    exact Nat.div_mul_le_self _ _
  have hmono := percentValue_ratio_mono (by decide) hq (by decide) hpos hle hwhole hshare
  rw [percentValue_hundredths ⟨_, Nat.lt_succ_of_le hq⟩, hprinted] at hmono
  exact_mod_cast hmono

theorem printed_of_dvd (h : whole ∣ 100 * part) :
    printed = printedWhole (100 * part / whole) := by
  refine le_antisymm ?_ (printedWhole_le hpos hle hwhole hprinted)
  have hq := percentage_le hpos hle
  have hshare : part * 100 ≤ 100 * part / whole * whole := by
    rw [Nat.div_mul_cancel h, Nat.mul_comm]
  have hmono := percentValue_ratio_mono hpos hle hwhole (by decide) hq (by decide) hshare
  rw [percentValue_hundredths ⟨_, Nat.lt_succ_of_le hq⟩, hprinted] at hmono
  exact_mod_cast hmono

theorem printed_bounds : 100 * part * 2 ^ 45 < (printed + 1) * whole * 2 ^ 45 + whole ∧
    printed * whole * 2 ^ 45 < 100 * part * 2 ^ 45 + whole := by
  obtain ⟨y, hy, hvalue⟩ := exists_hundredfold hpos hle hwhole
  have hlow : (part / whole : Rat) = 0 ∨ 1 / 2 ^ 53 ≤ (part / whole : Rat) := by
    rcases Nat.eq_zero_or_pos part with rfl | hpart
    · exact .inl (by simp)
    · exact .inr (share_bounds hpart hle hwhole).1
  have hhigh : (part / whole : Rat) ≤ 1 :=
    div_le_one_of_le₀ (by exact_mod_cast hle) (Nat.cast_nonneg _)
  obtain ⟨herror, herror'⟩ := hy.error hlow hhigh
  obtain ⟨hfloor, hfloor'⟩ := Int.floor_eq_iff.1 (hvalue.symm.trans hprinted)
  have hwhole' : (0 : Rat) < whole := by exact_mod_cast hpos
  have hshare : (part / whole : Rat) * whole = part := div_mul_cancel₀ _ hwhole'.ne'
  have habove := mul_lt_mul_of_pos_right (herror.trans hfloor') hwhole'
  have hbelow := mul_lt_mul_of_pos_right (hfloor.trans_lt herror') hwhole'
  rw [sub_mul, mul_assoc, hshare] at habove
  rw [add_mul, mul_assoc, hshare] at hbelow
  constructor <;> rw [← Nat.cast_lt (α := Rat)] <;> push_cast at * <;> linarith

end Printed

/-- What is printed of a share is its percentage rounded down, except for whole percentages that
slip and, where the whole is above `2 ^ 45`, for shares that are right beside a whole one. -/
theorem percentText_ratio {part whole : Nat} (hpos : 0 < whole) (hle : part ≤ whole)
    (hwhole : whole < 2 ^ 53) : ∃ printed : Nat,
      percentText (ratio part whole) = toString printed ++ "%" ∧
        Prints whole (100 * part / whole) (100 * part % whole) printed := by
  have hzero := percentValue_ratio_mono hpos (Nat.zero_le whole) hwhole hpos hle hwhole
    (by rw [Nat.zero_mul]; exact Nat.zero_le _)
  rw [percentValue_zero_ratio hpos hwhole] at hzero
  obtain ⟨printed, hprinted⟩ := Int.eq_ofNat_of_zero_le hzero
  obtain ⟨habove, hbelow⟩ := printed_bounds hpos hle hwhole hprinted
  rw [← Nat.div_add_mod' (100 * part) whole] at habove hbelow
  have hrest := Nat.mod_lt (100 * part) hpos
  have hnear := printsNear_of_bounds hrest (printedWhole_le hpos hle hwhole hprinted) habove hbelow
  have hexact (hrest : 100 * part % whole = 0) :=
    printed_of_dvd hpos hle hwhole hprinted (Nat.dvd_of_mod_eq_zero hrest)
  refine ⟨printed, ?_, hnear, hexact, hnear.eq_iff hrest hexact⟩
  rw [percentText, hprinted]
  rfl

theorem percentText_ratio_twoThirds :
    0 < 3 ∧ 2 ≤ 3 ∧ 3 < 2 ^ 53 ∧ percentText (ratio 2 3) = toString 66 ++ "%" := by
  refine ⟨by decide, by decide, by decide, ?_⟩
  obtain ⟨printed, htext, hprints⟩ := percentText_ratio (by decide : 0 < 3) (by decide : 2 ≤ 3)
    (by decide)
  obtain rfl := (hprints.short_whole (by decide)).2 (by decide)
  exact htext

/-- One percentage that slips, and a share right below a whole percentage that gains it. -/
theorem percentText_ratio_beside :
    (percentText (ratio 29 100) = "28%" ∧ 100 * 29 / 100 = 29) ∧
      percentText (ratio 900719925474099 (2 ^ 53 - 1)) = "10%" ∧
        100 * 900719925474099 / (2 ^ 53 - 1) = 9 := by
  decide +kernel

end Coverage
