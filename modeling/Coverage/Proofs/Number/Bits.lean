import Coverage.Number.Binary64
import Mathlib

/-!
The bits of doubles. What is read off them as an exact number is what the operations on
doubles read off them, and these bits are those of no other double.
-/
namespace Coverage.Binary64

open Float.Model Float.Model.UnpackedFloat

def isNegative : Sign → Bool
  | .negative => true
  | .positive => false

/-- An unpacked double as an exact number. -/
def ofUnpacked : UnpackedFloat → Binary64
  | .infinity s => .infinite (isNegative s)
  | .notANumber => .notANumber
  | .zero s => .finite (isNegative s) 0 (-1074)
  | .finite s m e _ => .finite (isNegative s) m e

variable (b : BitVec Format.binary64.numBits)

theorem toNat_unpackMantissa : (unpackMantissa b).toNat = b.toNat % twoTo 52 := by
  simp only [unpackMantissa, BitVec.toNat_cast, BitVec.extractLsb_toNat, Nat.shiftRight_zero]
  rfl

theorem toNat_unpackExponent : (unpackExponent b).toNat = b.toNat / twoTo 52 % twoTo 11 := by
  simp only [unpackExponent, BitVec.toNat_cast, BitVec.extractLsb_toNat, Nat.shiftRight_eq_div_pow]
  rfl

theorem toNat_unpackSign : (unpackSign b).toNat = b.toNat / twoTo 63 % 2 := by
  simp only [unpackSign, BitVec.toNat_cast, BitVec.extractLsb_toNat, Nat.shiftRight_eq_div_pow]
  rfl

theorem isNegative_unpackSign :
    isNegative (Sign.ofBitVec (unpackSign b)) = (b.toNat / twoTo 63 == 1) := by
  have hlt : b.toNat / twoTo 63 < 2 := (Nat.div_lt_iff_lt_mul (by decide)).2 b.isLt
  have hsign := toNat_unpackSign b
  rw [Nat.mod_eq_of_lt hlt] at hsign
  rw [← hsign, Sign.ofBitVec]
  split
  · rename_i hzero
    rw [hzero]
    rfl
  · rename_i hone
    have hne : (unpackSign b).toNat ≠ 0 := fun h => hone (BitVec.eq_of_toNat_eq h)
    have hval : (unpackSign b).toNat = 1 := by omega
    rw [hval]
    rfl

/-- The bits of a double are read as the operations on doubles read them. -/
theorem ofUnpacked_unpack : ofUnpacked (UnpackedFloat.unpack Format.binary64 b) =
    ofBits (UInt64.ofBitVec b) := by
  have hmantissa := toNat_unpackMantissa b
  have hexponent := toNat_unpackExponent b
  have hnegative := isNegative_unpackSign b
  have hall : unpackExponent b = -1#_ ↔ b.toNat / twoTo 52 % twoTo 11 = 2047 := by
    rw [← hexponent, ← BitVec.toNat_inj]
    rfl
  have hnone : unpackExponent b = 0#_ ↔ b.toNat / twoTo 52 % twoTo 11 = 0 := by
    rw [← hexponent, ← BitVec.toNat_inj]
    rfl
  have hzero : unpackMantissa b = 0#_ ↔ b.toNat % twoTo 52 = 0 := by
    rw [← hmantissa, ← BitVec.toNat_inj]
    rfl
  have himplicit : (1#1 ++ unpackMantissa b).toNat = b.toNat % twoTo 52 + twoTo 52 := by
    rw [BitVec.toNat_append, ← Nat.shiftLeft_add_eq_or_of_lt (unpackMantissa b).isLt, hmantissa,
      Nat.add_comm]
    rfl
  have hbits : (UInt64.ofBitVec b).toNat = b.toNat := rfl
  simp only [UnpackedFloat.unpack, ofBits, hbits, hall, hnone, hzero]
  split
  · split <;> simp only [ofUnpacked, hnegative]
  · split
    · split
      · rename_i hfraction
        simp only [ofUnpacked, hnegative, hfraction]
      · rename_i hfirst _
        simp only [ofUnpacked, hnegative, hmantissa, hexponent, hfirst]
        rfl
    · simp only [ofUnpacked, hnegative, himplicit, hexponent]
      congr 1

theorem ofFloat_eq (x : Float) : ofFloat x = ofUnpacked x.toModel.unpack :=
  (ofUnpacked_unpack _).symm

/-- The significand and the exponent of a finite double. -/
structure Canonical (m : Nat) (e : Int) : Prop where
  lt : m < 2 ^ 53
  least : -1074 ≤ e
  greatest : e ≤ 971
  normal : 2 ^ 52 ≤ m ∨ e = -1074

section Pack

variable {s : Sign} {m : Nat} {e : Int} (hm : 0 < m)

theorem pack_normal (hlow : 2 ^ 52 ≤ m) (h : Canonical m e) :
    UnpackedFloat.pack Format.binary64 (.finite s m e hm) =
      packComponents Format.binary64 s (BitVec.ofNat 11 (e + 1075).toNat) (BitVec.ofNat 52 m) := by
  have hlog : m.log2 = 52 := (Nat.log2_eq_iff hm.ne').2 ⟨hlow, h.lt⟩
  have hleast := h.least
  have hgreatest := h.greatest
  have hbiased : e + 1023 + 52 = e + 1075 := by omega
  change (if 2048 ≤ (e + 1023 + 52).toNat + 1 then _ else if m.log2 + 1 = 53 then _ else _) = _
  rw [if_neg (by omega), if_pos (by omega)]
  change packComponents Format.binary64 s (BitVec.ofNat 11 (e + 1023 + 52).toNat) _ = _
  rw [hbiased]

theorem pack_subnormal (hlow : m < 2 ^ 52) :
    UnpackedFloat.pack Format.binary64 (.finite s m (-1074) hm) =
      packComponents Format.binary64 s 0#11 (BitVec.ofNat 52 m) := by
  have hlog : m.log2 < 52 := (Nat.log2_lt hm.ne').2 hlow
  rw [UnpackedFloat.pack]
  exact (if_neg (by decide)).trans (if_neg (by change ¬ m.log2 + 1 = 53; omega))

end Pack

section Unpack

variable {s : Sign} {exponent : BitVec 11} {fraction : BitVec 52}

theorem unpack_normal (hall : exponent.toNat ≠ 2047) (hnone : exponent.toNat ≠ 0) :
    UnpackedFloat.unpack Format.binary64 (packComponents Format.binary64 s exponent fraction) =
      .finite s (2 ^ 52 + fraction.toNat) (exponent.toNat - 1075) (by omega) := by
  have hall' : exponent ≠ -1#11 := fun h => hall (by rw [h]; rfl)
  have hnone' : exponent ≠ 0#11 := fun h => hnone (by rw [h]; rfl)
  have himplicit : (1#1 ++ fraction).toNat = 2 ^ 52 + fraction.toNat := by
    rw [BitVec.toNat_append, ← Nat.shiftLeft_add_eq_or_of_lt fraction.isLt]
    rfl
  rw [UnpackedFloat.unpack]
  simp only [unpackMantissa_packComponents, unpackExponent_packComponents,
    unpackSign_packComponents, Sign.ofBitVec_toBitVec, himplicit]
  rw [if_neg hall', if_neg hnone']
  rfl

theorem unpack_subnormal (hsome : fraction.toNat ≠ 0) :
    UnpackedFloat.unpack Format.binary64 (packComponents Format.binary64 s 0#11 fraction) =
      .finite s fraction.toNat (-1074) (by omega) := by
  have hsome' : fraction ≠ 0#52 := fun h => hsome (by rw [h]; rfl)
  rw [UnpackedFloat.unpack]
  simp only [unpackMantissa_packComponents, unpackExponent_packComponents,
    unpackSign_packComponents, Sign.ofBitVec_toBitVec]
  rw [if_neg (by decide), if_pos trivial, dif_neg hsome']
  rfl

end Unpack

/-- What is packed is unpacked again, if it is a double. -/
theorem unpack_pack {s : Sign} {m : Nat} {e : Int} (hm : 0 < m) (h : Canonical m e) :
    UnpackedFloat.unpack Format.binary64 (UnpackedFloat.pack Format.binary64 (.finite s m e hm)) =
      .finite s m e hm := by
  have hlt := h.lt
  have hleast := h.least
  have hgreatest := h.greatest
  rcases Nat.lt_or_ge m (2 ^ 52) with hlow | hlow
  · obtain rfl : e = -1074 := h.normal.resolve_left (by omega)
    have hfraction : (BitVec.ofNat 52 m).toNat = m := by
      rw [BitVec.toNat_ofNat, Nat.mod_eq_of_lt hlow]
    rw [pack_subnormal hm hlow, unpack_subnormal (by omega)]
    simp only [hfraction]
  · have hexponent : (BitVec.ofNat 11 (e + 1075).toNat).toNat = (e + 1075).toNat := by
      rw [BitVec.toNat_ofNat, Nat.mod_eq_of_lt (by omega)]
    have hfraction : 2 ^ 52 + (BitVec.ofNat 52 m).toNat = m := by
      rw [BitVec.toNat_ofNat]
      omega
    rw [pack_normal hm hlow h, unpack_normal (by omega) (by omega)]
    simp only [hfraction, hexponent]
    congr 1
    omega

theorem canonical_ofBits {bits : UInt64} {negative : Bool} {m : Nat} {e : Int}
    (h : ofBits bits = .finite negative m e) : Canonical m e := by
  have hfraction : bits.toNat % twoTo 52 < 2 ^ 52 := Nat.mod_lt _ (by decide)
  have hbiased : bits.toNat / twoTo 52 % twoTo 11 < 2 ^ 11 := Nat.mod_lt _ (by decide)
  have himplicit : twoTo 52 = 2 ^ 52 := rfl
  simp only [ofBits] at h
  split at h
  · split at h <;> cases h
  · split at h <;> cases h
    · exact ⟨by omega, by omega, by omega, .inr rfl⟩
    · exact ⟨by omega, by omega, by omega, .inl (by omega)⟩

theorem isNegative_inj {s t : Sign} (h : isNegative s = isNegative t) : s = t := by
  cases s <;> cases t <;> first | rfl | cases h

/-- Unpacked doubles that are one exact number, with the sign of a zero, are the same. -/
theorem ofUnpacked_inj {u v : UnpackedFloat} {negative : Bool} {m : Nat} {e : Int}
    (hu : ofUnpacked u = .finite negative m e) (hv : ofUnpacked v = .finite negative m e) :
    u = v := by
  have hsame := hu.trans hv.symm
  cases u with
  | infinity | notANumber => cases hu
  | zero s =>
      cases v with
      | infinity | notANumber => cases hv
      | zero t =>
          injection hsame with hsign
          rw [isNegative_inj hsign]
      | finite t k x hk =>
          injection hsame with _ hzero
          omega
  | finite s n x hn =>
      cases v with
      | infinity | notANumber => cases hv
      | zero t =>
          injection hsame with _ hzero
          omega
      | finite t k y hk =>
          injection hsame with hsign hsignificand hexponent
          subst hsignificand hexponent
          rw [isNegative_inj hsign]

/-- Different finite doubles differ as exact numbers. -/
theorem ofFloat_inj {x y : Float} {negative : Bool} {m : Nat} {e : Int}
    (hx : ofFloat x = .finite negative m e) (hy : ofFloat y = .finite negative m e) : x = y := by
  rw [ofFloat_eq] at hx hy
  have hbits := (unpack_inj_of_valid x.toModel.valid y.toModel.valid).1 (ofUnpacked_inj hx hy)
  exact Float.toBits_inj.1 (UInt64.toBitVec_inj.1 hbits)

theorem unpack_of_ofFloat {x : Float} {m : Nat} {e : Int} (hm : 0 < m)
    (h : ofFloat x = .finite false m e) : x.toModel.unpack = .finite .positive m e hm := by
  rw [ofFloat_eq] at h
  exact ofUnpacked_inj h rfl

theorem ofFloat_pack {s : Sign} {m : Nat} {e : Int} (hm : 0 < m) (h : Canonical m e) :
    ofFloat (.ofModel (.pack (.finite s m e hm))) = .finite (isNegative s) m e := by
  rw [ofFloat_eq]
  exact congrArg ofUnpacked (unpack_pack hm h)

theorem ofFloat_pack_zero (s : Sign) :
    ofFloat (.ofModel (.pack (.zero s))) = .finite (isNegative s) 0 (-1074) := by
  cases s <;> rfl

theorem ofFloat_neg {x : Float} {m : Nat} {e : Int} (h : ofFloat x = .finite false m e) :
    ofFloat (-x) = .finite true m e := by
  have hneg : -x = .ofModel (.pack x.toModel.unpack.neg) := rfl
  have hcanonical := canonical_ofBits h
  rcases Nat.eq_zero_or_pos m with rfl | hm
  · obtain rfl : e = -1074 := hcanonical.normal.resolve_left (by omega)
    rw [ofFloat_eq] at h
    have hunpack : x.toModel.unpack = .zero .positive := ofUnpacked_inj h rfl
    rw [hneg, hunpack]
    exact ofFloat_pack_zero .negative
  · rw [hneg, unpack_of_ofFloat hm h]
    exact ofFloat_pack hm hcanonical

end Coverage.Binary64
