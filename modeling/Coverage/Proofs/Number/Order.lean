import Coverage.Proofs.Number.Bits
import Mathlib

/-!
The total order of doubles against their comparison as numbers. The bits below the sign
ascend with the absolute value, so a double that is less than another one comes before it in
the total order.
-/
namespace Coverage.Binary64

open Float.Model Float.Model.UnpackedFloat

/-- The negative doubles come first, in descending absolute value. -/
def signed : Bool → Nat → Nat
  | true, weight => 2 ^ 63 - 1 - weight
  | false, weight => 2 ^ 63 + weight

/-- The place of a number in the total order. -/
def position : Binary64 → Nat
  | .finite negative m e => signed negative ((e + 1074).toNat * 2 ^ 52 + m)
  | .infinite negative => signed negative (2047 * 2 ^ 52)
  | .notANumber => 0

theorem rank_eq_signed (bits : UInt64) :
    rank bits = signed (bits.toNat / twoTo 63 == 1) (bits.toNat % 2 ^ 63) := by
  have hlt := bits.toNat_lt
  have h63 : twoTo 63 = 2 ^ 63 := rfl
  have h64 : twoTo 64 = 2 ^ 64 := rfl
  rw [rank, h63, h64]
  by_cases hsign : bits.toNat < 2 ^ 63
  · have hzero : (bits.toNat / 2 ^ 63 == 1) = false := beq_false_of_ne (by omega)
    rw [if_pos hsign, hzero, signed]
    omega
  · have hone : (bits.toNat / 2 ^ 63 == 1) = true := beq_iff_eq.2 (by omega)
    rw [if_neg hsign, hone, signed]
    omega

theorem rank_eq_position {bits : UInt64} (h : ofBits bits ≠ .notANumber) :
    rank bits = position (ofBits bits) := by
  have h52 : twoTo 52 = 2 ^ 52 := rfl
  have h11 : twoTo 11 = 2 ^ 11 := rfl
  rw [rank_eq_signed]
  unfold ofBits at h ⊢
  simp only [h52, h11] at h ⊢
  split at h
  · rename_i hall
    rw [if_pos hall]
    split at h
    · rename_i hzero
      rw [if_pos hzero, position]
      congr 1
      omega
    · exact absurd rfl h
  · rename_i hall
    rw [if_neg hall]
    split
    · rw [position]
      congr 1
      omega
    · rw [position]
      congr 1
      omega

/-- Of two absolute values the smaller one has the smaller bits. -/
theorem weight_lt {m n : Nat} {e k : Int} (hm : Canonical m e) (hn : Canonical n k)
    (h : e < k ∨ e = k ∧ m < n) :
    (e + 1074).toNat * 2 ^ 52 + m < (k + 1074).toNat * 2 ^ 52 + n := by
  have hlt := hm.lt
  have hleast := hm.least
  have hnormal := hn.normal
  omega

theorem weight_lt_infinite {m : Nat} {e : Int} (h : Canonical m e) :
    (e + 1074).toNat * 2 ^ 52 + m < 2047 * 2 ^ 52 := by
  have hlt := h.lt
  have hgreatest := h.greatest
  omega

/-- The finite parts of an unpacked double are those of a double. -/
def IsDouble (u : UnpackedFloat) : Prop :=
  ∀ s m e hm, u = .finite s m e hm → Canonical m e

theorem isDouble_unpack (x : Float) : IsDouble x.toModel.unpack := by
  intro s m e hm hu
  have hbits := ofFloat_eq x
  rw [hu] at hbits
  exact canonical_ofBits hbits

theorem lt_of_compare {m n : Nat} {e k : Int}
    (h : (compare e k).then (compare m n) = .lt) : e < k ∨ e = k ∧ m < n := by
  rcases Ordering.then_eq_lt.1 h with hlt | ⟨heq, hlt⟩
  · exact .inl (Int.compare_eq_lt.1 hlt)
  · exact .inr ⟨Int.compare_eq_eq.1 heq, Nat.compare_eq_lt.1 hlt⟩

theorem position_between {u : UnpackedFloat} (hu : IsDouble u) (hnumber : u = .notANumber → False)
    (hfinite : ∀ s, u = .infinity s → False) :
    signed true (2047 * 2 ^ 52) < position (ofUnpacked u) ∧
      position (ofUnpacked u) < signed false (2047 * 2 ^ 52) := by
  cases u with
  | infinity s => exact absurd rfl (hfinite s)
  | notANumber => exact absurd rfl hnumber
  | zero s => cases s <;> decide
  | finite s m e hm =>
      have hweight := weight_lt_infinite (hu s m e hm rfl)
      cases s <;> simp only [ofUnpacked, position, isNegative, signed] <;> omega

theorem position_lt {u v : UnpackedFloat} (hu : IsDouble u) (hv : IsDouble v)
    (h : u.compare v = some .lt) : position (ofUnpacked u) < position (ofUnpacked v) := by
  revert h
  fun_cases UnpackedFloat.compare u v
  all_goals intro h
  case case3 s t => cases s <;> cases t <;> first | cases h; done | decide
  case case5 hnumber hfinite => exact (position_between hv hnumber hfinite).1
  case case6 hnumber hfinite => exact (position_between hu hnumber hfinite).2
  case case9 m e hm t =>
    have hweight := weight_lt_infinite (hu _ m e hm rfl)
    cases t <;> simp only [ofUnpacked, position, isNegative, signed] <;> omega
  case case10 s n k hn =>
    have hzero : (-1074 + 1074 : Int).toNat * 2 ^ 52 + 0 = 0 := rfl
    cases s <;> simp only [ofUnpacked, position, isNegative, signed, hzero] <;> omega
  case case13 m e hm n k hn =>
    rw [Ordering.swap_then, Int.compare_swap, Nat.compare_swap] at h
    have hlt := weight_lt (hv _ n k hn rfl) (hu _ m e hm rfl) (lt_of_compare (Option.some.inj h))
    have hweight := weight_lt_infinite (hu _ m e hm rfl)
    simp only [ofUnpacked, position, isNegative, signed]
    omega
  case case14 m e hm n k hn =>
    simp only [ofUnpacked, position, isNegative, signed]
    omega
  case case16 m e hm n k hn =>
    have hlt := weight_lt (hu _ m e hm rfl) (hv _ n k hn rfl) (lt_of_compare (Option.some.inj h))
    simp only [ofUnpacked, position, isNegative, signed]
    omega
  all_goals cases h

theorem ne_notANumber_of_compare {u v : UnpackedFloat} {o : Ordering} (h : u.compare v = some o) :
    ofUnpacked u ≠ .notANumber ∧ ofUnpacked v ≠ .notANumber := by
  constructor
  · cases u with
    | notANumber => cases h
    | infinity | zero | finite => simp [ofUnpacked]
  · cases v with
    | notANumber =>
        cases u with
        | notANumber | infinity | zero | finite => cases h
    | infinity | zero | finite => simp [ofUnpacked]

/-- A double that is less stands further in front. -/
theorem rank_lt_of_lt {x y : Float} (h : x < y) : rank x.toBits < rank y.toBits := by
  have hcompare : x.toModel.unpack.compare y.toModel.unpack = some .lt := by
    simpa [LT.lt, Float.lt, Float.Model.lt, UnpackedFloat.lt] using h
  have hx : ofBits x.toBits = ofUnpacked x.toModel.unpack := ofFloat_eq x
  have hy : ofBits y.toBits = ofUnpacked y.toModel.unpack := ofFloat_eq y
  have hnumber := ne_notANumber_of_compare hcompare
  rw [rank_eq_position (hx ▸ hnumber.1), rank_eq_position (hy ▸ hnumber.2), hx, hy]
  exact position_lt (isDouble_unpack x) (isDouble_unpack y) hcompare

end Coverage.Binary64
