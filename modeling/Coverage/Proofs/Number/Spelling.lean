import Coverage.Proofs.Number.Decimal
import Coverage.Proofs.Number.Reading

/-!
Decimals as they are written, with or without an exponent. Every layout spells a numeral of
the decimal's value; hence a finite double is read back from its text.
-/
namespace Coverage.Numeral

section Parts

variable {whole fraction rest tail : List Char} {power : Int}

theorem takeWhile_digits (h : ∀ c ∈ whole, isDigit c = true) (hrest : rest.takeWhile isDigit = []) :
    (whole ++ rest).takeWhile isDigit = whole ∧ (whole ++ rest).dropWhile isDigit = rest := by
  have htake : (whole ++ rest).takeWhile isDigit = whole := by
    rw [List.takeWhile_append_of_pos h, hrest, List.append_nil]
  refine ⟨htake, ?_⟩
  have hsplit := List.takeWhile_append_dropWhile (p := isDigit) (l := whole ++ rest)
  rw [htake] at hsplit
  exact List.append_cancel_left hsplit

/-- A numeral's whole part: digits without a leading zero. -/
structure IsWholePart (digits : List Char) : Prop where
  ne_nil : digits ≠ []
  isDigit : ∀ c ∈ digits, Numeral.isDigit c = true
  noLeadingZero : hasLeadingZero digits = false

/-- The text is a numeral of the given value, apart from its sign. -/
def Spells (text : List Char) (v : Rat) : Prop :=
  ∀ negative, ∃ n, readUnsigned negative text = some n ∧ n.negative = negative ∧
    n.magnitudeValue = v

theorem spells_of_parts (h : IsWholePart whole) (hrest : rest.takeWhile isDigit = [])
    (hfraction : readFraction rest = some (fraction, tail)) (hpower : readPower tail = some power) :
    Spells (whole ++ rest)
      (natOfDigits (whole ++ fraction) * 10 ^ (power - fraction.length)) := by
  intro negative
  obtain ⟨htake, hdrop⟩ := takeWhile_digits h.isDigit hrest
  have hne : whole.isEmpty = false := by simpa using h.ne_nil
  refine ⟨⟨negative, natOfDigits (whole ++ fraction), power - fraction.length, rest.isEmpty⟩,
    ?_, rfl, rfl⟩
  simp [readUnsigned, htake, hdrop, hne, h.noLeadingZero, hfraction, hpower]

/-- The sign stands in front of the digits. -/
theorem Spells.read {text : List Char} {v : Rat} (h : Spells text v) (negative : Bool) :
    ∃ n, read (if negative then '-' :: text else text) = some n ∧ n.negative = negative ∧
      n.magnitudeValue = v := by
  obtain ⟨n, hread, hsign, hvalue⟩ := h negative
  refine ⟨n, ?_, hsign, hvalue⟩
  cases negative with
  | true => exact hread
  | false =>
      cases text with
      | nil => exact hread
      | cons c rest =>
          have hc : c ≠ '-' := by
            rintro rfl
            cases hread
          simpa [Numeral.read, hc] using hread

theorem readFraction_point (hne : fraction ≠ []) (h : ∀ c ∈ fraction, isDigit c = true)
    (hrest : rest.takeWhile isDigit = []) :
    readFraction ('.' :: (fraction ++ rest)) = some (fraction, rest) := by
  obtain ⟨htake, hdrop⟩ := takeWhile_digits h hrest
  have hne' : fraction.isEmpty = false := by simpa using hne
  simp [readFraction, htake, hdrop, hne']

theorem readPowerDigits_toDigits (negative : Bool) (n : Nat) :
    readPowerDigits negative (Nat.toDigits 10 n) = some (if negative then -(n : Int) else n) := by
  have hall : (Nat.toDigits 10 n).all isDigit = true :=
    List.all_eq_true.2 fun c => isDigit_of_mem_toDigits
  simp [readPowerDigits, hall]

theorem readPower_write (power : Int) :
    readPower ('e' :: (if power < 0 then '-' else '+') :: Nat.toDigits 10 power.natAbs) =
      some power := by
  rcases lt_or_ge power 0 with hsign | hsign
  · rw [if_pos hsign]
    have hpower : (-(power.natAbs : Int)) = power := by omega
    exact (readPowerDigits_toDigits true power.natAbs).trans (congrArg some hpower)
  · rw [if_neg (by omega)]
    have hpower : (power.natAbs : Int) = power := by omega
    exact (readPowerDigits_toDigits false power.natAbs).trans (congrArg some hpower)

end Parts

/-- The characters of numerals. -/
def isNumeralChar (c : Char) : Bool := isDigit c || ['+', '-', '.', 'e', 'E'].contains c

section Characters

variable {text : List Char}

theorem isNumeralChar_of_isDigit {c : Char} (h : isDigit c = true) : isNumeralChar c = true := by
  rw [isNumeralChar, h, Bool.true_or]

theorem isNumeralChar_of_readPowerDigits {negative : Bool} {power : Int}
    (h : readPowerDigits negative text = some power) : ∀ c ∈ text, isNumeralChar c = true := by
  obtain ⟨⟨-, hall⟩, -⟩ : (text ≠ [] ∧ ∀ c ∈ text, isDigit c = true) ∧ _ := by
    simpa [readPowerDigits] using h
  exact fun c hc => isNumeralChar_of_isDigit (hall c hc)

theorem isNumeralChar_of_readPower {power : Int} (h : readPower text = some power) :
    ∀ c ∈ text, isNumeralChar c = true := by
  cases text with
  | nil => simp
  | cons c rest =>
      simp only [readPower.eq_def] at h
      split at h
      · rename_i hmark
        refine List.forall_mem_cons.2 ⟨by rcases hmark with rfl | rfl <;> rfl, ?_⟩
        split at h
        · exact List.forall_mem_cons.2 ⟨rfl, isNumeralChar_of_readPowerDigits h⟩
        · exact List.forall_mem_cons.2 ⟨rfl, isNumeralChar_of_readPowerDigits h⟩
        · exact isNumeralChar_of_readPowerDigits h
      · cases h

theorem isNumeralChar_of_dropWhile (h : ∀ c ∈ text.dropWhile isDigit, isNumeralChar c = true) :
    ∀ c ∈ text, isNumeralChar c = true := by
  intro c hc
  rw [← List.takeWhile_append_dropWhile (p := isDigit) (l := text)] at hc
  rcases List.mem_append.1 hc with hdigit | hrest
  · exact isNumeralChar_of_isDigit (List.mem_takeWhile_imp hdigit)
  · exact h c hrest

theorem isNumeralChar_of_readFraction {fraction tail : List Char}
    (h : readFraction text = some (fraction, tail)) (htail : ∀ c ∈ tail, isNumeralChar c = true) :
    ∀ c ∈ text, isNumeralChar c = true := by
  unfold readFraction at h
  split at h
  · simp only at h
    split at h
    · cases h
    · cases h
      exact List.forall_mem_cons.2 ⟨rfl, isNumeralChar_of_dropWhile htail⟩
  · cases h
    exact htail

theorem isNumeralChar_of_readUnsigned {negative : Bool} {n : Numeral}
    (h : readUnsigned negative text = some n) : ∀ c ∈ text, isNumeralChar c = true := by
  rw [readUnsigned] at h
  split at h
  · cases h
  · simp only [Option.bind_eq_bind, Option.bind_eq_some_iff] at h
    obtain ⟨⟨fraction, tail⟩, hfraction, power, hpower, -⟩ := h
    exact isNumeralChar_of_dropWhile
      (isNumeralChar_of_readFraction hfraction (isNumeralChar_of_readPower hpower))

theorem isNumeralChar_of_read {n : Numeral} (h : read text = some n) :
    ∀ c ∈ text, isNumeralChar c = true := by
  unfold read at h
  split at h
  · exact List.forall_mem_cons.2 ⟨rfl, isNumeralChar_of_readUnsigned h⟩
  · exact isNumeralChar_of_readUnsigned h

end Characters

end Coverage.Numeral

namespace Coverage.Shortest

open Numeral

theorem natOfDigits_append_zeros (digits : List Char) (count : Nat) :
    natOfDigits (digits ++ List.replicate count '0') = natOfDigits digits * 10 ^ count := by
  rw [natOfDigits_eq, Nat.ofDigitChars_append, Nat.ofDigitChars_replicate_zero, Nat.mul_comm]
  rfl

theorem natOfDigits_zeros_append (digits : List Char) (count : Nat) :
    natOfDigits (List.replicate count '0' ++ digits) = natOfDigits digits := by
  rw [natOfDigits_eq, Nat.ofDigitChars_append, Nat.ofDigitChars_replicate_zero, Nat.mul_zero]
  rfl

theorem isWholePart_of_head {digits : List Char} (hne : digits ≠ [])
    (hdigit : ∀ c ∈ digits, isDigit c = true) (hhead : digits.head? ≠ some '0') :
    IsWholePart digits := by
  refine ⟨hne, hdigit, ?_⟩
  unfold hasLeadingZero
  split
  · exact absurd rfl hhead
  · rfl

theorem isWholePart_singleton {c : Char} (h : isDigit c = true) : IsWholePart [c] :=
  ⟨by simp, by simpa using h, by simp [hasLeadingZero]⟩

theorem isDigit_of_mem_replicate {count : Nat} {c : Char} (h : c ∈ List.replicate count '0') :
    isDigit c = true := by
  rw [(List.mem_replicate.1 h).2]
  rfl

/-- A whole number is written with its zeros and `.0`. -/
theorem spells_positional_whole {n : Nat} (hn : 0 < n) (zeros : Nat) :
    Spells (positional (Nat.toDigits 10 n) zeros) (n * 10 ^ (zeros : Int)) := by
  have hwhole : IsWholePart (Nat.toDigits 10 n ++ List.replicate zeros '0') := by
    refine isWholePart_of_head (by simp) (fun c hc => ?_) ?_
    · exact (List.mem_append.1 hc).elim isDigit_of_mem_toDigits isDigit_of_mem_replicate
    · rw [List.head?_append_of_ne_nil _ Nat.toDigits_ne_nil]
      exact head?_toDigits_ne_zero hn.ne'
  have hpoint : readFraction ['.', '0'] = some (['0'], []) := rfl
  have hspells := spells_of_parts hwhole (by rfl) hpoint rfl
  have hvalue : natOfDigits ((Nat.toDigits 10 n ++ List.replicate zeros '0') ++ ['0']) =
      n * 10 ^ (zeros + 1) := by
    rw [List.append_assoc, ← List.replicate_succ', natOfDigits_append_zeros, natOfDigits_toDigits]
  have htext : positional (Nat.toDigits 10 n) zeros =
      Nat.toDigits 10 n ++ List.replicate zeros '0' ++ ['.', '0'] := if_pos (by omega)
  have htens : ((n * 10 ^ (zeros + 1) : Nat) : Rat) * 10 ^ (0 - (['0'].length : Int)) =
      n * 10 ^ (zeros : Int) := by
    push_cast
    rw [zpow_natCast, pow_succ]
    norm_num
    ring
  rwa [hvalue, htens, ← htext] at hspells

/-- The digits with as many zeros in front as leave one digit before the point. -/
def padded (n places : Nat) : List Char :=
  List.replicate (places + 1 - (Nat.toDigits 10 n).length) '0' ++ Nat.toDigits 10 n

section Padded

variable (n places : Nat)

theorem length_padded : (padded n places).length = max (places + 1) (Nat.toDigits 10 n).length := by
  rw [padded, List.length_append, List.length_replicate]
  omega

theorem natOfDigits_padded : natOfDigits (padded n places) = n := by
  rw [padded, natOfDigits_zeros_append, natOfDigits_toDigits]

variable {n places}

theorem isDigit_of_mem_padded {c : Char} (h : c ∈ padded n places) : isDigit c = true :=
  (List.mem_append.1 h).elim isDigit_of_mem_replicate isDigit_of_mem_toDigits

/-- Before the point stand digits of the number, or one zero. -/
theorem isWholePart_take_padded (hn : 0 < n) (places : Nat) :
    IsWholePart ((padded n places).take ((padded n places).length - places)) := by
  have hlength := length_padded n places
  have hdigit : ∀ c ∈ (padded n places).take ((padded n places).length - places),
      isDigit c = true := fun c hc => isDigit_of_mem_padded (List.mem_of_mem_take hc)
  have htake : ((padded n places).take ((padded n places).length - places)).length =
      (padded n places).length - places := by
    rw [List.length_take]
    omega
  rcases Nat.lt_or_ge places (Nat.toDigits 10 n).length with hlong | hshort
  · have heq : padded n places = Nat.toDigits 10 n := by
      rw [padded, Nat.sub_eq_zero_of_le hlong]
      rfl
    refine isWholePart_of_head (List.ne_nil_of_length_pos (by omega)) hdigit ?_
    rw [List.head?_take, if_neg (by omega), heq]
    exact head?_toDigits_ne_zero hn.ne'
  · obtain ⟨c, hc⟩ := List.length_eq_one_iff.1 (htake.trans (by omega))
    rw [hc] at hdigit ⊢
    exact isWholePart_singleton (hdigit c List.mem_cons_self)

end Padded

/-- A number with places after the point has at least one digit before it. -/
theorem spells_positional_fraction {n : Nat} (hn : 0 < n) {places : Nat} (hplaces : 0 < places) :
    Spells (positional (Nat.toDigits 10 n) (-places)) (n * 10 ^ (-places : Int)) := by
  have hlength := length_padded n places
  have htext : positional (Nat.toDigits 10 n) (-places) =
      (padded n places).take ((padded n places).length - places) ++
        '.' :: (padded n places).drop ((padded n places).length - places) := by
    rw [positional, if_neg (by omega), neg_neg, Int.toNat_natCast]
    rfl
  have hfraction : ((padded n places).drop ((padded n places).length - places)).length =
      places := by
    rw [List.length_drop]
    omega
  have hpoint : readFraction
      ('.' :: ((padded n places).drop ((padded n places).length - places) ++ [])) =
      some ((padded n places).drop ((padded n places).length - places), []) :=
    readFraction_point (List.ne_nil_of_length_pos (by omega))
      (fun c hc => isDigit_of_mem_padded (List.mem_of_mem_drop hc)) rfl
  have hspells := spells_of_parts (isWholePart_take_padded hn places) rfl hpoint rfl
  rwa [List.take_append_drop, natOfDigits_padded, hfraction, zero_sub, List.append_nil,
    ← htext] at hspells

/-- One digit, or a point after the first of several; then the power of that digit. -/
theorem spells_scientific {n : Nat} (e : Int) :
    Spells (scientific (Nat.toDigits 10 n) (e + (Nat.toDigits 10 n).length - 1)) (n * 10 ^ e) := by
  have hvalue := natOfDigits_toDigits n
  have hdigit : ∀ c ∈ Nat.toDigits 10 n, isDigit c = true := fun c => isDigit_of_mem_toDigits
  have hne : Nat.toDigits 10 n ≠ [] := Nat.toDigits_ne_nil
  generalize Nat.toDigits 10 n = digits at *
  generalize hpower : e + (digits.length : Int) - 1 = power
  have hwrite := readPower_write power
  match digits with
  | [] => exact absurd rfl hne
  | [c] =>
      have hpoint : ∀ tail, readFraction ('e' :: tail) = some ([], 'e' :: tail) := fun _ => rfl
      have hspells := spells_of_parts (isWholePart_singleton (hdigit c List.mem_cons_self)) (by rfl)
        (hpoint _) hwrite
      have hexponent : power - (([] : List Char).length : Nat) = e := by
        rw [← hpower]
        simp
      rw [List.append_nil, hvalue, hexponent] at hspells
      exact hspells
  | first :: c :: more =>
      have hpoint : ∀ tail, readFraction ('.' :: (c :: more ++ 'e' :: tail)) =
          some (c :: more, 'e' :: tail) := fun tail =>
        readFraction_point (by simp) (fun c hc => hdigit c (List.mem_cons_of_mem first hc)) rfl
      have hspells := spells_of_parts (isWholePart_singleton (hdigit first List.mem_cons_self))
        (by rfl) (hpoint _) hwrite
      have hexponent : power - ((c :: more).length : Nat) = e := by
        rw [← hpower]
        simp only [List.length_cons]
        omega
      have hdigits : natOfDigits ([first] ++ c :: more) = n := hvalue
      rw [hdigits, hexponent] at hspells
      exact hspells

theorem spells_write (l : Layout) {d : Decimal} (h : 0 < d.digits) :
    Spells (write l d) d.value := by
  obtain ⟨n, e⟩ := d
  simp only [write]
  split
  · rcases lt_or_ge e 0 with he | he
    · obtain ⟨places, rfl⟩ : ∃ places : Nat, e = -places := ⟨e.natAbs, by omega⟩
      exact spells_positional_fraction h (by omega)
    · obtain ⟨zeros, rfl⟩ := Int.eq_ofNat_of_zero_le he
      exact spells_positional_whole h zeros
  · exact spells_scientific e

theorem digits_pos_of_holds {d : Decimal} {m : Nat} {e : Int} (hcanonical : Binary64.Canonical m e)
    (hm : 0 < m) (h : (interval m e).Holds d.value) : 0 < d.digits := by
  refine Nat.pos_of_ne_zero fun hzero => ?_
  have hpos := lt_of_lt_of_le (Rounding.two_zpow_pos (-1075))
    (Rounding.bounds_of_holds hcanonical hm h).1
  rw [Decimal.value, hzero, Nat.cast_zero, zero_mul] at hpos
  exact lt_irrefl _ hpos

theorem text?_eq {x : Float} {negative : Bool} {m : Nat} {e : Int}
    (hx : Binary64.ofFloat x = .finite negative m e) {text : List Char}
    (htext : (if m = 0 then ['0', '.', '0'] else write layout (decimal m e)) = text) :
    text? x = some (String.ofList (if negative then '-' :: text else text)) := by
  rw [text?, hx, ← htext]

/-- The text of a finite double is a numeral, and is read as the double. -/
theorem text?_reads {x : Float} (h : (Binary64.ofFloat x).isFinite = true) :
    ∃ text n, text? x = some text ∧ Numeral.read text.toList = some n ∧ n.toFloat? = some x := by
  cases hx : Binary64.ofFloat x with
  | infinite | notANumber => simp [hx, Binary64.isFinite] at h
  | finite negative m e =>
      rcases Nat.eq_zero_or_pos m with rfl | hm
      · have hzero : Spells ['0', '.', '0'] 0 := fun negative => ⟨⟨negative, 0, -1, false⟩, rfl, rfl,
          by simp [magnitudeValue]⟩
        obtain ⟨n, hread, hsign, hvalue⟩ := hzero.read negative
        have hdigits : n.digits = 0 := by
          simpa [magnitudeValue, (ten_zpow_pos n.exponent).ne'] using hvalue
        subst hsign
        refine ⟨_, n, text?_eq hx rfl, ?_, toFloat?_of_zero hdigits hx⟩
        rw [String.toList_ofList]
        exact hread
      · have hcanonical := Binary64.canonical_ofBits hx
        have hholds := decimal_holds hcanonical hm
        obtain ⟨n, hread, hsign, hvalue⟩ :=
          (spells_write layout (digits_pos_of_holds hcanonical hm hholds)).read negative
        rw [← hvalue] at hholds
        subst hsign
        refine ⟨_, n, text?_eq hx (if_neg hm.ne'), ?_, toFloat?_of_holds hm hx hholds⟩
        rw [String.toList_ofList]
        exact hread

end Coverage.Shortest
