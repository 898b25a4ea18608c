import Coverage.Percent
import Coverage.Proofs.Number.Decimal
import Coverage.Text

/-!
Characters that do not occur in a text, from its parts up. Padding adds blanks only, and numbers
and percentages are written with digits, a minus and a percent sign.
-/
namespace Coverage.Text

variable {c : Char}

theorem not_mem_append {a b : String} (ha : c ∉ a.toList) (hb : c ∉ b.toList) :
    c ∉ (a ++ b).toList := by
  rw [String.toList_append, List.mem_append, not_or]
  exact ⟨ha, hb⟩

theorem not_mem_replicate {d : Char} (h : c ≠ d) (count : Nat) :
    c ∉ (String.ofList (List.replicate count d)).toList := by
  rw [String.toList_ofList, List.mem_replicate]
  exact fun hmem => h hmem.2

theorem not_mem_padLeft {text : String} (hc : c ≠ ' ') (h : c ∉ text.toList) (width : Nat) :
    c ∉ (padLeft width text).toList :=
  not_mem_append (not_mem_replicate hc _) h

theorem not_mem_padRight {text : String} (hc : c ≠ ' ') (h : c ∉ text.toList) (width : Nat) :
    c ∉ (padRight width text).toList :=
  not_mem_append h (not_mem_replicate hc _)

theorem not_mem_toString (h : Numeral.isDigit c = false) (n : Nat) : c ∉ (toString n).toList := by
  intro hmem
  rw [Nat.toString_eq_ofList_toDigits, String.toList_ofList] at hmem
  rw [Numeral.isDigit_of_mem_toDigits hmem] at h
  cases h

theorem not_mem_percentText (hdigit : Numeral.isDigit c = false) (hminus : c ∉ "-".toList)
    (hpercent : c ∉ "%".toList) (share : Float) : c ∉ (percentText share).toList := by
  refine not_mem_append ?_ hpercent
  cases percentValue share with
  | ofNat n => exact not_mem_toString hdigit n
  | negSucc n => exact not_mem_append hminus (not_mem_toString hdigit (n + 1))

end Coverage.Text
