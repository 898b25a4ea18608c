import Coverage.Proofs.Json.Record
import Coverage.Proofs.Number.Spelling

/-!
Doubles in JSON. A finite double is written as a numeral, the others as null. What the
numeral is read as is up to the reading: some double, as long as none is refused, and the
same one, where the reading rounds to the nearest.
-/
namespace Coverage

namespace Numeral.Reading

/-- What was printed of a finite double is read as a finite double. -/
def Admits (read : Reading) : Prop :=
  ∀ x, (Binary64.ofFloat x).isFinite = true →
    ∃ y, (Json.ofFloat x).float? read = some y ∧ (Binary64.ofFloat y).isFinite = true

/-- What was printed of a finite double is read as this double. -/
def IsExact (read : Reading) : Prop :=
  ∀ x, (Binary64.ofFloat x).isFinite = true → (Json.ofFloat x).float? read = some x

theorem IsExact.admits {read : Reading} (h : read.IsExact) : read.Admits :=
  fun x hx => ⟨x, h x hx, hx⟩

theorem isExact_toFloat? : IsExact toFloat? := by
  intro x hx
  obtain ⟨text, n, htext, hread, hfloat⟩ := Shortest.text?_reads hx
  rw [Json.ofFloat, htext]
  exact (congrArg (·.bind toFloat?) hread).trans hfloat

end Numeral.Reading

namespace Json

theorem endsUnquoted_of_isNumeralChar {c : Char} (h : Numeral.isNumeralChar c = true) :
    Token.endsUnquoted c = false := by
  rcases Bool.or_eq_true_iff.1 h with hdigit | hmark
  · exact endsUnquoted_of_isDigit hdigit
  · have hall : ∀ d ∈ ['+', '-', '.', 'e', 'E'], Token.endsUnquoted d = false :=
      unended_of_any rfl
    exact hall c (List.contains_iff_mem.1 hmark)

theorem IsNumeral.of_read {spelling : String} {n : Numeral}
    (h : Numeral.read spelling.toList = some n) : IsNumeral spelling where
  unended c hc := endsUnquoted_of_isNumeralChar (Numeral.isNumeralChar_of_read h c hc)
  reads := Option.isSome_iff_exists.2 ⟨n, h⟩


theorem wellSpelled_ofFloat (x : Float) : (ofFloat x).WellSpelled := by
  by_cases h : (Binary64.ofFloat x).isFinite = true
  · obtain ⟨text, n, htext, hread, -⟩ := Shortest.text?_reads h
    rw [ofFloat, htext]
    exact IsNumeral.of_read hread
  · have hnone : Shortest.text? x = none := by
      cases hx : Binary64.ofFloat x <;> simp [hx, Binary64.isFinite, Shortest.text?] at h ⊢
    rw [ofFloat, hnone]
    trivial

end Json

end Coverage
