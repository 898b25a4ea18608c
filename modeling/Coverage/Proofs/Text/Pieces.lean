import Coverage.Text

/-!
Texts cut at a separator. What stands on the two sides of a separator is cut apart from each
other, so texts that are without it are got back from a text that they make up.
-/
namespace Coverage.Text

variable {α : Type} [DecidableEq α]

theorem pieces_append (separator : α) (a b : List α) :
    pieces separator (a ++ separator :: b) = pieces separator a ++ pieces separator b := by
  induction a with
  | nil => simp [pieces]
  | cons c rest ih =>
      simp only [List.cons_append, pieces, ih]
      split
      · rfl
      · cases hpieces : pieces separator rest with
        | nil => exact absurd hpieces (pieces_ne_nil separator rest)
        | cons piece more => rfl

theorem pieces_of_not_mem {separator : α} {text : List α} (h : separator ∉ text) :
    pieces separator text = [text] := by
  induction text with
  | nil => rfl
  | cons c rest ih =>
      rw [List.mem_cons, not_or] at h
      rw [pieces, if_neg (Ne.symm h.1), ih h.2]

theorem not_mem_of_mem_pieces {separator : α} {text piece : List α}
    (h : piece ∈ pieces separator text) : separator ∉ piece := by
  induction text generalizing piece with
  | nil => simp_all [pieces]
  | cons c rest ih =>
      rw [pieces] at h
      split at h
      · rcases List.mem_cons.1 h with rfl | h
        · simp
        · exact ih h
      · rename_i hc
        cases hpieces : pieces separator rest with
        | nil => exact absurd hpieces (pieces_ne_nil separator rest)
        | cons first more =>
            simp only [hpieces, List.mem_cons] at h
            rcases h with rfl | h
            · have hfirst := ih (hpieces ▸ List.mem_cons_self)
              simp [Ne.symm hc, hfirst]
            · exact ih (hpieces ▸ List.mem_cons_of_mem first h)

theorem splitOn_append (separator : Char) (a b : String) :
    splitOn separator (a ++ String.ofList [separator] ++ b) =
      splitOn separator a ++ splitOn separator b := by
  simp [splitOn, pieces_append]

theorem splitOn_of_not_mem {separator : Char} {text : String} (h : separator ∉ text.toList) :
    splitOn separator text = [text] := by
  simp [splitOn, pieces_of_not_mem h]

/-- Texts that each end in a separator are cut into these texts and an empty last piece. -/
theorem splitOn_join {separator : Char} {texts : List String}
    (h : ∀ text ∈ texts, separator ∉ text.toList) :
    splitOn separator (String.join (texts.map (· ++ String.ofList [separator]))) =
      texts ++ [""] := by
  induction texts with
  | nil => rfl
  | cons text rest ih =>
      rw [List.map_cons, String.join_cons, splitOn_append,
        splitOn_of_not_mem (h text List.mem_cons_self),
        ih fun other hother => h other (List.mem_cons_of_mem text hother)]
      rfl

end Coverage.Text
