/-!
Text measured in characters: cutting at a separator, padding to a width and
trimming the end. A character is a Unicode code point everywhere.
-/
namespace Coverage.Text

/-- The pieces between the separators, the empty ones included: one more piece
than there are separators. -/
def pieces {α : Type} [DecidableEq α] (separator : α) : List α → List (List α)
  | [] => [[]]
  | c :: rest =>
      if c = separator then
        [] :: pieces separator rest
      else
        match pieces separator rest with
        | [] => [[c]]
        | piece :: more => (c :: piece) :: more

def splitOn (separator : Char) (text : String) : List String :=
  (pieces separator text.toList).map String.ofList

def spaces (count : Nat) : String := String.ofList (List.replicate count ' ')

def padRight (width : Nat) (text : String) : String := text ++ spaces (width - text.length)

def padLeft (width : Nat) (text : String) : String := spaces (width - text.length) ++ text

/-- The characters with the Unicode property `White_Space`. -/
def isBlank (c : Char) : Bool :=
  let n := c.toNat
  (0x9 ≤ n && n ≤ 0xd) || n == 0x20 || n == 0x85 || n == 0xa0 || n == 0x1680 ||
    (0x2000 ≤ n && n ≤ 0x200a) || n == 0x2028 || n == 0x2029 || n == 0x202f ||
    n == 0x205f || n == 0x3000

def dropLastWhile (p : Char → Bool) (text : List Char) : List Char :=
  (text.reverse.dropWhile p).reverse

def trimRight (text : String) : String := String.ofList (dropLastWhile isBlank text.toList)

@[simp]
theorem pieces_ne_nil {α : Type} [DecidableEq α] (separator : α) (text : List α) :
    pieces separator text ≠ [] := by
  cases text with
  | nil => simp [pieces]
  | cons c rest =>
      simp only [pieces]
      split
      · simp
      · split <;> simp

@[simp]
theorem length_spaces (count : Nat) : (spaces count).length = count := by
  simp [spaces]

@[simp]
theorem length_padRight (width : Nat) (text : String) :
    (padRight width text).length = max width text.length := by
  simp only [padRight, String.length_append, length_spaces]
  omega

@[simp]
theorem length_padLeft (width : Nat) (text : String) :
    (padLeft width text).length = max width text.length := by
  simp only [padLeft, String.length_append, length_spaces]
  omega

end Coverage.Text
