import Coverage.Table.Layout

/-!
Terminal colours for tables. A cell is put between an escape code and the reset;
labels and plain values stay as they are.
-/
namespace Coverage.Style

def goodShare : Float := 0.8

def poorShare : Float := 0.5

def marked (code text : String) : String := "\x1b[" ++ code ++ "m" ++ text ++ "\x1b[0m"

/-- Bold, dim, and green, yellow or red by how much is covered. -/
def code? : Role → Option String
  | .header => some "1"
  | .separator => some "2"
  | .percentage fraction =>
      if goodShare ≤ fraction then some "32"
      else if fraction < poorShare then some "31"
      else some "33"
  | .label => none
  | .value => none

def coloured : Style := fun role text =>
  match code? role with
  | some code => marked code text
  | none => text

end Coverage.Style
