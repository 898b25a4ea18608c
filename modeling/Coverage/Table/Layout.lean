import Coverage.Table

/-!
Tables as aligned text. Every column is as wide as its widest cell; labels are
padded on the right and values on the left, with two blanks between columns. A
style may put marks around each padded cell, whose role it is told.
-/
namespace Coverage

inductive Role where
  | header
  | label
  | value
  | percentage (fraction : Float)
  | separator

abbrev Style := Role → String → String

def Style.plain : Style := fun _ text => text

namespace Table

def widest (texts : List String) : Nat := (texts.map String.length).foldl max 0

def labelWidth (t : Table) : Nat :=
  widest (t.headers.headD "" :: t.rows.map (·.label) ++ [t.footer.label])

/-- The width of a value column, counted from zero. -/
def valueWidth (t : Table) (column : Nat) (header : String) : Nat :=
  widest (header :: (t.rows ++ [t.footer]).map fun row => row.values[column]?.getD "")

def valueWidths (t : Table) : List Nat :=
  t.headers.tail.mapIdx t.valueWidth

def lineWidth (t : Table) : Nat :=
  t.labelWidth + ((t.valueWidths).map (· + 2)).foldl (· + ·) 0

def separatorLine (t : Table) (style : Style) : String :=
  style .separator (String.ofList (List.replicate t.lineWidth '-'))

/-- The cells of a line, each under its role, with two blanks before every value. -/
def line (style : Style) (first : String) (cells : List (Role × String)) : String :=
  cells.foldl (fun text cell => text ++ "  " ++ style cell.1 cell.2) first

def headerLine (t : Table) (style : Style) : String :=
  Text.trimRight <|
    line style (style .header (Text.padRight t.labelWidth (t.headers.headD ""))) <|
      (t.headers.tail.zip t.valueWidths).map fun cell => (.header, Text.padLeft cell.2 cell.1)

def role (row : Row) (column : Nat) : Role :=
  if column = 0 then .percentage row.lines
  else if column = 3 then .percentage row.blocks
  else .value

def rowLine (t : Table) (style : Style) (row : Row) : String :=
  line style (style .label (Text.padRight t.labelWidth row.label)) <|
    (row.values.zip t.valueWidths).mapIdx fun column cell =>
      (role row column, Text.padLeft cell.2 cell.1)

def lines (t : Table) (style : Style) : List String :=
  [t.headerLine style, t.separatorLine style] ++ t.rows.map (t.rowLine style) ++
    [t.separatorLine style, t.rowLine style t.footer]

def renderWith (t : Table) (style : Style) : String :=
  String.join ((t.lines style).map (· ++ "\n"))

def render (t : Table) : String := t.renderWith .plain

end Table

end Coverage
