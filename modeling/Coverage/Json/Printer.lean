import Coverage.Json.Value

/-!
Writing a JSON value, on one line or over many. The two differ only in what
stands before an element and after a colon; empty arrays and objects are closed
at once.
-/
namespace Coverage.Json

structure Layout where
  /-- What precedes an element, or the end, at a depth. -/
  lineBreak : Nat → List Char
  afterColon : List Char

def compactLayout : Layout := ⟨fun _ => [], []⟩

/-- Every element on a line of its own, two blanks deeper than what holds it. -/
def prettyLayout : Layout := ⟨fun depth => '\n' :: List.replicate (2 * depth) ' ', [' ']⟩

def quoted (spelling : String) : List Char := '"' :: spelling.toList ++ ['"']

mutual

def write (l : Layout) (depth : Nat) : Json → List Char
  | .null => "null".toList
  | .bool true => "true".toList
  | .bool false => "false".toList
  | .number spelling => spelling.toList
  | .string spelling => quoted spelling
  | .array [] => ['[', ']']
  | .array (item :: items) =>
      '[' :: l.lineBreak (depth + 1) ++ write l (depth + 1) item ++
        (writeItems l (depth + 1) items ++ (l.lineBreak depth ++ [']']))
  | .object [] => ['\x7b', '\x7d']
  | .object ((name, value) :: members) =>
      '\x7b' :: l.lineBreak (depth + 1) ++ quoted name ++ ':' :: l.afterColon ++
        write l (depth + 1) value ++
        (writeMembers l (depth + 1) members ++ (l.lineBreak depth ++ ['\x7d']))

/-- The items that follow the first. -/
def writeItems (l : Layout) (depth : Nat) : List Json → List Char
  | [] => []
  | item :: items => ',' :: l.lineBreak depth ++ write l depth item ++ writeItems l depth items

/-- The members that follow the first. -/
def writeMembers (l : Layout) (depth : Nat) : List (String × Json) → List Char
  | [] => []
  | (name, value) :: members =>
      ',' :: l.lineBreak depth ++ quoted name ++ ':' :: l.afterColon ++ write l depth value ++
        writeMembers l depth members

end

def compact (value : Json) : String := String.ofList (write compactLayout 0 value)

def pretty (value : Json) : String := String.ofList (write prettyLayout 0 value)

end Coverage.Json
