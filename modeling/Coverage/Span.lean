/-!
Source spans and the nodes they belong to. Lines and columns count from zero,
columns in characters.
-/
namespace Coverage

structure Span where
  startLine : UInt64
  startColumn : UInt64
  endLine : UInt64
  endColumn : UInt64
deriving DecidableEq, Repr, Inhabited

/-- The span reaches past the line it starts on. -/
def Span.isMultiLine (s : Span) : Bool := s.startLine < s.endLine

/-- The syntactic construct around a node, with its label. -/
structure Enclosure where
  span : Span
  label : String
deriving DecidableEq, Repr, Inhabited

/-- A piece of code whose execution is recorded; without a parent it stands
directly at file level. -/
structure Node where
  id : UInt64
  span : Span
  parent : Option Enclosure
deriving DecidableEq, Repr, Inhabited

end Coverage
