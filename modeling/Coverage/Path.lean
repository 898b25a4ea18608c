import Coverage.Text
import Coverage.Text.Bytes

/-!
File paths. A path is any bytes and keeps them as written, whether they are text or not;
comparing, ordering, prefixes and the parts of a path go by components. Repeated
separators and inner or trailing dots are no components, a leading dot and every climb
(`..`) are.
-/
namespace Coverage

abbrev slash : UInt8 := 0x2f

abbrev dot : UInt8 := 0x2e

inductive Component where
  | root
  | current
  | up
  | name (bytes : Bytes)
deriving DecidableEq, Repr

namespace Component

/-- The root comes first, then the dot, then the climb, then the names. -/
def rank : Component → Nat
  | root => 0
  | current => 1
  | up => 2
  | name _ => 3

def bytes : Component → Bytes
  | root => [slash]
  | current => [dot]
  | up => [dot, dot]
  | name bytes => bytes

/-- Names are ordered by their bytes. -/
instance : Ord Component := ⟨compareLex (compareOn rank) (compareOn bytes)⟩

instance : Std.TransOrd Component :=
  inferInstanceAs (Std.TransCmp (compareLex (compareOn rank) (compareOn bytes)))

/-- The component that a piece between separators makes anywhere but in front. -/
def ofSegment? (segment : Bytes) : Option Component :=
  if segment = [] ∨ segment = [dot] then none
  else if segment = [dot, dot] then some up
  else some (name segment)

def name? : Component → Option Bytes
  | name bytes => some bytes
  | _ => none

end Component

structure Path where
  bytes : Bytes
deriving DecidableEq, Repr, Inhabited

namespace Path

def ofText (text : String) : Path := ⟨Text.bytes text⟩

instance : Coe String Path := ⟨ofText⟩

/-- The path as it is shown: what is no text in it is replaced. -/
def shown (p : Path) : String := Text.readable p.bytes

/-- The path as a text, if it is one. -/
def text? (p : Path) : Option String := Text.ofBytes? p.bytes

def segments (p : Path) : List Bytes := Text.pieces slash p.bytes

/-- The component that the front of a path makes. -/
def front (first : Bytes) (rest : List Bytes) : List Component :=
  if first = [] then
    if rest.isEmpty then [] else [.root]
  else if first = [dot] then [.current]
  else (Component.ofSegment? first).toList

def components (p : Path) : List Component :=
  match p.segments with
  | [] => []
  | first :: rest => front first rest ++ rest.filterMap Component.ofSegment?

instance : Ord Path := ⟨compareOn components⟩

instance : Std.TransOrd Path :=
  inferInstanceAs (Std.TransCmp (compareOn components))

/-- The order in which paths are listed. -/
def le (p q : Path) : Bool := (compare p q).isLE

def isAbsolute (p : Path) : Bool := p.components.head? == some .root

/-- The components of `base` are the first ones of `p`. -/
def startsWith (p base : Path) : Bool := base.components.isPrefixOf p.components

def isSkipped (segment : Bytes) : Bool := (Component.ofSegment? segment).isNone

def trimEnd (segments : List Bytes) : List Bytes :=
  (segments.reverse.dropWhile isSkipped).reverse

/-- The path of the given pieces; a single empty piece is the root. -/
def ofSegments : List Bytes → Path
  | [[]] => ⟨[slash]⟩
  | segments => ⟨[slash].intercalate segments⟩

/-- The bytes up to the end of the last component. -/
def withoutTrailing (p : Path) : Path :=
  match p.segments with
  | [] => p
  | first :: rest => if p.bytes = [] then p else ofSegments (first :: trimEnd rest)

/-- What follows the first `count` components, the first of which is the front. -/
def dropSegments : Nat → List Bytes → List Bytes
  | 0, segments => segments
  | _ + 1, [] => []
  | count + 1, segment :: rest =>
      if isSkipped segment then dropSegments (count + 1) rest else dropSegments count rest

/-- The bytes from the first component that is left to the last one. -/
def dropComponents (p : Path) : Nat → Path
  | 0 => p.withoutTrailing
  | count + 1 =>
      ⟨[slash].intercalate (trimEnd ((dropSegments count p.segments.tail).dropWhile isSkipped))⟩

def stripBase? (p base : Path) : Option Path :=
  if p.startsWith base then some (p.dropComponents base.components.length) else none

def fileName? (p : Path) : Option Bytes := p.components.getLast?.bind Component.name?

/-- The path without its last component, which the root does not have. -/
def parent? (p : Path) : Option Path :=
  match p.segments with
  | [] => none
  | first :: rest =>
      match trimEnd rest with
      | [] => if first = [] then none else some ⟨[]⟩
      | kept => some (ofSegments (first :: trimEnd kept.dropLast))

/-- An absolute right side replaces the left one; otherwise one separator is put
between the two unless the left one is empty or ends in one. -/
def join (base p : Path) : Path :=
  if p.bytes.head? = some slash then p
  else if base.bytes = [] ∨ base.bytes.getLast? = some slash then ⟨base.bytes ++ p.bytes⟩
  else ⟨base.bytes ++ slash :: p.bytes⟩

/-- Where the absolute form of a path starts: exactly two leading separators are
kept, and a relative path starts in the working directory. -/
def anchor (p directory : Path) : Path :=
  if p.isAbsolute then
    if [slash, slash].isPrefixOf p.bytes && !([slash, slash, slash].isPrefixOf p.bytes) then
      ⟨[slash, slash]⟩
    else ⟨[slash]⟩
  else directory

/-- The path seen from the root, its dots dropped and its climbs kept; a trailing
separator stays. The empty path has no such form. -/
def absolute? (p directory : Path) : Option Path :=
  if p.bytes = [] then none
  else
    let parts := p.components.filter fun c => c != .root && c != .current
    let whole := parts.foldl (fun q c => q.join ⟨c.bytes⟩) (anchor p directory)
    some (if p.bytes.getLast? = some slash then whole.join ⟨[]⟩ else whole)

def absolute (p directory : Path) : Path := (p.absolute? directory).getD p

def commonLength : List Component → List Component → Nat
  | c :: p, d :: q => if c = d then commonLength p q + 1 else 0
  | _, _ => 0

/-- The way from one path to another: up to where they part, then down. -/
def climb (p base : Path) : Path :=
  let common := commonLength p.components base.components
  let ups := List.replicate (base.components.length - common) Component.up
  ⟨[slash].intercalate ((ups ++ p.components.drop common).map Component.bytes)⟩

/-- How a path is shown relative to a base. Outside the base it climbs, if both
are absolute and share a root; otherwise it is shown as it is. -/
def displayed (p : Path) : Option Path → String
  | none => p.shown
  | some base =>
      match p.stripBase? base with
      | some rest => rest.shown
      | none =>
          if !p.isAbsolute || !base.isAbsolute then p.shown
          else if commonLength p.components base.components = 0 then p.shown
          else (p.climb base).shown

end Path

end Coverage
