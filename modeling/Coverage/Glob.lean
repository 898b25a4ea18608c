/-!
Glob patterns. A pattern is compiled into tokens; matching carries along all that
may be left of the text, token by token, so it takes no wrong turn and no time
growing with the number of turns.
-/
namespace Coverage.Glob

inductive Token where
  | char (c : Char)
  | anyChar
  /-- Any run of characters, separators included. -/
  | anyRun
  /-- Nothing, or a run of characters that ends in a separator. -/
  | anyDirectories
  | oneOf (ranges : List (Char × Char))
  | noneOf (ranges : List (Char × Char))
deriving DecidableEq, Repr

inductive Fault where
  | wildcards
  | recursiveWildcards
  | range
deriving DecidableEq, Repr

def Fault.message : Fault → String
  | wildcards => "wildcards are either regular `*` or recursive `**`"
  | recursiveWildcards => "recursive wildcards must form a single path component"
  | range => "invalid range pattern"

/-- What is wrong with a pattern and before which of its characters. -/
structure Error where
  position : Nat
  fault : Fault
deriving DecidableEq, Repr

def Error.message (e : Error) : String :=
  s!"Pattern syntax error near position {e.position}: {e.fault.message}"

/-- The members of a class: a dash between two characters makes a range of them. -/
def ranges : List Char → List (Char × Char)
  | low :: '-' :: high :: rest => (low, high) :: ranges rest
  | c :: rest => (c, c) :: ranges rest
  | [] => []

/-- The members of a class, which are one at least, and what follows its end. -/
def classBody : List Char → Option (List Char × List Char)
  | [] => none
  | first :: rest =>
      match rest.dropWhile (· != ']') with
      | [] => none
      | _ :: after => some (first :: rest.takeWhile (· != ']'), after)

/-- The class after an opening bracket. -/
def classToken : List Char → Option (Token × List Char)
  | '!' :: rest => (classBody rest).map fun (body, after) => (.noneOf (ranges body), after)
  | rest => (classBody rest).map fun (body, after) => (.oneOf (ranges body), after)

theorem length_dropWhile_le (p : Char → Bool) (l : List Char) :
    (l.dropWhile p).length ≤ l.length :=
  (List.dropWhile_suffix p).length_le

theorem classBody_shorter {text body after : List Char} (h : classBody text = some (body, after)) :
    after.length < text.length := by
  cases text with
  | nil => simp [classBody] at h
  | cons first rest =>
      have hle := length_dropWhile_le (· != ']') rest
      simp only [classBody] at h
      split at h
      · cases h
      · rename_i heq
        cases h
        rw [heq] at hle
        simp only [List.length_cons] at hle ⊢
        omega

theorem classToken_shorter {text after : List Char} {token : Token}
    (h : classToken text = some (token, after)) : after.length < text.length := by
  unfold classToken at h
  split at h
  · obtain ⟨⟨body, rest⟩, hbody, heq⟩ := Option.map_eq_some_iff.1 h
    cases heq
    exact Nat.lt_succ_of_lt (classBody_shorter hbody)
  · obtain ⟨⟨body, rest⟩, hbody, heq⟩ := Option.map_eq_some_iff.1 h
    cases heq
    exact classBody_shorter hbody

/-- Two stars stand for directories only as a whole component of the path. -/
def opensComponent (before : Option Char) : Bool := before.isNone || before == some '/'

/-- The tokens of a pattern from a position on; `before` is the character in
front of it. Two stars that end the pattern stand for all that is left. -/
def compileFrom (before : Option Char) (position : Nat) :
    List Char → Except Error (List Token)
  | [] => .ok []
  | '*' :: '*' :: '*' :: _ => .error ⟨position + 2, .wildcards⟩
  | '*' :: '*' :: rest =>
      if !opensComponent before then .error ⟨position - 1, .recursiveWildcards⟩
      else
        match rest with
        | [] => .ok [.anyRun]
        | ['/'] => .ok [.anyRun]
        | '/' :: rest => (compileFrom (some '/') (position + 3) rest).map (.anyDirectories :: ·)
        | _ => .error ⟨position + 2, .recursiveWildcards⟩
  | '*' :: rest => (compileFrom (some '*') (position + 1) rest).map (.anyRun :: ·)
  | '?' :: rest => (compileFrom (some '?') (position + 1) rest).map (.anyChar :: ·)
  | '[' :: rest =>
      match _h : classToken rest with
      | none => .error ⟨position, .range⟩
      | some (token, after) =>
          (compileFrom (some ']') (position + 1 + (rest.length - after.length)) after).map
            (token :: ·)
  | c :: rest => (compileFrom (some c) (position + 1) rest).map (.char c :: ·)
termination_by text => text.length
decreasing_by
  all_goals simp only [List.length_cons]
  all_goals first
    | omega
    | exact Nat.lt_succ_of_lt (classToken_shorter _h)

def suffixes : List Char → List (List Char)
  | [] => [[]]
  | c :: rest => (c :: rest) :: suffixes rest

/-- The suffixes that follow a separator. -/
def afterSeparators : List Char → List (List Char)
  | [] => []
  | c :: rest => if c = '/' then rest :: afterSeparators rest else afterSeparators rest

def inRanges (c : Char) (ranges : List (Char × Char)) : Bool :=
  ranges.any fun r => r.1 ≤ c && c ≤ r.2

def afterChar (accepts : Char → Bool) : List Char → Option (List Char)
  | [] => none
  | c :: rest => if accepts c then some rest else none

def longest : List (List Char) → Option (List Char)
  | [] => none
  | text :: texts =>
      some (texts.foldl (fun held t => if held.length < t.length then t else held) text)

/-- All that may be left after the token, given all that may be left before it.
These are suffixes of one text, so the longest has the others among its own. -/
def Token.advance (texts : List (List Char)) : Token → List (List Char)
  | .char c => texts.filterMap (afterChar (· == c))
  | .anyChar => texts.filterMap (afterChar fun _ => true)
  | .oneOf ranges => texts.filterMap (afterChar (inRanges · ranges))
  | .noneOf ranges => texts.filterMap (afterChar fun c => !inRanges c ranges)
  | .anyRun => ((longest texts).map suffixes).getD []
  | .anyDirectories => (texts.flatMap fun t => t :: afterSeparators t).eraseDups

end Coverage.Glob

namespace Coverage

structure Glob where
  tokens : List Glob.Token
deriving DecidableEq, Repr

namespace Glob

def compile (pattern : String) : Except Error Glob :=
  (compileFrom none 0 pattern.toList).map Glob.mk

/-- The whole text is used up. -/
def accepts (g : Glob) (text : String) : Bool :=
  (g.tokens.foldl Token.advance [text.toList]).any List.isEmpty

end Glob

end Coverage
