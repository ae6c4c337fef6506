/-! Glob patterns: `*` stands for any text, `?` for one byte, brackets for one byte of a class,
and a backslash takes away the meaning of what follows it. Patterns and texts are compared in
UTF-8, byte by byte, so a character beyond ASCII counts as several. -/
namespace DurableFlow.Text.Glob

inductive Piece where
  | many
  | one
  | exactly (c : Char)
  | among (negated : Bool) (ranges : List (Char × Char))
  deriving DecidableEq, Repr

/-- A class under construction: whether it is negated, and its ranges so far. -/
abbrev OpenClass := Bool × List (Char × Char)

/-- The pieces of a pattern; a class that is never closed ends with the pattern. -/
def pieces : Option OpenClass → List Char → List Piece
  | none, [] => []
  | none, '*' :: rest => .many :: pieces none rest
  | none, '?' :: rest => .one :: pieces none rest
  | none, '[' :: '^' :: rest => pieces (some (true, [])) rest
  | none, '[' :: rest => pieces (some (false, [])) rest
  | none, '\\' :: c :: rest => .exactly c :: pieces none rest
  | none, c :: rest => .exactly c :: pieces none rest
  | some (negated, ranges), [] => [.among negated ranges]
  | some (negated, ranges), '\\' :: c :: rest => pieces (some (negated, (c, c) :: ranges)) rest
  | some (negated, ranges), ']' :: rest => .among negated ranges :: pieces none rest
  | some (negated, ranges), a :: '-' :: b :: rest =>
    pieces (some (negated, (if a ≤ b then (a, b) else (b, a)) :: ranges)) rest
  | some (negated, ranges), c :: rest => pieces (some (negated, (c, c) :: ranges)) rest

def ends : List Char → List (List Char)
  | [] => [[]]
  | c :: rest => (c :: rest) :: ends rest

def covers : List Piece → List Char → Bool
  | [], s => s.isEmpty
  | .many :: ps, s => (ends s).any (covers ps)
  | .one :: ps, s =>
    match s with
    | [] => false
    | _ :: rest => covers ps rest
  | .exactly c :: ps, s =>
    match s with
    | [] => false
    | d :: rest => c = d && covers ps rest
  | .among negated ranges :: ps, s =>
    match s with
    | [] => false
    | d :: rest => (ranges.any fun (a, b) => a ≤ d && d ≤ b) != negated && covers ps rest

def bytes (s : String) : List Char := s.toUTF8.toList.map fun b => Char.ofNat b.toNat

def isMatch (pattern text : String) : Bool := covers (pieces none (bytes pattern)) (bytes text)

end DurableFlow.Text.Glob
