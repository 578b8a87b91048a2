import CallChain.Statement.Heading

namespace CallChain

def tabWidth : Nat := 4

namespace Text

def leadingWidth : Text → Nat
  | [] => 0
  | c :: t =>
    if CallChain.isBlank c then (if c = '\t' then tabWidth else 1) + leadingWidth t else 0

def opensBlock (code : Text) : Bool := (trimEnd code).getLast? = some blockMark

end Text

/-- The widths of the lines that opened the blocks, innermost first. A block ends with the first
line that is not deeper than the one that opened it. -/
structure Layout where
  openers : List Nat := []
  deriving DecidableEq, Repr

namespace Layout

def level (l : Layout) : Nat := l.openers.length

/-- The blocks that a line of this width leaves open. -/
def enter (l : Layout) (width : Nat) : Layout := ⟨l.openers.dropWhile (width ≤ ·)⟩

def openBlock (l : Layout) (width : Nat) : Layout := ⟨width :: l.openers⟩

def after (l : Layout) (width : Nat) (code : Text) : Layout :=
  if Text.opensBlock code then (l.enter width).openBlock width else l.enter width

end Layout

/-- Lines are numbered from one. The code is trimmed, and the comment keeps its `#`. -/
structure SourceLine where
  number : Nat
  raw : Text
  code : Text
  width : Nat
  comment : Option Text
  deriving DecidableEq, Repr

namespace SourceLine

def ofRaw (number : Nat) (raw : Text) : SourceLine :=
  let (code, comment) := Text.cutComment raw
  { number
    raw
    code := Text.trim code
    width := Text.leadingWidth raw
    comment := comment.map Text.trimEnd }

def ofSource (source : Text) : List SourceLine :=
  ((Text.lines source).zipIdx 1).map fun (raw, number) ↦ ofRaw number raw

end SourceLine

end CallChain
