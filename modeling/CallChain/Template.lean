import CallChain.Signature

namespace CallChain

/-- `all` is the hole for the whole argument list. -/
inductive Piece
  | text (t : Text)
  | hole (position : Nat)
  | all
  deriving DecidableEq, Repr

instance : Coe String Piece := ⟨fun s ↦ .text s.toList⟩

instance (n : Nat) : OfNat Piece n := ⟨.hole n⟩

abbrev Template := List Piece

namespace Piece

/-- Arguments that are not there are filled in as `noValue`. -/
def fill (arguments : List Text) : Piece → Text
  | .text t => t
  | .hole i => arguments[i]?.getD noValue
  | .all => ", ".toList.intercalate arguments

def written : Piece → Text
  | .text t => t
  | .hole i => '{' :: Text.ofNat i ++ ['}']
  | .all => ['{', '*', '}']

/-- The value of a numeral of 64 bits, with a plus sign in front or none. -/
def position? (t : Text) : Option Nat :=
  let digits := match t with
    | '+' :: t' => t'
    | _ => t
  if digits.isEmpty || !digits.all Char.isDigit then none
  else
    let n := Nat.ofDigitChars 10 digits 0
    if n < 0x10000000000000000 then some n else none

/-- What stands between two braces. Anything but a star or a position stays as it is written. -/
def ofHole (t : Text) : Piece :=
  if t = ['*'] then .all
  else
    match position? t with
    | some i => .hole i
    | none => .text ('{' :: t ++ ['}'])

end Piece

namespace Template

def fill (template : Template) (arguments : List Text) : Text :=
  template.flatMap (Piece.fill arguments)

def written (template : Template) : Text := template.flatMap Piece.written

/-- The hole that is being read, if any, holds what was read of it. A hole that never closes stays
as it is written. -/
def readFrom : Option Text → Text → Template
  | none, [] => []
  | none, c :: t => if c = '{' then readFrom (some []) t else .text [c] :: readFrom none t
  | some hole, [] => [.text ('{' :: hole)]
  | some hole, c :: t =>
    if c = '}' then Piece.ofHole hole :: readFrom none t else readFrom (some (hole ++ [c])) t

def ofText (t : Text) : Template := readFrom none t

end Template

end CallChain
