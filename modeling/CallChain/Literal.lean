import CallChain.Nesting.Cut
import CallChain.TypeSet

namespace CallChain.Literal

/-- A string literal with at most two of the letters `f` and `r` in front, in either case. -/
def isString (t : Text) : Bool :=
  let body := t.dropWhile (· ∈ ['f', 'F', 'r', 'R'])
  t.length - body.length ≤ 2 &&
    match body.head? with
    | some q => (q = '"' || q = '\'') && (Text.cutLiteral q body).any (·.after.isEmpty)
    | none => false

def isExponent : Text → Bool
  | [] => true
  | e :: t =>
    let digits := match t with
      | '+' :: t' | '-' :: t' => t'
      | _ => t
    (e = 'e' || e = 'E') && !digits.isEmpty && digits.all Char.isDigit

/-- Digits with a point anywhere among them or none, at least one digit, and an exponent if any. -/
def isDecimal (t : Text) : Bool :=
  let whole := t.takeWhile Char.isDigit
  match t.dropWhile Char.isDigit with
  | '.' :: t' => !(whole.isEmpty && (t'.takeWhile Char.isDigit).isEmpty) &&
      isExponent (t'.dropWhile Char.isDigit)
  | t' => !whole.isEmpty && isExponent t'

/-- The type of a number without its sign. Underscores may stand between its characters. -/
def numberType (t : Text) : TypeTag :=
  if !t.head?.any (fun c ↦ c.isDigit || c = '.') then .any
  else if t.all (fun c ↦ c.isDigit || c = '_') then .int
  else if isDecimal (t.filter (· ≠ '_')) then .float
  else .any

def unsigned : Text → Text
  | '-' :: t | '+' :: t => t
  | t => t

def trimmedType (t : Text) : TypeTag :=
  if t = "True".toList || t = "False".toList then .bool
  else if isString t then .str
  else if t.head? = some '[' && Text.closesAtEnd t then .list
  else if t.head? = some '{' && Text.closesAtEnd t then .dict
  else numberType (unsigned t)

def typeOf (t : Text) : TypeTag := trimmedType (Text.trim t)

end CallChain.Literal
