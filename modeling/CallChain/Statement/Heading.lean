import CallChain.Nesting.Cut
import CallChain.Statement.Basic
import CallChain.Text.Identifier

namespace CallChain

def blockMark : Char := ':'

namespace Text

/-- What follows `word` in a code that starts with it as a whole word. -/
def afterWord? (word code : Text) : Option Text :=
  if word.isPrefixOf code && !(code.drop word.length).head?.any isIdentChar then
    some (code.drop word.length)
  else none

def dropMark? (t : Text) : Option Text :=
  if t.getLast? = some blockMark then some t.dropLast else none

def isTargetList (t : Text) : Bool := (pieces ',' t).all fun name ↦ isIdentifier (trim name)

def loopParts? (t : Text) : Option (Text × Text) :=
  match dropMark? (trim t) with
  | none => none
  | some head =>
    match cutFirst " in ".toList head with
    | none => none
    | some k =>
      let target := trim k.before
      let iterable := trim k.after
      if isTargetList target && !iterable.isEmpty then some (target, iterable) else none

def guardTest (t : Text) : Text :=
  let t := trim t
  trim ((dropMark? t).getD t)

/-- The two sides of the first `=` outside brackets and strings, if it stands alone. Comparisons
and augmented assignments have no sides. -/
def assignment? (code : Text) : Option (Text × Text) :=
  match cutFirst "=".toList code with
  | none => none
  | some k =>
    let target := trim k.before
    if k.after.head? = some '=' || k.before.getLast?.any (· ∈ "=!<>:+-*/%&|^@".toList) ||
        target.isEmpty then none
    else some (target, trim k.after)

end Text

inductive Heading
  | loop (target iterable : Text)
  | guarded (guard : Guard) (test : Text)
  | verbatim
  | plain
  deriving DecidableEq, Repr

namespace Heading

def ofLoop? (code : Text) : Option Heading :=
  ((Text.afterWord? "for".toList code).bind Text.loopParts?).map fun (target, iterable) ↦
    .loop target iterable

def ofWhile? (code : Text) : Option Heading :=
  (Text.afterWord? "while".toList code).map fun _ ↦ .verbatim

def ofGuard? (guard : Guard) (code : Text) : Option Heading :=
  (Text.afterWord? guard.keyword code).map fun rest ↦ .guarded guard (Text.guardTest rest)

def ofJump? (code : Text) : Option Heading :=
  if code = "break".toList || code = "continue".toList then some .verbatim else none

def ofCode (code : Text) : Heading :=
  (ofLoop? code <|> ofWhile? code <|> ofGuard? .ifTest code <|> ofGuard? .elifTest code <|>
    ofJump? code).getD .plain

end Heading

end CallChain
