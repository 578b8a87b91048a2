import CallChain.Expr

namespace CallChain

inductive Guard
  | ifTest
  | elifTest
  deriving DecidableEq, Repr

def Guard.keyword : Guard → Text
  | .ifTest => "if".toList
  | .elifTest => "elif".toList

inductive Statement
  | blank
  | loop (target : Text) (iterable : Expr)
  | guarded (guard : Guard) (test : Expr)
  | assign (target : Text) (value : Expr)
  | expr (value : Expr)
  | verbatim (text : Text)

namespace Statement

def isBlank : Statement → Bool
  | .blank => true
  | _ => false

def kind : Statement → Text
  | .blank => "blank".toList
  | .loop .. => "for".toList
  | .guarded .. => "guard".toList
  | .assign .. => "assign".toList
  | .expr _ => "call".toList
  | .verbatim _ => "verbatim".toList

end Statement

/-- A statement at a block level, with the comment that follows it. -/
structure Line where
  level : Nat
  statement : Statement
  comment : Option Text := none

abbrev Program := List Line

end CallChain
