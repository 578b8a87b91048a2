import CallChain.Builtin

namespace CallChain

/-- How the result of a call is bound: by a statement `x = …`, or inside an expression `x := …`. -/
inductive BindMode
  | statement
  | inline
  deriving DecidableEq, Repr

inductive Callee
  | builtin (b : Builtin)
  | named (function : Text)
  deriving DecidableEq, Repr

namespace Callee

def name : Callee → Text
  | .builtin b => b.name
  | .named function => function

/-- A name of the table is a built-in function, any other name is left to Python. -/
def ofName (function : Text) : Callee :=
  match Builtin.lookup? function with
  | some b => .builtin b
  | none => .named function

def defaultAt (position : Nat) : Callee → Text
  | .builtin b => b.signature.defaultAt position
  | .named _ => noValue

def python (arguments : List Text) : Callee → Text
  | .builtin b => b.template.fill arguments
  | .named function => function ++ '(' :: ", ".toList.intercalate arguments ++ [')']

@[simp] theorem name_ofName (function : Text) : (ofName function).name = function := by
  rw [ofName]
  split
  · rename_i h
    exact Builtin.lookup?_name h
  · rfl

end Callee

inductive Expr
  | raw (text : Text)
  | concat (parts : List Expr)
  | call (callee : Callee) (arguments : List Expr)
  | bind (target value : Expr) (mode : BindMode)
  | range (start stop step : Expr)

namespace Expr

def isEmpty : Expr → Bool
  | .raw text => text.isEmpty
  | _ => false

def isRaw : Expr → Bool
  | .raw _ => true
  | _ => false

/-- The parts one after the other. Empty parts are dropped, and one part stands for itself. -/
def joined (parts : List Expr) : Expr :=
  match parts.filter (!·.isEmpty) with
  | [] => .raw []
  | [part] => part
  | parts => .concat parts

end Expr

end CallChain
