import CallChain.Statement.Basic

namespace CallChain

def BindMode.operator : BindMode → Text
  | .statement => " = ".toList
  | .inline => " := ".toList

mutual

/-- An inline binding is put in parentheses where it is nested in a larger expression. -/
def Expr.python (nested : Bool) : Expr → Text
  | .raw text => text
  | .concat parts => (Expr.pythonAll parts).flatten
  | .call callee arguments => callee.python (Expr.pythonAll arguments)
  | .bind target value mode =>
    let binding := target.python true ++ mode.operator ++ value.python true
    if nested && mode = .inline then '(' :: binding ++ [')'] else binding
  | .range start stop step =>
    "range(".toList ++ start.python true ++ ", ".toList ++ stop.python true ++ ", ".toList ++
      step.python true ++ [')']

def Expr.pythonAll : List Expr → List Text
  | [] => []
  | e :: es => e.python true :: Expr.pythonAll es

end

namespace Expr

variable (nested : Bool)

@[simp] theorem python_raw (text : Text) : (raw text).python nested = text := rfl

@[simp] theorem python_concat (parts : List Expr) :
    (concat parts).python nested = (pythonAll parts).flatten := rfl

@[simp] theorem python_call (callee : Callee) (arguments : List Expr) :
    (call callee arguments).python nested = callee.python (pythonAll arguments) := rfl

@[simp] theorem python_bind (target value : Expr) (mode : BindMode) :
    (bind target value mode).python nested =
      if nested && mode = .inline then
        '(' :: (target.python true ++ mode.operator ++ value.python true) ++ [')']
      else target.python true ++ mode.operator ++ value.python true := rfl

@[simp] theorem python_range (start stop step : Expr) :
    (range start stop step).python nested = "range(".toList ++ start.python true ++ ", ".toList ++
      stop.python true ++ ", ".toList ++ step.python true ++ [')'] := rfl

end Expr

theorem Expr.pythonAll_eq_map (es : List Expr) : Expr.pythonAll es = es.map (Expr.python true) := by
  induction es with
  | nil => rfl
  | cons e es ih => rw [Expr.pythonAll, ih, List.map_cons]

def Statement.python : Statement → Text
  | .blank => []
  | .loop target iterable =>
    "for ".toList ++ target ++ " in ".toList ++ iterable.python true ++ [':']
  | .guarded guard test => guard.keyword ++ ' ' :: test.python false ++ [':']
  | .assign target value => target ++ " = ".toList ++ value.python true
  | .expr value => value.python false
  | .verbatim text => text

/-- Two spaces divide a statement from its comment. -/
def Line.commentText (l : Line) : Text :=
  match l.comment with
  | none => []
  | some comment => if l.statement.isBlank then comment else "  ".toList ++ comment

/-- A blank line without a comment is empty at every level. -/
def Line.python (indentWidth : Nat) (l : Line) : Text :=
  if l.statement.isBlank && l.comment.isNone then []
  else List.replicate (l.level * indentWidth) ' ' ++ l.statement.python ++ l.commentText

def Program.python (indentWidth : Nat) (p : Program) : Text :=
  ['\n'].intercalate (p.map (Line.python indentWidth))

end CallChain
