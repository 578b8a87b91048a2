import CallChain.Call
import CallChain.Statement.Heading

namespace CallChain

structure Interval where
  start : Text
  stop : Text
  step : Text
  deriving DecidableEq, Repr

namespace Interval

def rangeMark : Text := "...".toList

def stepMark : Text := "^".toList

/-- The start is what stands before the first three dots, the step what follows the last caret
after them. A range starts at zero and steps by one unless it says otherwise. -/
def ofText? (t : Text) : Option Interval :=
  (Text.cutFirst rangeMark t).map fun k ↦
    let (stop, step) := match Text.cutLast stepMark k.after with
      | some k' => (Text.trim k'.before, Text.trim k'.after)
      | none => (Text.trim k.after, [])
    { start := (Text.nonempty? (Text.trim k.before)).getD ['0']
      stop
      step := (Text.nonempty? step).getD ['1'] }

end Interval

def Expr.ofInterval? (read : Text → Logged Fault Expr) (t : Text) : Logged Fault (Option Expr) :=
  match Interval.ofText? t with
  | none => pure none
  | some i =>
    if i.stop.isEmpty then .fail (.malformed t .endlessRange)
    else do
      let start ← read i.start
      let stop ← read i.stop
      let step ← read i.step
      return some (.range start stop step)

namespace Statement

/-- A line without calls is an assignment if it has two sides, and is kept as it is otherwise. -/
def ofPlain (s : Settings) (code : Text) : Logged Fault Statement := do
  let value ← Expr.ofText s .statement code
  if !value.isRaw then return .expr value
  else
    match Text.assignment? code with
    | some (target, value) => .assign target <$> Expr.ofText s .inline value
    | none => return .verbatim code

def ofLoop (s : Settings) (target iterable : Text) : Logged Fault Statement := do
  let range? ← Expr.ofInterval? (Expr.ofText s .inline) iterable
  match range? with
  | some range => return .loop target range
  | none => .loop target <$> Expr.ofText s .inline iterable

def ofCode (s : Settings) (code : Text) : Logged Fault Statement :=
  match Heading.ofCode code with
  | .loop target iterable => ofLoop s target iterable
  | .guarded guard test => .guarded guard <$> Expr.ofText s .inline test
  | .verbatim => pure (.verbatim code)
  | .plain => ofPlain s code

end Statement

end CallChain
