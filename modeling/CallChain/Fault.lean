import CallChain.Nesting.Imbalance
import CallChain.TypeSet

namespace CallChain

inductive Defect
  | brackets (i : Imbalance)
  | arguments (i : Imbalance)
  | endlessRange
  | stated (reason : Text)
  deriving DecidableEq, Repr

def Defect.message : Defect → Text
  | .brackets i => i.message
  | .arguments i => i.argumentsMessage
  | .endlessRange => "range without an end".toList
  | .stated reason => reason

inductive Fault
  | arity (function : Text) (least : Nat) (most : Option Nat) (given : Nat)
  | type (function : Text) (position : Nat) (argument : Text) (expected : TypeSet) (found : TypeTag)
  | malformed (text : Text) (defect : Defect)
  deriving DecidableEq, Repr

namespace Fault

def kind : Fault → Text
  | .arity .. => "ArityError".toList
  | .type .. => "TypeError".toList
  | .malformed .. => "MalformedCallError".toList

def arityText (least : Nat) : Option Nat → Text
  | none => "at least ".toList ++ Text.ofNat least
  | some most =>
    if most = least then Text.ofNat least
    else Text.ofNat least ++ " to ".toList ++ Text.ofNat most

def message : Fault → Text
  | .arity function least most given =>
    Text.ticked function ++ " takes ".toList ++ arityText least most ++
      " argument(s), got ".toList ++ Text.ofNat given
  | .type function position argument expected found =>
    "argument ".toList ++ Text.ofNat position ++ " of ".toList ++ Text.ticked function ++
      " is ".toList ++ found.name ++ " (".toList ++ Text.ticked argument ++ "), expected ".toList ++
      expected.text
  | .malformed text defect =>
    "malformed call ".toList ++ Text.ticked text ++ ": ".toList ++ defect.message

end Fault

/-- The fault that stopped a program, with the line it stands on as it is written. -/
structure LineFault where
  line : Nat
  source : Text
  fault : Fault
  deriving DecidableEq, Repr

def LineFault.message (f : LineFault) : Text :=
  "line ".toList ++ Text.ofNat f.line ++ ": ".toList ++ f.fault.kind ++ ": ".toList ++
    f.fault.message ++ "\n    ".toList ++ f.source

end CallChain
