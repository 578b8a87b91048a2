import CallChain.Fault

namespace CallChain

inductive Shape
  | assignment
  | normal
  | notACall
  deriving DecidableEq, Repr

inductive Severity
  | trace
  | debug
  | warn
  deriving DecidableEq, Repr

inductive Event
  | classified (shape : Shape)
  | leftAsWritten (text : Text)
  | builtinCall (function : Text) (arguments : Nat)
  | namedCall (function : Text)
  | unbalanced (text : Text) (defect : Defect)
  | aborted (line : Nat) (fault : Fault)
  | lineRead (line level : Nat) (kind : Text)
  deriving DecidableEq, Repr

namespace Event

def severity : Event → Severity
  | .classified _ | .builtinCall .. | .namedCall _ => .trace
  | .leftAsWritten _ | .aborted .. | .lineRead .. => .debug
  | .unbalanced .. => .warn

def message : Event → Text
  | .classified _ => "classified".toList
  | .leftAsWritten _ => "call notation below bracket depth zero left untranslated".toList
  | .builtinCall .. => "builtin call".toList
  | .namedCall _ => "opaque call".toList
  | .unbalanced .. => "unbalanced text passed through".toList
  | .aborted .. => "translation aborted".toList
  | .lineRead .. => "read line".toList

end Event

end CallChain
