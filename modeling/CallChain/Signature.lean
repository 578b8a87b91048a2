import CallChain.Fault
import CallChain.Literal

namespace CallChain

def noValue : Text := "None".toList

/-- A parameter with a default is optional. -/
structure Param where
  types : TypeSet
  default : Option Text := none
  deriving DecidableEq, Repr

def Param.isOptional (p : Param) : Bool := p.default.isSome

/-- `extra` is the type of any number of further arguments, where these are allowed. -/
structure Signature where
  params : List Param
  extra : Option TypeSet := none
  returns : TypeSet
  deriving DecidableEq, Repr

namespace Signature

def unknown : Signature := { params := [⟨.any, none⟩, ⟨.any, none⟩], returns := .any }

def required (s : Signature) : Nat := s.params.countP (!·.isOptional)

def maximum (s : Signature) : Option Nat :=
  match s.extra with
  | some _ => none
  | none => some s.params.length

def typesAt (s : Signature) (position : Nat) : TypeSet :=
  match s.params[position]? with
  | some p => p.types
  | none => s.extra.getD .any

def defaultAt (s : Signature) (position : Nat) : Text :=
  (s.params[position]?.bind (·.default)).getD noValue

def fits (s : Signature) (given : Nat) : Bool :=
  s.required ≤ given && s.maximum.all (given ≤ ·)

/-- The fault of the argument at a position, counted from zero. The placeholder fits everywhere. -/
def argumentFault (s : Signature) (function placeholder : Text) (position : Nat) (argument : Text) :
    Option Fault :=
  if argument = placeholder then none
  else
    let expected := s.typesAt position
    let found := Literal.typeOf argument
    if expected.accepts found then none
    else some (.type function (position + 1) argument expected found)

/-- The number of arguments is checked before their types. -/
def check (s : Signature) (function placeholder : Text) (arguments : List Text) :
    Except Fault Unit :=
  if !s.fits arguments.length then
    .error (.arity function s.required s.maximum arguments.length)
  else
    match arguments.zipIdx.findSome? fun (a, i) ↦ s.argumentFault function placeholder i a with
    | some fault => .error fault
    | none => .ok ()

end Signature

end CallChain
