import CallChain.Text.Basic

namespace CallChain

/-- `any` is the type of everything that cannot be told from its text. -/
inductive TypeTag
  | int
  | float
  | str
  | bool
  | list
  | dict
  | none
  | type
  | any
  deriving DecidableEq, Repr

namespace TypeTag

/-- In the order in which unions are written. -/
def all : List TypeTag := [.int, .float, .str, .bool, .list, .dict, .none, .type, .any]

def name : TypeTag → Text
  | .int => "int".toList
  | .float => "float".toList
  | .str => "str".toList
  | .bool => "bool".toList
  | .list => "list".toList
  | .dict => "dict".toList
  | .none => "None".toList
  | .type => "type".toList
  | .any => "any".toList

end TypeTag

/-- A union of types; only membership of `tags` matters. -/
structure TypeSet where
  tags : List TypeTag
  deriving DecidableEq, Repr

namespace TypeSet

def any : TypeSet := ⟨[.any]⟩

def of (t : TypeTag) : TypeSet := ⟨[t]⟩

def number : TypeSet := ⟨[.int, .float]⟩

def numberOrStr : TypeSet := ⟨[.int, .float, .str]⟩

def listOrNumber : TypeSet := ⟨[.list, .int, .float]⟩

def listOrStr : TypeSet := ⟨[.list, .str]⟩

def container : TypeSet := ⟨[.list, .str, .dict]⟩

def isAny (s : TypeSet) : Bool := .any ∈ s.tags

/-- What cannot be told from its text is accepted everywhere. -/
def accepts (s : TypeSet) (t : TypeTag) : Bool := s.isAny || t = .any || t ∈ s.tags

def text (s : TypeSet) : Text :=
  if s.isAny then TypeTag.any.name
  else ['|'].intercalate ((TypeTag.all.filter (· ∈ s.tags)).map TypeTag.name)

end TypeSet

end CallChain
