import CallChain.Template

namespace CallChain

structure Builtin where
  name : Text
  signature : Signature
  template : Template
  deriving DecidableEq, Repr

namespace Builtin

def fixed (name : String) (types : List TypeSet) (returns : TypeSet) (template : Template) :
    Builtin :=
  ⟨name.toList, { params := types.map (⟨·, none⟩), returns }, template⟩

def defaulted (name : String) (types : List TypeSet) (last : TypeSet) (default : String)
    (returns : TypeSet) (template : Template) : Builtin :=
  ⟨name.toList, { params := types.map (⟨·, none⟩) ++ [⟨last, some default.toList⟩], returns },
    template⟩

def variadic (name : String) (types : List TypeSet) (extra returns : TypeSet)
    (template : Template) : Builtin :=
  ⟨name.toList, { params := types.map (⟨·, none⟩), extra, returns }, template⟩

open TypeSet

def casts : List Builtin :=
  [fixed "int" [numberOrStr] (of .int) ["int(", 0, ")"],
    fixed "float" [numberOrStr] (of .float) ["float(", 0, ")"],
    fixed "str" [any] (of .str) ["str(", 0, ")"],
    fixed "bool" [any] (of .bool) ["bool(", 0, ")"],
    fixed "list" [any] (of .list) ["list(", 0, ")"],
    fixed "dict" [any] (of .dict) ["dict(", 0, ")"]]

def arithmetic : List Builtin :=
  [fixed "add" [number, number] number ["(", 0, " + ", 1, ")"],
    fixed "sub" [number, number] number ["(", 0, " - ", 1, ")"],
    fixed "mul" [number, number] number ["(", 0, " * ", 1, ")"],
    fixed "div" [number, number] (of .float) ["(", 0, " / ", 1, ")"],
    fixed "pow" [number, number] number ["(", 0, " ** ", 1, ")"],
    fixed "mod" [of .int, of .int] (of .int) ["(", 0, " % ", 1, ")"],
    fixed "abs" [number] number ["abs(", 0, ")"],
    defaulted "round" [number] (of .int) "None" number ["round(", 0, ", ", 1, ")"],
    variadic "max" [listOrNumber] number number ["max(", .all, ")"],
    variadic "min" [listOrNumber] number number ["min(", .all, ")"]]

def strings : List Builtin :=
  [defaulted "split" [of .str] (of .str) "None" (of .list) [0, ".split(", 1, ")"],
    defaulted "join" [of .list] (of .str) "\"\"" (of .str) [1, ".join(", 0, ")"],
    fixed "strcat" [of .str, of .str] (of .str) ["(", 0, " + ", 1, ")"],
    fixed "lower" [of .str] (of .str) [0, ".lower()"],
    fixed "upper" [of .str] (of .str) [0, ".upper()"],
    fixed "chr" [of .int] (of .str) ["chr(", 0, ")"],
    fixed "ord" [of .str] (of .int) ["ord(", 0, ")"]]

def containers : List Builtin :=
  [fixed "len" [container] (of .int) ["len(", 0, ")"],
    defaulted "get" [any, any] any "None" any
      ["(lambda c, k, d: c[k] if isinstance(c, (list, tuple, str)) and isinstance(k, int) ",
        "and -len(c) <= k < len(c) else c.get(k, d) if isinstance(c, dict) else d)(",
        0, ", ", 1, ", ", 2, ")"],
    fixed "index" [listOrStr, any] (of .int) [0, ".index(", 1, ")"],
    fixed "append" [of .list, any] (of .none) [0, ".append(", 1, ")"],
    fixed "remove" [of .list, any] (of .none) [0, ".remove(", 1, ")"],
    defaulted "pop" [of .list] (of .int) "-1" any [0, ".pop(", 1, ")"],
    fixed "sort" [listOrStr] (of .list) ["sorted(", 0, ")"],
    fixed "reverse" [of .list] (of .none) [0, ".reverse()"],
    fixed "insert" [of .list, of .int, any] (of .none) [0, ".insert(", 1, ", ", 2, ")"],
    fixed "count" [listOrStr, any] (of .int) [0, ".count(", 1, ")"],
    fixed "extend" [of .list, of .list] (of .none) [0, ".extend(", 1, ")"]]

def logic : List Builtin :=
  [fixed "eq" [any, any] (of .bool) ["(", 0, " == ", 1, ")"],
    fixed "neq" [any, any] (of .bool) ["(", 0, " != ", 1, ")"],
    fixed "gt" [number, number] (of .bool) ["(", 0, " > ", 1, ")"],
    fixed "lt" [number, number] (of .bool) ["(", 0, " < ", 1, ")"],
    fixed "gte" [number, number] (of .bool) ["(", 0, " >= ", 1, ")"],
    fixed "lte" [number, number] (of .bool) ["(", 0, " <= ", 1, ")"],
    fixed "and" [of .bool, of .bool] (of .bool) ["(", 0, " and ", 1, ")"],
    fixed "or" [of .bool, of .bool] (of .bool) ["(", 0, " or ", 1, ")"],
    fixed "not" [of .bool] (of .bool) ["(not ", 0, ")"],
    fixed "in" [any, container] (of .bool) ["(", 0, " in ", 1, ")"]]

def other : List Builtin :=
  [variadic "print" [] any (of .none) ["print(", .all, ")"],
    fixed "type" [any] (of .type) ["type(", 0, ")"]]

def table : List Builtin := casts ++ arithmetic ++ strings ++ containers ++ logic ++ other

def lookup? (name : Text) : Option Builtin := table.find? (·.name = name)

theorem lookup?_name {name : Text} {b : Builtin} (h : lookup? name = some b) : b.name = name := by
  simpa using List.find?_some h

end Builtin

/-- The signature of a function, built in or not. -/
def Signature.named (function : Text) : Signature :=
  ((Builtin.lookup? function).map (·.signature)).getD .unknown

end CallChain
