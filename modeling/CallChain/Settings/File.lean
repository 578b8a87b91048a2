import CallChain.Toml.Document

namespace CallChain

/-- `placeholder` is the argument that asks for the default. With `strictBrackets` an unbalanced
line is refused, otherwise it is passed on. -/
structure Settings where
  indentWidth : Nat := 4
  placeholder : Text := ['~']
  strictBrackets : Bool := true
  keepComments : Bool := false
  deriving DecidableEq, Repr

inductive SettingsFault
  | unreadable
  | zeroIndent
  | unusablePlaceholder (placeholder : Text)
  deriving DecidableEq, Repr

def SettingsFault.message : SettingsFault → Text
  | .unreadable => "invalid config".toList
  | .zeroIndent => "invalid config: indent_width must be at least 1".toList
  | .unusablePlaceholder placeholder =>
    "invalid config: placeholder ".toList ++ Text.ticked placeholder ++
      " cannot be used as an argument".toList

namespace Settings

def set? (s : Settings) : Toml.Entry → Option Settings
  | (key, .integer n) =>
    if key = "indent_width".toList && 0 ≤ n then some { s with indentWidth := n.toNat } else none
  | (key, .string t) =>
    if key = "placeholder".toList then some { s with placeholder := t } else none
  | (key, .boolean b) =>
    if key = "strict_brackets".toList then some { s with strictBrackets := b }
    else if key = "preserve_comments".toList then some { s with keepComments := b }
    else none

/-- A placeholder is an argument: it is not blank, and holds no comma and no parenthesis. -/
def fault? (s : Settings) : Option SettingsFault :=
  if s.indentWidth = 0 then some .zeroIndent
  else if Text.isBlank s.placeholder || (Text.trim s.placeholder).any (· ∈ [',', '(', ')']) then
    some (.unusablePlaceholder s.placeholder)
  else none

def ofToml (t : Text) : Except SettingsFault Settings :=
  match (Toml.document t).bind (·.foldlM set? {}) with
  | none => .error .unreadable
  | some s =>
    match s.fault? with
    | some fault => .error fault
    | none => .ok s

/-- The settings of a file, and the fault for which it was ignored, if it was. A file that is not
there or holds no text counts as an empty one. -/
def ofFile (content : Option ByteArray) : Settings × Option SettingsFault :=
  match content.bind String.fromUTF8? with
  | none => ({}, none)
  | some text =>
    match ofToml text.toList with
    | .ok s => (s, none)
    | .error fault => ({}, some fault)

end Settings

end CallChain
