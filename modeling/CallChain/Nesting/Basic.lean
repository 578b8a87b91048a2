import CallChain.Text.Basic

namespace CallChain

inductive Bracket
  | round
  | square
  | curly
  deriving DecidableEq, Repr

def Bracket.opening : Bracket → Char
  | .round => '('
  | .square => '['
  | .curly => '{'

def Bracket.closing : Bracket → Char
  | .round => ')'
  | .square => ']'
  | .curly => '}'

inductive Quote
  | single
  | double
  deriving DecidableEq, Repr

def Quote.mark : Quote → Char
  | .single => '\''
  | .double => '"'

/-- What a character means outside string literals. -/
inductive Role
  | quote (q : Quote)
  | opener (b : Bracket)
  | closer (b : Bracket)
  | plain
  deriving DecidableEq, Repr

def Role.of (c : Char) : Role :=
  if c = '\'' then .quote .single
  else if c = '"' then .quote .double
  else if c = '(' then .opener .round
  else if c = '[' then .opener .square
  else if c = '{' then .opener .curly
  else if c = ')' then .closer .round
  else if c = ']' then .closer .square
  else if c = '}' then .closer .curly
  else .plain

@[simp] theorem Role.of_mark (q : Quote) : Role.of q.mark = .quote q := by cases q <;> rfl

@[simp] theorem Role.of_opening (b : Bracket) : Role.of b.opening = .opener b := by cases b <;> rfl

@[simp] theorem Role.of_closing (b : Bracket) : Role.of b.closing = .closer b := by cases b <;> rfl

/-- Where the next character stands: in code, in a string literal, or right after a backslash in
one. -/
inductive Place
  | code
  | literal (q : Quote)
  | escape (q : Quote)
  deriving DecidableEq, Repr

structure Nesting where
  opened : List Bracket := []
  place : Place := .code
  deriving DecidableEq, Repr

/-- What a single character did to the state. A closing bracket that does not match the
innermost open one is a mismatch. -/
inductive Step
  | code
  | quoted
  | opened
  | closed
  | mismatch
  deriving DecidableEq, Repr

namespace Nesting

def within (b : Bracket) : Nesting := { opened := [b] }

def depth (n : Nesting) : Nat := n.opened.length

def inString (n : Nesting) : Bool := n.place != .code

def isTop (n : Nesting) : Bool := n.opened.isEmpty && !n.inString

def step (n : Nesting) (c : Char) : Step :=
  match n.place with
  | .code =>
    match Role.of c with
    | .quote _ => .quoted
    | .opener _ => .opened
    | .closer b => if n.opened.head? = some b then .closed else .mismatch
    | .plain => .code
  | _ => .quoted

/-- The state after a character. A mismatch changes nothing. -/
def next (n : Nesting) (c : Char) : Nesting :=
  match n.place with
  | .escape q => { n with place := .literal q }
  | .literal q =>
    if c = '\\' then { n with place := .escape q }
    else if c = q.mark then { n with place := .code }
    else n
  | .code =>
    match Role.of c with
    | .quote q => { n with place := .literal q }
    | .opener b => { n with opened := b :: n.opened }
    | .closer b => if n.opened.head? = some b then { n with opened := n.opened.tail } else n
    | .plain => n

def after (n : Nesting) (t : Text) : Nesting := t.foldl next n

@[simp] theorem after_nil (n : Nesting) : n.after [] = n := rfl

@[simp] theorem after_cons (n : Nesting) (c : Char) (t : Text) :
    n.after (c :: t) = (n.next c).after t := rfl

@[simp] theorem after_append (n : Nesting) (s t : Text) : n.after (s ++ t) = (n.after s).after t :=
  List.foldl_append

theorem isTop_iff {n : Nesting} : n.isTop ↔ n = {} := by
  rcases n with ⟨_ | ⟨b, bs⟩, _ | q | q⟩ <;> simp [isTop, inString]

end Nesting

end CallChain
