import CallChain.Nesting.Basic

namespace CallChain

inductive Imbalance
  | stray (closer : Char) (offset : Nat)
  | unclosed (b : Bracket)
  | unterminated (q : Quote)
  deriving DecidableEq, Repr

namespace Imbalance

def message : Imbalance → Text
  | .stray c offset =>
    "unexpected ".toList ++ Text.ticked [c] ++ " at offset ".toList ++ Text.ofNat offset
  | .unclosed b => "unclosed ".toList ++ Text.ticked [b.opening]
  | .unterminated q => "unterminated string starting with ".toList ++ Text.ticked [q.mark]

/-- The wording for an argument list, which has no offsets of its own. -/
def argumentsMessage : Imbalance → Text
  | .stray c _ => "unexpected ".toList ++ Text.ticked [c] ++ " in arguments".toList
  | i => i.message

end Imbalance

/-- An open string hides the brackets around it. -/
def Nesting.imbalance? (n : Nesting) : Option Imbalance :=
  match n.place with
  | .literal q | .escape q => some (.unterminated q)
  | .code => n.opened.head?.map .unclosed

namespace Text

def imbalanceFrom (n : Nesting) (offset : Nat) : Text → Option Imbalance
  | [] => n.imbalance?
  | c :: t =>
    if n.step c = .mismatch then some (.stray c offset)
    else imbalanceFrom (n.next c) (offset + c.utf8Size) t

/-- The first stray closing bracket, else what the end of the text leaves open. -/
def imbalance? (t : Text) : Option Imbalance := imbalanceFrom {} 0 t

end Text

end CallChain
