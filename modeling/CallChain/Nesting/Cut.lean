import CallChain.Nesting.Basic

namespace CallChain

structure Cut where
  before : Text
  after : Text
  deriving DecidableEq, Repr

def Cut.cons (c : Char) (k : Cut) : Cut := { k with before := c :: k.before }

namespace Text

def topOffsetsFrom (needle : Text) (n : Nesting) (offset : Nat) : Text → List Nat
  | [] => []
  | c :: t =>
    let rest := topOffsetsFrom needle (n.next c) (offset + c.utf8Size) t
    if n.isTop && needle.isPrefixOf (c :: t) then offset :: rest else rest

def topOffsets (needle t : Text) : List Nat := topOffsetsFrom needle {} 0 t

def cutFirstFrom (needle : Text) (n : Nesting) : Text → Option Cut
  | [] => none
  | c :: t =>
    if n.isTop && needle.isPrefixOf (c :: t) then some ⟨[], (c :: t).drop needle.length⟩
    else (cutFirstFrom needle (n.next c) t).map (Cut.cons c)

/-- What stands before and after the first `needle` outside brackets and strings. -/
def cutFirst (needle t : Text) : Option Cut := cutFirstFrom needle {} t

def cutLastFrom (needle : Text) (n : Nesting) : Text → Option Cut
  | [] => none
  | c :: t =>
    match cutLastFrom needle (n.next c) t with
    | some k => some (k.cons c)
    | none =>
      if n.isTop && needle.isPrefixOf (c :: t) then some ⟨[], (c :: t).drop needle.length⟩
      else none

def cutLast (needle t : Text) : Option Cut := cutLastFrom needle {} t

def segmentsFrom (separator : Char) (n : Nesting) : Text → List Text
  | [] => [[]]
  | c :: t =>
    if n.isTop && c = separator then [] :: segmentsFrom separator (n.next c) t
    else
      match segmentsFrom separator (n.next c) t with
      | [] => [[c]]
      | s :: ss => (c :: s) :: ss

/-- The pieces between the separators outside brackets and strings. -/
def segments (separator : Char) (t : Text) : List Text := segmentsFrom separator {} t

theorem length_le_of_mem_segmentsFrom {separator : Char} {n : Nesting} {t s : Text}
    (h : s ∈ segmentsFrom separator n t) : s.length ≤ t.length := by
  induction t generalizing n s with
  | nil => simp_all [segmentsFrom]
  | cons c t ih =>
    rw [segmentsFrom] at h
    split at h
    · rcases List.mem_cons.1 h with rfl | h
      · simp
      · exact Nat.le_succ_of_le (ih h)
    · split at h
      · simp_all
      · rename_i s' ss hs
        rcases List.mem_cons.1 h with rfl | h
        · simpa using ih (n := n.next c) (s := s') (by simp [hs])
        · exact Nat.le_succ_of_le (ih (n := n.next c) (by simp [hs, h]))

def cutCommentFrom (n : Nesting) : Text → Text × Option Text
  | [] => ([], none)
  | c :: t =>
    if c = '#' && !n.inString then ([], some (c :: t))
    else
      let (code, comment) := cutCommentFrom (n.next c) t
      (c :: code, comment)

/-- The code of a line and its comment, which starts at the first `#` outside strings. -/
def cutComment (t : Text) : Text × Option Text := cutCommentFrom {} t

def closesAtEndFrom (n : Nesting) : Text → Bool
  | [] => false
  | c :: t =>
    match n.step c with
    | .mismatch => false
    | .closed => if (n.next c).depth = 0 then t.isEmpty else closesAtEndFrom (n.next c) t
    | _ => closesAtEndFrom (n.next c) t

/-- The first bracket at top level is closed by the last character. -/
def closesAtEnd (t : Text) : Bool := closesAtEndFrom {} t

def closingQuoteFrom (quote : Char) (escaped : Bool) : Text → Option Cut
  | [] => none
  | c :: t =>
    if escaped then (closingQuoteFrom quote false t).map (Cut.cons c)
    else if c = '\\' then (closingQuoteFrom quote true t).map (Cut.cons c)
    else if c = quote then some ⟨[], t⟩
    else (closingQuoteFrom quote false t).map (Cut.cons c)

/-- For a text that starts with `quote`: what it quotes, and what follows the closing quote. -/
def cutLiteral (quote : Char) : Text → Option Cut
  | [] => none
  | c :: t => if c = quote then closingQuoteFrom quote false t else none

def literalEnd? (quote : Char) (t : Text) : Option Nat :=
  (cutLiteral quote t).map fun k ↦ quote.utf8Size + bytes k.before

end Text

end CallChain
