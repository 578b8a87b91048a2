namespace CallChain

abbrev Text := List Char

namespace Text

/-- The length of the UTF-8 form, in which offsets into a text are counted. -/
def bytes : Text → Nat
  | [] => 0
  | c :: t => c.utf8Size + bytes t

@[simp] theorem bytes_nil : bytes [] = 0 := rfl

@[simp] theorem bytes_cons (c : Char) (t : Text) : bytes (c :: t) = c.utf8Size + bytes t := rfl

@[simp] theorem bytes_append (s t : Text) : bytes (s ++ t) = bytes s + bytes t := by
  induction s with
  | nil => simp
  | cons c s ih => simp only [List.cons_append, bytes_cons, ih, Nat.add_assoc]

/-- The lines of a text. A newline ends a line, together with one carriage return right before
it, and no line follows the last newline. -/
def lines : Text → List Text
  | [] => []
  | '\n' :: t => [] :: lines t
  | '\r' :: '\n' :: t => [] :: lines t
  | c :: t =>
    match lines t with
    | [] => [[c]]
    | l :: ls => (c :: l) :: ls

def pieces (separator : Char) : Text → List Text
  | [] => [[]]
  | c :: t =>
    if c = separator then [] :: pieces separator t
    else
      match pieces separator t with
      | [] => [[c]]
      | p :: ps => (c :: p) :: ps

def holds (needle : Text) : Text → Bool
  | [] => needle.isEmpty
  | c :: t => needle.isPrefixOf (c :: t) || holds needle t

def nonempty? (t : Text) : Option Text := if t.isEmpty then none else some t

@[simp] theorem nonempty?_eq_some_iff {t t' : Text} : nonempty? t = some t' ↔ t = t' ∧ t ≠ [] := by
  rw [nonempty?]
  split <;> simp_all

def ofNat (n : Nat) : Text := Nat.toDigits 10 n

def ticked (t : Text) : Text := "`".toList ++ t ++ "`".toList

end Text

/-- Inclusive ranges of code points, in ascending order. The tables are those of Unicode 17.0. -/
abbrev CharClass := List (Nat × Nat)

def CharClass.contains (ranges : CharClass) (c : Char) : Bool :=
  ranges.any fun (first, last) ↦ first ≤ c.toNat && c.toNat ≤ last

def blanks : CharClass :=
  [(0x0009, 0x000D), (0x0020, 0x0020), (0x0085, 0x0085), (0x00A0, 0x00A0), (0x1680, 0x1680),
    (0x2000, 0x200A), (0x2028, 0x2029), (0x202F, 0x202F), (0x205F, 0x205F), (0x3000, 0x3000)]

/-- The Unicode property `White_Space`. -/
def isBlank (c : Char) : Bool := blanks.contains c

namespace Text

/-- A text of blanks only; the empty text is one. -/
def isBlank (t : Text) : Bool := t.all CallChain.isBlank

def trimStart (t : Text) : Text := t.dropWhile CallChain.isBlank

def trimEnd (t : Text) : Text := (t.reverse.dropWhile CallChain.isBlank).reverse

def trim (t : Text) : Text := trimEnd (trimStart t)

theorem trimStart_suffix (t : Text) : trimStart t <:+ t := List.dropWhile_suffix _

theorem trimEnd_append (t : Text) :
    trimEnd t ++ (t.reverse.takeWhile CallChain.isBlank).reverse = t := by
  rw [trimEnd, ← List.reverse_append, List.takeWhile_append_dropWhile, List.reverse_reverse]

theorem trim_isInfix (t : Text) : trim t <:+: t :=
  .trans (List.IsPrefix.isInfix ⟨_, trimEnd_append _⟩) (trimStart_suffix t).isInfix

theorem length_trim_le (t : Text) : (trim t).length ≤ t.length := (trim_isInfix t).length_le

end Text

end CallChain
