import CallChain.Nesting.Cut

namespace CallChain.Toml

def isGap (c : Char) : Bool := c = ' ' || c = '\t'

/-- A character that a comment or a string may hold as it is. -/
def isPlain (c : Char) : Bool := c = '\t' || 0x20 ≤ c.toNat && c.toNat ≠ 0x7F

/-- The end of a string over several lines: three quotes, and up to two more that belong to it. -/
def closing (quote : Char) (t : Text) : Option Cut :=
  let count := (t.takeWhile (· = quote)).length
  let extra := min (count - 3) 2
  if count < 3 then none else some ⟨List.replicate extra quote, t.drop (extra + 3)⟩

def literal (multiline : Bool) : Text → Option Cut
  | [] => none
  | c :: t =>
    if c = '\'' then
      if multiline then
        match closing '\'' (c :: t) with
        | some k => some k
        | none => (literal multiline t).map (Cut.cons c)
      else some ⟨[], t⟩
    else if isPlain c || multiline && c = '\n' then (literal multiline t).map (Cut.cons c)
    else none

/-- What the next character of a basic string belongs to. A backslash at the end of a line folds
the blanks that follow. -/
inductive Mode
  | plain
  | folding
  | escape
  | lineEnd
  | code (left value : Nat)
  deriving DecidableEq, Repr

def escapes : List (Char × Char) :=
  [('b', '\x08'), ('t', '\t'), ('n', '\n'), ('f', '\x0c'), ('r', '\r'), ('"', '"'), ('\\', '\\')]

def hexValue? (c : Char) : Option Nat :=
  if c.isDigit then some (c.toNat - '0'.toNat)
  else if 'a' ≤ c && c ≤ 'f' then some (c.toNat - 'a'.toNat + 10)
  else if 'A' ≤ c && c ≤ 'F' then some (c.toNat - 'A'.toNat + 10)
  else none

def charOf? (n : Nat) : Option Char := if n.isValidChar then some (Char.ofNat n) else none

/-- What a basic string does with a character: it may end there, or go on in a mode after the
characters it adds. -/
inductive Action
  | close
  | go (added : Text) (mode : Mode)
  | refuse
  deriving DecidableEq, Repr

namespace Mode

def onPlain (multiline : Bool) (c : Char) : Action :=
  if c = '"' then .close
  else if c = '\\' then .go [] .escape
  else if isPlain c || multiline && c = '\n' then .go [c] .plain
  else .refuse

def onEscape (multiline : Bool) (c : Char) : Action :=
  match escapes.lookup c with
  | some d => .go [d] .plain
  | none =>
    if c = 'u' then .go [] (.code 4 0)
    else if c = 'U' then .go [] (.code 8 0)
    else if multiline && c = '\n' then .go [] .folding
    else if multiline && isGap c then .go [] .lineEnd
    else .refuse

def onCode (left value : Nat) (c : Char) : Action :=
  match hexValue? c with
  | none => .refuse
  | some d =>
    let value := 16 * value + d
    if 1 < left then .go [] (.code (left - 1) value)
    else
      match charOf? value with
      | some d => .go [d] .plain
      | none => .refuse

def action (multiline : Bool) (c : Char) : Mode → Action
  | .plain => onPlain multiline c
  | .folding => if isGap c || c = '\n' then .go [] .folding else onPlain multiline c
  | .escape => onEscape multiline c
  | .lineEnd =>
    if isGap c then .go [] .lineEnd else if c = '\n' then .go [] .folding else .refuse
  | .code left value => onCode left value c

end Mode

def basic (multiline : Bool) (mode : Mode) : Text → Option Cut
  | [] => none
  | c :: t =>
    match mode.action multiline c with
    | .refuse => none
    | .go added mode => (basic multiline mode t).map fun k ↦ { k with before := added ++ k.before }
    | .close =>
      if multiline then
        match closing '"' (c :: t) with
        | some k => some k
        | none => (basic multiline .plain t).map (Cut.cons c)
      else some ⟨[], t⟩

/-- A newline right after the opening quotes is no part of the string. -/
def dropNewline : Text → Text
  | '\n' :: t => t
  | t => t

def quoted : Text → Option Cut
  | '"' :: t => basic false .plain t
  | '\'' :: t => literal false t
  | _ => none

def string : Text → Option Cut
  | '"' :: '"' :: '"' :: t => basic true .plain (dropNewline t)
  | '\'' :: '\'' :: '\'' :: t => literal true (dropNewline t)
  | t => quoted t

theorem length_closing_le {quote : Char} {t : Text} {k : Cut} (h : closing quote t = some k) :
    k.after.length ≤ t.length := by
  rw [closing] at h
  split at h
  · simp at h
  · cases h
    simp only [List.length_drop]
    omega

theorem length_literal_le {multiline : Bool} {t : Text} {k : Cut}
    (h : literal multiline t = some k) : k.after.length ≤ t.length := by
  induction t generalizing k with
  | nil => simp [literal] at h
  | cons c t ih =>
    have hcons : ∀ k', (literal multiline t).map (Cut.cons c) = some k' →
        k'.after.length ≤ (c :: t).length := by
      intro k' hk
      obtain ⟨k'', hk'', rfl⟩ := Option.map_eq_some_iff.1 hk
      exact Nat.le_succ_of_le (ih hk'' : k''.after.length ≤ t.length)
    rw [literal] at h
    split at h
    · split at h
      · split at h
        · cases h
          exact length_closing_le ‹_›
        · exact hcons k h
      · cases h
        exact Nat.le_succ _
    · split at h
      · exact hcons k h
      · simp at h

theorem length_basic_le {multiline : Bool} {mode : Mode} {t : Text} {k : Cut}
    (h : basic multiline mode t = some k) : k.after.length ≤ t.length := by
  induction t generalizing mode k with
  | nil => simp [basic] at h
  | cons c t ih =>
    rw [basic] at h
    split at h
    · simp at h
    · obtain ⟨k', hk', rfl⟩ := Option.map_eq_some_iff.1 h
      exact Nat.le_succ_of_le (ih hk' : k'.after.length ≤ t.length)
    · split at h
      · split at h
        · cases h
          exact length_closing_le ‹_›
        · obtain ⟨k', hk', rfl⟩ := Option.map_eq_some_iff.1 h
          exact Nat.le_succ_of_le (ih hk' : k'.after.length ≤ t.length)
      · cases h
        exact Nat.le_succ _

theorem length_dropNewline_le (t : Text) : (dropNewline t).length ≤ t.length := by
  rw [dropNewline.eq_def]
  split <;> simp

theorem length_quoted_le {t : Text} {k : Cut} (h : quoted t = some k) :
    k.after.length ≤ t.length := by
  rw [quoted.eq_def] at h
  split at h
  · exact Nat.le_succ_of_le (length_basic_le h)
  · exact Nat.le_succ_of_le (length_literal_le h)
  · simp at h

theorem length_string_le {t : Text} {k : Cut} (h : string t = some k) :
    k.after.length ≤ t.length := by
  rw [string.eq_def] at h
  split at h
  · rename_i t
    have := length_basic_le h
    have := length_dropNewline_le t
    simp only [List.length_cons]
    omega
  · rename_i t
    have := length_literal_le h
    have := length_dropNewline_le t
    simp only [List.length_cons]
    omega
  · exact length_quoted_le h

end CallChain.Toml
