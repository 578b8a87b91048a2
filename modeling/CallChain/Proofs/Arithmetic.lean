import CallChain.Proofs.CallSites
import CallChain.Proofs.Words

namespace CallChain.Arithmetic

inductive Level
  | sum
  | product
  | atom
  deriving DecidableEq, Repr

def isSpace (c : Char) : Bool := c = ' ' || c = '\t'

def isInteger (t : Text) : Bool :=
  t.head?.any Char.isDigit && t.all fun c ↦ c.isDigit || c = '_'

def integerValue (t : Text) : Int := Nat.ofDigitChars 10 (t.filter Char.isDigit) 0

/-- The text is an expression of the level, and has the value where the names have theirs. -/
inductive Denotes (env : Text → Int) : Level → Text → Int → Prop
  | name {t : Text} : Text.isIdentifier t → ¬Text.isConstant t → Denotes env .atom t (env t)
  | integer {t : Text} : isInteger t → Denotes env .atom t (integerValue t)
  | plus {t : Text} : isInteger t → Denotes env .atom ('+' :: t) (integerValue t)
  | minus {t : Text} : isInteger t → Denotes env .atom ('-' :: t) (-integerValue t)
  | paren {t : Text} {v : Int} : Denotes env .sum t v → Denotes env .atom ('(' :: t ++ [')']) v
  | spaceBefore {l : Level} {c : Char} {t : Text} {v : Int} :
      isSpace c → Denotes env l t v → Denotes env l (c :: t) v
  | spaceAfter {l : Level} {c : Char} {t : Text} {v : Int} :
      isSpace c → Denotes env l t v → Denotes env l (t ++ [c]) v
  | product {t : Text} {v : Int} : Denotes env .atom t v → Denotes env .product t v
  | mul {s t : Text} {m n : Int} :
      Denotes env .product s m → Denotes env .atom t n →
      Denotes env .product (s ++ '*' :: t) (m * n)
  | sum {t : Text} {v : Int} : Denotes env .product t v → Denotes env .sum t v
  | add {s t : Text} {m n : Int} :
      Denotes env .sum s m → Denotes env .product t n → Denotes env .sum (s ++ '+' :: t) (m + n)
  | sub {s t : Text} {m n : Int} :
      Denotes env .sum s m → Denotes env .product t n → Denotes env .sum (s ++ '-' :: t) (m - n)

def isArithmeticChar (c : Char) : Bool := isIdentChar c || c ∈ " \t+-*()".toList

section Characters

variable {c : Char}

theorem isIdentChar_of_isDigit (h : c.isDigit) : isIdentChar c := by
  have hlow : c.toNat < 0x80 := by
    have := toNat_of_isDigit h
    omega
  simp [isIdentChar, isNumeral, hlow, h]

theorem isBlank_of_isSpace (h : isSpace c) : isBlank c := by
  rw [isSpace, Bool.or_eq_true, decide_eq_true_eq, decide_eq_true_eq] at h
  obtain rfl | rfl := h <;> rfl

theorem not_isIdentChar_of_isSpace (h : isSpace c) : ¬isIdentChar c :=
  not_isIdentChar_of_isBlank (isBlank_of_isSpace h)

end Characters

section Integers

variable {t : Text}

theorem isIdentChar_of_isInteger (h : isInteger t) : ∀ c ∈ t, isIdentChar c := by
  intro c hc
  rw [isInteger, Bool.and_eq_true] at h
  have hchar := List.all_eq_true.1 h.2 c hc
  rw [Bool.or_eq_true, decide_eq_true_eq] at hchar
  obtain hd | rfl := hchar
  · exact isIdentChar_of_isDigit hd
  · rfl

theorem not_isInteger_of_isIdentifier (h : Text.isIdentifier t) : ¬isInteger t := by
  cases t with
  | nil => simp [isInteger]
  | cons c t =>
    simp only [Text.isIdentifier, Text.startsIdent, List.head?_cons, Option.any_some,
      Bool.and_eq_true] at h
    simp [isInteger, not_isDigit_of_isIdentStart h.1]

theorem ne_nil_of_isIdentifier (h : Text.isIdentifier t) : t ≠ [] := by
  intro he
  rw [he] at h
  simp [Text.isIdentifier, Text.startsIdent] at h

theorem ne_nil_of_isInteger (h : isInteger t) : t ≠ [] := by
  intro he
  rw [he] at h
  simp [isInteger] at h

end Integers

/-- How far a text has been read. A value may still be a factor of a product. -/
inductive Mode
  | operand
  | signed (sign : Int)
  | word (sign : Int) (w : Text)
  | value (v : Int)

/-- A pass over a text from left to right: what the operand that comes next adds to is `total`,
and what it is multiplied with is `factor`. `outer` holds these two for the parentheses around. -/
structure Pass where
  outer : List (Int × Int) := []
  total : Int := 0
  factor : Int := 1
  mode : Mode := .operand

namespace Pass

variable (env : Text → Int)

def wordValue (sign : Int) (w : Text) : Int := if isInteger w then sign * integerValue w else env w

def afterValue (p : Pass) (v : Int) (c : Char) : Option Pass :=
  if isSpace c then some { p with mode := .value v }
  else if c = '+' then
    some { p with total := p.total + p.factor * v, factor := 1, mode := .operand }
  else if c = '-' then
    some { p with total := p.total + p.factor * v, factor := -1, mode := .operand }
  else if c = '*' then some { p with factor := p.factor * v, mode := .operand }
  else if c = ')' then
    match p.outer with
    | [] => none
    | (total, factor) :: outer => some ⟨outer, total, factor, .value (p.total + p.factor * v)⟩
  else none

def step (p : Pass) (c : Char) : Option Pass :=
  match p.mode with
  | .operand =>
    if isIdentChar c then some { p with mode := .word 1 [c] }
    else if isSpace c then some p
    else if c = '+' then some { p with mode := .signed 1 }
    else if c = '-' then some { p with mode := .signed (-1) }
    else if c = '(' then some { outer := (p.total, p.factor) :: p.outer }
    else none
  | .signed sign => if isIdentChar c then some { p with mode := .word sign [c] } else none
  | .word sign w =>
    if isIdentChar c then some { p with mode := .word sign (w ++ [c]) }
    else p.afterValue (wordValue env sign w) c
  | .value v => p.afterValue v c

def run (p : Pass) (t : Text) : Option Pass := t.foldlM (step env) p

variable {env} {p q r : Pass} {c : Char} {s t : Text} {v : Int}

theorem run_cons (h : step env p c = some q) : run env p (c :: t) = run env q t := by
  rw [run, List.foldlM_cons, h]
  rfl

theorem run_append (h : run env p s = some q) : run env p (s ++ t) = run env q t := by
  rw [run, List.foldlM_append, ← run, h]
  rfl

theorem run_cons_eq_some (h : run env p (c :: t) = some q) :
    ∃ r, step env p c = some r ∧ run env r t = some q := by
  rw [run, List.foldlM_cons] at h
  exact Option.bind_eq_some_iff.1 h

theorem run_append_eq_some (h : run env p (s ++ t) = some q) :
    ∃ r, run env p s = some r ∧ run env r t = some q := by
  rw [run, List.foldlM_append] at h
  exact Option.bind_eq_some_iff.1 h

variable (env) in
def operand? (p : Pass) : Option Int :=
  match p.mode with
  | .word sign w => some (wordValue env sign w)
  | .value v => some v
  | _ => none

theorem step_of_operand? (h : p.operand? env = some v) (hc : ¬isIdentChar c) :
    step env p c = p.afterValue v c := by
  rcases p with ⟨outer, total, factor, mode⟩
  cases mode with
  | operand => simp [operand?] at h
  | signed sign => simp [operand?] at h
  | word sign w =>
    cases h
    simp [step, hc]
  | value v =>
    cases h
    rfl

theorem operand?_of_mode (h : p.mode = .value v) : p.operand? env = some v := by
  rw [operand?, h]

theorem step_plus (p : Pass) (h : p.mode = .operand) :
    step env p '+' = some { p with mode := .signed 1 } := by
  rw [step, h]
  rfl

theorem step_minus (p : Pass) (h : p.mode = .operand) :
    step env p '-' = some { p with mode := .signed (-1) } := by
  rw [step, h]
  rfl

theorem step_opening (p : Pass) (h : p.mode = .operand) :
    step env p '(' = some { outer := (p.total, p.factor) :: p.outer } := by
  rw [step, h]
  rfl

theorem run_word (ht : ∀ c ∈ t, isIdentChar c) (p : Pass) (sign : Int) (w : Text) :
    run env { p with mode := .word sign w } t = some { p with mode := .word sign (w ++ t) } := by
  induction t generalizing w with
  | nil => simp [run]
  | cons c t ih =>
    have hc := ht c (by simp)
    have hstep : step env { p with mode := .word sign w } c =
        some { p with mode := .word sign (w ++ [c]) } := by
      simp [step, hc]
    rw [run_cons hstep, ih fun d hd ↦ ht d (by simp [hd])]
    simp

theorem mode_afterValue_closing (h : p.afterValue v ')' = some q) : ∃ w, q.mode = .value w := by
  have hclose : p.afterValue v ')' = match p.outer with
      | [] => none
      | (total, factor) :: outer => some ⟨outer, total, factor, .value (p.total + p.factor * v)⟩ :=
    rfl
  rw [hclose] at h
  split at h
  · simp at h
  · cases h
    exact ⟨_, rfl⟩

theorem mode_closing (h : step env p ')' = some q) : ∃ w, q.mode = .value w := by
  rcases p with ⟨outer, total, factor, mode⟩
  cases mode with
  | operand => simp [step, show isIdentChar ')' = false from rfl, isSpace] at h
  | signed sign => simp [step, show isIdentChar ')' = false from rfl] at h
  | word sign w => exact mode_afterValue_closing h
  | value v => exact mode_afterValue_closing h

theorem mode_blank (hp : p.mode = .value v) (hc : isBlank c) (h : step env p c = some q) :
    q.mode = .value v := by
  have hne : ∀ d, isBlank d = false → c ≠ d := by
    intro d hd he
    rw [he, hd] at hc
    contradiction
  rw [step_of_operand? (operand?_of_mode hp) (not_isIdentChar_of_isBlank hc)] at h
  by_cases hs : isSpace c
  · rw [afterValue, if_pos hs] at h
    cases h
    rfl
  · rw [afterValue, if_neg hs, if_neg (hne '+' rfl), if_neg (hne '-' rfl), if_neg (hne '*' rfl),
      if_neg (hne ')' rfl)] at h
    contradiction

theorem run_blank (hp : p.mode = .value v) (ht : Text.isBlank t) (h : run env p t = some q) :
    q.mode = .value v := by
  induction t generalizing p with
  | nil =>
    cases h
    exact hp
  | cons c t ih =>
    rw [Text.isBlank, List.all_cons, Bool.and_eq_true] at ht
    obtain ⟨r, hr, hrun⟩ := run_cons_eq_some h
    exact ih (mode_blank hp ht.1 hr) ht.2 hrun

theorem run_closing_opening (hs : Text.isBlank s) : run env p (')' :: s ++ '(' :: t) ≠ some q := by
  intro h
  obtain ⟨r, hr, hrun⟩ := run_cons_eq_some h
  obtain ⟨w, hw⟩ := mode_closing hr
  obtain ⟨r', hr', hrun⟩ := run_append_eq_some hrun
  obtain ⟨r'', hopen, -⟩ := run_cons_eq_some hrun
  rw [step_of_operand? (operand?_of_mode (run_blank hw hs hr')) (by decide)] at hopen
  simp [afterValue, isSpace] at hopen

end Pass

/-- Reading the text where an operand is expected brings the pass past an operand. What the level
binds tighter than is left as it was. -/
def Level.Passes (env : Text → Int) (l : Level) (t : Text) (v : Int) : Prop :=
  ∀ p : Pass, p.mode = .operand → (l = .sum → p.total = 0 ∧ p.factor = 1) →
    ∃ q x, Pass.run env p t = some q ∧ q.operand? env = some x ∧ q.outer = p.outer ∧
      q.total + q.factor * x = p.total + p.factor * v ∧
      (l ≠ .sum → q.total = p.total)

namespace Level.Passes

variable {env : Text → Int} {l : Level} {s t : Text} {m n v : Int}

theorem of_run (h : ∀ p : Pass, p.mode = .operand →
    ∃ mode, Pass.run env p t = some { p with mode } ∧
      ({ p with mode } : Pass).operand? env = some v) : l.Passes env t v := by
  intro p hp _
  obtain ⟨mode, hrun, hv⟩ := h p hp
  exact ⟨_, v, hrun, hv, rfl, rfl, fun _ ↦ rfl⟩

theorem of_word (ht : ∀ c ∈ t, isIdentChar c) (hne : t ≠ []) :
    l.Passes env t (Pass.wordValue env 1 t) := by
  refine of_run fun p hp ↦ ?_
  obtain ⟨c, u, rfl⟩ := List.exists_cons_of_ne_nil hne
  have hstep : Pass.step env p c = some { p with mode := .word 1 [c] } := by
    simp [Pass.step, hp, ht c (by simp)]
  refine ⟨.word 1 (c :: u), ?_, rfl⟩
  rw [Pass.run_cons hstep, Pass.run_word fun d hd ↦ ht d (by simp [hd])]
  rfl

theorem of_signed {c : Char} {sign : Int} (ht : ∀ c ∈ t, isIdentChar c) (hne : t ≠ [])
    (hsign : ∀ p : Pass, p.mode = .operand →
      Pass.step env p c = some { p with mode := .signed sign }) :
    l.Passes env (c :: t) (Pass.wordValue env sign t) := by
  refine of_run fun p hp ↦ ?_
  obtain ⟨d, u, rfl⟩ := List.exists_cons_of_ne_nil hne
  have hstep : Pass.step env { p with mode := .signed sign } d =
      some { p with mode := .word sign [d] } := by
    simp [Pass.step, ht d (by simp)]
  refine ⟨.word sign (d :: u), ?_, rfl⟩
  rw [Pass.run_cons (hsign p hp), Pass.run_cons hstep,
    Pass.run_word fun e he ↦ ht e (by simp [he])]
  rfl

theorem paren (h : Level.sum.Passes env t v) : Level.atom.Passes env ('(' :: t ++ [')']) v := by
  refine of_run fun p hp ↦ ?_
  obtain ⟨q, x, hrun, hx, houter, hv, -⟩ :=
    h { outer := (p.total, p.factor) :: p.outer } rfl fun _ ↦ ⟨rfl, rfl⟩
  have hclose : Pass.step env q ')' = some { p with mode := .value v } := by
    rw [Pass.step_of_operand? hx (by decide), Pass.afterValue, houter, hv]
    simp [isSpace]
  refine ⟨.value v, ?_, rfl⟩
  rw [List.cons_append, Pass.run_cons (Pass.step_opening p hp), Pass.run_append hrun,
    Pass.run_cons hclose]
  rfl

theorem spaceBefore {c : Char} (hc : isSpace c) (h : l.Passes env t v) :
    l.Passes env (c :: t) v := by
  intro p hp hl
  have hstep : Pass.step env p c = some p := by
    simp [Pass.step, hp, not_isIdentChar_of_isSpace hc, hc]
  rw [Pass.run_cons hstep]
  exact h p hp hl

theorem spaceAfter {c : Char} (hc : isSpace c) (h : l.Passes env t v) :
    l.Passes env (t ++ [c]) v := by
  intro p hp hl
  obtain ⟨q, x, hrun, hx, hq⟩ := h p hp hl
  have hstep : Pass.step env q c = some { q with mode := .value x } := by
    rw [Pass.step_of_operand? hx (not_isIdentChar_of_isSpace hc), Pass.afterValue, if_pos hc]
  refine ⟨{ q with mode := .value x }, x, ?_, rfl, hq⟩
  rw [Pass.run_append hrun, Pass.run_cons hstep]
  rfl

theorem mul (hs : Level.product.Passes env s m) (ht : Level.atom.Passes env t n) :
    Level.product.Passes env (s ++ '*' :: t) (m * n) := by
  intro p hp _
  obtain ⟨q, x, hrun, hx, houter, hv, htotal⟩ := hs p hp nofun
  have htotal := htotal nofun
  have hstep : Pass.step env q '*' =
      some { q with factor := q.factor * x, mode := .operand } := by
    rw [Pass.step_of_operand? hx (by decide)]
    rfl
  obtain ⟨r, y, hrun', hy, houter', hv', htotal'⟩ :=
    ht { q with factor := q.factor * x, mode := .operand } rfl nofun
  refine ⟨r, y, ?_, hy, houter'.trans houter, ?_, fun _ ↦ (htotal' nofun).trans htotal⟩
  · rw [Pass.run_append hrun, Pass.run_cons hstep, hrun']
  · have hfactor : q.factor * x = p.factor * m := by omega
    rw [hv', hfactor, htotal, Int.mul_assoc]

theorem addend {c : Char} {sign : Int} (hs : Level.sum.Passes env s m) (hc : ¬isIdentChar c)
    (hsign : ∀ (p : Pass) (v : Int), p.afterValue v c =
      some { p with total := p.total + p.factor * v, factor := sign, mode := .operand })
    (ht : Level.product.Passes env t n) :
    Level.sum.Passes env (s ++ c :: t) (m + sign * n) := by
  intro p hp hsum
  obtain ⟨htotal, hfactor⟩ := hsum rfl
  obtain ⟨q, x, hrun, hx, houter, hv, -⟩ := hs p hp hsum
  have hstep : Pass.step env q c = some { q with
      total := q.total + q.factor * x, factor := sign, mode := .operand } := by
    rw [Pass.step_of_operand? hx hc, hsign]
  obtain ⟨r, y, hrun', hy, houter', hv', -⟩ := ht { q with
    total := q.total + q.factor * x, factor := sign, mode := .operand } rfl nofun
  refine ⟨r, y, ?_, hy, houter'.trans houter, ?_, fun h ↦ absurd rfl h⟩
  · rw [Pass.run_append hrun, Pass.run_cons hstep, hrun']
  · rw [hv']
    dsimp only
    rw [hv, htotal, hfactor]
    omega

end Level.Passes

theorem Denotes.passes {env : Text → Int} {l : Level} {t : Text} {v : Int}
    (h : Denotes env l t v) : l.Passes env t v := by
  induction h with
  | name ht _ =>
    have hword : Level.atom.Passes env _ _ :=
      .of_word (isIdentChar_of_isIdentifier ht) (ne_nil_of_isIdentifier ht)
    rwa [Pass.wordValue, if_neg (not_isInteger_of_isIdentifier ht)] at hword
  | integer ht =>
    have hword : Level.atom.Passes env _ _ :=
      .of_word (isIdentChar_of_isInteger ht) (ne_nil_of_isInteger ht)
    rwa [Pass.wordValue, if_pos ht, Int.one_mul] at hword
  | plus ht =>
    have hword : Level.atom.Passes env _ _ :=
      .of_signed (isIdentChar_of_isInteger ht) (ne_nil_of_isInteger ht) Pass.step_plus
    rwa [Pass.wordValue, if_pos ht, Int.one_mul] at hword
  | minus ht =>
    have hword : Level.atom.Passes env _ _ :=
      .of_signed (isIdentChar_of_isInteger ht) (ne_nil_of_isInteger ht) Pass.step_minus
    rwa [Pass.wordValue, if_pos ht, Int.neg_one_mul] at hword
  | paren _ ih => exact ih.paren
  | spaceBefore hc _ ih => exact ih.spaceBefore hc
  | spaceAfter hc _ ih => exact ih.spaceAfter hc
  | product _ ih =>
    intro p hp _
    obtain ⟨q, x, hrun, hx, houter, hv, htotal⟩ := ih p hp nofun
    exact ⟨q, x, hrun, hx, houter, hv, fun _ ↦ htotal nofun⟩
  | mul _ _ ihs iht => exact ihs.mul iht
  | sum _ ih =>
    intro p hp _
    obtain ⟨q, x, hrun, hx, houter, hv, -⟩ := ih p hp nofun
    exact ⟨q, x, hrun, hx, houter, hv, fun h ↦ absurd rfl h⟩
  | add _ _ ihs iht =>
    have hsum := ihs.addend (c := '+') (by decide) (fun _ _ ↦ rfl) iht
    rwa [Int.one_mul] at hsum
  | sub _ _ ihs iht =>
    have hsum := ihs.addend (c := '-') (by decide) (fun _ _ ↦ rfl) iht
    rwa [Int.neg_one_mul] at hsum

/-- A text has one value at most. -/
theorem Denotes.unique {env : Text → Int} {t : Text} {v w : Int} (hv : Denotes env .sum t v)
    (hw : Denotes env .sum t w) : v = w := by
  obtain ⟨q, x, hrun, hx, -, hvalue, -⟩ := hv.passes {} rfl fun _ ↦ ⟨rfl, rfl⟩
  obtain ⟨q', x', hrun', hx', -, hvalue', -⟩ := hw.passes {} rfl fun _ ↦ ⟨rfl, rfl⟩
  cases hrun.symm.trans hrun'
  cases hx.symm.trans hx'
  have h := hvalue.symm.trans hvalue'
  dsimp only at h
  omega

section Texts

variable {env : Text → Int} {l : Level} {t : Text} {v : Int}

theorem Denotes.chars (h : Denotes env l t v) : ∀ c ∈ t, isArithmeticChar c := by
  have hident : ∀ {u : Text}, (∀ c ∈ u, isIdentChar c) → ∀ c ∈ u, isArithmeticChar c :=
    fun hu c hc ↦ by rw [isArithmeticChar, hu c hc, Bool.true_or]
  have hspace : ∀ {c : Char}, isSpace c → isArithmeticChar c := by
    intro c hc
    rw [isSpace, Bool.or_eq_true, decide_eq_true_eq, decide_eq_true_eq] at hc
    obtain rfl | rfl := hc <;> rfl
  induction h with
  | name ht _ => exact hident (isIdentChar_of_isIdentifier ht)
  | integer ht => exact hident (isIdentChar_of_isInteger ht)
  | plus ht => exact List.forall_mem_cons.2 ⟨rfl, hident (isIdentChar_of_isInteger ht)⟩
  | minus ht => exact List.forall_mem_cons.2 ⟨rfl, hident (isIdentChar_of_isInteger ht)⟩
  | paren _ ih =>
    refine List.forall_mem_cons.2 ⟨rfl, List.forall_mem_append.2 ⟨ih, ?_⟩⟩
    exact List.forall_mem_singleton.2 rfl
  | spaceBefore hc _ ih => exact List.forall_mem_cons.2 ⟨hspace hc, ih⟩
  | spaceAfter hc _ ih =>
    exact List.forall_mem_append.2 ⟨ih, List.forall_mem_singleton.2 (hspace hc)⟩
  | product _ ih => exact ih
  | sum _ ih => exact ih
  | mul _ _ ihs iht => exact List.forall_mem_append.2 ⟨ihs, List.forall_mem_cons.2 ⟨rfl, iht⟩⟩
  | add _ _ ihs iht => exact List.forall_mem_append.2 ⟨ihs, List.forall_mem_cons.2 ⟨rfl, iht⟩⟩
  | sub _ _ ihs iht => exact List.forall_mem_append.2 ⟨ihs, List.forall_mem_cons.2 ⟨rfl, iht⟩⟩

theorem Denotes.not_mem (h : Denotes env l t v) {c : Char}
    (hc : isArithmeticChar c = false) : c ∉ t := by
  intro hmem
  rw [h.chars c hmem] at hc
  contradiction

theorem Denotes.balanced (h : Denotes env l t v) : Text.Balanced t := by
  have hword : ∀ {u : Text}, (∀ c ∈ u, isIdentChar c) → Text.Balanced u := fun hu ↦
    Text.Plain.balanced fun c hc ↦ Role.of_ident (hu c hc)
  have hchar : ∀ {c : Char}, Role.of c = .plain → Text.Balanced [c] := fun hc ↦
    Text.Plain.balanced (List.forall_mem_singleton.2 hc)
  induction h with
  | name ht _ => exact hword (isIdentChar_of_isIdentifier ht)
  | integer ht => exact hword (isIdentChar_of_isInteger ht)
  | plus ht => exact (hchar (by decide)).append (hword (isIdentChar_of_isInteger ht))
  | minus ht => exact (hchar (by decide)).append (hword (isIdentChar_of_isInteger ht))
  | paren _ ih => exact ih.enclosed .round
  | spaceBefore hc _ ih => exact (hchar (Role.of_blank (isBlank_of_isSpace hc))).append ih
  | spaceAfter hc _ ih => exact ih.append (hchar (Role.of_blank (isBlank_of_isSpace hc)))
  | product _ ih => exact ih
  | sum _ ih => exact ih
  | mul _ _ ihs iht => exact ihs.append ((hchar (by decide)).append iht)
  | add _ _ ihs iht => exact ihs.append ((hchar (by decide)).append iht)
  | sub _ _ ihs iht => exact ihs.append ((hchar (by decide)).append iht)

theorem not_isBlank_of_word (ht : ∀ c ∈ t, isIdentChar c) (hne : t ≠ []) : ¬Text.isBlank t := by
  obtain ⟨c, u, rfl⟩ := List.exists_cons_of_ne_nil hne
  intro hb
  exact not_isIdentChar_of_isBlank (List.all_eq_true.1 hb c (by simp)) (ht c (by simp))

theorem Denotes.not_isBlank (h : Denotes env l t v) : ¬Text.isBlank t := by
  induction h with
  | name ht _ =>
    exact not_isBlank_of_word (isIdentChar_of_isIdentifier ht) (ne_nil_of_isIdentifier ht)
  | integer ht =>
    exact not_isBlank_of_word (isIdentChar_of_isInteger ht) (ne_nil_of_isInteger ht)
  | product _ ih => exact ih
  | sum _ ih => exact ih
  | spaceBefore _ _ ih =>
    rw [Text.isBlank, List.all_cons, Bool.and_eq_true]
    exact fun hb ↦ ih hb.2
  | spaceAfter _ _ ih =>
    rw [Text.isBlank, List.all_append, Bool.and_eq_true]
    exact fun hb ↦ ih hb.1
  | mul _ _ ihs _ | add _ _ ihs _ | sub _ _ ihs _ =>
    rw [Text.isBlank, List.all_append, Bool.and_eq_true]
    exact fun hb ↦ ihs hb.1
  | plus _ | minus _ | paren _ _ => simp [Text.isBlank, show isBlank '+' = false from rfl,
      show isBlank '-' = false from rfl, show isBlank '(' = false from rfl]

theorem trimStart_word (ht : ∀ c ∈ t, isIdentChar c) : Text.trimStart t = t :=
  Text.trimStart_eq_self fun c hc hb ↦
    not_isIdentChar_of_isBlank hb (ht c (List.mem_of_mem_head? hc))

theorem trimEnd_word (ht : ∀ c ∈ t, isIdentChar c) : Text.trimEnd t = t :=
  Text.trimEnd_eq_self fun c hc hb ↦
    not_isIdentChar_of_isBlank hb (ht c (List.mem_of_getLast? hc))

theorem trimEnd_signed (ht : isInteger t) (c : Char) : Text.trimEnd (c :: t) = c :: t := by
  have hword := isIdentChar_of_isInteger ht
  have hblank := not_isBlank_of_word hword (ne_nil_of_isInteger ht)
  rw [Text.trimEnd_cons hblank, trimEnd_word hword]

theorem Denotes.trimStart (h : Denotes env l t v) : Denotes env l (Text.trimStart t) v := by
  induction h with
  | name ht hc =>
    rw [trimStart_word (isIdentChar_of_isIdentifier ht)]
    exact .name ht hc
  | integer ht =>
    rw [trimStart_word (isIdentChar_of_isInteger ht)]
    exact .integer ht
  | plus ht => exact .plus ht
  | minus ht => exact .minus ht
  | paren ht _ => exact .paren ht
  | spaceBefore hc _ ih =>
    rw [Text.trimStart, List.dropWhile_cons, if_pos (isBlank_of_isSpace hc)]
    exact ih
  | spaceAfter hc ht ih =>
    rw [Text.trimStart_append_of_not_blank ht.not_isBlank]
    exact .spaceAfter hc ih
  | product _ ih => exact .product ih
  | sum _ ih => exact .sum ih
  | mul hs ht ih _ =>
    rw [Text.trimStart_append_of_not_blank hs.not_isBlank]
    exact .mul ih ht
  | add hs ht ih _ =>
    rw [Text.trimStart_append_of_not_blank hs.not_isBlank]
    exact .add ih ht
  | sub hs ht ih _ =>
    rw [Text.trimStart_append_of_not_blank hs.not_isBlank]
    exact .sub ih ht

theorem Denotes.trimEnd (h : Denotes env l t v) : Denotes env l (Text.trimEnd t) v := by
  induction h with
  | name ht hc =>
    rw [trimEnd_word (isIdentChar_of_isIdentifier ht)]
    exact .name ht hc
  | integer ht =>
    rw [trimEnd_word (isIdentChar_of_isInteger ht)]
    exact .integer ht
  | plus ht =>
    rw [trimEnd_signed ht]
    exact .plus ht
  | minus ht =>
    rw [trimEnd_signed ht]
    exact .minus ht
  | @paren t _ ht _ =>
    have hclose : ¬Text.isBlank [')'] := by decide
    rw [Text.trimEnd_append_of_not_blank hclose ('(' :: t)]
    exact .paren ht
  | spaceBefore hc ht ih =>
    rw [Text.trimEnd_cons ht.not_isBlank]
    exact .spaceBefore hc ih
  | spaceAfter hc _ ih =>
    rw [Text.trimEnd_append_blank (by simp [Text.isBlank, isBlank_of_isSpace hc])]
    exact ih
  | product _ ih => exact .product ih
  | sum _ ih => exact .sum ih
  | mul hs ht _ ih =>
    rw [Text.trimEnd_append_cons ht.not_isBlank]
    exact .mul hs ih
  | add hs ht _ ih =>
    rw [Text.trimEnd_append_cons ht.not_isBlank]
    exact .add hs ih
  | sub hs ht _ ih =>
    rw [Text.trimEnd_append_cons ht.not_isBlank]
    exact .sub hs ih

theorem Denotes.trim (h : Denotes env l t v) : Denotes env l (Text.trim t) v := h.trimStart.trimEnd

theorem Denotes.toSum (h : Denotes env l t v) : Denotes env .sum t v := by
  cases l with
  | sum => exact h
  | product => exact .sum h
  | atom => exact .sum (.product h)

theorem Denotes.spacesBefore (h : Denotes env l t v) {w : Text} (hw : ∀ c ∈ w, isSpace c) :
    Denotes env l (w ++ t) v := by
  induction w with
  | nil => exact h
  | cons c w ih =>
    rw [List.forall_mem_cons] at hw
    exact .spaceBefore hw.1 (ih hw.2)

theorem Denotes.add_sum {s w : Text} {m n : Int} (hs : Denotes env .sum s m)
    (hw : ∀ c ∈ w, isSpace c) (ht : Denotes env .sum t n) :
    Denotes env .sum (s ++ '+' :: (w ++ t)) (m + n) := by
  generalize hl : Level.sum = l at ht
  induction ht generalizing w with
  | name _ _ | integer _ | plus _ | minus _ | paren _ _ | product _ _ | mul _ _ _ _ => cases hl
  | @spaceBefore _ c t _ hc _ ih =>
    have hspaces : ∀ d ∈ w ++ [c], isSpace d :=
      List.forall_mem_append.2 ⟨hw, List.forall_mem_singleton.2 hc⟩
    simpa using ih hspaces hl
  | spaceAfter hc _ ih => simpa using Denotes.spaceAfter hc (ih hw hl)
  | sum ht _ => exact .add hs (ht.spacesBefore hw)
  | @add _ _ m' n' _ ht ih _ =>
    have hsum := Denotes.add (ih hw hl) ht
    rw [Int.add_assoc] at hsum
    simpa using hsum
  | @sub _ _ m' n' _ ht ih _ =>
    have hsum := Denotes.sub (ih hw hl) ht
    rw [Int.add_sub_assoc] at hsum
    simpa using hsum

theorem Denotes.mul_product {s w : Text} {m n : Int} (hs : Denotes env .product s m)
    (hw : ∀ c ∈ w, isSpace c) (ht : Denotes env .product t n) :
    Denotes env .product (s ++ '*' :: (w ++ t)) (m * n) := by
  generalize hl : Level.product = l at ht
  induction ht generalizing w with
  | name _ _ | integer _ | plus _ | minus _ | paren _ _ | sum _ _ | add _ _ _ _ | sub _ _ _ _ =>
    cases hl
  | @spaceBefore _ c t _ hc _ ih =>
    have hspaces : ∀ d ∈ w ++ [c], isSpace d :=
      List.forall_mem_append.2 ⟨hw, List.forall_mem_singleton.2 hc⟩
    simpa using ih hspaces hl
  | spaceAfter hc _ ih => simpa using Denotes.spaceAfter hc (ih hw hl)
  | product ht _ => exact .mul hs (ht.spacesBefore hw)
  | mul _ ht ih _ =>
    have hproduct := Denotes.mul (ih hw hl) ht
    rw [Int.mul_assoc] at hproduct
    simpa using hproduct

theorem isIdentifier_of_isConstant (h : Text.isConstant t) : Text.isIdentifier t := by
  have hall : constants.all Text.isIdentifier := by decide
  obtain ⟨u, hu, rfl⟩ : ∃ u ∈ constants, u = t := by simpa [Text.isConstant] using h
  exact List.all_eq_true.1 hall u hu

theorem Denotes.not_isConstant (h : Denotes env l t v) : ¬Text.isConstant t := by
  intro hc
  have hchars := isIdentChar_of_isIdentifier (isIdentifier_of_isConstant hc)
  induction h with
  | name _ hname => exact hname hc
  | integer ht => exact not_isInteger_of_isIdentifier (isIdentifier_of_isConstant hc) ht
  | product _ ih => exact ih hc hchars
  | sum _ ih => exact ih hc hchars
  | spaceBefore hspace _ _ => exact not_isIdentChar_of_isSpace hspace (hchars _ (by simp))
  | spaceAfter hspace _ _ => exact not_isIdentChar_of_isSpace hspace (hchars _ (by simp))
  | plus _ => exact absurd (hchars '+' (by simp)) (by decide)
  | minus _ => exact absurd (hchars '-' (by simp)) (by decide)
  | paren _ _ => exact absurd (hchars '(' (by simp)) (by decide)
  | mul _ _ _ _ => exact absurd (hchars '*' (by simp)) (by decide)
  | add _ _ _ _ => exact absurd (hchars '+' (by simp)) (by decide)
  | sub _ _ _ _ => exact absurd (hchars '-' (by simp)) (by decide)

/-- No group of an arithmetic text stands right behind another one. -/
theorem Denotes.callSite? (h : Denotes env l t v) : Text.callSite? t = none := by
  refine Text.callSite?_eq_none_of_gaps fun g hg hblank ↦ ?_
  obtain ⟨s, u, htext⟩ := Text.exists_gap_of_mem_tail hg
  obtain ⟨q, -, hrun, -⟩ := h.toSum.passes {} rfl fun _ ↦ ⟨rfl, rfl⟩
  rw [htext] at hrun
  obtain ⟨p, -, hrun⟩ := Pass.run_append_eq_some hrun
  exact Pass.run_closing_opening hblank hrun

end Texts

end CallChain.Arithmetic
