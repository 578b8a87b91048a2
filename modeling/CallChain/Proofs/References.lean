import CallChain.Proofs.Bindings
import CallChain.Proofs.Spans
import CallChain.Proofs.Targets

namespace CallChain

namespace Text

/-- An identifier that is no word of Python. -/
def isName (t : Text) : Bool := isIdentifier t && !isConstant t && !isKeyword t

/-- Members and subscripts, one after the other. -/
inductive Trail : Text → Prop
  | nil : Trail []
  | member {name t : Text} : isIdentifier name → Trail t → Trail ('.' :: name ++ t)
  | subscript {inside t : Text} : Nested inside → Trail t → Trail ('[' :: inside ++ ']' :: t)

inductive IsReference : Text → Prop
  | intro {name trail : Text} : isName name → Trail trail → IsReference (name ++ trail)

def topCharsFrom (n : Nesting) : Text → Text
  | [] => []
  | c :: t => if n.isTop then c :: topCharsFrom (n.next c) t else topCharsFrom (n.next c) t

/-- The characters outside brackets and strings, with the brackets and quotes that open there. -/
def topChars (t : Text) : Text := topCharsFrom {} t

/-- The words between the dots are identifiers, but for the first one, which is what it is asked to
be. -/
def isDotted (first : Text → Bool) (t : Text) : Bool :=
  match pieces '.' t with
  | [] => false
  | word :: words => first word && words.all isIdentifier

def isReferenceFrom (first : Text → Bool) (t : Text) : Bool :=
  match pieces '[' t with
  | [] => false
  | part :: parts => isDotted first part && parts.all (isDotted List.isEmpty)

/-- Outside brackets and strings there is a name with members, and only members behind a bracket. -/
def isReference (t : Text) : Bool := isReferenceFrom isName (topChars t)

section

variable {n m : Nesting} {c : Char} {s t : Text}

theorem topCharsFrom_append (n : Nesting) (s t : Text) :
    topCharsFrom n (s ++ t) = topCharsFrom n s ++ topCharsFrom (n.after s) t := by
  induction s generalizing n with
  | nil => rfl
  | cons c s ih =>
    rw [List.cons_append, topCharsFrom, topCharsFrom, ih, Nesting.after_cons]
    split <;> rfl

theorem topChars_append (hs : Balanced s) (t : Text) :
    topChars (s ++ t) = topChars s ++ topChars t := by
  rw [topChars, topCharsFrom_append, (balanced_iff.1 hs).after_eq]
  rfl

theorem topChars_cons (hc : Role.of c = .plain) (t : Text) :
    topChars (c :: t) = c :: topChars t := by
  have hplain : Plain [c] := List.forall_mem_singleton.2 hc
  exact topChars_append hplain.balanced t

theorem topChars_of_plain (h : Plain t) : topChars t = t := by
  induction t with
  | nil => rfl
  | cons c t ih => rw [topChars_cons (h c (by simp)), ih fun d hd ↦ h d (by simp [hd])]

theorem topCharsFrom_under (h : n.Reads t m) (b : Bracket) (bs : List Bracket) :
    topCharsFrom (n.under (b :: bs)) t = [] := by
  induction h with
  | nil => rfl
  | cons hc _ ih =>
    rw [topCharsFrom, if_neg (by simp [Nesting.isTop]), Nesting.next_under hc, ih]

theorem topCharsFrom_contents {q : Quote} (h : q.Contents s) :
    topCharsFrom ⟨[], .literal q⟩ (s ++ [q.mark]) = [] := by
  have htop : ∀ bs, (Nesting.mk bs (.literal q)).isTop = false := by
    simp [Nesting.isTop, Nesting.inString]
  induction h with
  | nil => simp [topCharsFrom, htop]
  | plain hmark hback _ ih =>
    rw [List.cons_append, topCharsFrom, htop, Nesting.next_quoted hmark hback]
    exact ih
  | escaped _ ih =>
    rw [List.cons_append, topCharsFrom, htop, Nesting.next_backslash]
    exact ih

theorem topChars_literal {q : Quote} (h : q.Contents s) (t : Text) :
    topChars (q.mark :: s ++ q.mark :: t) = q.mark :: topChars t := by
  have hliteral : topChars (q.mark :: s ++ [q.mark]) = [q.mark] := by
    rw [topChars, List.cons_append, topCharsFrom, Nesting.next_quote, topCharsFrom_contents h]
    rfl
  have hsplit : q.mark :: s ++ q.mark :: t = (q.mark :: s ++ [q.mark]) ++ t := by simp
  rw [hsplit, topChars_append (balanced_iff.2 (Nesting.reads_literal h)), hliteral]
  rfl

theorem topChars_enclosed (b : Bracket) (h : Balanced s) (t : Text) :
    topChars (b.opening :: s ++ b.closing :: t) = b.opening :: topChars t := by
  have hopen : ({} : Nesting).next b.opening = .within b := by simp [Nesting.next, Nesting.within]
  have hinside : topCharsFrom (.within b) s = [] := topCharsFrom_under (balanced_iff.1 h) b []
  have hblock : topChars (b.opening :: s ++ [b.closing]) = [b.opening] := by
    rw [topChars, List.cons_append, topCharsFrom, hopen, topCharsFrom_append, hinside,
      (h.reads (n := .within b) rfl).after_eq]
    simp [topCharsFrom, Nesting.isTop, Nesting.within, Nesting.inString]
  have hsplit : b.opening :: s ++ b.closing :: t = (b.opening :: s ++ [b.closing]) ++ t := by simp
  rw [hsplit, topChars_append (h.enclosed b), hblock]
  rfl

end

section

variable {first : Text → Bool} {c : Char} {t : Text}

theorem isReferenceFrom_nil : isReferenceFrom first [] = first [] := by
  simp [isReferenceFrom, isDotted, pieces]

theorem isReferenceFrom_bracket :
    isReferenceFrom first ('[' :: t) = (first [] && isReferenceFrom List.isEmpty t) := by
  obtain ⟨p, ps, hp⟩ := List.exists_cons_of_ne_nil (pieces_ne_nil '[' t)
  have hnil : isDotted first [] = first [] := by simp [isDotted, pieces]
  simp [isReferenceFrom, pieces_separator, hp, hnil]

theorem isReferenceFrom_dot :
    isReferenceFrom first ('.' :: t) = (first [] && isReferenceFrom isIdentifier t) := by
  obtain ⟨p, ps, hp⟩ := List.exists_cons_of_ne_nil (pieces_ne_nil '[' t)
  obtain ⟨w, ws, hw⟩ := List.exists_cons_of_ne_nil (pieces_ne_nil '.' p)
  have hdot : isDotted first ('.' :: p) = (first [] && isDotted isIdentifier p) := by
    simp [isDotted, pieces_separator, hw]
  simp [isReferenceFrom, pieces_cons (show '.' ≠ '[' by decide), hp, hdot, Bool.and_assoc]

theorem isReferenceFrom_cons (hbracket : c ≠ '[') (hdot : c ≠ '.') :
    isReferenceFrom first (c :: t) = isReferenceFrom (fun u ↦ first (c :: u)) t := by
  obtain ⟨p, ps, hp⟩ := List.exists_cons_of_ne_nil (pieces_ne_nil '[' t)
  obtain ⟨w, ws, hw⟩ := List.exists_cons_of_ne_nil (pieces_ne_nil '.' p)
  simp [isReferenceFrom, isDotted, pieces_cons hbracket, pieces_cons hdot, hp, hw]

theorem exists_first (h : isReferenceFrom first t) : ∃ word, first word := by
  obtain ⟨p, ps, hp⟩ := List.exists_cons_of_ne_nil (pieces_ne_nil '[' t)
  obtain ⟨w, ws, hw⟩ := List.exists_cons_of_ne_nil (pieces_ne_nil '.' p)
  refine ⟨w, ?_⟩
  simp only [isReferenceFrom, hp, isDotted, hw, Bool.and_eq_true] at h
  exact h.1.1

theorem isReferenceFrom_word {word : Text} (hword : ∀ c ∈ word, isIdentChar c) (t : Text) :
    isReferenceFrom first (word ++ t) = isReferenceFrom (fun u ↦ first (word ++ u)) t := by
  induction word generalizing first with
  | nil => rfl
  | cons c word ih =>
    have hc : isIdentChar c := hword c (by simp)
    have hbracket : c ≠ '[' := by
      rintro rfl
      exact absurd hc (by decide +kernel)
    have hdot : c ≠ '.' := by
      rintro rfl
      exact absurd hc (by decide +kernel)
    rw [List.cons_append, isReferenceFrom_cons hbracket hdot, ih fun d hd ↦ hword d (by simp [hd])]
    rfl

end

theorem Trail.isReferenceFrom {t : Text} (h : Trail t) {first : Text → Bool} (hfirst : first []) :
    isReferenceFrom first (topChars t) := by
  induction h generalizing first with
  | nil => simpa [topChars, topCharsFrom, isReferenceFrom_nil] using hfirst
  | @member name t hname ht ih =>
    have hplain : Plain ('.' :: name) := by
      exact List.forall_mem_cons.2 ⟨by decide, plain_of_isIdentifier hname⟩
    rw [topChars_append hplain.balanced, topChars_of_plain hplain, List.cons_append,
      isReferenceFrom_dot, hfirst, isReferenceFrom_word (isIdentChar_of_isIdentifier hname)]
    apply ih
    simpa using hname
  | @subscript inside t hinside _ ih =>
    have htop : topChars ('[' :: inside ++ ']' :: t) = '[' :: topChars t :=
      topChars_enclosed .square hinside.balanced t
    rw [htop, isReferenceFrom_bracket, hfirst]
    exact ih rfl

theorem not_isReferenceFrom_cons {first : Text → Bool}
    (hfirst : ∀ word, first word → ∀ c ∈ word, isIdentChar c) {c : Char}
    (hc : isIdentChar c = false) (hbracket : c ≠ '[') (hdot : c ≠ '.') (t : Text) :
    ¬Text.isReferenceFrom first (c :: t) := by
  intro h
  rw [isReferenceFrom_cons hbracket hdot] at h
  obtain ⟨word, hword⟩ := exists_first h
  have hident := hfirst (c :: word) hword c (by simp)
  simp [hc] at hident

theorem exists_trail {t : Text} (h : Nested t) {first : Text → Bool}
    (hfirst : ∀ word, first word → ∀ c ∈ word, isIdentChar c)
    (hr : Text.isReferenceFrom first (topChars t)) :
    ∃ word trail, t = word ++ trail ∧ first word ∧ Trail trail := by
  induction h generalizing first with
  | nil =>
    have hnil : first [] := by simpa [topChars, topCharsFrom, isReferenceFrom_nil] using hr
    exact ⟨[], [], rfl, hnil, .nil⟩
  | @plain c t hc _ ih =>
    rw [topChars_cons hc] at hr
    have hbracket : c ≠ '[' := by
      rintro rfl
      simp [Role.of] at hc
    by_cases hdot : c = '.'
    · subst hdot
      rw [isReferenceFrom_dot, Bool.and_eq_true] at hr
      obtain ⟨name, trail, rfl, hname, htrail⟩ := ih (fun _ ↦ isIdentChar_of_isIdentifier) hr.2
      exact ⟨[], '.' :: name ++ trail, rfl, hr.1, .member hname htrail⟩
    · rw [isReferenceFrom_cons hbracket hdot] at hr
      have hrest : ∀ word, first (c :: word) → ∀ d ∈ word, isIdentChar d := by
        intro word hword d hd
        exact hfirst (c :: word) hword d (by simp [hd])
      obtain ⟨word, trail, rfl, hword, htrail⟩ := ih hrest hr
      exact ⟨c :: word, trail, rfl, hword, htrail⟩
  | @literal q s t hs _ ih =>
    rw [topChars_literal hs] at hr
    refine absurd hr (not_isReferenceFrom_cons hfirst ?_ ?_ ?_ _)
    · cases q <;> decide +kernel
    · cases q <;> decide
    · cases q <;> decide
  | @enclosed b s t hs _ _ ih =>
    rw [topChars_enclosed b hs.balanced] at hr
    cases b with
    | square =>
      have hbracket := Bool.and_eq_true_iff.1 (isReferenceFrom_bracket.symm.trans hr)
      obtain ⟨word, trail, rfl, hword, htrail⟩ := ih (by simp) hbracket.2
      rw [List.isEmpty_iff.1 hword]
      exact ⟨[], '[' :: s ++ ']' :: trail, rfl, hbracket.1, .subscript hs htrail⟩
    | round | curly =>
      exact absurd hr
        (not_isReferenceFrom_cons hfirst (by decide +kernel) (by decide) (by decide) _)

theorem isIdentChar_of_isName {t : Text} (h : isName t) : ∀ c ∈ t, isIdentChar c := by
  rw [isName, Bool.and_eq_true, Bool.and_eq_true] at h
  exact isIdentChar_of_isIdentifier h.1.1

/-- What stands outside the brackets of a text tells whether it is a reference. -/
theorem isReference_iff {t : Text} (h : Nested t) : isReference t ↔ IsReference t := by
  constructor
  · intro hr
    obtain ⟨name, trail, rfl, hname, htrail⟩ := exists_trail h (fun _ ↦ isIdentChar_of_isName) hr
    exact .intro hname htrail
  · rintro ⟨hname, htrail⟩
    have hchars := isIdentChar_of_isName hname
    have hplain : Plain _ := fun c hc ↦ Role.of_ident (hchars c hc)
    rw [isReference, topChars_append hplain.balanced, topChars_of_plain hplain,
      isReferenceFrom_word hchars]
    apply htrail.isReferenceFrom
    simpa using hname

section

variable {n m : Nesting} {t : Text}

theorem not_mem_topCharsFrom (h : n.Reads t m) (hopen : openGroupFrom n t = none) :
    '(' ∉ topCharsFrom n t := by
  induction h with
  | nil => simp [topCharsFrom]
  | @cons n m c t hc _ ih =>
    rw [openGroupFrom, if_neg hc] at hopen
    split at hopen
    · cases hopen
    · rename_i htop
      have hrest := ih (Option.map_eq_none_iff.1 hopen)
      rw [topCharsFrom]
      split
      · rename_i hn
        have hround : '(' ≠ c := by
          rintro rfl
          simp [hn] at htop
        exact List.not_mem_cons_of_ne_of_not_mem hround hrest
      · exact hrest

theorem square_mem_topChars (h : Nested t) (hlast : t.getLast? = some ']') : '[' ∈ topChars t := by
  induction h with
  | nil => cases hlast
  | @plain c t hc _ ih =>
    rw [topChars_cons hc]
    cases t with
    | nil =>
      cases hlast
      cases hc
    | cons d t => exact List.mem_cons_of_mem _ (ih hlast)
  | @literal q s t hs _ ih =>
    rw [List.getLast?_append_cons] at hlast
    rw [topChars_literal hs]
    cases t with
    | nil => cases q <;> cases hlast
    | cons d t => exact List.mem_cons_of_mem _ (ih hlast)
  | @enclosed b s t hs _ _ ih =>
    rw [List.getLast?_append_cons] at hlast
    rw [topChars_enclosed b hs.balanced]
    cases t with
    | nil =>
      cases b with
      | square => exact List.mem_cons_self
      | round | curly => cases hlast
    | cons d t => exact List.mem_cons_of_mem _ (ih hlast)

end

section Assignable

variable {t path rest : Text}

theorem IsPath.plain (h : IsPath path) : Plain path := fun c hc ↦
  Role.of_name (by simpa [isNameChar] using h.chars c hc)

theorem round_not_mem_topChars (h : isAssignable t) (ht : Balanced t) : '(' ∉ topChars t := by
  obtain ⟨path, rest, rfl, hpath, hrest⟩ := isAssignable_cases h
  have hround : '(' ∉ path := by
    intro hmem
    have hplain := hpath.plain '(' hmem
    cases hplain
  rw [balanced_append_iff hpath.plain.balanced] at ht
  rw [topChars_append hpath.plain.balanced, topChars_of_plain hpath.plain, List.mem_append, not_or]
  refine ⟨hround, ?_⟩
  obtain rfl | ⟨-, hgroups⟩ := hrest
  · simp [topChars, topCharsFrom]
  · exact not_mem_topCharsFrom (balanced_iff.1 ht) (openGroup_eq_none ht hgroups)

theorem topChars_subscript {inside : Text} (h : Balanced ('[' :: inside ++ [']']))
    (hcount : (topChars ('[' :: inside ++ [']'])).count '[' ≤ 1) :
    topChars ('[' :: inside ++ [']']) = ['['] := by
  cases balanced_iff.1 h with
  | cons _ hread =>
    obtain ⟨s, u, hinside, hs, hu⟩ : (Nesting.within .square).Completes (inside ++ [']']) :=
      hread.completes
    replace hinside : inside ++ [']'] = s ++ ']' :: u := hinside
    have htop : topChars ('[' :: inside ++ [']']) = '[' :: topChars u := by
      rw [List.cons_append, hinside]
      exact topChars_enclosed .square hs.balanced u
    -- a second part would end with the last bracket, which closes a subscript of its own
    have hnil : u = [] := by
      by_contra hne
      have hlast : u.getLast? = some ']' := by
        have hall := congrArg List.getLast? hinside
        rw [List.getLast?_concat, List.getLast?_append_cons,
          List.getLast?_cons_of_ne_nil hne] at hall
        exact hall.symm
      have hmem := List.count_pos_iff.2 (square_mem_topChars hu hlast)
      rw [htop, List.count_cons_self] at hcount
      omega
    rw [htop, hnil]
    rfl

/-- With one subscript at most, it is left to the words in front of it whether a text that can be
assigned to is a reference. -/
theorem isReference_of_isAssignable (h : isAssignable t) (ht : Balanced t)
    (hcount : (topChars t).count '[' ≤ 1) :
    isReference t = isDotted isName ((topChars t).takeWhile (· ≠ '[')) := by
  obtain ⟨path, rest, rfl, hpath, hrest⟩ := isAssignable_cases h
  have hsquare : '[' ∉ path := by
    intro hmem
    have hplain := hpath.plain '[' hmem
    cases hplain
  have hwhile : ∀ c ∈ path, decide (c ≠ '[') := by
    intro c hc
    rw [decide_eq_true_iff]
    rintro rfl
    exact hsquare hc
  rw [balanced_append_iff hpath.plain.balanced] at ht
  rw [topChars_append hpath.plain.balanced, topChars_of_plain hpath.plain] at hcount
  rw [isReference, topChars_append hpath.plain.balanced, topChars_of_plain hpath.plain,
    List.takeWhile_append_of_pos hwhile, isReferenceFrom, pieces_append hsquare]
  obtain rfl | ⟨⟨inside, rfl⟩, -⟩ := hrest
  · simp [topChars, topCharsFrom, pieces]
  · rw [List.count_append] at hcount
    rw [topChars_subscript ht (by omega)]
    simp [pieces, isDotted]

theorem not_isString_of_path (hpath : IsPath path) (hrest : ∀ c ∈ rest.head?, c = '[') :
    Literal.isString (path ++ rest) = false := by
  have hquote : ∀ q ∈ ((path ++ rest).dropWhile (· ∈ ['f', 'F', 'r', 'R'])).head?,
      q ≠ '"' ∧ q ≠ '\'' := by
    intro q hq
    rw [List.dropWhile_append] at hq
    split at hq
    · have hbracket : q = '[' := by
        cases rest with
        | nil => cases hq
        | cons c rest =>
          obtain rfl : c = '[' := hrest c rfl
          cases hq
          rfl
      rw [hbracket]
      decide
    · rename_i hne
      have hmem : q ∈ path := by
        rw [List.head?_append_of_ne_nil _ (by simpa using hne)] at hq
        exact (List.dropWhile_suffix _).subset (List.mem_of_mem_head? hq)
      have hplain := hpath.plain q hmem
      constructor
      · rintro rfl
        cases hplain
      · rintro rfl
        cases hplain
  rw [Literal.isString]
  split
  · rename_i q hq
    obtain ⟨hdouble, hsingle⟩ := hquote q hq
    simp [hdouble, hsingle]
  · rw [Bool.and_false]

theorem numberType_of_isIdentStart {c : Char} (h : isIdentStart c) (t : Text) :
    Literal.numberType (Literal.unsigned (c :: t)) = .any := by
  have hno : ∀ d, isIdentStart d = false → c ≠ d := by
    rintro d hd rfl
    simp [h] at hd
  have hunsigned : Literal.unsigned (c :: t) = c :: t := by
    simp [Literal.unsigned, hno '-' (by decide +kernel), hno '+' (by decide +kernel)]
  simp [hunsigned, Literal.numberType, not_isDigit_of_isIdentStart h, hno '.' (by decide +kernel)]

theorem trim_of_isAssignable (h : isAssignable t) : trim t = t := by
  obtain ⟨path, rest, rfl, hpath, hrest⟩ := isAssignable_cases h
  have hname : ∀ c ∈ path, ¬CallChain.isBlank c := fun c hc ↦
    not_isBlank_of_isNameChar (by simpa [isNameChar] using hpath.chars c hc)
  have hne : path ≠ [] := by
    rintro rfl
    cases hpath.starts
  apply trim_eq_self
  · intro c hc
    rw [List.head?_append_of_ne_nil _ hne] at hc
    exact hname c (List.mem_of_mem_head? hc)
  · intro c hc
    obtain rfl | ⟨⟨inside, rfl⟩, -⟩ := hrest
    · rw [List.append_nil] at hc
      exact hname c (List.mem_of_getLast? hc)
    · rw [← List.append_assoc, List.getLast?_concat] at hc
      cases hc
      decide

theorem typeOf_of_isAssignable (h : isAssignable t) : Literal.typeOf t = .any := by
  have hconstant : ¬(t = "True".toList || t = "False".toList) = true := by
    rw [Bool.or_eq_true, decide_eq_true_iff, decide_eq_true_iff]
    rintro (rfl | rfl)
    · exact absurd h (by decide +kernel)
    · exact absurd h (by decide +kernel)
  obtain ⟨path, rest, rfl, hpath, hrest⟩ := isAssignable_cases h
  have hstring : Literal.isString (path ++ rest) = false := by
    apply not_isString_of_path hpath
    obtain rfl | ⟨⟨inside, rfl⟩, -⟩ := hrest <;> simp
  obtain ⟨c, word, rfl⟩ : ∃ c word, path = c :: word := by
    apply List.exists_cons_of_ne_nil
    rintro rfl
    cases hpath.starts
  have hplain : Role.of c = .plain := hpath.plain c (by simp)
  have hsquare : c ≠ '[' := by
    rintro rfl
    cases hplain
  have hcurly : c ≠ '{' := by
    rintro rfl
    cases hplain
  rw [Literal.typeOf, trim_of_isAssignable h, Literal.trimmedType, if_neg hconstant,
    if_neg (Bool.eq_false_iff.1 hstring), if_neg (by simp [hsquare]), if_neg (by simp [hcurly])]
  exact numberType_of_isIdentStart (c := c) hpath.starts (word ++ rest)

end Assignable

end Text

namespace Expr

/-- What a statement binds is neither a call nor a literal, and its brackets are balanced. It is a
reference if outside its brackets there is nothing but a name and members. With one subscript at
most, only the words in front of it can be wrong. -/
theorem ofText_statementTargets {s : Settings} {text : Text} {e target value : Expr}
    (h : (ofText s .statement text).outcome = .ok e)
    (hmem : .bind target value .statement ∈ e.nodes) :
    ∃ t, target = .raw t ∧ t.IsTarget ∧ t.Nested ∧ '(' ∉ t.topChars ∧ Literal.typeOf t = .any ∧
      (t.IsReference ↔ t.isReference) ∧
      (t.topChars.count '[' ≤ 1 →
        (t.IsReference ↔ Text.isDotted Text.isName (t.topChars.takeWhile (· ≠ '[')))) := by
  obtain ⟨htarget, -⟩ : target.isAssignable ∧ value.isCall := (wellFormed_of_ofText h).1 _ hmem
  obtain ⟨hbalanced, -⟩ := ofText_isBalanced h _ hmem _ _ _ rfl
  cases target with
  | raw t =>
    have hnested : t.Nested := Text.nested_iff.2 hbalanced
    have hreference := (Text.isReference_iff hnested).symm
    refine ⟨t, rfl, Text.isTarget_of_isAssignable htarget, hnested,
      Text.round_not_mem_topChars htarget hbalanced, Text.typeOf_of_isAssignable htarget,
      hreference, fun hcount ↦ ?_⟩
    rw [hreference, Text.isReference_of_isAssignable htarget hbalanced hcount]
  | concat | call | bind | range => simp [isAssignable] at htarget

theorem ofText_statementTargets_member : ∃ e value,
    (ofText {} .statement "(x.y[g(i)])(f)(1)".toList).outcome = .ok e ∧
      .bind (.raw "x.y[g(i)]".toList) value .statement ∈ e.nodes ∧
      ∃ t, .raw "x.y[g(i)]".toList = Expr.raw t ∧ t.IsTarget ∧ t.Nested ∧ '(' ∉ t.topChars ∧
        Literal.typeOf t = .any ∧ (t.IsReference ↔ t.isReference) ∧
        (t.topChars.count '[' ≤ 1 →
          (t.IsReference ↔ Text.isDotted Text.isName (t.topChars.takeWhile (· ≠ '[')))) := by
  let value : Expr := .call (.ofName ['f']) [.raw "x.y[g(i)]".toList, .raw ['1']]
  have h : (ofText {} .statement "(x.y[g(i)])(f)(1)".toList).outcome =
      .ok (.bind (.raw "x.y[g(i)]".toList) value .statement) := by
    with_unfolding_all rfl
  have hmem : .bind (.raw "x.y[g(i)]".toList) value .statement ∈
      (Expr.bind (.raw "x.y[g(i)]".toList) value .statement).nodes := by
    simp [value]
  exact ⟨_, value, h, hmem, ofText_statementTargets h hmem⟩

/-- A sum of two subscripts starts and ends as a subscript does. -/
theorem statement_sum_bound : ∃ value,
    (ofText {} .statement "(x[0] + y[1])(f)()".toList).outcome =
      .ok (.bind (.raw "x[0] + y[1]".toList) value .statement) ∧
    ¬Text.IsReference "x[0] + y[1]".toList ∧
    (Expr.bind (.raw "x[0] + y[1]".toList) value .statement).python false =
      "x[0] + y[1] = f(x[0] + y[1])".toList := by
  have hnested : Text.Nested "x[0] + y[1]".toList := Text.nested_iff.2 (by decide +kernel)
  refine ⟨.call (.ofName ['f']) [.raw "x[0] + y[1]".toList], ?_, ?_, ?_⟩
  · with_unfolding_all rfl
  · rw [← Text.isReference_iff hnested]
    decide +kernel
  · decide +kernel

end Expr

end CallChain
