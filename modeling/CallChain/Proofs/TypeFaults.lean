import CallChain.Proofs.BracketFaults
import CallChain.Proofs.Infixes
import CallChain.Proofs.Literals
import CallChain.Proofs.References

namespace CallChain

theorem Text.callSite?_of_topChars {t : Text} (h : '(' ∉ topChars t) : callSite? t = none := by
  refine callSite?_of_nextGroup (nextGroup_eq_none ?_)
  cases hopen : openGroup t with
  | none => rfl
  | some k =>
    have hbefore : Balanced k.before := balanced_iff.2 (openGroupFrom_spec hopen).1
    rw [← openGroupFrom_text hopen, topChars_append hbefore, List.mem_append, not_or] at h
    exact absurd List.mem_cons_self h.2

namespace Literal

variable {tag : TypeTag} {s t : Text}

def isNumberChar (c : Char) : Bool := c.isDigit || c ∈ ['_', '.', '+', '-', 'e', 'E']

theorem isNumberChar_of_isDigit {c : Char} (h : c.isDigit) : isNumberChar c := by
  simp [isNumberChar, h]

theorem Sign.isNumberChar (h : Sign t) : ∀ c ∈ t, isNumberChar c := by
  cases h with
  | none => simp
  | plus => exact List.forall_mem_singleton.2 rfl
  | minus => exact List.forall_mem_singleton.2 rfl

theorem Digits.isNumberChar (h : Digits t) : ∀ c ∈ t, isNumberChar c := fun c hc ↦
  isNumberChar_of_isDigit (h.chars c hc)

theorem Counting.isNumberChar (h : Counting t) : ∀ c ∈ t, isNumberChar c := by
  intro c hc
  obtain hdigit | rfl := h.chars c hc
  · exact isNumberChar_of_isDigit hdigit
  · rfl

theorem Mantissa.isNumberChar (h : Mantissa t) : ∀ c ∈ t, isNumberChar c := by
  cases h with
  | whole h => exact h.isNumberChar
  | point h =>
    have hdigits := h.isNumberChar
    simp only [List.mem_append, List.mem_cons] at hdigits ⊢
    rintro c (hc | rfl | hc)
    · exact hdigits c (.inl hc)
    · rfl
    · exact hdigits c (.inr hc)

theorem Exponent.isNumberChar (h : Exponent t) : ∀ c ∈ t, isNumberChar c := by
  cases h with
  | none => simp
  | some he hsign hdigits =>
    intro c hc
    obtain rfl | hc := List.mem_cons.1 hc
    · simp only [List.mem_cons, List.not_mem_nil, or_false] at he
      obtain rfl | rfl := he <;> rfl
    · exact (List.mem_append.1 hc).elim (hsign.isNumberChar c) (hdigits.isNumberChar c)

theorem isNumberChar_of_isDecimal (h : isDecimal t) : ∀ c ∈ t, isNumberChar c := by
  obtain ⟨mantissa, exponent, hm, he, rfl⟩ := isDecimal_iff.1 h
  intro c hc
  exact (List.mem_append.1 hc).elim (hm.isNumberChar c) (he.isNumberChar c)

theorem topChars_of_isNumberChar (h : ∀ c ∈ t, isNumberChar c) :
    Text.Balanced t ∧ '(' ∉ t.topChars := by
  have hplain : Text.Plain t := fun c hc ↦ Role.plain_of_class (h c hc) (by decide)
  refine ⟨hplain.balanced, ?_⟩
  rw [Text.topChars_of_plain hplain]
  intro hmem
  exact absurd (h '(' hmem) (by decide)

theorem Spells.topChars (h : Spells tag t) : Text.Balanced t ∧ '(' ∉ t.topChars := by
  cases h with
  | @string q letters contents _ hletters hcontents =>
    have hplain : Text.Plain letters := fun c hc ↦
      Role.plain_of_class (p := (· ∈ ['f', 'F', 'r', 'R'])) (decide_eq_true (hletters c hc))
        (by decide)
    have hliteral : Text.Balanced (q.mark :: contents ++ [q.mark]) :=
      Text.balanced_iff.2 (Nesting.reads_literal hcontents)
    have htop : Text.topChars (letters ++ (q.mark :: contents ++ [q.mark])) =
        letters ++ [q.mark] := by
      rw [Text.topChars_append hplain.balanced, Text.topChars_of_plain hplain,
        Text.topChars_literal hcontents]
      rfl
    refine ⟨hplain.balanced.append hliteral, ?_⟩
    rw [htop, List.mem_append, not_or]
    refine ⟨fun hmem ↦ absurd (hplain '(' hmem) (by decide), ?_⟩
    cases q <;> decide
  | @list inner hinner =>
    have htop : Text.topChars ('[' :: inner ++ [']']) = ['['] :=
      Text.topChars_enclosed .square hinner.balanced []
    exact ⟨hinner.balanced.enclosed .square, by rw [htop]; decide⟩
  | @dict inner hinner =>
    have htop : Text.topChars ('{' :: inner ++ ['}']) = ['{'] :=
      Text.topChars_enclosed .curly hinner.balanced []
    exact ⟨hinner.balanced.enclosed .curly, by rw [htop]; decide⟩
  | bool h =>
    simp only [List.map_cons, List.map_nil, List.mem_cons, List.not_mem_nil, or_false] at h
    obtain rfl | rfl := h <;> decide
  | int h =>
    obtain ⟨hsign, ht⟩ := h
    refine topChars_of_isNumberChar fun c hc ↦ ?_
    exact (List.mem_append.1 hc).elim (hsign.isNumberChar c) (ht.isNumberChar c)
  | @float sign t hsign ht hfloat _ =>
    have hdecimal := (floating_iff (startsNumber_filter ht)).1 hfloat
    refine topChars_of_isNumberChar fun c hc ↦ (List.mem_append.1 hc).elim (hsign.isNumberChar c) ?_
    intro hc
    by_cases hunderscore : c = '_'
    · rw [hunderscore]
      rfl
    · exact isNumberChar_of_isDecimal hdecimal c
        (List.mem_filter.2 ⟨hc, by simpa using hunderscore⟩)

theorem typeOf_topChars (h : typeOf t ≠ .any) : Text.Balanced t ∧ '(' ∉ t.topChars := by
  obtain ⟨lead, trail, ht, hlead, htrail⟩ := Text.exists_blanks t
  obtain ⟨hbalanced, htop⟩ := (spells_of_trimmedType rfl h).topChars
  have hround : ∀ u : Text, u.isBlank → '(' ∉ u.topChars := fun u hu hmem ↦ by
    rw [Text.topChars_of_plain (Text.plain_of_isBlank hu)] at hmem
    exact absurd (List.all_eq_true.1 hu '(' hmem) (by decide)
  refine ⟨Text.balanced_trim.1 hbalanced, ?_⟩
  rw [ht, Text.topChars_append (Text.plain_of_isBlank hlead).balanced,
    Text.topChars_append hbalanced, List.mem_append, List.mem_append, not_or, not_or]
  exact ⟨hround lead hlead, htop, hround trail htrail⟩

end Literal

/-- The text holds no call, and it is left as it is written in all settings. -/
structure Text.Untranslated (t : Text) : Prop where
  no_call : callSite? t = none
  outcome : ∀ s mode, (Expr.ofText s mode t).outcome = .ok (.raw t)

theorem Text.untranslated_of_typeOf {t : Text} (h : Literal.typeOf t ≠ .any) : t.Untranslated := by
  obtain ⟨hbalanced, htop⟩ := Literal.typeOf_topChars h
  have hnone := callSite?_of_topChars htop
  exact ⟨hnone, fun _ _ ↦ (Expr.ofText_ok_iff_of_none hnone).2 ⟨fun _ ↦ hbalanced, rfl⟩⟩

section

variable {function placeholder f a : Text} {arguments : List Text} {position : Nat}
  {expected : TypeSet} {found : TypeTag}

theorem Signature.check_type {sig : Signature}
    (h : sig.check function placeholder arguments = .error (.type f position a expected found)) :
    ∃ i, position = i + 1 ∧ arguments[i]? = some a ∧ a.Untranslated := by
  obtain harity | ⟨i, a, hi, haccepts, htype⟩ := check_error_cases h
  · cases harity
  · cases htype
    refine ⟨i, rfl, hi, Text.untranslated_of_typeOf fun hany ↦ haccepts ?_⟩
    simp [TypeSet.accepts, hany]

theorem Callee.check_type {callee : Callee}
    (h : callee.check placeholder arguments = .error (.type f position a expected found)) :
    ∃ i, position = i + 1 ∧ arguments[i]? = some a ∧ a.Untranslated := by
  cases callee with
  | builtin b => exact Signature.check_type h
  | named function => cases h

end

namespace Expr

variable {s : Settings} {mode : BindMode} {text f a : Text} {position : Nat} {expected : TypeSet}
  {found : TypeTag}

theorem typeFault_of_ofText
    (h : (ofText s mode text).outcome = .error (.type f position a expected found)) :
    a <:+: text ∧ a.Untranslated := by
  induction text using text_induction generalizing mode with
  | leave t hnone =>
    obtain ⟨-, i, -, hfault⟩ | ⟨site, hsite, -⟩ := ofText_error_cases h
    · cases hfault
    · cases hnone.symm.trans hsite
  | call t site hsite ihbefore ihtarget iharguments =>
    obtain ⟨hbefore, htarget, harguments, -⟩ := Text.callSite?_isInfix hsite
    have hgiven : ∀ u ∈ site.given, u <:+: t := fun u hu ↦
      (List.mem_append.1 hu).elim (fun hu ↦ htarget u (Option.mem_toList.1 hu)) (harguments u)
    obtain ⟨-, i, -, hfault⟩ | ⟨site', hsite', ⟨u, hu, h⟩ | h⟩ := ofText_error_cases h
    · cases hfault
    · cases hsite.symm.trans hsite'
      obtain rfl | hu := List.mem_cons.1 hu
      · exact (ihbefore h).imp_left (·.trans hbefore)
      · have ih : a <:+: u ∧ a.Untranslated := (List.mem_append.1 hu).elim
          (fun hu ↦ ihtarget u (Option.mem_toList.1 hu) h) (fun hu ↦ iharguments u hu h)
        exact ih.imp_left (·.trans (hgiven u hu))
    · cases hsite.symm.trans hsite'
      obtain ⟨i, -, hi, huntranslated⟩ := Callee.check_type h
      exact ⟨hgiven a (List.mem_of_getElem? hi), huntranslated⟩

/-- A text with a call in it can have any type. So a fault in the type of an argument names one that
stands for itself, where a call is checked and wherever in a text the call is. -/
theorem ofText_typeFaults (s : Settings) (mode : BindMode) (text : Text) :
    (∀ site, Text.callSite? text = some site → Literal.typeOf text = .any) ∧
    (∀ (sig : Signature) function placeholder arguments f position a expected found,
      sig.check function placeholder arguments = .error (.type f position a expected found) →
        ∃ i, position = i + 1 ∧ arguments[i]? = some a ∧ a.Untranslated) ∧
    ∀ f position a expected found,
      (ofText s mode text).outcome = .error (.type f position a expected found) →
        a <:+: text ∧ a.Untranslated := by
  refine ⟨fun site hsite ↦ ?_, fun _ _ _ _ _ _ _ _ _ ↦ Signature.check_type,
    fun _ _ _ _ _ ↦ typeFault_of_ofText⟩
  by_contra hany
  rw [(Text.untranslated_of_typeOf hany).no_call] at hsite
  cases hsite

set_option maxRecDepth 20000 in
theorem ofText_typeFaults_literal :
    (ofText {} .inline "(add)((f)(1), \"x\")".toList).outcome =
        .error (.type "add".toList 2 "\"x\"".toList TypeSet.number .str) ∧
      Text.Untranslated "\"x\"".toList := by
  have h : (ofText {} .inline "(add)((f)(1), \"x\")".toList).outcome =
      .error (.type "add".toList 2 "\"x\"".toList TypeSet.number .str) := by
    with_unfolding_all rfl
  exact ⟨h, ((ofText_typeFaults {} .inline _).2.2 _ _ _ _ _ h).2⟩

end Expr

end CallChain
