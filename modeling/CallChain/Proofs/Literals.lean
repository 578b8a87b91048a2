import CallChain.Literal
import CallChain.Proofs.BalancedGrammar
import CallChain.Proofs.Groups
import CallChain.Proofs.Words

namespace CallChain

namespace Literal

inductive Sign : Text → Prop
  | none : Sign []
  | plus : Sign ['+']
  | minus : Sign ['-']

structure Digits (t : Text) : Prop where
  ne_nil : t ≠ []
  chars : ∀ c ∈ t, c.isDigit

/-- Digits with a point before, among or behind them, or none. -/
inductive Mantissa : Text → Prop
  | whole {t : Text} : Digits t → Mantissa t
  | point {s t : Text} : Digits (s ++ t) → Mantissa (s ++ '.' :: t)

inductive Exponent : Text → Prop
  | none : Exponent []
  | some {e : Char} {sign t : Text} : e ∈ ['e', 'E'] → Sign sign → Digits t →
      Exponent (e :: (sign ++ t))

/-- What can be read as a floating point number: a decimal, or a word for an infinity or for what is
no number, in any case. -/
inductive Floating : Text → Prop
  | decimal {sign mantissa exponent : Text} : Sign sign → Mantissa mantissa → Exponent exponent →
      Floating (sign ++ (mantissa ++ exponent))
  | word {sign word : Text} : Sign sign →
      word.map Char.toLower ∈ ["inf", "infinity", "nan"].map String.toList → Floating (sign ++ word)

/-- A digit, then digits and underscores. -/
structure Counting (t : Text) : Prop where
  starts : t.head?.any Char.isDigit
  chars : ∀ c ∈ t, c.isDigit ∨ c = '_'

inductive Integer : Text → Prop
  | intro {sign t : Text} : Sign sign → Counting t → Integer (sign ++ t)

def startsNumber (t : Text) : Bool := t.head?.any fun c ↦ c.isDigit || c = '.'

/-- The texts that show their type. -/
inductive Spells : TypeTag → Text → Prop
  | string (q : Quote) {letters contents : Text} : letters.length ≤ 2 →
      (∀ c ∈ letters, c ∈ ['f', 'F', 'r', 'R']) → q.Contents contents →
      Spells .str (letters ++ (q.mark :: contents ++ [q.mark]))
  | list {inner : Text} : inner.Nested → Spells .list ('[' :: inner ++ [']'])
  | dict {inner : Text} : inner.Nested → Spells .dict ('{' :: inner ++ ['}'])
  | bool {t : Text} : t ∈ ["True", "False"].map String.toList → Spells .bool t
  | int {t : Text} : Integer t → Spells .int t
  | float {sign t : Text} : Sign sign → startsNumber t →
      Floating (t.filter (· ≠ '_')) → ¬Integer (sign ++ t) → Spells .float (sign ++ t)

end Literal

namespace Text

variable {q : Quote} {escaped : Bool} {b : Bracket} {m : Nesting} {s t : Text} {k : Cut}

/-- What stands before the quote that closes a literal, less the character that a backslash in front
of the text hides. -/
theorem closingQuoteFrom_spec (h : closingQuoteFrom q.mark escaped t = some k) :
    k.before ++ q.mark :: k.after = t ∧
      if escaped then ∃ c s, k.before = c :: s ∧ q.Contents s else q.Contents k.before := by
  induction t generalizing escaped k with
  | nil => cases h
  | cons c t ih =>
    rw [closingQuoteFrom] at h
    cases escaped with
    | true =>
      obtain ⟨k', hk, rfl⟩ := Option.map_eq_some_iff.1 h
      obtain ⟨htext, hcontents⟩ := ih hk
      exact ⟨congrArg (c :: ·) htext, c, k'.before, rfl, hcontents⟩
    | false =>
      rw [if_neg Bool.false_ne_true] at h
      by_cases hback : c = '\\'
      · rw [if_pos hback] at h
        obtain ⟨k', hk, rfl⟩ := Option.map_eq_some_iff.1 h
        obtain ⟨htext, d, s, hbefore, hcontents⟩ := ih hk
        refine ⟨congrArg (c :: ·) htext, ?_⟩
        rw [Cut.cons, hbefore, hback]
        exact .escaped hcontents
      · rw [if_neg hback] at h
        by_cases hmark : c = q.mark
        · rw [if_pos hmark] at h
          cases h
          exact ⟨congrArg (· :: t) hmark.symm, .nil⟩
        · rw [if_neg hmark] at h
          obtain ⟨k', hk, rfl⟩ := Option.map_eq_some_iff.1 h
          obtain ⟨htext, hcontents⟩ := ih hk
          exact ⟨congrArg (c :: ·) htext, .plain hmark hback hcontents⟩

theorem closingQuoteFrom_contents (h : q.Contents s) (t : Text) :
    closingQuoteFrom q.mark false (s ++ q.mark :: t) = some ⟨s, t⟩ := by
  induction h with
  | nil => simp [closingQuoteFrom, q.mark_ne_backslash]
  | plain hmark hback _ ih =>
    rw [List.cons_append, closingQuoteFrom, if_neg Bool.false_ne_true, if_neg hback, if_neg hmark,
      ih]
    rfl
  | escaped _ ih =>
    rw [List.cons_append, List.cons_append, closingQuoteFrom, if_neg Bool.false_ne_true, if_pos rfl,
      closingQuoteFrom, if_pos rfl, ih]
    rfl

theorem cutLiteral_any_iff :
    (cutLiteral q.mark (q.mark :: t)).any (·.after.isEmpty) ↔
      ∃ contents, q.Contents contents ∧ t = contents ++ [q.mark] := by
  rw [cutLiteral, if_pos rfl]
  constructor
  · intro h
    obtain ⟨k, hk, hafter⟩ := (Option.any_eq_true _ _).1 h
    obtain ⟨htext, hcontents⟩ := closingQuoteFrom_spec hk
    rw [List.isEmpty_iff.1 hafter] at htext
    exact ⟨k.before, hcontents, htext.symm⟩
  · rintro ⟨contents, hcontents, rfl⟩
    rw [closingQuoteFrom_contents hcontents]
    rfl

/-- From a state inside the bracket, the first time that nothing is open is at the end of the
text. -/
theorem closesAtEndFrom_iff :
    closesAtEndFrom (m.under [b]) t ↔ ∃ s, m.Reads s {} ∧ t = s ++ [b.closing] := by
  constructor
  · intro h
    induction t generalizing m with
    | nil => cases h
    | cons c t ih =>
      rw [closesAtEndFrom] at h
      by_cases hlast : m.under [b] = .within b ∧ c = b.closing
      · obtain ⟨hm, rfl⟩ := hlast
        have hempty : t = [] := by
          rw [hm] at h
          simpa [Nesting.step, Nesting.next, Nesting.within, Nesting.depth] using h
        have hm' : m = {} := by
          rcases m with ⟨_ | ⟨b', bs⟩, place⟩ <;> simp_all [Nesting.under, Nesting.within]
        refine ⟨[], ?_, by rw [hempty]; rfl⟩
        rw [hm']
        exact .nil _
      · have hs : (m.under [b]).step c ≠ .mismatch := by
          intro hs
          rw [hs] at h
          cases h
        have hm := step_inside hs hlast
        rw [Nesting.next_under hm] at h
        have hdepth : ((m.next c).under [b]).depth ≠ 0 := by simp [Nesting.depth]
        have hrest : closesAtEndFrom ((m.next c).under [b]) t := by
          cases hstep : (m.under [b]).step c with
          | mismatch => exact absurd hstep hs
          | _ => simpa [hstep, hdepth] using h
        obtain ⟨s, hs, rfl⟩ := ih hrest
        exact ⟨c :: s, .cons hm hs, rfl⟩
  · rintro ⟨s, hs, rfl⟩
    induction s generalizing m with
    | nil =>
      cases hs
      simp [closesAtEndFrom, Nesting.step, Nesting.next, Nesting.under, Nesting.depth]
    | cons c s ih =>
      cases hs with
      | cons hc hs =>
        have hdepth : ((m.next c).under [b]).depth ≠ 0 := by simp [Nesting.depth]
        rw [List.cons_append, closesAtEndFrom, Nesting.step_under hc, Nesting.next_under hc]
        cases hstep : m.step c with
        | mismatch => exact absurd hstep hc
        | _ => simpa [hdepth] using ih hs

theorem closesAtEnd_iff :
    closesAtEnd (b.opening :: t) ↔ ∃ inner, inner.Nested ∧ t = inner ++ [b.closing] := by
  have hopen : closesAtEnd (b.opening :: t) = closesAtEndFrom (.under {} [b]) t := by
    simp [closesAtEnd, closesAtEndFrom, Nesting.step, Nesting.next, Nesting.under]
  simp only [hopen, closesAtEndFrom_iff, nested_iff, balanced_iff]

end Text

namespace Literal

variable {tag : TypeTag} {c : Char} {s t sign mantissa exponent : Text}

theorem isString_iff : isString t ↔ ∃ (q : Quote) (letters contents : Text), letters.length ≤ 2 ∧
    (∀ c ∈ letters, c ∈ ['f', 'F', 'r', 'R']) ∧ q.Contents contents ∧
    t = letters ++ (q.mark :: contents ++ [q.mark]) := by
  constructor
  · intro h
    have hsplit := List.takeWhile_append_dropWhile (p := (· ∈ ['f', 'F', 'r', 'R'])) (l := t)
    have hletters : ∀ c ∈ t.takeWhile (· ∈ ['f', 'F', 'r', 'R']), c ∈ ['f', 'F', 'r', 'R'] :=
      fun c hc ↦ by simpa using List.mem_takeWhile_imp hc
    have hlength := congrArg List.length hsplit
    rw [List.length_append] at hlength
    simp only [isString, Bool.and_eq_true, decide_eq_true_eq] at h
    obtain ⟨hshort, h⟩ := h
    cases hbody : t.dropWhile (· ∈ ['f', 'F', 'r', 'R']) with
    | nil =>
      rw [hbody] at h
      cases h
    | cons c body =>
      rw [hbody] at h hsplit hshort hlength
      simp only [List.head?_cons, Bool.and_eq_true, Bool.or_eq_true, decide_eq_true_eq] at h
      obtain ⟨q, rfl⟩ : ∃ q : Quote, c = q.mark :=
        h.1.elim (fun hc ↦ ⟨.double, hc⟩) fun hc ↦ ⟨.single, hc⟩
      obtain ⟨contents, hcontents, rfl⟩ := Text.cutLiteral_any_iff.1 h.2
      exact ⟨q, _, contents, by omega, hletters, hcontents, hsplit.symm⟩
  · rintro ⟨q, letters, contents, hlength, hletters, hcontents, rfl⟩
    have hbody : (letters ++ (q.mark :: contents ++ [q.mark])).dropWhile
        (· ∈ ['f', 'F', 'r', 'R']) =
        q.mark :: contents ++ [q.mark] := by
      rw [List.dropWhile_append_of_pos fun c hc ↦ decide_eq_true (hletters c hc)]
      cases q <;> rfl
    have hquote : q.mark = '"' ∨ q.mark = '\'' := by cases q <;> decide
    have hcut := Text.cutLiteral_any_iff.2 ⟨contents, hcontents, rfl⟩
    simp only [isString, hbody, List.length_append, Bool.and_eq_true, decide_eq_true_eq]
    exact ⟨by omega, by simpa [hquote] using hcut⟩

theorem exists_sign (t : Text) : ∃ sign, Sign sign ∧ t = sign ++ unsigned t := by
  rw [unsigned.eq_def]
  split
  · exact ⟨_, .minus, rfl⟩
  · exact ⟨_, .plus, rfl⟩
  · exact ⟨_, .none, rfl⟩

theorem startsNumber_cons : startsNumber (c :: t) ↔ c.isDigit ∨ c = '.' := by simp [startsNumber]

theorem ne_of_startsNumber {d : Char} (h : startsNumber (c :: t)) (hd : startsNumber [d] = false) :
    c ≠ d := by
  rintro rfl
  have hc : startsNumber [c] := h
  rw [hd] at hc
  cases hc

theorem unsigned_append (h : Sign sign) (ht : startsNumber t) : unsigned (sign ++ t) = t := by
  cases h with
  | plus => rfl
  | minus => rfl
  | none =>
    cases t with
    | nil => rfl
    | cons c t =>
      have hplus : c ≠ '+' := ne_of_startsNumber ht rfl
      have hminus : c ≠ '-' := ne_of_startsNumber ht rfl
      simp [unsigned, hplus, hminus]

theorem Digits.startsNumber (h : Digits t) : startsNumber t := by
  obtain ⟨c, t, rfl⟩ := List.exists_cons_of_ne_nil h.ne_nil
  simp [Literal.startsNumber, h.chars c]

theorem Counting.startsNumber (h : Counting t) : startsNumber t := by
  obtain ⟨c, hc, hdigit⟩ := (Option.any_eq_true _ _).1 h.starts
  simp [Literal.startsNumber, hc, hdigit]

theorem isExponent_cons (e : Char) (t : Text) :
    isExponent (e :: t) ↔ e ∈ ['e', 'E'] ∧ Digits (unsigned t) := by
  have hunsigned : isExponent (e :: t) =
      ((e = 'e' || e = 'E') && !(unsigned t).isEmpty && (unsigned t).all Char.isDigit) := by
    cases t with
    | nil => rfl
    | cons c t =>
      by_cases hplus : c = '+'
      · simp [isExponent, unsigned, hplus]
      · by_cases hminus : c = '-' <;> simp [isExponent, unsigned, hplus, hminus]
  rw [hunsigned]
  simp only [Bool.and_eq_true, Bool.or_eq_true, decide_eq_true_eq, Bool.not_eq_true',
    List.isEmpty_eq_false_iff, List.all_eq_true, List.mem_cons, List.not_mem_nil, or_false]
  exact ⟨fun h ↦ ⟨h.1.1, h.1.2, h.2⟩, fun h ↦ ⟨⟨h.1, h.2.ne_nil⟩, h.2.chars⟩⟩

theorem isExponent_iff : isExponent t ↔ Exponent t := by
  constructor
  · intro h
    cases t with
    | nil => exact .none
    | cons e t =>
      obtain ⟨he, hdigits⟩ := (isExponent_cons e t).1 h
      obtain ⟨sign, hsign, ht⟩ := exists_sign t
      rw [ht]
      exact .some he hsign hdigits
  · intro h
    cases h with
    | none => rfl
    | some he hsign hdigits =>
      rw [isExponent_cons, unsigned_append hsign hdigits.startsNumber]
      exact ⟨he, hdigits⟩

theorem Exponent.head? (h : Exponent t) : ∀ c ∈ t.head?, ¬c.isDigit ∧ c ≠ '.' := by
  cases h with
  | none => simp
  | @some e _ _ he _ _ =>
    rintro c ⟨⟩
    simp only [List.mem_cons, List.not_mem_nil, or_false] at he
    obtain rfl | rfl := he <;> decide

theorem isDecimal_point (hs : ∀ c ∈ s, c.isDigit) (t : Text) :
    isDecimal (s ++ '.' :: t) = (!(s.isEmpty && (t.takeWhile Char.isDigit).isEmpty) &&
      isExponent (t.dropWhile Char.isDigit)) := by
  obtain ⟨htake, hdrop⟩ := Text.takeWhile_append_stop hs (t := '.' :: t) (by simp)
  rw [isDecimal, htake, hdrop]
  rfl

theorem isDecimal_whole (hs : ∀ c ∈ s, c.isDigit) (ht : ∀ c ∈ t.head?, ¬c.isDigit ∧ c ≠ '.') :
    isDecimal (s ++ t) = (!s.isEmpty && isExponent t) := by
  obtain ⟨htake, hdrop⟩ := Text.takeWhile_append_stop hs fun c hc ↦ (ht c hc).1
  rw [isDecimal, htake, hdrop]
  cases t with
  | nil => rfl
  | cons c t =>
    have hc := (ht c rfl).2
    split
    · rename_i heq
      cases heq
      exact absurd rfl hc
    · rfl

theorem isDecimal_iff : isDecimal t ↔
    ∃ mantissa exponent, Mantissa mantissa ∧ Exponent exponent ∧ t = mantissa ++ exponent := by
  constructor
  · intro h
    have hsplit := List.takeWhile_append_dropWhile (p := Char.isDigit) (l := t)
    have hdigits : ∀ u : Text, ∀ c ∈ u.takeWhile Char.isDigit, c.isDigit := fun _ _ ↦
      List.mem_takeWhile_imp
    rw [isDecimal] at h
    split at h
    · rename_i u hpoint
      rw [Bool.and_eq_true] at h
      have hu := List.takeWhile_append_dropWhile (p := Char.isDigit) (l := u)
      have hmantissa : Digits (t.takeWhile Char.isDigit ++ u.takeWhile Char.isDigit) := by
        refine ⟨?_, fun c hc ↦ (List.mem_append.1 hc).elim (hdigits t c) (hdigits u c)⟩
        intro hnil
        obtain ⟨hs, hu⟩ := List.append_eq_nil_iff.1 hnil
        rw [hs, hu] at h
        exact absurd h.1 (by decide)
      refine ⟨_, _, .point hmantissa, isExponent_iff.1 h.2, ?_⟩
      rw [List.append_assoc, List.cons_append, hu, ← hpoint, hsplit]
    · rw [Bool.and_eq_true] at h
      exact ⟨_, _, .whole ⟨by simpa using h.1, hdigits t⟩, isExponent_iff.1 h.2, hsplit.symm⟩
  · rintro ⟨mantissa, exponent, hm, he, rfl⟩
    have hexponent := isExponent_iff.2 he
    cases hm with
    | whole hdigits =>
      rw [isDecimal_whole hdigits.chars he.head?]
      simp [hdigits.ne_nil, hexponent]
    | @point s u hdigits =>
      have hs : ∀ c ∈ s, c.isDigit := fun c hc ↦ hdigits.chars c (by simp [hc])
      have hu : ∀ c ∈ u, c.isDigit := fun c hc ↦ hdigits.chars c (by simp [hc])
      obtain ⟨htake, hdrop⟩ := Text.takeWhile_append_stop hu fun c hc ↦ (he.head? c hc).1
      have hne : ¬(s.isEmpty && u.isEmpty) := by simpa using hdigits.ne_nil
      rw [List.append_assoc, List.cons_append, isDecimal_point hs, htake, hdrop, hexponent]
      simp [hne]

theorem startsNumber_signed (h : Sign sign) (ht : startsNumber (sign ++ t)) : sign = [] := by
  cases h with
  | none => rfl
  | plus => cases ht
  | minus => cases ht

theorem floating_iff (ht : startsNumber t) : Floating t ↔ isDecimal t := by
  rw [isDecimal_iff]
  constructor
  · intro h
    cases h with
    | decimal hsign hm he =>
      rw [startsNumber_signed hsign ht]
      exact ⟨_, _, hm, he, rfl⟩
    | @word sign word hsign hword =>
      rw [startsNumber_signed hsign ht, List.nil_append] at ht
      cases word with
      | nil => cases ht
      | cons c word =>
        have hc := startsNumber_cons.1 ht
        have hlower : c.toLower = c := by
          obtain hdigit | rfl := hc
          · refine dif_neg fun hupper ↦ ?_
            have hcode := toNat_of_isDigit hdigit
            have : 65 ≤ c.toNat := hupper.1
            omega
          · rfl
        have hall : (["inf", "infinity", "nan"].map String.toList).all fun w ↦
            w.head?.all fun c ↦ !c.isDigit && c != '.' := by decide
        have hhead := List.all_eq_true.1 hall _ hword
        rw [List.map_cons, hlower] at hhead
        obtain hdigit | rfl := hc
        · simp [hdigit] at hhead
        · cases hhead
  · rintro ⟨mantissa, exponent, hm, he, rfl⟩
    exact .decimal .none hm he

theorem startsNumber_filter (h : startsNumber t) : startsNumber (t.filter (· ≠ '_')) := by
  cases t with
  | nil => cases h
  | cons c t =>
    have hne : c ≠ '_' := ne_of_startsNumber h rfl
    simpa [startsNumber, hne] using h

theorem counting_iff (h : startsNumber t) : Counting t ↔ t.all fun c ↦ c.isDigit || c = '_' := by
  simp only [List.all_eq_true, Bool.or_eq_true, decide_eq_true_eq]
  refine ⟨fun ht ↦ ht.chars, fun hall ↦ ⟨?_, hall⟩⟩
  cases t with
  | nil => cases h
  | cons c t =>
    obtain hdigit | rfl := startsNumber_cons.1 h
    · exact hdigit
    · exact absurd (hall '.' (by simp)) (by decide)

theorem integer_iff : Integer t ↔ Counting (unsigned t) := by
  constructor
  · rintro ⟨hsign, ht⟩
    rwa [unsigned_append hsign ht.startsNumber]
  · intro h
    obtain ⟨sign, hsign, ht⟩ := exists_sign t
    rw [ht]
    exact .intro hsign h

theorem numberType_eq (t : Text) : numberType t =
    if !startsNumber t then .any
    else if t.all (fun c ↦ c.isDigit || c = '_') then .int
    else if isDecimal (t.filter (· ≠ '_')) then .float
    else .any := rfl

theorem numberType_int (h : Counting t) : numberType t = .int := by
  have hall := (counting_iff h.startsNumber).1 h
  rw [numberType_eq, h.startsNumber, hall]
  rfl

theorem numberType_float (ht : startsNumber t) (h : Floating (t.filter (· ≠ '_')))
    (hint : ¬Counting t) : numberType t = .float := by
  have hall : ¬(t.all fun c ↦ c.isDigit || c = '_') := mt (counting_iff ht).2 hint
  rw [numberType_eq, ht, if_neg (by decide), if_neg hall,
    if_pos ((floating_iff (startsNumber_filter ht)).1 h)]

theorem numberType_cases (t : Text) :
    (numberType t = .int ∧ Counting t) ∨
    (numberType t = .float ∧ startsNumber t ∧ Floating (t.filter (· ≠ '_')) ∧ ¬Counting t) ∨
    numberType t = .any := by
  by_cases ht : startsNumber t
  · by_cases hint : Counting t
    · exact .inl ⟨numberType_int hint, hint⟩
    · by_cases hfloat : Floating (t.filter (· ≠ '_'))
      · exact .inr (.inl ⟨numberType_float ht hfloat hint, ht, hfloat, hint⟩)
      · right; right
        have hall : ¬(t.all fun c ↦ c.isDigit || c = '_') := mt (counting_iff ht).2 hint
        rw [numberType_eq, if_neg (by simp [ht]), if_neg hall,
          if_neg (mt (floating_iff (startsNumber_filter ht)).2 hfloat)]
  · right; right
    rw [numberType_eq, if_pos (by simp [ht])]

theorem head?_of_isString (h : isString t) :
    ∀ c ∈ t.head?, c ∈ ['f', 'F', 'r', 'R', '"', '\''] := by
  obtain ⟨q, letters, contents, -, hletters, -, rfl⟩ := isString_iff.1 h
  intro c hc
  cases letters with
  | nil =>
    cases hc
    cases q <;> decide
  | cons d letters =>
    cases hc
    have := hletters c (by simp)
    grind

theorem trimmedType_cons (h : c ∉ ['T', 'F', 'f', 'r', 'R', '"', '\'']) (t : Text) :
    trimmedType (c :: t) =
      if c = '[' && Text.closesAtEnd (c :: t) then .list
      else if c = '{' && Text.closesAtEnd (c :: t) then .dict
      else numberType (unsigned (c :: t)) := by
  have hconstant : ¬(c :: t = "True".toList || c :: t = "False".toList) := by
    simp only [Bool.or_eq_true, decide_eq_true_eq]
    rintro (heq | heq)
    · exact h (by rw [(List.cons.inj heq).1]; decide)
    · exact h (by rw [(List.cons.inj heq).1]; decide)
  have hstring : ¬isString (c :: t) := fun hstring ↦ by
    have hc := head?_of_isString hstring c rfl
    grind
  rw [trimmedType, if_neg hconstant, if_neg hstring]
  simp only [List.head?_cons, Option.some.injEq]

theorem trimmedType_signed (h : Sign sign) (ht : startsNumber t) :
    trimmedType (sign ++ t) = numberType t := by
  cases h with
  | plus => exact trimmedType_cons (by decide) t
  | minus => exact trimmedType_cons (by decide) t
  | none =>
    cases t with
    | nil => cases ht
    | cons c t =>
      have hall : ['T', 'F', 'f', 'r', 'R', '"', '\''].all fun d ↦ !startsNumber [d] := by decide
      have hno : c ∉ ['T', 'F', 'f', 'r', 'R', '"', '\''] := fun hmem ↦
        ne_of_startsNumber ht (by simpa using List.all_eq_true.1 hall c hmem) rfl
      have hsquare : c ≠ '[' := ne_of_startsNumber ht rfl
      have hcurly : c ≠ '{' := ne_of_startsNumber ht rfl
      have hnumber : unsigned (c :: t) = c :: t := unsigned_append .none ht
      rw [List.nil_append, trimmedType_cons hno, if_neg (by simp [hsquare]),
        if_neg (by simp [hcurly]), hnumber]

theorem trimmedType_string (h : isString t) : trimmedType t = .str := by
  have hconstant : ¬(t = "True".toList || t = "False".toList) := by
    simp only [Bool.or_eq_true, decide_eq_true_eq]
    rintro (rfl | rfl)
    · exact absurd h (by decide)
    · exact absurd h (by decide)
  rw [trimmedType, if_neg hconstant, if_pos h]

theorem Spells.trimmedType_eq (h : Spells tag t) : trimmedType t = tag := by
  cases h with
  | string q hlength hletters hcontents =>
    exact trimmedType_string (isString_iff.2 ⟨q, _, _, hlength, hletters, hcontents, rfl⟩)
  | @list inner hinner =>
    have hcloses : Text.closesAtEnd ('[' :: inner ++ [']']) :=
      Text.closesAtEnd_iff (b := .square).2 ⟨inner, hinner, rfl⟩
    rw [List.cons_append] at hcloses ⊢
    rw [trimmedType_cons (by decide), hcloses]
    rfl
  | @dict inner hinner =>
    have hcloses : Text.closesAtEnd ('{' :: inner ++ ['}']) :=
      Text.closesAtEnd_iff (b := .curly).2 ⟨inner, hinner, rfl⟩
    rw [List.cons_append] at hcloses ⊢
    rw [trimmedType_cons (by decide), hcloses]
    rfl
  | bool h =>
    simp only [List.map_cons, List.map_nil, List.mem_cons, List.not_mem_nil, or_false] at h
    obtain rfl | rfl := h <;> decide
  | int h =>
    obtain ⟨hsign, ht⟩ := h
    rw [trimmedType_signed hsign ht.startsNumber, numberType_int ht]
  | float hsign ht hfloat hint =>
    rw [integer_iff, unsigned_append hsign ht] at hint
    rw [trimmedType_signed hsign ht, numberType_float ht hfloat hint]

theorem spells_of_numberType (h : numberType (unsigned t) = tag) (hne : tag ≠ .any) :
    Spells tag t := by
  obtain ⟨sign, hsign, ht⟩ := exists_sign t
  obtain ⟨hint, hcounting⟩ | ⟨hfloat, hstarts, hfloating, hcounting⟩ | hany :=
    numberType_cases (unsigned t)
  · rw [hint] at h
    subst h
    exact .int (integer_iff.2 hcounting)
  · rw [hfloat] at h
    subst h
    rw [← integer_iff, ht] at hcounting
    rw [ht]
    exact .float hsign hstarts hfloating hcounting
  · exact absurd (h.symm.trans hany) hne

theorem spells_of_bracket {b : Bracket} (h : t.head? = some b.opening && Text.closesAtEnd t) :
    ∃ inner : Text, inner.Nested ∧ t = b.opening :: inner ++ [b.closing] := by
  rw [Bool.and_eq_true, decide_eq_true_eq] at h
  obtain ⟨u, rfl⟩ := List.head?_eq_some_iff.1 h.1
  obtain ⟨inner, hinner, rfl⟩ := Text.closesAtEnd_iff.1 h.2
  exact ⟨inner, hinner, rfl⟩

theorem spells_of_trimmedType (h : trimmedType t = tag) (hne : tag ≠ .any) : Spells tag t := by
  rw [trimmedType] at h
  split at h
  · rename_i hconstant
    subst h
    refine .bool ?_
    simpa only [Bool.or_eq_true, decide_eq_true_eq, List.map_cons, List.map_nil, List.mem_cons,
      List.not_mem_nil, or_false] using hconstant
  split at h
  · rename_i hstring
    subst h
    obtain ⟨q, letters, contents, hlength, hletters, hcontents, rfl⟩ := isString_iff.1 hstring
    exact .string q hlength hletters hcontents
  split at h
  · rename_i hlist
    subst h
    obtain ⟨inner, hinner, rfl⟩ := spells_of_bracket (b := .square) hlist
    exact .list hinner
  split at h
  · rename_i hdict
    subst h
    obtain ⟨inner, hinner, rfl⟩ := spells_of_bracket (b := .curly) hdict
    exact .dict hinner
  exact spells_of_numberType h hne

/-- A text has a type other than `any` exactly if it is written in the form of that type, apart from
the blanks around it. No text is written in the forms of two types. -/
theorem typeOf_decided (t : Text) :
    (∀ tag, tag ≠ .any → (typeOf t = tag ↔ Spells tag (Text.trim t))) ∧
    (typeOf t = .any ↔ ∀ tag, ¬Spells tag (Text.trim t)) ∧
    ∀ u tag tag', Spells tag u → Spells tag' u → tag = tag' := by
  refine ⟨fun tag hne ↦ ⟨fun h ↦ spells_of_trimmedType h hne, Spells.trimmedType_eq⟩, ⟨?_, ?_⟩, ?_⟩
  · intro hany tag h
    have htag : tag = .any := h.trimmedType_eq.symm.trans hany
    subst htag
    cases h
  · intro h
    by_contra hne
    exact h _ (spells_of_trimmedType rfl hne)
  · intro u tag tag' h h'
    exact h.trimmedType_eq.symm.trans h'.trimmedType_eq

theorem typeOf_decided_escaped :
    let string := " rF'[\\' ' ".toList
    let number := "-1_0.5_e+3".toList
    let quotes := "\"\"\"a\"\"\"".toList
    (typeOf string = .str ∧ Spells .str (Text.trim string)) ∧
    (typeOf number = .float ∧ Spells .float number ∧ ¬Spells .int number) ∧
    typeOf quotes = .any ∧ ∀ tag, ¬Spells tag (Text.trim quotes) := by
  intro string number quotes
  have hstring : typeOf string = .str := by decide
  have hnumber : typeOf number = .float := by decide
  have hquotes : typeOf quotes = .any := by decide
  have hfloat : Spells .float number := ((typeOf_decided number).1 .float (by decide)).1 hnumber
  refine ⟨⟨hstring, ((typeOf_decided string).1 .str (by decide)).1 hstring⟩,
    ⟨hnumber, hfloat, fun hint ↦ ?_⟩, hquotes, (typeOf_decided quotes).2.1.1 hquotes⟩
  exact absurd ((typeOf_decided number).2.2 number _ _ hint hfloat) (by decide)

end Literal

end CallChain
