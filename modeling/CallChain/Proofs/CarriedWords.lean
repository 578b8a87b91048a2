import CallChain.Proofs.Carried

namespace CallChain

open Family

variable {q : Quote} {T : Family q Text}

theorem Text.mark_not_plain {t : Text} (h : q.mark ∈ t) : ¬Plain t := by
  intro ht
  have := ht q.mark h
  simp at this

theorem Quote.isDigit_mark (q : Quote) : q.mark.isDigit = false := by cases q <;> rfl

namespace Text

theorem mem_dropWhile_of_not {p : Char → Bool} {c : Char} {t : Text} (hc : p c = false)
    (h : c ∈ t) : c ∈ t.dropWhile p := by
  rw [← List.takeWhile_append_dropWhile (p := p) (l := t), List.mem_append] at h
  refine h.resolve_left fun htake ↦ ?_
  rw [List.mem_takeWhile_imp htake] at hc
  contradiction

theorem mem_trim_of_not_blank {c : Char} {t : Text} (hc : CallChain.isBlank c = false) (h : c ∈ t) :
    c ∈ trim t := by
  rw [trim, trimEnd, List.mem_reverse]
  refine mem_dropWhile_of_not hc (List.mem_reverse.2 ?_)
  exact mem_dropWhile_of_not hc h

theorem exists_mem_pieces {c separator : Char} {t : Text} (hc : c ≠ separator) (h : c ∈ t) :
    ∃ p ∈ pieces separator t, c ∈ p := by
  induction t with
  | nil => simp at h
  | cons d t ih =>
    rw [pieces]
    split
    · rename_i hd
      rw [hd] at h
      obtain ⟨p, hp, hmem⟩ := ih ((List.mem_cons.1 h).resolve_left hc)
      exact ⟨p, List.mem_cons_of_mem _ hp, hmem⟩
    · obtain ⟨p, ps, hpieces⟩ := List.exists_cons_of_ne_nil (pieces_ne_nil separator t)
      rw [hpieces] at ih ⊢
      obtain rfl | h := List.mem_cons.1 h
      · exact ⟨c :: p, by simp, by simp⟩
      · obtain ⟨p', hp', hmem⟩ := ih h
        obtain rfl | hp' := List.mem_cons.1 hp'
        · exact ⟨d :: p', by simp, List.mem_cons_of_mem _ hmem⟩
        · exact ⟨p', List.mem_cons_of_mem _ hp', hmem⟩

theorem isTargetList_of_mark {t : Text} (h : q.mark ∈ t) : isTargetList t = false := by
  obtain ⟨p, hp, hmem⟩ := @exists_mem_pieces q.mark ',' t (by cases q <;> decide) h
  refine List.all_eq_false.2 ⟨p, hp, fun hname ↦ ?_⟩
  exact mark_not_plain (mem_trim_of_not_blank q.isBlank_mark hmem)
    (plain_of_isIdentifier hname)

end Text

namespace Literal

open Text (mem_dropWhile_of_not)

theorem isExponent_of_mark {t : Text} (h : q.mark ∈ t) : isExponent t = false := by
  have hdigits : ∀ u : Text, q.mark ∈ u → u.all Char.isDigit = false := fun u hu ↦
    List.all_eq_false.2 ⟨q.mark, hu, by simp [q.isDigit_mark]⟩
  rw [isExponent.eq_def]
  split
  · simp at h
  · rename_i e t
    by_cases he : e = 'e' || e = 'E'
    · have ht : q.mark ∈ t := by
        refine (List.mem_cons.1 h).resolve_left ?_
        rintro rfl
        cases q <;> contradiction
      dsimp only
      rw [he, Bool.true_and]
      split
      · have hmem := (List.mem_cons.1 ht).resolve_left (by cases q <;> decide)
        rw [hdigits _ hmem, Bool.and_false]
      · have hmem := (List.mem_cons.1 ht).resolve_left (by cases q <;> decide)
        rw [hdigits _ hmem, Bool.and_false]
      · rw [hdigits _ ht, Bool.and_false]
    · rw [Bool.not_eq_true] at he
      rw [he]
      rfl

theorem isDecimal_of_mark {t : Text} (h : q.mark ∈ t) : isDecimal t = false := by
  have hrest := mem_dropWhile_of_not q.isDigit_mark h
  rw [isDecimal]
  split
  · rename_i t' ht
    rw [ht, List.mem_cons] at hrest
    have ht' : q.mark ∈ t' := hrest.resolve_left (by cases q <;> decide)
    rw [isExponent_of_mark (mem_dropWhile_of_not q.isDigit_mark ht'), Bool.and_false]
  · rw [isExponent_of_mark hrest, Bool.and_false]

theorem numberType_of_mark {t : Text} (h : q.mark ∈ t) : numberType t = .any := by
  have hint : t.all (fun c ↦ c.isDigit || c = '_') = false :=
    List.all_eq_false.2 ⟨q.mark, h, by cases q <;> decide⟩
  have hfloat : isDecimal (t.filter (· ≠ '_')) = false :=
    isDecimal_of_mark (q := q) (List.mem_filter.2 ⟨h, by cases q <;> decide⟩)
  rw [numberType, hint, hfloat]
  split <;> rfl

theorem mark_mem_unsigned {t : Text} (h : q.mark ∈ t) : q.mark ∈ unsigned t := by
  rw [unsigned.eq_def]
  split
  · exact (List.mem_cons.1 h).resolve_left (by cases q <;> decide)
  · exact (List.mem_cons.1 h).resolve_left (by cases q <;> decide)
  · exact h

end Literal

theorem Quote.Literal.closingQuoteFrom_contents (l : q.Literal) (t : Text) :
    Text.closingQuoteFrom q.mark false (l.contents ++ q.mark :: t) = some ⟨l.contents, t⟩ := by
  have hall : ∀ s : Text, q.mark ∉ s → '\\' ∉ s →
      Text.closingQuoteFrom q.mark false (s ++ q.mark :: t) = some ⟨s, t⟩ := by
    intro s hmark hescape
    induction s with
    | nil =>
      have hne : q.mark ≠ '\\' := by cases q <;> decide
      simp [Text.closingQuoteFrom, hne]
    | cons c s ih =>
      rw [List.mem_cons, not_or] at hmark hescape
      rw [List.cons_append, Text.closingQuoteFrom, if_neg Bool.false_ne_true,
        if_neg (Ne.symm hescape.1), if_neg (Ne.symm hmark.1), ih hmark.2 hescape.2]
      rfl
  exact hall l.contents l.no_mark l.no_escape

namespace Text.Carries

theorem same_cutLiteral (h : Carries T) (r : Quote) :
    Same fun l ↦ (cutLiteral r.mark (T l)).any (·.after.isEmpty) := by
  obtain ⟨f, hf, rfl⟩ := h.eq_fill
  intro l l'
  dsimp only
  cases f with
  | nil => rfl
  | cons o f =>
    cases o with
    | none =>
      by_cases hq : q.mark = r.mark
      · have hcut : ∀ l : q.Literal, cutLiteral r.mark (Form.fill l.text (none :: f)) =
            some ⟨l.contents, Form.fill l.text f⟩ := by
          intro l
          have htext : Form.fill l.text (none :: f) =
              q.mark :: (l.contents ++ q.mark :: Form.fill l.text f) := by
            simp [Quote.Literal.text]
          rw [htext, cutLiteral, if_pos hq, ← hq, l.closingQuoteFrom_contents]
        rw [hcut, hcut, Option.any_some, Option.any_some, Form.isEmpty_fill, Form.isEmpty_fill]
      · have hcut : ∀ l : q.Literal, cutLiteral r.mark (Form.fill l.text (none :: f)) = none := by
          intro l
          exact if_neg hq
        rw [hcut, hcut]
    | some c =>
      rw [Form.fill_some, Form.fill_some, cutLiteral, cutLiteral]
      by_cases hc : c = r.mark
      · have hinside : (({} : Nesting).next c).place = if false then .escape r else .literal r := by
          rw [hc]
          cases r <;> rfl
        rw [if_pos hc, if_pos hc]
        exact Form.closingQuoteFrom_fill hinside hf l l'
      · rw [if_neg hc, if_neg hc]

theorem same_isString (h : Carries T) : Same fun l ↦ Literal.isString (T l) := by
  have hletters : ∀ c : Char, decide (c ∈ ['f', 'F', 'r', 'R']) → Role.of c = .plain := by
    intro c hc
    exact Role.plain_of_class (p := fun c ↦ c ∈ ['f', 'F', 'r', 'R']) hc (by decide)
  obtain ⟨⟨t, ht⟩, hbody⟩ := h.span hletters
  have hlength : ∀ l, (T l).length -
      ((T l).dropWhile fun c ↦ c ∈ ['f', 'F', 'r', 'R']).length = t.length := by
    intro l
    have hsplit := congrArg List.length
      (List.takeWhile_append_dropWhile (p := fun c ↦ c ∈ ['f', 'F', 'r', 'R']) (l := T l))
    rw [List.length_append, ht] at hsplit
    omega
  intro l l'
  simp only [Literal.isString, hlength, hbody.same_head? l l']
  split
  · rename_i c _
    by_cases hc : c = '"' || c = '\''
    · obtain ⟨r, rfl⟩ : ∃ r : Quote, c = r.mark := by
        rw [Bool.or_eq_true, decide_eq_true_eq, decide_eq_true_eq] at hc
        obtain rfl | rfl := hc
        · exact ⟨.double, rfl⟩
        · exact ⟨.single, rfl⟩
      simp only [hbody.same_cutLiteral r l l']
    · simp only [Bool.not_eq_true] at hc
      simp only [hc, Bool.false_and]
  · rfl

theorem same_closesAtEnd (h : Carries T) : Same fun l ↦ closesAtEnd (T l) := by
  obtain ⟨f, hf, rfl⟩ := h.eq_fill
  exact Form.closesAtEnd_fill hf

theorem same_numberType (h : Carries T) :
    Same fun l ↦ Literal.numberType (Literal.unsigned (T l)) := by
  intro l l'
  obtain ⟨t, ht⟩ | hmark := h.const_or_mark
  · simp only [ht]
  · have hany : ∀ l, Literal.numberType (Literal.unsigned (T l)) = .any := fun l ↦
      Literal.numberType_of_mark (Literal.mark_mem_unsigned (hmark l))
    simp only [hany]

theorem same_eq {t : Text} (ht : Plain t) (h : Carries T) : Same fun l ↦ decide (T l = t) := by
  refine h.same_of_no_mark (p := fun u ↦ decide (u = t)) fun u hu ↦ ?_
  rw [decide_eq_false_iff_not]
  rintro rfl
  exact mark_not_plain hu ht

theorem same_typeOf (h : Carries T) : Same fun l ↦ Literal.typeOf (T l) := by
  intro l l'
  have htrue := h.trim.same_eq (t := "True".toList) (by decide) l l'
  have hfalse := h.trim.same_eq (t := "False".toList) (by decide) l l'
  simp only [Literal.typeOf, Literal.trimmedType, htrue, hfalse, h.trim.same_isString l l',
    h.trim.same_head? l l', h.trim.same_closesAtEnd l l', h.trim.same_numberType l l']

theorem same_isAssignable (h : Carries T) : Same fun l ↦ isAssignable (T l) := by
  have hname : ∀ c : Char, isIdentChar c || decide (c = '.') → Role.of c = .plain := fun c hc ↦
    Role.of_name hc
  obtain ⟨⟨path, hpath⟩, hrest⟩ := h.span hname
  intro l l'
  simp only [isAssignable, hpath, hrest.same_isEmpty l l', hrest.same_head? l l',
    hrest.same_getLast? l l', hrest.outline.1.same_isEmpty l l']

theorem nonempty? (h : Carries T) : Optional Carries fun l ↦ nonempty? (T l) := by
  obtain hempty | hempty := h.same_isEmpty.cases
  · exact .inl fun l ↦ if_pos (hempty l)
  · exact .inr ⟨T, h, fun l ↦ if_neg (by simp [hempty l])⟩

end Text.Carries

structure Interval.Carries (i : Family q Interval) : Prop where
  start : Text.Carries fun l ↦ (i l).start
  stop : Text.Carries fun l ↦ (i l).stop
  step : Text.Carries fun l ↦ (i l).step

theorem Text.Carries.interval? (h : Carries T) :
    Optional Interval.Carries fun l ↦ Interval.ofText? (T l) := by
  have hrange : Optional Cut.Carries fun l ↦ Text.cutFirst Interval.rangeMark (T l) :=
    h.cutFirst (by decide) (by decide)
  refine hrange.map fun k hk ↦ ?_
  have hstart := hk.before.trim.nonempty?.getD (.const ['0'])
  have hcaret : Optional Cut.Carries fun l ↦ Text.cutLast Interval.stepMark (k l).after :=
    hk.after.cutLast (by decide) (by decide)
  obtain hnone | ⟨k', hk', hsome⟩ := hcaret
  · simp only [hnone]
    exact ⟨hstart, hk.after.trim, .const ['1']⟩
  · simp only [hsome]
    exact ⟨hstart, hk'.before.trim, hk'.after.trim.nonempty?.getD (.const ['1'])⟩

theorem CallSite.Carries.leading? {site : Family q CallSite} (h : Carries site) :
    Optional Text.Carries fun l ↦ (site l).leading? :=
  h.target.bind fun _ ht ↦ ht.trim.nonempty?

namespace Text

namespace Carries

theorem afterWord? {word : Text} (hword : Plain word) (h : Carries T) :
    Optional Carries fun l ↦ afterWord? word (T l) := by
  obtain ⟨f, hf, rfl⟩ := h.eq_fill
  by_cases hstart : (word.map some).isPrefixOf f
  · obtain ⟨g, rfl⟩ := List.isPrefixOf_iff_prefix.1 hstart
    have hg : Form.OpenFrom {} g := by
      have hopen := ((Form.openFrom_append (default : q.Literal)).1 hf).2
      rwa [Form.fill_map_some, (hword.reads rfl).after_eq] at hopen
    have hrest : Carries fun l : q.Literal ↦ Form.fill l.text g := ⟨g, hg, fun _ ↦ rfl⟩
    obtain ⟨c, hc⟩ := hrest.same_head?.exists_eq
    have hfound : ∀ l : q.Literal, word.isPrefixOf (word ++ Form.fill l.text g) := fun l ↦
      List.isPrefixOf_iff_prefix.2 (List.prefix_append _ _)
    simp only [Text.afterWord?, Form.fill_append, Form.fill_map_some, List.drop_left, hfound,
      Bool.true_and, hc]
    split
    · exact .inr ⟨_, hrest, fun _ ↦ rfl⟩
    · exact .inl fun _ ↦ rfl
  · refine .inl fun l ↦ if_neg ?_
    rw [Form.isPrefixOf_fill hword]
    simp [hstart]

theorem dropMark? (h : Carries T) : Optional Carries fun l ↦ dropMark? (T l) := by
  obtain ⟨f, hf, rfl⟩ := h.eq_fill
  by_cases hlast : (f.fill (default : q.Literal).text).getLast? = some blockMark
  · have hmark : blockMark ≠ q.mark := by cases q <;> decide
    obtain ⟨g, rfl⟩ := Form.eq_concat_of_getLast? hmark hlast
    have hg := ((Form.openFrom_append (default : q.Literal)).1 hf).1
    refine .inr ⟨fun l ↦ g.fill l.text, ⟨g, hg, fun _ ↦ rfl⟩, fun l ↦ ?_⟩
    simp [Text.dropMark?]
  · refine .inl fun l ↦ if_neg ?_
    rwa [Form.getLast?_fill f l default]

theorem guardTest (h : Carries T) : Carries fun l ↦ guardTest (T l) :=
  (h.trim.dropMark?.getD h.trim).trim

theorem loopParts? (h : Carries T) :
    Optional (fun x ↦ (∃ target, ∀ l, (x l).1 = target) ∧ Carries fun l ↦ (x l).2)
      fun l ↦ loopParts? (T l) := by
  obtain hnone | ⟨head, hhead, hmark⟩ := h.trim.dropMark?
  · exact .inl fun l ↦ by simp only [Text.loopParts?, hnone]
  have hcut : Optional Cut.Carries fun l ↦ Text.cutFirst " in ".toList (head l) :=
    hhead.cutFirst (by decide) (by decide)
  obtain hnone | ⟨k, hk, hsome⟩ := hcut
  · exact .inl fun l ↦ by simp only [Text.loopParts?, hmark, hnone]
  obtain ⟨empty, hempty⟩ := hk.after.trim.same_isEmpty.exists_eq
  simp only [Text.loopParts?, hmark, hsome, hempty]
  obtain ⟨target, hconst⟩ | hquote := hk.before.trim.const_or_mark
  · simp only [hconst]
    split
    · exact .inr ⟨fun l ↦ (target, Text.trim (k l).after), ⟨⟨target, fun _ ↦ rfl⟩, hk.after.trim⟩,
        fun _ ↦ rfl⟩
    · exact .inl fun _ ↦ rfl
  · simp only [isTargetList_of_mark (hquote _), Bool.false_and, Bool.false_eq_true, if_false]
    exact .inl fun _ ↦ rfl

theorem assignment? (h : Carries T) :
    Optional (fun x ↦ Carries (fun l ↦ (x l).1) ∧ Carries fun l ↦ (x l).2)
      fun l ↦ assignment? (T l) := by
  have hcut : Optional Cut.Carries fun l ↦ Text.cutFirst "=".toList (T l) :=
    h.cutFirst (by decide) (by decide)
  obtain hnone | ⟨k, hk, hsome⟩ := hcut
  · exact .inl fun l ↦ by simp only [Text.assignment?, hnone]
  obtain ⟨next, hnext⟩ := hk.after.same_head?.exists_eq
  obtain ⟨last, hlast⟩ := hk.before.same_getLast?.exists_eq
  obtain ⟨empty, hempty⟩ := hk.before.trim.same_isEmpty.exists_eq
  simp only [Text.assignment?, hsome, hnext, hlast, hempty]
  split
  · exact .inl fun _ ↦ rfl
  · exact .inr ⟨fun l ↦ (Text.trim (k l).before, Text.trim (k l).after),
      ⟨hk.before.trim, hk.after.trim⟩, fun _ ↦ rfl⟩

end Carries

end Text

/-- The first word makes the same of a line for all literals. -/
inductive Heading.Carries : Family q Heading → Prop
  | loop (target : Text) {iterable : Family q Text} :
      Text.Carries iterable → Carries fun l ↦ .loop target (iterable l)
  | guarded (guard : Guard) {test : Family q Text} :
      Text.Carries test → Carries fun l ↦ .guarded guard (test l)
  | verbatim : Carries fun _ ↦ .verbatim
  | plain : Carries fun _ ↦ .plain

theorem Text.Carries.heading (h : Carries T) : Heading.Carries fun l ↦ Heading.ofCode (T l) := by
  have hloop : Optional Heading.Carries fun l ↦ Heading.ofLoop? (T l) := by
    refine ((h.afterWord? (by decide)).bind fun _ hrest ↦ hrest.loopParts?).map fun x hx ↦ ?_
    obtain ⟨⟨target, htarget⟩, hiterable⟩ := hx
    simp only [htarget]
    exact .loop target hiterable
  have hwhile : Optional Heading.Carries fun l ↦ Heading.ofWhile? (T l) :=
    (h.afterWord? (by decide)).map fun _ _ ↦ .verbatim
  have hguard : ∀ guard, Optional Heading.Carries fun l ↦ Heading.ofGuard? guard (T l) := by
    intro guard
    refine (h.afterWord? ?_).map fun _ hrest ↦ .guarded guard hrest.guardTest
    cases guard <;> decide
  have hjump : Optional Heading.Carries fun l ↦ Heading.ofJump? (T l) := by
    obtain ⟨b, hb⟩ := (h.same_eq (t := "break".toList) (by decide)).exists_eq
    obtain ⟨c, hc⟩ := (h.same_eq (t := "continue".toList) (by decide)).exists_eq
    simp only [Heading.ofJump?, hb, hc]
    split
    · exact .inr ⟨_, .verbatim, fun _ ↦ rfl⟩
    · exact .inl fun _ ↦ rfl
  exact (hloop.orElse (hwhile.orElse ((hguard .ifTest).orElse
    ((hguard .elifTest).orElse hjump)))).getD .plain

end CallChain
