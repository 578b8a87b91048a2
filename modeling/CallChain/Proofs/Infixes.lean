import CallChain.Proofs.MadeOf
import CallChain.Proofs.Statements

namespace CallChain

namespace Text

variable {t a target iterable value : Text} {site : CallSite}

theorem isInfix_intercalate {separator : Text} {ts : List Text} (h : t ∈ ts) :
    t <:+: separator.intercalate ts := by
  induction ts with
  | nil => simp at h
  | cons u us ih =>
    cases us with
    | nil =>
      refine ⟨[], [], ?_⟩
      rw [List.nil_append, List.append_nil, List.intercalate_singleton]
      exact List.mem_singleton.1 h
    | cons v vs =>
      rw [List.intercalate_cons_cons]
      rcases List.mem_cons.1 h with rfl | h
      · rw [List.append_assoc]
        exact (List.prefix_append _ _).isInfix
      · exact (ih h).trans (List.suffix_append _ _).isInfix

theorem arguments_isInfix (h : a ∈ arguments t) : a <:+: t := by
  obtain ⟨u, hu, rfl⟩ := List.mem_map.1 (List.mem_filter.1 h).1
  have hinfix : u <:+: [','].intercalate (segmentsFrom ',' {} t) := isInfix_intercalate hu
  rw [segmentsFrom_intercalate] at hinfix
  exact (trim_isInfix u).trans hinfix

/-- How a text with a call is put together. The target stands in the text between the call and what
is before it. -/
theorem callSite?_text (h : callSite? t = some site) :
    ∃ lead function gap, t = site.before ++ lead ++
        ('(' :: function ++ ')' :: gap ++ '(' :: site.arguments ++ ')' :: site.after) ∧
      site.function = trim function ∧ ∀ target ∈ site.target, target <:+: lead := by
  obtain ⟨rs₁, lead, call, rs₂, s, hrs, hs, -, -, rfl⟩ := callSite?_cases h
  have htext := outline_text t
  rw [← Outline.runs_text, hrs] at htext
  obtain ⟨f, a, rfl, -, rfl⟩ | ⟨u, f, a, rfl, -, rfl⟩ := CallSite.ofGroups?_cases hs
  · refine ⟨[], f.inner, a.gap, ?_, rfl, by simp⟩
    simpa [Run.text, Group.text] using htext.symm
  · refine ⟨'(' :: u.inner ++ ')' :: f.gap, f.inner, a.gap, ?_, rfl, ?_⟩
    · simpa [Run.text, Group.text] using htext.symm
    · intro target ht
      cases ht
      exact ⟨['('], ')' :: f.gap, by simp⟩

theorem callSite?_isSuffix (h : callSite? t = some site) : ')' :: site.after <:+ t := by
  obtain ⟨lead, function, gap, rfl, -, -⟩ := callSite?_text h
  exact ⟨site.before ++ lead ++ ('(' :: function ++ ')' :: gap ++ '(' :: site.arguments), by simp⟩

theorem callSite?_isInfix (h : callSite? t = some site) :
    site.before <:+: t ∧ (∀ u, site.leading? = some u → u <:+: t) ∧
      (∀ a ∈ arguments site.arguments, a <:+: t) ∧ site.after <:+: t := by
  obtain ⟨lead, function, gap, rfl, -, htarget⟩ := callSite?_text h
  refine ⟨?_, fun u hu ↦ ?_, fun a ha ↦ (arguments_isInfix ha).trans ?_, ?_⟩
  · rw [List.append_assoc]
    exact (List.prefix_append _ _).isInfix
  · obtain ⟨target, hsome, hu⟩ := Option.bind_eq_some_iff.1 hu
    obtain ⟨rfl, -⟩ := nonempty?_eq_some_iff.1 hu
    exact ((trim_isInfix target).trans (htarget target hsome)).trans (List.infix_append _ _ _)
  · exact ⟨site.before ++ lead ++ ('(' :: function ++ ')' :: gap ++ ['(']), ')' :: site.after,
      by simp⟩
  · exact ((List.suffix_cons _ _).trans (callSite?_isSuffix h)).isInfix

theorem isInfix_sides (s m t : Text) : trim s <:+: s ++ m ++ t ∧ trim t <:+: s ++ m ++ t := by
  constructor
  · rw [List.append_assoc]
    exact (trim_isInfix s).trans (List.prefix_append _ _).isInfix
  · exact (trim_isInfix t).trans (List.suffix_append _ _).isInfix

theorem loopParts?_isInfix (h : loopParts? t = some (target, iterable)) :
    target <:+: t ∧ iterable <:+: t := by
  obtain ⟨head, k, hhead, hk, rfl, rfl, -, -⟩ := loopParts?_cases h
  have hpart : head <:+: t := by
    refine List.IsInfix.trans ?_ (trim_isInfix t)
    rw [← hhead]
    exact (List.prefix_append _ _).isInfix
  rw [← cutFirst_text hk] at hpart
  obtain ⟨hbefore, hafter⟩ := isInfix_sides k.before " in ".toList k.after
  exact ⟨hbefore.trans hpart, hafter.trans hpart⟩

theorem guardTest_isInfix (t : Text) : guardTest t <:+: t := by
  refine (trim_isInfix _).trans (.trans ?_ (trim_isInfix t))
  cases hmark : dropMark? (trim t) with
  | none => exact List.infix_rfl
  | some head =>
    rw [← dropMark?_text hmark]
    exact (List.prefix_append _ _).isInfix

theorem assignment?_isInfix (h : assignment? t = some (target, value)) :
    target <:+: t ∧ value <:+: t := by
  obtain ⟨k, hk, rfl, rfl⟩ := assignment?_cases h
  rw [← cutFirst_text hk]
  exact isInfix_sides k.before "=".toList k.after

theorem afterWord?_isInfix {word rest : Text} (h : afterWord? word t = some rest) :
    rest <:+: t := by
  rw [← afterWord?_text h]
  exact (List.suffix_append _ _).isInfix

end Text

theorem Text.nonempty?_getD (t default : Text) :
    (nonempty? t).getD default = t ∨ (nonempty? t).getD default = default := by
  cases t with
  | nil => exact .inr rfl
  | cons c t => exact .inl rfl

theorem Interval.isInfix_parts {t : Text} {i : Interval} (h : ofText? t = some i) :
    (i.start <:+: t ∨ i.start = ['0']) ∧ i.stop <:+: t ∧ (i.step <:+: t ∨ i.step = ['1']) := by
  obtain ⟨k, hk, rfl⟩ := Option.map_eq_some_iff.1 h
  obtain ⟨hbefore, hafter⟩ := Text.isInfix_sides k.before rangeMark k.after
  rw [Text.cutFirst_text hk] at hbefore hafter
  have hor : ∀ u : Text, u <:+: t → ∀ default, (Text.nonempty? u).getD default <:+: t ∨
      (Text.nonempty? u).getD default = default := by
    intro u hu default
    refine (Text.nonempty?_getD u default).imp_left fun heq ↦ ?_
    rwa [heq]
  refine ⟨hor _ hbefore _, ?_⟩
  cases hk' : Text.cutLast stepMark k.after with
  | none => exact ⟨hafter, hor [] List.nil_infix _⟩
  | some k' =>
    have hpart : k.after <:+: t := by
      rw [← Text.cutFirst_text hk]
      exact (List.suffix_append _ _).isInfix
    obtain ⟨hstop, hstep⟩ := Text.isInfix_sides k'.before stepMark k'.after
    rw [Text.cutLastFrom_text hk'] at hstop hstep
    exact ⟨hstop.trans hpart, hor _ (hstep.trans hpart) _⟩

namespace Text

/-- The property passes from a text to its parts, holds of what stands in for a missing argument,
and is kept by everything that is written around texts. -/
structure Throughout (P : Text → Prop) : Prop extends Written P where
  part {s t : Text} : s <:+: t → P t → P s
  default (function : Text) (i : Nat) : P ((Callee.ofName function).defaultAt i)

namespace Throughout

variable {P : Text → Prop} {s : Settings} {code target iterable : Text} {st : Statement}

theorem inherited (hP : Throughout P) : Inherited P where
  site h ht := by
    obtain ⟨hbefore, htarget, harguments, hafter⟩ := callSite?_isInfix h
    exact ⟨hP.part hbefore ht, fun u hu ↦ hP.part (htarget u hu) ht,
      fun a ha ↦ hP.part (harguments a ha) ht, hP.part hafter ht⟩
  default := hP.default

theorem ofText (hP : Throughout P) {mode : BindMode} {t : Text} {e : Expr} (ht : P t)
    (h : (Expr.ofText s mode t).outcome = .ok e) : e.MadeOf P :=
  Expr.ofText_madeOf hP.inherited (hP.part List.nil_infix ht) ht h

theorem python_loop (hP : Throughout P) {e : Expr} (ht : P target) (he : e.MadeOf P) :
    P (Statement.loop target e).python := by
  have hfor : P "for ".toList := hP.plain (by decide) (by decide) (by decide)
  have hin : P " in ".toList := hP.plain (by decide) (by decide) (by decide)
  have hmark : P [':'] := hP.plain (by decide) (by decide) (by decide)
  have hiterable := he.python hP.toWritten true
  exact hP.append (hP.append (hP.append (hP.append hfor ht) hin) hiterable) hmark

theorem ofLoop (hP : Throughout P) (ht : P target) (hi : P iterable)
    (h : (Statement.ofLoop s target iterable).outcome = .ok st) : P st.python := by
  obtain ⟨i, start, stop, step, hparts, hstart, hstop, hstep, rfl⟩ | ⟨e, he, rfl⟩ :=
    Statement.ofLoop_ok h
  · obtain ⟨pstart, pstop, pstep⟩ := Interval.isInfix_parts hparts
    have hzero : P ['0'] := hP.plain (by decide) (by decide) (by decide)
    have hone : P ['1'] := hP.plain (by decide) (by decide) (by decide)
    have hfrom : P i.start := pstart.elim (hP.part · hi) fun heq ↦ heq ▸ hzero
    have hby : P i.step := pstep.elim (hP.part · hi) fun heq ↦ heq ▸ hone
    apply hP.python_loop ht
    exact .range (hP.ofText hfrom hstart) (hP.ofText (hP.part pstop hi) hstop)
      (hP.ofText hby hstep)
  · exact hP.python_loop ht (hP.ofText hi he)

theorem ofPlain (hP : Throughout P) (hcode : P code)
    (h : (Statement.ofPlain s code).outcome = .ok st) : P st.python := by
  obtain ⟨e, he, rfl | rfl | ⟨target, value, e', hsides, hvalue, rfl⟩⟩ := Statement.ofPlain_ok h
  · exact (hP.ofText hcode he).python hP.toWritten false
  · exact hcode
  · obtain ⟨ptarget, pvalue⟩ := assignment?_isInfix hsides
    have hequals : P " = ".toList := hP.plain (by decide) (by decide) (by decide)
    have hmade := hP.ofText (hP.part pvalue hcode) hvalue
    exact hP.append (hP.append (hP.part ptarget hcode) hequals) (hmade.python hP.toWritten true)

theorem ofCode (hP : Throughout P) (hcode : P code)
    (h : (Statement.ofCode s code).outcome = .ok st) : P st.python := by
  rw [Statement.ofCode] at h
  obtain ⟨rest, target, iterable, hfor, hparts, hheading⟩ | ⟨guard, rest, hword, hheading⟩ |
    ⟨-, hheading⟩ | hheading := Heading.ofCode_cases code
  · rw [hheading] at h
    have hrest := hP.part (afterWord?_isInfix hfor) hcode
    obtain ⟨ptarget, piterable⟩ := loopParts?_isInfix hparts
    exact hP.ofLoop (hP.part ptarget hrest) (hP.part piterable hrest) h
  · rw [hheading] at h
    obtain ⟨test, htest, rfl⟩ := Logged.outcome_map_eq_ok.1 h
    have hrest := hP.part (afterWord?_isInfix hword) hcode
    have hmade := hP.ofText (hP.part (guardTest_isInfix rest) hrest) htest
    have hkeyword : P guard.keyword := by
      cases guard <;> exact hP.plain (by decide) (by decide) (by decide)
    have hblank : P [' '] := hP.plain (by decide) (by decide) (by decide)
    have hmark : P [':'] := hP.plain (by decide) (by decide) (by decide)
    have htext := hmade.python hP.toWritten false
    exact hP.append (hP.append hkeyword (hP.append hblank htext)) hmark
  · rw [hheading] at h
    cases h
    exact hcode
  · rw [hheading] at h
    exact hP.ofPlain hcode h

end Throughout

end Text

end CallChain
