import CallChain.Proofs.ClearTexts
import CallChain.Proofs.LineBalance

namespace CallChain

namespace Text

variable {t needle : Text} {k : Cut}

theorem cutFirst_clear (h : cutFirst needle t = some k) (hn : Plain needle) (ht : Clear t) :
    Clear k.before ∧ Clear k.after := by
  obtain ⟨hbefore, -⟩ := cutFirst_balanced h hn ht.1
  rw [← cutFirst_text h, List.append_assoc, clear_append_iff hbefore,
    clear_append_iff hn.balanced] at ht
  exact ⟨ht.1, ht.2.2⟩

theorem clear_of_mark (h : Clear (t ++ [blockMark])) : Clear t :=
  ((clear_append_iff (balanced_mark.1 h.1)).1 h).1

theorem clear_guardTest (h : Clear t) : Clear (guardTest t) := by
  have htrim := clear_trim h
  rw [guardTest]
  cases hmark : dropMark? (trim t) with
  | none => exact clear_trim htrim
  | some head =>
    rw [← dropMark?_text hmark] at htrim
    exact clear_trim (clear_of_mark htrim)

theorem loopParts?_clear {target iterable : Text} (h : loopParts? t = some (target, iterable))
    (ht : Clear t) : Clear target ∧ Clear iterable := by
  obtain ⟨head, k, hhead, hk, rfl, rfl, -, -⟩ := loopParts?_cases h
  have hclear := clear_trim ht
  rw [← hhead] at hclear
  obtain ⟨hbefore, hafter⟩ := cutFirst_clear hk (by decide) (clear_of_mark hclear)
  exact ⟨clear_trim hbefore, clear_trim hafter⟩

theorem clear_getD {default : Text} (ht : Clear t) (hd : Clear default) :
    Clear ((nonempty? t).getD default) := by
  cases t with
  | nil => exact hd
  | cons c t => exact ht

end Text

theorem Interval.clear_parts {t : Text} {i : Interval} (h : ofText? t = some i)
    (ht : Text.Clear t) (hstop : Text.Balanced i.stop) :
    Text.Clear i.start ∧ Text.Clear i.stop ∧ Text.Clear i.step := by
  obtain ⟨k, hk, rfl⟩ := Option.map_eq_some_iff.1 h
  obtain ⟨hbefore, hafter⟩ := Text.cutFirst_clear hk (by decide) ht
  have hstart : Text.Clear ((Text.nonempty? (Text.trim k.before)).getD ['0']) :=
    Text.clear_getD (Text.clear_trim hbefore) (by decide)
  cases hk' : Text.cutLast stepMark k.after with
  | none =>
    dsimp only
    exact ⟨hstart, Text.clear_trim hafter, Text.clear_getD (by decide) (by decide)⟩
  | some k' =>
    simp only [hk'] at hstop ⊢
    have hmark : Text.Balanced stepMark := by decide
    rw [← Text.cutLastFrom_text hk', List.append_assoc,
      Text.clear_append_iff (Text.balanced_trim.1 hstop), Text.clear_append_iff hmark] at hafter
    exact ⟨hstart, Text.clear_trim hafter.1,
      Text.clear_getD (Text.clear_trim hafter.2.2) (by decide)⟩

namespace Statement

variable {s : Settings} {code : Text} {st : Statement}

theorem python_loop_clear {target : Text} {iterable : Expr} (ht : Text.Clear target)
    (hi : iterable.MadeOf Text.Clear) : Text.Clear (loop target iterable).python := by
  have hP := Text.written_clear
  have hfor : Text.Clear "for ".toList := by decide
  have hin : Text.Clear " in ".toList := by decide
  have hmark : Text.Clear [':'] := by decide
  exact hP.append (hP.append (hP.append (hP.append hfor ht) hin) (hi.python hP true)) hmark

theorem ofLoop_clear (hs : s.strictBrackets) {target iterable : Text}
    (ht : Text.Clear target) (hi : Text.Clear iterable)
    (h : (ofLoop s target iterable).outcome = .ok st) : Text.Clear st.python := by
  obtain ⟨i, start, stop, step, hparts, hstart, hstop, hstep, rfl⟩ | ⟨e, he, rfl⟩ := ofLoop_ok h
  · have hbalanced := (Expr.ofText_strict hs hstop).1
    obtain ⟨cstart, cstop, cstep⟩ := Interval.clear_parts hparts hi hbalanced
    apply python_loop_clear ht
    exact .range (Expr.ofText_clear cstart hstart) (Expr.ofText_clear cstop hstop)
      (Expr.ofText_clear cstep hstep)
  · exact python_loop_clear ht (Expr.ofText_clear hi he)

theorem ofPlain_clear (hcode : Text.Clear code) (h : (ofPlain s code).outcome = .ok st) :
    Text.Clear st.python := by
  have hP := Text.written_clear
  obtain ⟨e, he, hst⟩ := ofPlain_ok h
  obtain rfl | rfl | ⟨target, value, e', hsides, hvalue, rfl⟩ := hst
  · exact (Expr.ofText_clear hcode he).python hP false
  · exact hcode
  · obtain ⟨k, hk, rfl, rfl⟩ := Text.assignment?_cases hsides
    obtain ⟨hbefore, hafter⟩ := Text.cutFirst_clear hk (by decide) hcode
    have hequals : Text.Clear " = ".toList := by decide
    have hvalue := Expr.ofText_clear (Text.clear_trim hafter) hvalue
    exact hP.append (hP.append (Text.clear_trim hbefore) hequals) (hvalue.python hP true)

/-- No comment starts in what is written for a line, unless the line is passed on as it is. -/
theorem ofCode_clear (hs : s.strictBrackets) (hcode : (Text.cutComment code).2 = none)
    (h : (ofCode s code).outcome = .ok st) : Text.Clear st.python ∨ st = .verbatim code := by
  have hP := Text.written_clear
  rw [ofCode] at h
  obtain ⟨rest, target, iterable, hfor, hparts, hheading⟩ | ⟨guard, rest, hword, hheading⟩ |
    ⟨-, hheading⟩ | hheading := Heading.ofCode_cases code
  · rw [hheading] at h
    have hclear : Text.Clear code := ⟨(ofLoop_balanced hs hfor hparts h).1, hcode⟩
    rw [← Text.afterWord?_text hfor, Text.clear_append_iff (by decide)] at hclear
    obtain ⟨ht, hi⟩ := Text.loopParts?_clear hparts hclear.2
    exact .inl (ofLoop_clear hs ht hi h)
  · rw [hheading] at h
    obtain ⟨test, htest, rfl⟩ := Logged.outcome_map_eq_ok.1 h
    have hclear : Text.Clear code := ⟨(guarded_balanced hs hword htest).1, hcode⟩
    have hkeyword : Text.Clear guard.keyword := by cases guard <;> decide
    rw [← Text.afterWord?_text hword, Text.clear_append_iff hkeyword.1] at hclear
    have htest := Expr.ofText_clear (Text.clear_guardTest hclear.2) htest
    have hblank : Text.Clear [' '] := by decide
    have hmark : Text.Clear [':'] := by decide
    have hguard := hP.append hkeyword (hP.append hblank (htest.python hP false))
    exact .inl (hP.append hguard hmark)
  · rw [hheading] at h
    cases h
    exact .inr rfl
  · rw [hheading] at h
    exact .inl (ofPlain_clear ⟨(ofPlain_balanced hs h).1, hcode⟩ h)

end Statement

/-- What the comment of a source line leaves: code without a comment, which ends outside string
literals where a comment follows. -/
structure SourceLine.Cut (l : SourceLine) : Prop where
  code : (Text.cutComment l.code).2 = none
  comment : ∀ c ∈ l.comment, c.head? = some '#' ∧ (({} : Nesting).after l.code).inString = false

namespace Text

variable {t : Text}

theorem head?_trimEnd {c : Char} (hc : ¬CallChain.isBlank c) (h : t.head? = some c) :
    (trimEnd t).head? = some c := by
  have hsplit := trimEnd_append t
  cases hend : trimEnd t with
  | nil =>
    rw [hend, List.nil_append] at hsplit
    rw [← hsplit] at h
    have hmem := List.mem_reverse.1 (List.mem_of_mem_head? h)
    exact absurd (List.all_eq_true.1 List.all_takeWhile c hmem) hc
  | cons d u =>
    rw [hend] at hsplit
    rw [← hsplit] at h
    exact h

end Text

theorem Text.cutComment_append {code gap comment : Text} (hcode : (cutComment code).2 = none)
    (hstring : (({} : Nesting).after code).inString = false) (hgap : isBlank gap)
    (hhash : '#' ∉ gap) (hcomment : comment.head? = some '#') :
    cutComment (code ++ gap ++ comment) = (code ++ gap, some comment) := by
  have hplain := plain_of_isBlank hgap
  have hnone : (cutComment (code ++ gap)).2 = none := by
    rw [cutComment, cutCommentFrom_append hcode]
    exact cutCommentFrom_of_not_mem hhash _
  obtain ⟨rest, rfl⟩ := List.head?_eq_some_iff.1 hcomment
  have hend : (({} : Nesting).after (code ++ gap)).inString = false := by
    rw [Nesting.after_append, hplain.inString_after, hstring]
  rw [cutComment, cutCommentFrom_append hnone, cutCommentFrom, if_pos (by rw [hend]; rfl),
    List.append_nil]

theorem SourceLine.ofRaw_cut (number : Nat) (raw : Text) : (ofRaw number raw).Cut := by
  obtain ⟨hcode, hcomment⟩ := Text.cutCommentFrom_spec {} raw
  refine ⟨Text.cutComment_trim hcode, ?_⟩
  intro c hc
  obtain ⟨c', hc', rfl⟩ := Option.map_eq_some_iff.1 hc
  obtain ⟨hhead, hstring⟩ := hcomment c' hc'
  refine ⟨Text.head?_trimEnd (by decide) hhead, ?_⟩
  rw [← hstring]
  exact Text.inString_trim _

theorem SourceLine.ofSource_cut {source : Text} {l : SourceLine} (h : l ∈ ofSource source) :
    l.Cut := by
  obtain ⟨⟨raw, number⟩, -, rfl⟩ := List.mem_map.1 h
  exact ofRaw_cut number raw

namespace Line

variable {line : Line}

/-- The line written without its comment. -/
def indented (w : Nat) (line : Line) : Text :=
  List.replicate (line.level * w) ' ' ++ line.statement.python

theorem isBlank_indent (n : Nat) : Text.isBlank (List.replicate n ' ') := by
  have hspace : CallChain.isBlank ' ' := by decide
  simp [Text.isBlank, hspace]

theorem trimEnd_indented_blank (h : line.statement = .blank) (w : Nat) :
    Text.trimEnd (line.indented w) = [] := by
  have hpython : Statement.blank.python = [] := rfl
  rw [indented, h, hpython, List.append_nil]
  exact Text.trimEnd_append_blank (s := []) (isBlank_indent (line.level * w))

theorem python_of_none (h : line.comment = none) (w : Nat) :
    line.statement = .blank ∧ line.python w = [] ∨ line.python w = line.indented w := by
  rcases line with ⟨level, st, comment⟩
  cases h
  cases st with
  | blank => exact .inl ⟨rfl, rfl⟩
  | _ => exact .inr (List.append_nil _)

theorem python_of_some {c : Text} (h : line.comment = some c) (w : Nat) :
    ∃ gap, Text.isBlank gap ∧ '#' ∉ gap ∧ line.python w = line.indented w ++ gap ++ c := by
  rcases line with ⟨level, st, comment⟩
  cases h
  cases st with
  | blank =>
    refine ⟨[], rfl, by simp, ?_⟩
    rw [List.append_nil]
    rfl
  | _ =>
    refine ⟨"  ".toList, by decide, by decide, ?_⟩
    rw [List.append_assoc]
    rfl

theorem trimEnd_python_of_none (h : line.comment = none) (w : Nat) :
    Text.trimEnd (line.python w) = Text.trimEnd (line.indented w) := by
  obtain ⟨hblank, hline⟩ | hline := python_of_none h w
  · rw [hline, trimEnd_indented_blank hblank]
    rfl
  · rw [hline]

theorem cutComment_indented (h : (Text.cutComment line.statement.python).2 = none) (w : Nat) :
    (Text.cutComment (line.indented w)).2 = none ∧
      ({} : Nesting).after (line.indented w) = ({} : Nesting).after line.statement.python := by
  have hplain := Text.plain_of_isBlank (isBlank_indent (line.level * w))
  have hhash : '#' ∉ List.replicate (line.level * w) ' ' := by simp
  have hnone := Text.cutCommentFrom_of_not_mem hhash {}
  rw [indented, Nesting.after_append, Text.cutComment, Text.cutCommentFrom_append hnone,
    (hplain.reads rfl).after_eq]
  exact ⟨h, rfl⟩

/-- The comment of a written line can be cut off again, and leaves the line without it. -/
theorem cutComment_python (hst : (Text.cutComment line.statement.python).2 = none)
    (hcomment : ∀ c ∈ line.comment, c.head? = some '#' ∧
      (({} : Nesting).after line.statement.python).inString = false) (w : Nat) :
    (Text.cutComment (line.python w)).2 = line.comment ∧
      Text.trimEnd (Text.cutComment (line.python w)).1 = Text.trimEnd (line.indented w) := by
  obtain ⟨hcode, hafter⟩ := cutComment_indented hst w
  cases hc : line.comment with
  | none =>
    have hnone : (Text.cutComment (line.python w)).2 = none := by
      obtain ⟨-, hline⟩ | hline := python_of_none hc w
      · rw [hline]
        rfl
      · rwa [hline]
    rw [Text.cutComment_eq_of_none hnone]
    exact ⟨rfl, trimEnd_python_of_none hc w⟩
  | some c =>
    obtain ⟨hhash, hstring⟩ := hcomment c hc
    obtain ⟨gap, hgap, hno, hline⟩ := python_of_some hc w
    rw [← hafter] at hstring
    rw [hline, Text.cutComment_append hcode hstring hgap hno hhash]
    exact ⟨rfl, Text.trimEnd_append_blank hgap⟩

end Line

def Settings.keeping (s : Settings) : Settings := { s with keepComments := true }

def Settings.dropping (s : Settings) : Settings := { s with keepComments := false }

section

variable (s : Settings)

theorem Expr.ofText_keeping (mode : BindMode) (text : Text) :
    ofText s.keeping mode text = ofText s.dropping mode text := by
  induction text using text_induction generalizing mode with
  | leave t hnone =>
    rw [ofText_of_none hnone, ofText_of_none hnone]
    rfl
  | call t site hsite ihbefore ihtarget iharguments =>
    have hleading : site.leading?.mapM (fun u ↦ Argument.mk u <$> ofText s.keeping .inline u) =
        site.leading?.mapM (fun u ↦ Argument.mk u <$> ofText s.dropping .inline u) :=
      Logged.option_mapM_congr fun u hu ↦ by rw [ihtarget u hu]
    have hargs : (Text.arguments site.arguments).mapM
          (fun a ↦ Argument.mk a <$> ofText s.keeping .inline a) =
        (Text.arguments site.arguments).mapM
          (fun a ↦ Argument.mk a <$> ofText s.dropping .inline a) :=
      Logged.mapM_congr fun a ha ↦ by rw [iharguments a ha]
    have hbefore : (Text.nonempty? site.before).mapM (ofText s.keeping .inline) =
        (Text.nonempty? site.before).mapM (ofText s.dropping .inline) := by
      refine Logged.option_mapM_congr fun u hu ↦ ?_
      obtain ⟨rfl, -⟩ := Text.nonempty?_eq_some_iff.1 hu
      exact ihbefore .inline
    have hafter : (Text.nonempty? site.after).mapM (ofText s.keeping .inline) =
        (Text.nonempty? site.after).mapM (ofText s.dropping .inline) := by
      refine Logged.option_mapM_congr fun u hu ↦ ?_
      obtain ⟨rfl, -⟩ := Text.nonempty?_eq_some_iff.1 hu
      rw [ofText_of_none (Text.callSite?_after hsite), ofText_of_none (Text.callSite?_after hsite)]
      rfl
    rw [ofText_of_some hsite, ofText_of_some hsite, hleading, hargs, hbefore, hafter]
    rfl

theorem Statement.ofCode_keeping (code : Text) :
    ofCode s.keeping code = ofCode s.dropping code := by
  have htext : Expr.ofText s.keeping = Expr.ofText s.dropping := by
    funext mode t
    exact Expr.ofText_keeping s mode t
  simp only [ofCode, ofLoop, ofPlain, htext]

end

/-- The line that is read where comments are dropped. -/
def Line.uncommented (line : Line) : Line :=
  ⟨if line.statement.isBlank then 0 else line.level, line.statement, none⟩

theorem SourceLine.codeLine_dropping (s : Settings) (layout : Layout) (l : SourceLine) :
    l.codeLine s.dropping layout = Line.uncommented <$> l.codeLine s.keeping layout := by
  rcases h : Statement.ofCode s.keeping l.code with ⟨log, fault | st⟩
  · have h' := (Statement.ofCode_keeping s l.code).symm.trans h
    rw [codeLine_of_error h, codeLine_of_error h']
    rfl
  · have h' := (Statement.ofCode_keeping s l.code).symm.trans h
    have hblank : st.isBlank = false := Statement.ofCode_ne_blank (by rw [h])
    rw [codeLine_of_ok h, codeLine_of_ok h', map_eq_pure_bind, Logged.bind_ok, Line.uncommented,
      hblank]
    simp [keptComment, Settings.dropping]

theorem Program.ofLines_dropping (s : Settings) (layout : Layout) (ls : List SourceLine) :
    ofLines s.dropping layout ls = List.map Line.uncommented <$> ofLines s.keeping layout ls := by
  induction ls generalizing layout with
  | nil => rfl
  | cons l ls ih =>
    by_cases hcode : l.code = []
    · rw [ofLines_blank hcode, ofLines_blank hcode, ih, Functor.map_map, Functor.map_map]
      rfl
    · rw [ofLines_code hcode, ofLines_code hcode, SourceLine.codeLine_dropping, map_bind,
        bind_map_left, ih]
      simp only [Functor.map_map]
      rfl

namespace Line

/-- A line read with its comment kept and read with it dropped, beside the line of the source. -/
structure AgreesUpToComment (w : Nat) (l : SourceLine) (kept dropped : Line) : Prop where
  statement : kept.statement = dropped.statement
  level : l.code ≠ [] → kept.level = dropped.level
  comment : (Text.cutComment (kept.python w)).2 = l.comment
  code : Text.trimEnd (Text.cutComment (kept.python w)).1 = Text.trimEnd (dropped.python w)
  uncommented : (Text.cutComment (dropped.python w)).2 = none

variable {s : Settings} {l : SourceLine} {line : Line}

theorem IsRead.cutComment_statement (hs : s.strictBrackets) (hl : l.Cut) (h : line.IsRead s l) :
    (Text.cutComment line.statement.python).2 = none ∧
      ∀ c ∈ l.comment, c.head? = some '#' ∧
        (({} : Nesting).after line.statement.python).inString = false := by
  by_cases hcode : l.code = []
  · rw [h.blank hcode]
    exact ⟨rfl, fun c hc ↦ ⟨(hl.comment c hc).1, rfl⟩⟩
  · obtain hclear | hverbatim := Statement.ofCode_clear hs hl.code (h.code hcode)
    · have hafter := (Text.balanced_iff.1 hclear.1).after_eq
      exact ⟨hclear.2, fun c hc ↦ ⟨(hl.comment c hc).1, by rw [hafter]; rfl⟩⟩
    · rw [hverbatim]
      exact ⟨hl.code, hl.comment⟩

theorem trimEnd_python_uncommented (line : Line) (w : Nat) :
    Text.trimEnd (line.uncommented.python w) = Text.trimEnd (line.indented w) := by
  rw [trimEnd_python_of_none rfl]
  rcases line with ⟨level, st, comment⟩
  cases st with
  | blank => rw [trimEnd_indented_blank rfl, trimEnd_indented_blank rfl]
  | _ => rfl

theorem IsRead.agrees (hs : s.strictBrackets) (hl : l.Cut) (h : line.IsRead s.keeping l) (w : Nat) :
    AgreesUpToComment w l line line.uncommented := by
  have hcomment : line.comment = l.comment := h.comment
  obtain ⟨hst, hend⟩ := h.cutComment_statement (s := s.keeping) hs hl
  have huncut : (Text.cutComment line.uncommented.statement.python).2 = none := hst
  have hdropped : line.uncommented.comment = none := rfl
  rw [← hcomment] at hend
  obtain ⟨hcut, hcode⟩ := cutComment_python hst hend w
  refine ⟨rfl, ?_, hcut.trans hcomment, ?_, ?_⟩
  · intro hne
    have hblank := Statement.ofCode_ne_blank (h.code hne)
    simp [uncommented, hblank]
  · rw [hcode, trimEnd_python_uncommented]
  · obtain ⟨-, hline⟩ | hline := python_of_none hdropped w
    · rw [hline]
      rfl
    · rw [hline]
      exact (cutComment_indented huncut w).1

end Line

/-- Keeping comments changes nothing but comments, and every comment can be cut off again. -/
theorem compile_comments {s : Settings} (hs : s.strictBrackets) (source : Text) :
    (∃ f, (compile s.keeping source).outcome = .error f ∧
      (compile s.dropping source).outcome = .error f) ∨
    ∃ p p', (Program.ofSource s.keeping source).outcome = .ok p ∧
      (Program.ofSource s.dropping source).outcome = .ok p' ∧
      (compile s.keeping source).outcome = .ok (Program.python s.indentWidth p) ∧
      (compile s.dropping source).outcome = .ok (Program.python s.indentWidth p') ∧
      p.length = p'.length ∧
      List.Forall₂ (fun l r ↦ Line.AgreesUpToComment s.indentWidth l r.1 r.2)
        (SourceLine.ofSource source) (p.zip p') := by
  have hdropping : Program.ofSource s.dropping source =
      List.map Line.uncommented <$> Program.ofSource s.keeping source :=
    Program.ofLines_dropping s {} _
  cases hkeeping : (Program.ofSource s.keeping source).outcome with
  | error f =>
    have hf : (Program.ofSource s.dropping source).outcome = .error f := by
      rw [hdropping]
      exact Logged.outcome_map_eq_error.2 hkeeping
    exact .inl ⟨f, Logged.outcome_map_eq_error.2 hkeeping, Logged.outcome_map_eq_error.2 hf⟩
  | ok p =>
    have hp' : (Program.ofSource s.dropping source).outcome = .ok (p.map Line.uncommented) := by
      rw [hdropping]
      exact Logged.outcome_map_eq_ok.2 ⟨p, hkeeping, rfl⟩
    refine .inr ⟨p, p.map Line.uncommented, rfl, hp', Logged.outcome_map_eq_ok.2 ⟨p, hkeeping, rfl⟩,
      Logged.outcome_map_eq_ok.2 ⟨_, hp', rfl⟩, by simp, ?_⟩
    have hread := (List.forall₂_and_left _ _).2
      ⟨fun l hl ↦ SourceLine.ofSource_cut hl, Program.ofLines_isRead hkeeping⟩
    have hzip : p.zip (p.map Line.uncommented) = p.map fun line ↦ (line, line.uncommented) := by
      conv => lhs; rw [← List.map_id p, List.map_map]
      exact List.zip_map'
    rw [hzip, List.forall₂_map_right_iff]
    exact hread.imp fun l line h ↦ h.2.agrees hs h.1 s.indentWidth

theorem compile_comments_kept :
    let source := "(print)('#1')  # show\n  # alone\nwhile (x: #)".toList
    ({} : Settings).strictBrackets ∧
    (compile { keepComments := true } source).outcome =
      .ok "print('#1')  # show\n# alone\nwhile (x:  #)".toList ∧
    ((∃ f, (compile { keepComments := true } source).outcome = .error f ∧
      (compile {} source).outcome = .error f) ∨
    ∃ p p', (Program.ofSource { keepComments := true } source).outcome = .ok p ∧
      (Program.ofSource {} source).outcome = .ok p' ∧
      (compile { keepComments := true } source).outcome = .ok (Program.python 4 p) ∧
      (compile {} source).outcome = .ok (Program.python 4 p') ∧ p.length = p'.length ∧
      List.Forall₂ (fun l r ↦ Line.AgreesUpToComment 4 l r.1 r.2)
        (SourceLine.ofSource source) (p.zip p')) :=
  ⟨rfl, by decide +kernel, compile_comments (s := {}) rfl _⟩

end CallChain
