import CallChain.Proofs.PythonBalance
import CallChain.Proofs.Statements

namespace CallChain

namespace Text

theorem isTargetList_balanced {t : Text} (h : isTargetList t) : Balanced t := by
  rw [← pieces_intercalate ',' t]
  refine Balanced.intercalate (by decide) fun name hname ↦ ?_
  exact balanced_trim.1 (plain_of_isIdentifier (List.all_eq_true.1 h name hname)).balanced

theorem balanced_of_getD {t default : Text} (h : Balanced ((nonempty? t).getD default)) :
    Balanced t := by
  cases t with
  | nil => rfl
  | cons c t => exact h

theorem balanced_mark {t : Text} : Balanced (t ++ [blockMark]) ↔ Balanced t :=
  balanced_append_plain_iff (by decide)

theorem balanced_guardTest {t : Text} : Balanced (guardTest t) ↔ Balanced t := by
  rw [guardTest, balanced_trim, ← @balanced_trim t]
  cases h : dropMark? (trim t) with
  | none => rfl
  | some head => rw [← dropMark?_text h, balanced_mark, Option.getD_some]

end Text

theorem Interval.balanced_of_parts {t : Text} {i : Interval} (h : ofText? t = some i)
    (hstart : Text.Balanced i.start) (hstop : Text.Balanced i.stop)
    (hstep : Text.Balanced i.step) : Text.Balanced t := by
  have hmark : Text.Balanced rangeMark := by decide
  obtain ⟨k, hk, rfl⟩ := Option.map_eq_some_iff.1 h
  have hbefore := Text.balanced_trim.1 (Text.balanced_of_getD hstart)
  rw [← Text.cutFirst_text hk]
  refine (hbefore.append hmark).append ?_
  cases hk' : Text.cutLast stepMark k.after with
  | none =>
    simp only [hk'] at hstop
    exact Text.balanced_trim.1 hstop
  | some k' =>
    simp only [hk'] at hstop hstep
    have hstepMark : Text.Balanced stepMark := by decide
    rw [← Text.cutLastFrom_text hk']
    exact ((Text.balanced_trim.1 hstop).append hstepMark).append
      (Text.balanced_trim.1 (Text.balanced_of_getD hstep))

namespace Statement

variable {s : Settings} {code : Text} {st : Statement}

theorem loop_balanced {rest target iterable : Text}
    (hfor : Text.afterWord? "for".toList code = some rest)
    (hparts : Text.loopParts? rest = some (target, iterable)) (hi : Text.Balanced iterable) :
    Text.Balanced target ∧ Text.Balanced code := by
  obtain ⟨head, k, hhead, hk, rfl, rfl, htarget, -⟩ := Text.loopParts?_cases hparts
  have hbefore := Text.isTargetList_balanced htarget
  have hin : Text.Balanced " in ".toList := by decide
  have hword : Text.Balanced "for".toList := by decide
  have hrest : Text.Balanced rest := by
    rw [← Text.balanced_trim, ← hhead, Text.balanced_mark, ← Text.cutFirst_text hk]
    exact ((Text.balanced_trim.1 hbefore).append hin).append (Text.balanced_trim.1 hi)
  rw [← Text.afterWord?_text hfor]
  exact ⟨hbefore, hword.append hrest⟩

theorem python_loop_balanced {target : Text} {iterable : Expr} (ht : Text.Balanced target)
    (hi : iterable.Balanced) : Text.Balanced (loop target iterable).python := by
  have hfor : Text.Balanced "for ".toList := by decide
  have hin : Text.Balanced " in ".toList := by decide
  exact Text.balanced_mark.2 (((hfor.append ht).append hin).append (hi true))

theorem ofLoop_balanced (hs : s.strictBrackets) {rest target iterable : Text}
    (hfor : Text.afterWord? "for".toList code = some rest)
    (hparts : Text.loopParts? rest = some (target, iterable))
    (h : (ofLoop s target iterable).outcome = .ok st) :
    Text.Balanced code ∧ Text.Balanced st.python := by
  obtain ⟨i, start, stop, step, hi, hstart, hstop, hstep, rfl⟩ | ⟨e, he, rfl⟩ := ofLoop_ok h
  · have hstart := Expr.ofText_strict hs hstart
    have hstop := Expr.ofText_strict hs hstop
    have hstep := Expr.ofText_strict hs hstep
    have hiter := Interval.balanced_of_parts hi hstart.1 hstop.1 hstep.1
    obtain ⟨htarget, hcode⟩ := loop_balanced hfor hparts hiter
    exact ⟨hcode, python_loop_balanced htarget (.range hstart.2 hstop.2 hstep.2)⟩
  · have he := Expr.ofText_strict hs he
    obtain ⟨htarget, hcode⟩ := loop_balanced hfor hparts he.1
    exact ⟨hcode, python_loop_balanced htarget he.2⟩

theorem guarded_balanced (hs : s.strictBrackets) {guard : Guard} {rest : Text} {test : Expr}
    (hword : Text.afterWord? guard.keyword code = some rest)
    (h : (Expr.ofText s .inline (Text.guardTest rest)).outcome = .ok test) :
    Text.Balanced code ∧ Text.Balanced (guarded guard test).python := by
  obtain ⟨htext, htest⟩ := Expr.ofText_strict hs h
  have hkeyword : Text.Balanced guard.keyword := by cases guard <;> decide
  have hblank : Text.Balanced [' '] := by decide
  constructor
  · rw [← Text.afterWord?_text hword]
    exact hkeyword.append (Text.balanced_guardTest.1 htext)
  · exact Text.balanced_mark.2 (hkeyword.append (hblank.append (htest false)))

theorem ofPlain_balanced (hs : s.strictBrackets) (h : (ofPlain s code).outcome = .ok st) :
    Text.Balanced code ∧ Text.Balanced st.python := by
  obtain ⟨e, he, hst⟩ := ofPlain_ok h
  obtain ⟨hcode, he⟩ := Expr.ofText_strict hs he
  refine ⟨hcode, ?_⟩
  obtain rfl | rfl | ⟨target, value, e', hsides, hvalue, rfl⟩ := hst
  · exact he false
  · exact hcode
  · obtain ⟨k, hk, rfl, rfl⟩ := Text.assignment?_cases hsides
    have hbefore := (Text.cutFirst_balanced hk (by decide) hcode).1
    have hequals : Text.Balanced " = ".toList := by decide
    have hvalue := (Expr.ofText_strict hs hvalue).2
    exact ((Text.balanced_trim.2 hbefore).append hequals).append (hvalue true)

/-- Every statement but a `while` is read from balanced code and written as a balanced text. -/
theorem ofCode_balanced (hs : s.strictBrackets)
    (hwhile : Text.afterWord? "while".toList code = none)
    (h : (ofCode s code).outcome = .ok st) : Text.Balanced code ∧ Text.Balanced st.python := by
  rw [ofCode] at h
  obtain ⟨rest, target, iterable, hfor, hparts, hcode⟩ | ⟨guard, rest, hword, hcode⟩ |
    ⟨hword, hcode⟩ | hcode := Heading.ofCode_cases code
  · rw [hcode] at h
    exact ofLoop_balanced hs hfor hparts h
  · rw [hcode] at h
    obtain ⟨test, htest, rfl⟩ := Logged.outcome_map_eq_ok.1 h
    exact guarded_balanced hs hword htest
  · rw [hcode] at h
    cases h
    obtain rfl | rfl := hword.resolve_left (absurd hwhile)
    · exact ⟨by decide, by decide⟩
    · exact ⟨by decide, by decide⟩
  · rw [hcode] at h
    exact ofPlain_balanced hs h

end Statement

theorem Line.python_balanced {line : Line} (hcomment : line.comment = none)
    (h : Text.Balanced line.statement.python) (indentWidth : Nat) :
    Text.Balanced (line.python indentWidth) := by
  rw [python]
  split
  · rfl
  · have hindent : Text.Plain (List.replicate (line.level * indentWidth) ' ') := by
      intro c hc
      rw [List.eq_of_mem_replicate hc]
      decide
    have hnone : line.commentText = [] := by rw [commentText, hcomment]
    rw [hnone, List.append_nil]
    exact hindent.balanced.append h

/-- Where unbalanced texts are refused and comments are dropped, every line of the source that is
no `while` has balanced code and is written as a balanced line. -/
theorem compile_balanced {s : Settings} (hs : s.strictBrackets) (hc : s.keepComments = false)
    {source out : Text} (h : (compile s source).outcome = .ok out) :
    ∃ p, (Program.ofSource s source).outcome = .ok p ∧ out = Program.python s.indentWidth p ∧
      List.Forall₂ (fun l line ↦ Text.afterWord? "while".toList l.code = none →
          Text.Balanced l.code ∧ Text.Balanced (line.python s.indentWidth))
        (SourceLine.ofSource source) p := by
  obtain ⟨p, hp, rfl⟩ := Logged.outcome_map_eq_ok.1 h
  refine ⟨p, hp, rfl, (Program.ofLines_isRead hp).imp fun l line hl hwhile ↦ ?_⟩
  have hcomment : line.comment = none := by rw [hl.comment, SourceLine.keptComment, hc]; rfl
  by_cases hcode : l.code = []
  · have hblank : Text.Balanced line.statement.python := by rw [hl.blank hcode]; rfl
    rw [hcode]
    exact ⟨rfl, line.python_balanced hcomment hblank s.indentWidth⟩
  · obtain ⟨hcode, hst⟩ := Statement.ofCode_balanced hs hwhile (hl.code hcode)
    exact ⟨hcode, line.python_balanced hcomment hst s.indentWidth⟩

theorem compile_balanced_nested :
    let source :=
      "for i in 1...(len)(a):\n  if (in)(i, \"([\"):\n    (n)(add)(i) # )\nwhile (x:".toList
    let out :=
      "for i in range(1, len(a), 1):\n    if (i in \"([\"):\n        n = (n + i)\nwhile (x:".toList
    (compile {} source).outcome = .ok out ∧
    ∃ p, (Program.ofSource {} source).outcome = .ok p ∧ out = Program.python 4 p ∧
      List.Forall₂ (fun l line ↦ Text.afterWord? "while".toList l.code = none →
          Text.Balanced l.code ∧ Text.Balanced (line.python 4))
        (SourceLine.ofSource source) p := by
  intro source out
  have h : (compile {} source).outcome = .ok out := by decide +kernel
  exact ⟨h, compile_balanced rfl rfl h⟩

end CallChain
