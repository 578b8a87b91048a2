import CallChain.Program
import CallChain.Proofs.Cuts
import CallChain.Proofs.Reading
import CallChain.Proofs.Words

namespace CallChain

namespace Text

variable {code t target iterable value : Text}

theorem afterWord?_text {word rest : Text} (h : afterWord? word code = some rest) :
    word ++ rest = code := by
  rw [afterWord?] at h
  split at h
  · rename_i hw
    cases h
    rw [Bool.and_eq_true, List.isPrefixOf_iff_prefix] at hw
    exact List.prefix_iff_eq_append.1 hw.1
  · simp at h

theorem dropMark?_text {head : Text} (h : dropMark? t = some head) : head ++ [blockMark] = t := by
  rw [dropMark?] at h
  split at h
  · rename_i hm
    cases h
    exact List.dropLast_append_getLast? blockMark hm
  · simp at h

theorem loopParts?_cases (h : loopParts? t = some (target, iterable)) :
    ∃ head k, head ++ [blockMark] = trim t ∧ cutFirst " in ".toList head = some k ∧
      target = trim k.before ∧ iterable = trim k.after ∧ isTargetList target ∧ iterable ≠ [] := by
  rw [loopParts?] at h
  split at h
  · simp at h
  · rename_i head hhead
    split at h
    · simp at h
    · rename_i k hk
      dsimp only at h
      split at h
      · rename_i hparts
        cases h
        rw [Bool.and_eq_true] at hparts
        exact ⟨head, k, dropMark?_text hhead, hk, rfl, rfl, hparts.1, by simpa using hparts.2⟩
      · simp at h

theorem assignment?_cases (h : assignment? code = some (target, value)) :
    ∃ k, cutFirst "=".toList code = some k ∧ target = trim k.before ∧ value = trim k.after := by
  rw [assignment?] at h
  split at h
  · simp at h
  · rename_i k hk
    dsimp only at h
    split at h
    · simp at h
    · cases h
      exact ⟨k, hk, rfl, rfl⟩

end Text

namespace Heading

theorem ofJump?_cases {code : Text} {heading : Heading} (h : ofJump? code = some heading) :
    (code = "break".toList ∨ code = "continue".toList) ∧ heading = .verbatim := by
  rw [ofJump?] at h
  split at h
  · rename_i hword
    cases h
    rw [Bool.or_eq_true, decide_eq_true_eq, decide_eq_true_eq] at hword
    exact ⟨hword, rfl⟩
  · simp at h

/-- The headings, each with the words that make a line have it. -/
theorem ofCode_cases (code : Text) :
    (∃ rest target iterable, Text.afterWord? "for".toList code = some rest ∧
      Text.loopParts? rest = some (target, iterable) ∧ ofCode code = .loop target iterable) ∨
    (∃ guard rest, Text.afterWord? (Guard.keyword guard) code = some rest ∧
      ofCode code = .guarded guard (Text.guardTest rest)) ∨
    ((Text.afterWord? "while".toList code ≠ none ∨ code = "break".toList ∨
      code = "continue".toList) ∧ ofCode code = .verbatim) ∨
    ofCode code = .plain := by
  rw [ofCode]
  cases hloop : ofLoop? code with
  | some heading =>
    obtain ⟨⟨target, iterable⟩, hparts, rfl⟩ := Option.map_eq_some_iff.1 hloop
    obtain ⟨rest, hrest, hparts⟩ := Option.bind_eq_some_iff.1 hparts
    exact .inl ⟨rest, target, iterable, hrest, hparts, rfl⟩
  | none =>
  cases hwhile : ofWhile? code with
  | some heading =>
    obtain ⟨rest, hrest, rfl⟩ := Option.map_eq_some_iff.1 hwhile
    exact .inr (.inr (.inl ⟨.inl (by rw [hrest]; simp), rfl⟩))
  | none =>
  cases hif : ofGuard? .ifTest code with
  | some heading =>
    obtain ⟨rest, hrest, rfl⟩ := Option.map_eq_some_iff.1 hif
    exact .inr (.inl ⟨.ifTest, rest, hrest, rfl⟩)
  | none =>
  cases helif : ofGuard? .elifTest code with
  | some heading =>
    obtain ⟨rest, hrest, rfl⟩ := Option.map_eq_some_iff.1 helif
    exact .inr (.inl ⟨.elifTest, rest, hrest, rfl⟩)
  | none =>
  cases hjump : ofJump? code with
  | some heading =>
    obtain ⟨hword, rfl⟩ := ofJump?_cases hjump
    exact .inr (.inr (.inl ⟨.inr hword, rfl⟩))
  | none => exact .inr (.inr (.inr rfl))

end Heading

namespace Statement

variable {s : Settings} {code target iterable : Text} {st : Statement}

/-- A line is kept as an expression exactly if a call was found in it. -/
theorem ofPlain_cases (h : (ofPlain s code).outcome = .ok st) :
    ∃ e, (Expr.ofText s .statement code).outcome = .ok e ∧
      (e.isRaw = false ∧ st = .expr e ∨
        e.isRaw = true ∧ (Text.assignment? code = none ∧ st = .verbatim code ∨
          ∃ target value e', Text.assignment? code = some (target, value) ∧
            (Expr.ofText s .inline value).outcome = .ok e' ∧ st = .assign target e')) := by
  rw [ofPlain, Logged.outcome_bind_eq_ok] at h
  obtain ⟨e, he, h⟩ := h
  refine ⟨e, he, ?_⟩
  cases hraw : e.isRaw with
  | false =>
    rw [hraw] at h
    cases h
    exact .inl ⟨rfl, rfl⟩
  | true =>
    simp only [hraw, Bool.not_true, Bool.false_eq_true, if_false] at h
    refine .inr ⟨rfl, ?_⟩
    split at h
    · rename_i target value hsides
      obtain ⟨e', he', rfl⟩ := Logged.outcome_map_eq_ok.1 h
      exact .inr ⟨target, value, e', hsides, he', rfl⟩
    · rename_i hnone
      cases h
      exact .inl ⟨hnone, rfl⟩

theorem ofPlain_ok (h : (ofPlain s code).outcome = .ok st) :
    ∃ e, (Expr.ofText s .statement code).outcome = .ok e ∧
      (st = .expr e ∨ st = .verbatim code ∨ ∃ target value e',
        Text.assignment? code = some (target, value) ∧
        (Expr.ofText s .inline value).outcome = .ok e' ∧ st = .assign target e') := by
  obtain ⟨e, he, ⟨-, hst⟩ | ⟨-, ⟨-, hst⟩ | hst⟩⟩ := ofPlain_cases h
  · exact ⟨e, he, .inl hst⟩
  · exact ⟨e, he, .inr (.inl hst)⟩
  · exact ⟨e, he, .inr (.inr hst)⟩

theorem ofLoop_ok (h : (ofLoop s target iterable).outcome = .ok st) :
    (∃ i start stop step, Interval.ofText? iterable = some i ∧
      (Expr.ofText s .inline i.start).outcome = .ok start ∧
      (Expr.ofText s .inline i.stop).outcome = .ok stop ∧
      (Expr.ofText s .inline i.step).outcome = .ok step ∧
      st = .loop target (.range start stop step)) ∨
    ∃ e, (Expr.ofText s .inline iterable).outcome = .ok e ∧ st = .loop target e := by
  rw [ofLoop, Logged.outcome_bind_eq_ok] at h
  obtain ⟨range?, hrange, h⟩ := h
  rw [Expr.ofInterval?] at hrange
  split at hrange
  · cases hrange
    obtain ⟨e, he, rfl⟩ := Logged.outcome_map_eq_ok.1 h
    exact .inr ⟨e, he, rfl⟩
  · rename_i i hi
    split at hrange
    · simp [Logged.fail] at hrange
    · simp only [Logged.outcome_bind_eq_ok] at hrange
      obtain ⟨start, hstart, stop, hstop, step, hstep, hrange⟩ := hrange
      cases hrange
      cases h
      exact .inl ⟨i, start, stop, step, hi, hstart, hstop, hstep, rfl⟩

theorem ofCode_ne_blank (h : (ofCode s code).outcome = .ok st) : st.isBlank = false := by
  rw [ofCode] at h
  cases hheading : Heading.ofCode code with
  | loop target iterable =>
    rw [hheading] at h
    obtain ⟨i, start, stop, step, -, -, -, -, rfl⟩ | ⟨e, -, rfl⟩ := ofLoop_ok h <;> rfl
  | guarded guard test =>
    rw [hheading] at h
    obtain ⟨e, -, rfl⟩ := Logged.outcome_map_eq_ok.1 h
    rfl
  | verbatim =>
    rw [hheading] at h
    cases h
    rfl
  | plain =>
    rw [hheading] at h
    obtain ⟨e, -, rfl | rfl | ⟨target, value, e', -, -, rfl⟩⟩ := ofPlain_ok h <;> rfl

end Statement

/-- The program line is read from the source line, at whatever level. -/
structure Line.IsRead (s : Settings) (l : SourceLine) (line : Line) : Prop where
  comment : line.comment = l.keptComment s
  blank : l.code = [] → line.statement = .blank
  code : l.code ≠ [] → (Statement.ofCode s l.code).outcome = .ok line.statement

namespace SourceLine

variable {s : Settings} {layout : Layout} {l : SourceLine} {line : Line}

theorem trim_code {source : Text} (h : l ∈ ofSource source) :
    Text.trim l.code = l.code := by
  obtain ⟨⟨raw, number⟩, -, rfl⟩ := List.mem_map.1 h
  exact Text.trim_trim _

theorem blankLine_isRead (h : l.code = []) : (l.blankLine s layout).IsRead s l :=
  ⟨rfl, fun _ ↦ rfl, fun hne ↦ absurd h hne⟩

theorem codeLine_of_ok {log : List Event} {st : Statement}
    (h : Statement.ofCode s l.code = ⟨log, .ok st⟩) :
    l.codeLine s layout =
      ⟨log ++ [.lineRead l.number (layout.enter l.width).level st.kind],
        .ok ⟨(layout.enter l.width).level, st, l.keptComment s⟩⟩ := by
  rw [codeLine, h]
  rfl

theorem codeLine_of_error {log : List Event} {fault : Fault}
    (h : Statement.ofCode s l.code = ⟨log, .error fault⟩) :
    l.codeLine s layout =
      ⟨log ++ [.aborted l.number fault], .error ⟨l.number, l.raw, fault⟩⟩ := by
  rw [codeLine, h]
  rfl

theorem codeLine_isRead (hne : l.code ≠ []) (h : (l.codeLine s layout).outcome = .ok line) :
    line.IsRead s l := by
  rw [codeLine, Logged.outcome_bind_eq_ok] at h
  obtain ⟨st, hst, h⟩ := h
  rw [Logged.outcome_bind_eq_ok] at h
  obtain ⟨-, -, h⟩ := h
  cases h
  refine ⟨rfl, fun he ↦ absurd he hne, fun _ ↦ ?_⟩
  rw [Logged.onLine] at hst
  split at hst
  · rename_i st' hst'
    cases hst
    exact hst'
  · simp at hst

end SourceLine

namespace Program

variable {s : Settings} {layout : Layout} {ls : List SourceLine} {p : Program}

theorem ofLines_blank {l : SourceLine} (h : l.code = []) :
    ofLines s layout (l :: ls) = List.cons (l.blankLine s layout) <$> ofLines s layout ls := by
  rw [ofLines, h]
  rfl

theorem ofLines_code {l : SourceLine} (h : l.code ≠ []) :
    ofLines s layout (l :: ls) = l.codeLine s layout >>= fun line ↦
      List.cons line <$> ofLines s (layout.after l.width l.code) ls := by
  rw [ofLines, if_neg (by simpa using h)]

/-- What stops the reading is the fault of one line of code, read by itself. -/
theorem ofLines_error {f : LineFault} (h : (ofLines s layout ls).outcome = .error f) :
    ∃ l ∈ ls, f.line = l.number ∧ f.source = l.raw ∧
      (Statement.ofCode s l.code).outcome = .error f.fault := by
  induction ls generalizing layout with
  | nil => simp [ofLines] at h
  | cons l ls ih =>
    by_cases hcode : l.code = []
    · rw [ofLines_blank hcode, Logged.outcome_map_eq_error] at h
      obtain ⟨l', hl', hf⟩ := ih h
      exact ⟨l', by simp [hl'], hf⟩
    · rw [ofLines_code hcode, Logged.outcome_bind_eq_error] at h
      obtain h | ⟨line, -, h⟩ := h
      · rcases hst : Statement.ofCode s l.code with ⟨log, fault | st⟩
        · rw [SourceLine.codeLine_of_error hst] at h
          cases h
          exact ⟨l, by simp, rfl, rfl, by rw [hst]⟩
        · rw [SourceLine.codeLine_of_ok hst] at h
          simp at h
      · rw [Logged.outcome_map_eq_error] at h
        obtain ⟨l', hl', hf⟩ := ih h
        exact ⟨l', by simp [hl'], hf⟩

theorem ofLines_isRead (h : (ofLines s layout ls).outcome = .ok p) :
    List.Forall₂ (Line.IsRead s) ls p := by
  induction ls generalizing layout p with
  | nil =>
    cases h
    exact .nil
  | cons l ls ih =>
    rw [ofLines] at h
    split at h
    · rename_i he
      obtain ⟨p', hp, rfl⟩ := Logged.outcome_map_eq_ok.1 h
      exact .cons (SourceLine.blankLine_isRead (List.isEmpty_iff.1 he)) (ih hp)
    · rename_i hne
      rw [Logged.outcome_bind_eq_ok] at h
      obtain ⟨line, hline, h⟩ := h
      obtain ⟨p', hp, rfl⟩ := Logged.outcome_map_eq_ok.1 h
      exact .cons (SourceLine.codeLine_isRead (by simpa using hne) hline) (ih hp)

theorem exists_isRead (h : (ofLines s layout ls).outcome = .ok p) {line : Line} (hline : line ∈ p) :
    ∃ l ∈ ls, line.IsRead s l := by
  have hread := ofLines_isRead h
  clear h
  induction hread with
  | nil => simp at hline
  | @cons l _ ls _ hl _ ih =>
    obtain rfl | hline := List.mem_cons.1 hline
    · exact ⟨l, by simp, hl⟩
    · obtain ⟨l', hl', hread⟩ := ih hline
      exact ⟨l', by simp [hl'], hread⟩

end Program

theorem Text.lines_of_not_mem {t : Text} (h : '\n' ∉ t) (hne : t ≠ []) : lines t = [t] := by
  fun_induction lines t with
  | case1 => contradiction
  | case2 => simp at h
  | case3 => simp at h
  | case4 c t _ _ hlines ih =>
    cases t with
    | nil => rfl
    | cons d t =>
      rw [ih (List.not_mem_of_not_mem_cons h) nofun] at hlines
      contradiction
  | case5 c t _ l ls _ hlines ih =>
    cases t with
    | nil => simp [lines] at hlines
    | cons d t =>
      rw [ih (List.not_mem_of_not_mem_cons h) nofun] at hlines
      cases hlines
      rfl

theorem Line.python_of_level_zero (st : Statement) (w : Nat) :
    Line.python w ⟨0, st, none⟩ = st.python := by
  have hindent : List.replicate (0 * w) ' ' = [] := by rw [Nat.zero_mul, List.replicate_zero]
  cases st with
  | blank => rfl
  | _ =>
    change List.replicate (0 * w) ' ' ++ _ ++ [] = _
    rw [hindent, List.append_nil, List.nil_append]

theorem compile_error_iff {s : Settings} {source : Text} {f : LineFault} :
    (compile s source).outcome = .error f ↔ (Program.ofSource s source).outcome = .error f :=
  Logged.outcome_map_eq_error

/-- A source of one line is read like its code, and is written like its statement, unless a comment
is kept. -/
theorem compile_line_of_keptComment {s : Settings} {t : Text} (h : '\n' ∉ t) (hne : t ≠ [])
    (hcomment : (SourceLine.ofRaw 1 t).keptComment s = none) :
    (compile s t).outcome = if Text.trim (Text.cutComment t).1 = [] then .ok [] else
      ((Statement.ofCode s (Text.trim (Text.cutComment t).1)).outcome.mapError
        (⟨1, t, ·⟩)).map Statement.python := by
  have hsource : SourceLine.ofSource t = [.ofRaw 1 t] := by
    rw [SourceLine.ofSource, Text.lines_of_not_mem h hne]
    rfl
  have hcode : (SourceLine.ofRaw 1 t).code = Text.trim (Text.cutComment t).1 := rfl
  rw [compile, Program.ofSource, hsource, ← hcode]
  split
  · rename_i he
    rw [Program.ofLines_blank he, SourceLine.blankLine, hcomment]
    rfl
  · rename_i he
    rw [Program.ofLines_code he]
    rcases hst : Statement.ofCode s (SourceLine.ofRaw 1 t).code with ⟨log, fault | st⟩
    · rw [SourceLine.codeLine_of_error hst]
      rfl
    · have hpython : Program.python s.indentWidth [⟨0, st, none⟩] = st.python := by
        rw [Program.python, List.map_singleton, List.intercalate_singleton,
          Line.python_of_level_zero]
      rw [SourceLine.codeLine_of_ok hst, hcomment]
      exact congrArg Except.ok hpython

theorem compile_line {t : Text} (h : '\n' ∉ t) (hne : t ≠ []) :
    (compile {} t).outcome = if Text.trim (Text.cutComment t).1 = [] then .ok [] else
      ((Statement.ofCode {} (Text.trim (Text.cutComment t).1)).outcome.mapError
        (⟨1, t, ·⟩)).map Statement.python :=
  compile_line_of_keptComment h hne rfl

end CallChain
