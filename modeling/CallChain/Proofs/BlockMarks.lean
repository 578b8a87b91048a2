import CallChain.Proofs.Blocks
import CallChain.Proofs.WrittenLines

namespace CallChain

theorem Piece.getLast?_fill {p : Piece} {c : Char} (h : p.fixed.getLast? = some c)
    (ts : List Text) : (p.fill ts).getLast? = some c := by
  cases p with
  | text t => exact h
  | hole | all => simp [fixed] at h

theorem Template.getLast?_fill {template : Template} {c : Char}
    (h : template.getLast?.bind (·.fixed.getLast?) = some c) (ts : List Text) :
    (template.fill ts).getLast? = some c := by
  obtain ⟨p, hp, hc⟩ := Option.bind_eq_some_iff.1 h
  obtain ⟨ps, rfl⟩ := List.getLast?_eq_some_iff.1 hp
  rw [fill, List.flatMap_append, List.flatMap_singleton, List.getLast?_append,
    Piece.getLast?_fill hc]
  rfl

theorem Builtin.table_closed :
    table.all fun b ↦ b.template.getLast?.bind (·.fixed.getLast?) = some ')' := by decide +kernel

theorem Callee.getLast?_python (function : Text) (ts : List Text) :
    ((ofName function).python ts).getLast? = some ')' := by
  rw [ofName]
  cases hb : Builtin.lookup? function with
  | none => exact List.getLast?_concat
  | some b =>
    have hclosed := List.all_eq_true.1 Builtin.table_closed b (Builtin.mem_of_lookup? hb)
    exact Template.getLast?_fill (of_decide_eq_true hclosed) ts

namespace Expr

variable {s : Settings} {mode : BindMode} {text : Text} {e : Expr}

theorem getLast?_python_bound (function : Text) (values : List Expr) (target : Option Expr)
    (nested : Bool) :
    ((bound mode (.call (.ofName function) values) target).python nested).getLast? = some ')' := by
  cases target with
  | none => exact Callee.getLast?_python function _
  | some t =>
    rw [bound, python_bind]
    split
    · exact List.getLast?_concat
    · rw [List.getLast?_append, python_call, Callee.getLast?_python]
      rfl

theorem getLast?_python_joined {before call : Expr} {after : Text} {c : Char}
    (hcall : ∀ nested, (call.python nested).getLast? = some c) (nested : Bool) :
    ((joined [before, call, .raw after]).python nested).getLast? = (c :: after).getLast? := by
  have hne : call.isEmpty = false := by
    refine isEmpty_of_python_ne_nil fun hnil ↦ ?_
    have hc := hcall true
    rw [hnil] at hc
    cases hc
  cases after with
  | nil =>
    have hnil : (raw []).isEmpty = true := rfl
    cases hb : before.isEmpty <;> simp [joined, hb, hne, hnil, pythonAll, hcall]
  | cons d after =>
    have hcons : (raw (d :: after)).isEmpty = false := rfl
    have hlast : (d :: after).getLast? = some ((d :: after).getLast (List.cons_ne_nil d after)) :=
      List.getLast?_eq_some_getLast _
    cases hb : before.isEmpty <;> simp [joined, hb, hne, hcons, pythonAll, hlast]

theorem ofText_getLast? (h : (ofText s mode text).outcome = .ok e) (nested : Bool) :
    (e.python nested).getLast? = text.getLast? := by
  cases hsite : Text.callSite? text with
  | none =>
    obtain ⟨-, rfl⟩ := (ofText_ok_iff_of_none hsite).1 h
    rfl
  | some site =>
    obtain ⟨-, before, call, hread, -, rfl⟩ := (ofText_ok_iff hsite).1 h
    obtain ⟨-, leading, arguments, -, -, hcall⟩ := CallSite.read_ok_iff.1 hread
    obtain ⟨-, rfl⟩ := ofCall_ok_iff.1 hcall
    rw [getLast?_python_joined (getLast?_python_bound _ _ _)]
    exact (Text.getLast?_of_suffix (Text.callSite?_isSuffix hsite) (by simp)).symm

end Expr

def Text.startsGuard (code : Text) : Bool :=
  (afterWord? Guard.ifTest.keyword code).isSome || (afterWord? Guard.elifTest.keyword code).isSome

namespace Heading

variable {code : Text}

theorem afterWord?_eq_none {word : Text} {c d : Char} (hword : word.head? = some c)
    (hcode : code.head? = some d) (hne : c ≠ d) : Text.afterWord? word code = none := by
  cases hrest : Text.afterWord? word code with
  | none => rfl
  | some rest =>
    rw [← Text.afterWord?_text hrest, List.head?_append, hword] at hcode
    exact absurd (Option.some.inj hcode) hne

theorem rest_of_guarded {guard : Guard} {test : Text} (h : ofCode code = .guarded guard test) :
    ∃ rest, Text.afterWord? guard.keyword code = some rest ∧ test = Text.guardTest rest := by
  obtain ⟨_, _, _, -, -, heq⟩ | ⟨guard', rest, hrest, heq⟩ | ⟨-, heq⟩ | heq := ofCode_cases code
  · simp [heq] at h
  · cases heq.symm.trans h
    exact ⟨rest, hrest, rfl⟩
  · simp [heq] at h
  · simp [heq] at h

theorem startsGuard_iff :
    Text.startsGuard code ↔ ∃ guard test, ofCode code = .guarded guard test := by
  constructor
  · intro h
    rw [Text.startsGuard, Bool.or_eq_true, Option.isSome_iff_exists, Option.isSome_iff_exists] at h
    obtain ⟨rest, hrest⟩ | ⟨rest, hrest⟩ := h
    · have hhead : code.head? = some 'i' := by
        rw [← Text.afterWord?_text hrest]
        rfl
      refine ⟨.ifTest, Text.guardTest rest, ?_⟩
      rw [ofCode, ofLoop?, afterWord?_eq_none rfl hhead (by decide), ofWhile?,
        afterWord?_eq_none rfl hhead (by decide), ofGuard?, hrest]
      rfl
    · have hhead : code.head? = some 'e' := by
        rw [← Text.afterWord?_text hrest]
        rfl
      refine ⟨.elifTest, Text.guardTest rest, ?_⟩
      rw [ofCode, ofLoop?, afterWord?_eq_none rfl hhead (by decide), ofWhile?,
        afterWord?_eq_none rfl hhead (by decide), ofGuard?, ofGuard?,
        afterWord?_eq_none rfl hhead (by decide), hrest]
      rfl
  · rintro ⟨guard, test, h⟩
    obtain ⟨rest, hrest, -⟩ := rest_of_guarded h
    cases guard <;> simp [Text.startsGuard, hrest]

end Heading

namespace Statement

variable {s : Settings} {code target value : Text} {st : Statement} {e : Expr}

theorem getLast?_loop (hcode : Text.trim code = code) {rest iterable : Text}
    (hrest : Text.afterWord? "for".toList code = some rest)
    (hparts : Text.loopParts? rest = some (target, iterable)) : code.getLast? = some blockMark := by
  obtain ⟨head, k, hhead, -⟩ := Text.loopParts?_cases hparts
  have hsuffix : rest <:+ code := ⟨_, Text.afterWord?_text hrest⟩
  have hne : Text.trim rest ≠ [] := by simp [← hhead]
  rw [← Text.getLast?_trim_of_suffix hcode hsuffix hne, ← hhead]
  exact List.getLast?_concat

theorem getLast?_assign (hcode : Text.trim code = code)
    (hsides : Text.assignment? code = some (target, value))
    (he : (Expr.ofText s .inline value).outcome = .ok e) :
    (assign target e).python.getLast? = some blockMark ↔ code.getLast? = some blockMark := by
  obtain ⟨k, hk, rfl, rfl⟩ := Text.assignment?_cases hsides
  have htext := Text.cutFirst_text hk
  have hsuffix : k.after <:+ code := ⟨_, htext⟩
  by_cases hnil : Text.trim k.after = []
  · rw [hnil, Expr.ofText_nil, Except.ok.injEq] at he
    rw [← htext, ← he, Text.eq_nil_of_suffix hcode hsuffix hnil, List.append_nil]
    refine iff_of_false ?_ ?_
    · have hwritten : (assign (Text.trim k.before) (.raw [])).python =
          Text.trim k.before ++ " = ".toList := List.append_nil _
      rw [hwritten, List.getLast?_append]
      simp [blockMark]
    · rw [List.getLast?_append]
      simp [blockMark]
  · have hlast := Expr.ofText_getLast? he true
    have hne : e.python true ≠ [] := by
      intro hpython
      rw [hpython, List.getLast?_nil] at hlast
      exact hnil (List.getLast?_eq_none_iff.1 hlast.symm)
    have hwritten : (assign (Text.trim k.before) e).python.getLast? = (e.python true).getLast? :=
      Text.getLast?_of_suffix (List.suffix_append _ _) hne
    rw [hwritten, hlast, Text.getLast?_trim_of_suffix hcode hsuffix hnil]

/-- A line is written with the mark at its end if it ends with it, and if it is a guard. -/
theorem getLast?_python_iff (hcode : Text.trim code = code) (h : (ofCode s code).outcome = .ok st) :
    st.python.getLast? = some blockMark ↔
      code.getLast? = some blockMark ∨ Text.startsGuard code := by
  rw [ofCode] at h
  have hguard := @Heading.startsGuard_iff code
  obtain ⟨rest, target, iterable, hrest, hparts, heq⟩ | ⟨guard, rest, -, heq⟩ | ⟨-, heq⟩ | heq :=
    Heading.ofCode_cases code
  · rw [heq] at h
    have hlast := getLast?_loop hcode hrest hparts
    obtain ⟨i, start, stop, step, -, -, -, -, rfl⟩ | ⟨e, -, rfl⟩ := ofLoop_ok h
    · exact iff_of_true List.getLast?_concat (.inl hlast)
    · exact iff_of_true List.getLast?_concat (.inl hlast)
  · rw [heq] at h
    obtain ⟨e, -, rfl⟩ := Logged.outcome_map_eq_ok.1 h
    exact iff_of_true List.getLast?_concat (.inr (hguard.2 ⟨guard, _, heq⟩))
  · rw [heq] at h hguard
    cases h
    have hno : ¬Text.startsGuard code := by simp [hguard]
    rw [or_iff_left hno]
    rfl
  · rw [heq] at h hguard
    have hno : ¬Text.startsGuard code := by simp [hguard]
    rw [or_iff_left hno]
    obtain ⟨e, he, rfl | rfl | ⟨target, value, e', hsides, hvalue, rfl⟩⟩ := ofPlain_ok h
    · rw [← Expr.ofText_getLast? he false]
      rfl
    · rfl
    · exact getLast?_assign hcode hsides hvalue

end Statement

namespace SourceLine

variable {ls : List SourceLine} {l : SourceLine} {k : Nat}

/-- The line in this place opens a block below the ones that it leaves open. -/
def Opens (ls : List SourceLine) (k : Nat) : Prop :=
  ∃ l ∈ ls[k]?, Layout.afterLines {} (ls.take (k + 1)) =
    ((Layout.afterLines {} (ls.take k)).enter l.width).openBlock l.width

theorem afterLine_eq_openBlock_iff (layout : Layout) (hne : l.code ≠ []) :
    layout.afterLine l = (layout.enter l.width).openBlock l.width ↔ Text.opensBlock l.code := by
  rw [layout.afterLine_code hne, Layout.after]
  split
  · rename_i h
    simp [h]
  · rename_i h
    have hgrows : layout.enter l.width ≠ (layout.enter l.width).openBlock l.width := by
      intro heq
      exact List.cons_ne_self _ _ (congrArg Layout.openers heq).symm
    simp [h, hgrows]

theorem opens_iff (hl : ls[k]? = some l) (hne : l.code ≠ []) :
    Opens ls k ↔ Text.opensBlock l.code := by
  have hafter : Layout.afterLines {} (ls.take (k + 1)) =
      (Layout.afterLines {} (ls.take k)).afterLine l := by
    rw [List.take_add_one, hl, Layout.afterLines_append]
    rfl
  rw [Opens, hl, hafter]
  simpa using afterLine_eq_openBlock_iff _ hne

end SourceLine

namespace Program

variable {s : Settings} {source : Text} {p : Program}

/-- A line of code is written with a mark at its end if it opens a block, and if it is a guard,
whether or not that opens a block. -/
theorem ofSource_blockMarks (h : (ofSource s source).outcome = .ok p) {k : Nat} {l : SourceLine}
    (hl : (SourceLine.ofSource source)[k]? = some l) (hne : l.code ≠ []) :
    ∃ line, p[k]? = some line ∧
      (line.statement.python.getLast? = some blockMark ↔
        SourceLine.Opens (SourceLine.ofSource source) k ∨ Text.startsGuard l.code) ∧
      (SourceLine.Opens (SourceLine.ofSource source) k ↔ l.code.getLast? = some blockMark) := by
  obtain ⟨line, hline, hread⟩ := read_of_ofLines h hl
  rw [SourceLine.read_code hne] at hread
  have hst := (SourceLine.codeLine_isRead hne hread).code hne
  have hmem := List.mem_of_getElem? hl
  have hopens : SourceLine.Opens (SourceLine.ofSource source) k ↔
      l.code.getLast? = some blockMark := by
    rw [SourceLine.opens_iff hl hne, Text.opensBlock, SourceLine.trimEnd_code hmem,
      decide_eq_true_iff]
  refine ⟨line, hline, ?_, hopens⟩
  rw [hopens]
  exact Statement.getLast?_python_iff (SourceLine.trim_code hmem) hst

theorem ofSource_blockMarks_guard :
    let source := "for i in xs:\n    if (gt)(i, 1)\n    (print)(i)".toList
    ∃ p line, (ofSource {} source).outcome = .ok p ∧ p[1]? = some line ∧
      line.statement.python = "if (i > 1):".toList ∧
      (line.statement.python.getLast? = some blockMark ↔
        SourceLine.Opens (SourceLine.ofSource source) 1 ∨ Text.startsGuard "if (gt)(i, 1)".toList) ∧
      ¬SourceLine.Opens (SourceLine.ofSource source) 1 := by
  intro source
  have hpython : (ofSource {} source).outcome.map (·.map (·.statement.python)) =
      .ok ["for i in xs:".toList, "if (i > 1):".toList, "print(i)".toList] := by decide +kernel
  have hl : (SourceLine.ofSource source)[1]? =
      some ⟨2, "    if (gt)(i, 1)".toList, "if (gt)(i, 1)".toList, 4, none⟩ := by decide +kernel
  cases h : (ofSource {} source).outcome with
  | error f => simp [h, Except.map] at hpython
  | ok p =>
    rw [h, Except.map, Except.ok.injEq] at hpython
    obtain ⟨line, hline, hmark, hopens⟩ := ofSource_blockMarks h hl (by decide)
    have hwritten : p[1]?.map (·.statement.python) = some "if (i > 1):".toList := by
      rw [← List.getElem?_map, hpython]
      rfl
    rw [hline, Option.map_some, Option.some.injEq] at hwritten
    refine ⟨p, line, rfl, hline, hwritten, hmark, ?_⟩
    rw [hopens]
    decide

/-- A guard with its body behind it ends with a mark when it is written, and does not open a block.
A body on the next line then stands outside of the block of a guard without a mark. -/
theorem guard_mark_without_block :
    (ofSource {} "if x: y = 1".toList).outcome.map (·.map (·.statement.python)) =
      .ok ["if x: y = 1:".toList] ∧
    ¬SourceLine.Opens (SourceLine.ofSource "if x: y = 1".toList) 0 ∧
    (compile {} "if (gt)(x, 1)\n    (print)(x)".toList).outcome =
      .ok "if (x > 1):\nprint(x)".toList := by
  refine ⟨by decide +kernel, ?_, by decide +kernel⟩
  have hl : (SourceLine.ofSource "if x: y = 1".toList)[0]? =
      some ⟨1, "if x: y = 1".toList, "if x: y = 1".toList, 0, none⟩ := by decide +kernel
  rw [SourceLine.opens_iff hl (by decide)]
  decide

end Program

end CallChain
