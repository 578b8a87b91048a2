import CallChain.Proofs.BlockMarks
import CallChain.Proofs.CallTree
import CallChain.Proofs.FailFast
import CallChain.Settings.File

namespace CallChain

namespace Settings

variable {s : Settings}

theorem placeholder_of_fault? (h : s.fault? = none) :
    ¬Text.isBlank s.placeholder ∧ ∀ c ∈ [',', '(', ')'], c ∉ s.placeholder := by
  rw [fault?] at h
  split at h
  · cases h
  · split at h
    · cases h
    · rename_i hplaceholder
      rw [Bool.or_eq_true, not_or, List.any_eq_true] at hplaceholder
      refine ⟨hplaceholder.1, fun c hc hmem ↦ hplaceholder.2 ⟨c, ?_, by simpa using hc⟩⟩
      obtain ⟨lead, trail, hsplit, hlead, htrail⟩ := Text.exists_blanks s.placeholder
      have hblank : ¬isBlank c := by
        have hall : [',', '(', ')'].all (!isBlank ·) := by decide
        simpa using List.all_eq_true.1 hall c hc
      rw [hsplit, List.mem_append, List.mem_append] at hmem
      obtain hmem | hmem | hmem := hmem
      · exact absurd (List.all_eq_true.1 hlead c hmem) hblank
      · exact hmem
      · exact absurd (List.all_eq_true.1 htrail c hmem) hblank

/-- What is written for an argument that has no default of its own. -/
def filled (s : Settings) (t : Text) : Text := if t = s.placeholder then noValue else t

end Settings

namespace Text

variable {s t : Text}

theorem lines_append (hs : ∀ c ∈ s, c ≠ '\n' ∧ c ≠ '\r') (hne : s ≠ []) (t : Text) :
    lines (s ++ t) = (s ++ (lines t).headD []) :: (lines t).tail := by
  induction s with
  | nil => exact absurd rfl hne
  | cons c s ih =>
    obtain ⟨hnewline, hreturn⟩ := hs c (by simp)
    rw [List.cons_append, lines_cons hnewline fun h ↦ hreturn h.1]
    cases s with
    | nil => rfl
    | cons d s =>
      rw [ih (fun e he ↦ hs e (by simp [he])) (List.cons_ne_nil _ _)]
      rfl

theorem headD_lines_isPrefix (t : Text) : (lines t).headD [] <+: t := by
  fun_induction lines t with
  | case1 => exact List.nil_prefix
  | case2 => exact List.nil_prefix
  | case3 => exact List.nil_prefix
  | case4 c t _ _ _ => exact List.cons_prefix_cons.2 ⟨rfl, List.nil_prefix⟩
  | case5 c t _ _ l ls hlines ih =>
    rw [hlines] at ih
    exact List.cons_prefix_cons.2 ⟨rfl, ih⟩

theorem unbroken_headD_lines (t : Text) : Unbroken ((lines t).headD []) := by
  cases hlines : lines t with
  | nil => exact List.not_mem_nil
  | cons l ls => exact unbroken_of_mem_lines (by rw [hlines]; exact List.mem_cons_self)

theorem openGroup_of_not_mem (h : '(' ∉ t) : openGroup t = none := by
  cases hopen : openGroup t with
  | none => rfl
  | some gap =>
    rw [← openGroupFrom_text hopen] at h
    simp at h

theorem callSite?_of_not_mem (h : '(' ∉ t) : callSite? t = none :=
  callSite?_of_nextGroup (nextGroup_eq_none (openGroup_of_not_mem h))

theorem cutComment_eq_none (h : (cutComment t).1 = t) : (cutComment t).2 = none := by
  cases hcomment : (cutComment t).2 with
  | none => rfl
  | some comment =>
    have htext := cutCommentFrom_text {} t
    have hhead := ((cutCommentFrom_spec {} t).2 comment hcomment).1
    rw [cutComment] at h hcomment
    rw [h, hcomment, Option.getD_some, List.append_right_eq_self] at htext
    rw [htext] at hhead
    cases hhead

theorem trimEnd_isPrefix (t : Text) : trimEnd t <+: t := ⟨_, trimEnd_append t⟩

theorem trim_append (hhead : ∀ c ∈ s.head?, ¬CallChain.isBlank c)
    (hlast : ∀ c ∈ s.getLast?, ¬CallChain.isBlank c) (hne : s ≠ []) (t : Text) :
    trim (s ++ t) = s ++ trimEnd t := by
  have hstart : trimStart (s ++ t) = s ++ t := by
    apply trimStart_eq_self
    rwa [List.head?_append_of_ne_nil _ hne]
  rw [trim, hstart]
  by_cases hblank : isBlank t
  · have hnil : trimEnd t = [] := trimEnd_append_blank (s := []) hblank
    rw [trimEnd_append_blank hblank, trimEnd_eq_self hlast, hnil, List.append_nil]
  · exact trimEnd_append_of_not_blank hblank s

theorem trim_ne_nil (h : ¬isBlank t) : trim t ≠ [] := by
  intro hnil
  obtain ⟨lead, trail, hsplit, hlead, htrail⟩ := exists_blanks t
  rw [hnil, List.nil_append] at hsplit
  apply h
  rw [hsplit, isBlank, List.all_append, Bool.and_eq_true]
  exact ⟨hlead, htrail⟩

theorem arguments_of_not_mem (h : ',' ∉ t) (hblank : ¬isBlank t) : arguments t = [trim t] := by
  simp [arguments, segments, segmentsFrom_of_not_mem h, trim_ne_nil hblank]

theorem eq_of_append_closing {u : Text} (h : ')' ∉ t) (heq : s ++ ')' :: u = t ++ [')']) :
    s = t ∧ u = [] := by
  obtain rfl | ⟨u, c, rfl⟩ := List.eq_nil_or_concat u
  · exact ⟨List.append_cancel_right heq, rfl⟩
  · rw [List.concat_eq_append, ← List.cons_append, ← List.append_assoc] at heq
    rw [← List.append_inj_left' heq rfl] at h
    simp at h

end Text

theorem Heading.ofCode_parenthesis {code : Text} (h : code.head? = some '(') :
    ofCode code = .plain := by
  obtain ⟨rest, target, iterable, hrest, -, -⟩ | ⟨guard, rest, hrest, -⟩ |
    ⟨hwhile | rfl | rfl, -⟩ | hplain := ofCode_cases code
  · rw [afterWord?_eq_none rfl h (by decide)] at hrest
    cases hrest
  · cases guard with
    | ifTest =>
      rw [afterWord?_eq_none (c := 'i') rfl h (by decide)] at hrest
      cases hrest
    | elifTest =>
      rw [afterWord?_eq_none (c := 'e') rfl h (by decide)] at hrest
      cases hrest
  · exact absurd (afterWord?_eq_none rfl h (by decide)) hwhile
  · cases h
  · cases h
  · exact hplain

theorem Statement.head?_python {s : Settings} {code : Text} {st : Statement}
    (hcode : code.head? = some '(') (hsite : Text.callSite? code = none)
    (h : (ofCode s code).outcome = .ok st) : st.python.head? = some '(' := by
  rw [ofCode, Heading.ofCode_parenthesis hcode] at h
  obtain ⟨e, he, hcases⟩ := ofPlain_cases h
  obtain rfl := ((Expr.ofText_ok_iff_of_none hsite).1 he).2
  obtain ⟨hraw, -⟩ | ⟨-, ⟨-, rfl⟩ | ⟨target, value, e', hsides, -, rfl⟩⟩ := hcases
  · cases hraw
  · exact hcode
  · obtain ⟨k, hk, rfl, -⟩ := Text.assignment?_cases hsides
    have hbefore : k.before.head? = some '(' := by
      have htext := Text.cutFirst_text hk
      cases hb : k.before with
      | nil =>
        rw [hb] at htext
        rw [← htext] at hcode
        cases hcode
      | cons c before =>
        rw [hb] at htext
        rw [← htext] at hcode
        exact hcode
    have htarget : (Text.trim k.before).head? = some '(' := by
      have hstart : Text.trimStart k.before = k.before := by
        apply Text.trimStart_eq_self
        rw [hbefore]
        rintro c ⟨⟩
        decide
      rw [Text.trim, hstart]
      exact Text.head?_trimEnd (by decide) hbefore
    change (Text.trim k.before ++ " = ".toList ++ e'.python true).head? = _
    rw [List.head?_append, List.head?_append, htarget]
    rfl

theorem Line.statement_isPrefix {line : Line} (hlevel : line.level = 0)
    (hblank : line.statement.isBlank = false) (w : Nat) :
    line.statement.python <+: line.python w := by
  rw [Line.python, hblank, Bool.false_and, if_neg Bool.false_ne_true, hlevel, Nat.zero_mul,
    List.replicate_zero, List.nil_append]
  exact List.prefix_append _ _

theorem Program.line_isPrefix (w : Nat) (line : Line) (p : Program) :
    line.python w <+: Program.python w (line :: p) := by
  rw [Program.python, List.map_cons]
  cases p with
  | nil => exact ⟨[], by rw [List.map_nil, List.intercalate_singleton, List.append_nil]⟩
  | cons line' p =>
    rw [List.map_cons, List.intercalate_cons_cons, List.append_assoc]
    exact List.prefix_append _ _

theorem exists_of_compile {s : Settings} {source raw out : Text} {rest : List Text}
    (h : (compile s source).outcome = .ok out) (hlines : Text.lines source = raw :: rest)
    (hcode : Text.trim (Text.cutComment raw).1 ≠ []) :
    ∃ st, (Statement.ofCode s (Text.trim (Text.cutComment raw).1)).outcome = .ok st ∧
      st.python <+: out := by
  obtain ⟨p, hp, rfl⟩ := Logged.outcome_map_eq_ok.1 h
  have hsource : SourceLine.ofSource source =
      .ofRaw 1 raw :: (rest.zipIdx 2).map fun l ↦ .ofRaw l.2 l.1 := by
    rw [SourceLine.ofSource, hlines]
    rfl
  rw [Program.ofSource, hsource, Program.ofLines_code hcode, Logged.outcome_bind_eq_ok] at hp
  obtain ⟨line, hline, hp⟩ := hp
  obtain ⟨p, -, rfl⟩ := Logged.outcome_map_eq_ok.1 hp
  have hread := (SourceLine.codeLine_isRead hcode hline).code hcode
  have hlevel : line.level = 0 := SourceLine.level_of_codeLine hline
  exact ⟨line.statement, hread,
    (Line.statement_isPrefix hlevel (Statement.ofCode_ne_blank hread) _).trans
      (Program.line_isPrefix _ line p)⟩

namespace FunctionName

variable {s : Settings} {p w : Text}

theorem isNameChar_text (f : FunctionName) : ∀ c ∈ f.text, isNameChar c := by
  have hchars := Text.isNameChar_of_isFunctionName f.valid
  rwa [f.split_eq] at hchars

theorem ne_nil (f : FunctionName) : f.text ≠ [] := by
  intro hnil
  have hvalid := f.valid
  rw [hnil] at hvalid
  cases hvalid

def opening (f : FunctionName) : Text := '(' :: f.text ++ ")(".toList

theorem chained_eq_opening (f : FunctionName) (p : Text) :
    Text.chained [f.text, p] = f.opening ++ (p ++ [')']) := by
  simp [Text.chained, opening]

theorem opening_chars (f : FunctionName) : ∀ c ∈ f.opening, ¬isBlank c ∧ c ≠ '#' := by
  have hhash : isNameChar '#' = false := by decide +kernel
  have hround : ∀ c ∈ ['(', ')'], ¬isBlank c ∧ c ≠ '#' := by
    intro c hc
    simp only [List.mem_cons, List.not_mem_nil, or_false] at hc
    obtain rfl | rfl := hc <;> decide
  intro c hc
  have hcases : c ∈ f.text ∨ c ∈ ['(', ')'] := by
    simp only [opening, List.mem_append, List.mem_cons] at hc ⊢
    grind
  obtain hc | hc := hcases
  · have hname := f.isNameChar_text c hc
    refine ⟨not_isBlank_of_isNameChar hname, ?_⟩
    rintro rfl
    simp [hhash] at hname
  · exact hround c hc

theorem hash_not_mem_opening (f : FunctionName) : '#' ∉ f.opening := fun h ↦
  (f.opening_chars '#' h).2 rfl

theorem not_mem_opening (f : FunctionName) {c : Char} (hc : isBlank c) : c ∉ f.opening := fun h ↦
  (f.opening_chars c h).1 hc

theorem exists_code (f : FunctionName) (t : Text) : ∃ w, w <+: t ∧
    Text.trim (Text.cutComment (f.opening ++ t)).1 = f.opening ++ w ∧
    (w = t → (Text.cutComment (f.opening ++ t)).2 = none) := by
  have hcut := Text.cutCommentFrom_append
    (Text.cutCommentFrom_of_not_mem f.hash_not_mem_opening {}) t
  have htext := Text.cutCommentFrom_text (({} : Nesting).after f.opening) t
  rw [← Text.cutComment] at hcut
  revert hcut htext
  generalize Text.cutCommentFrom _ t = cut
  intro hcut htext
  have hfront : cut.1 <+: t := ⟨_, htext⟩
  have hend := Text.trimEnd_isPrefix cut.1
  refine ⟨Text.trimEnd cut.1, hend.trans hfront, ?_, fun hw ↦ ?_⟩
  · rw [hcut]
    apply Text.trim_append
    · rintro c ⟨⟩
      decide
    · intro c hc
      have hlast : f.opening.getLast? = some '(' := List.getLast?_append_cons _ _ _
      rw [hlast] at hc
      cases hc
      decide
    · exact List.cons_ne_nil _ _
  · have hwhole : cut.1 = t := by
      apply hfront.eq_of_length_le
      rw [← hw]
      exact hend.length_le
    apply Text.cutComment_eq_none
    rw [hcut, hwhole]

theorem exists_argument (f : FunctionName) (h : Text.callSite? (f.opening ++ w) ≠ none) :
    ∃ argument after, Text.Balanced argument ∧ argument ++ ')' :: after = w := by
  cases hclose : Text.closeGroup w with
  | some k => exact ⟨k.before, k.after, Text.closeGroup_balanced hclose,
      Text.closeGroupFrom_text hclose⟩
  | none =>
    have hrest : Text.nextGroup ('(' :: w) = none := by
      have hopen : Text.openGroup ('(' :: w) = some ⟨[], w⟩ := rfl
      rw [Text.nextGroup, hopen]
      simp only [hclose]
    have hsound : ∀ g ∈ [Group.mk [] f.text], g.Sound :=
      List.forall_mem_singleton.2 (Group.sound_of_gap_nil f.balanced)
    have houtline := Text.outline_groups hsound hrest
    have htext : [Group.mk [] f.text].flatMap Group.text ++ '(' :: w = f.opening ++ w := by
      simp [Group.text, opening]
    rw [htext] at houtline
    exact absurd (Text.callSite?_eq_none_of_gaps (by simp [houtline])) h

theorem forall_balanced (f : FunctionName) (hp : Text.Balanced p) :
    ∀ u ∈ [f.text, p], Text.Balanced u :=
  List.forall_mem_cons.2 ⟨f.balanced, List.forall_mem_singleton.2 hp⟩

theorem clear_chained_iff (f : FunctionName) (hp : Text.Balanced p) :
    Text.Clear (Text.chained [f.text, p]) ↔ Text.Clear p := by
  have hname : Text.Clear f.text := by
    refine ⟨f.balanced, Text.cutCommentFrom_of_not_mem (fun hmem ↦ ?_) {}⟩
    exact f.hash_not_mem_opening (by simp [opening, hmem])
  have hfunction : Text.Balanced ('(' :: f.text ++ [')']) := f.balanced.enclosed .round
  have hsplit : Text.chained [f.text, p] = ('(' :: f.text ++ [')']) ++ ('(' :: p ++ [')']) := by
    simp [Text.chained]
  rw [hsplit, Text.clear_append_iff hfunction, Text.clear_enclosed f.balanced,
    Text.clear_enclosed hp]
  exact ⟨And.right, fun h ↦ ⟨hname, h⟩⟩

/-- Where the parenthesis in front is gone, the call was read, with all that stands between its
parentheses. -/
theorem clear_of_compile (f : FunctionName) {out : Text} (hround : ')' ∉ p)
    (h : (compile s (Text.chained [f.text, p])).outcome = .ok out) (hout : out.head? ≠ some '(') :
    Text.Clear p ∧ '\n' ∉ p := by
  have hopening : ∀ c ∈ f.opening, c ≠ '\n' ∧ c ≠ '\r' := by
    intro c hc
    constructor
    · rintro rfl
      exact f.not_mem_opening (by decide) hc
    · rintro rfl
      exact f.not_mem_opening (by decide) hc
  have hlines := Text.lines_append hopening (List.cons_ne_nil _ _) (p ++ [')'])
  have hfirst := Text.headD_lines_isPrefix (p ++ [')'])
  have hunbroken := Text.unbroken_headD_lines (p ++ [')'])
  rw [chained_eq_opening] at h
  revert hlines hfirst hunbroken
  generalize (Text.lines (p ++ [')'])).headD [] = line
  intro hlines hfirst hunbroken
  obtain ⟨w, hw, hcode, hcomment⟩ := f.exists_code line
  have hne : f.opening ++ w ≠ [] := List.cons_ne_nil _ _
  obtain ⟨st, hst, hwritten⟩ := exists_of_compile h hlines (by rwa [hcode])
  rw [hcode] at hst
  have hsite : Text.callSite? (f.opening ++ w) ≠ none := by
    intro hnone
    have hhead := Statement.head?_python rfl hnone hst
    obtain ⟨u, rfl⟩ := hwritten
    rw [List.head?_append, hhead] at hout
    exact hout rfl
  obtain ⟨argument, after, hbalanced, rfl⟩ := f.exists_argument hsite
  obtain heq | hshort := List.prefix_concat_iff.1 (hw.trans hfirst)
  · obtain ⟨rfl, rfl⟩ := Text.eq_of_append_closing hround heq
    obtain rfl : line = argument ++ [')'] := hfirst.eq_of_length_le hw.length_le
    have hclear : Text.Clear (Text.chained [f.text, argument]) :=
      ⟨Text.balanced_chained (f.forall_balanced hbalanced),
        by rw [chained_eq_opening, hcomment rfl]⟩
    exact ⟨(f.clear_chained_iff hbalanced).1 hclear, fun hmem ↦ hunbroken (by simp [hmem])⟩
  · exact absurd (hshort.mem (by simp)) hround

theorem ofText_argument (f : FunctionName) (hf : Builtin.lookup? f.text = none)
    (hp : Text.Balanced p) (hcomma : ',' ∉ p) (hround : '(' ∉ p) (hblank : ¬Text.isBlank p) :
    (Expr.ofText s .statement (Text.chained [f.text, p])).outcome =
      .ok (.call (.named f.text) [.raw (s.filled (Text.trim p))]) := by
  have hbalanced := f.forall_balanced hp
  have hsite := Text.callSite?_chained none f.valid f.trim_eq hbalanced
  have hcallee : Callee.ofName f.text = .named f.text := by rw [Callee.ofName, hf]
  have hread : Argument.IsRead s (Text.trim p) ⟨Text.trim p, .raw (Text.trim p)⟩ := by
    have hnone : Text.callSite? (Text.trim p) = none :=
      Text.callSite?_of_not_mem fun hmem ↦ hround ((Text.trim_isInfix p).mem hmem)
    exact ⟨rfl, (Expr.ofText_ok_iff_of_none hnone).2 ⟨fun _ ↦ Text.balanced_trim.2 hp, rfl⟩⟩
  have hcall : (Expr.ofCall s .statement f.text none [⟨Text.trim p, .raw (Text.trim p)⟩]).outcome =
      .ok (.call (.named f.text) [.raw (s.filled (Text.trim p))]) := by
    refine Expr.ofCall_ok_iff.2 ?_
    rw [f.split_eq, hcallee]
    refine ⟨rfl, ?_⟩
    by_cases hplaceholder : Text.trim p = s.placeholder
    · simp [Callee.complete, Callee.paramCount, Callee.defaultAt, bindTarget, Expr.bound,
        Settings.filled, hplaceholder]
    · simp [Callee.complete, Callee.paramCount, bindTarget, Expr.bound, Settings.filled,
        hplaceholder]
  have hsiteRead : (CallSite.read s .statement ⟨[], none, f.text, p, []⟩).outcome =
      .ok (.call (.named f.text) [.raw (s.filled (Text.trim p))]) := by
    refine CallSite.read_ok_iff.2 ⟨fun _ ↦ hp, none, _, .nil, ?_, hcall⟩
    rw [Text.arguments_of_not_mem hcomma hblank]
    exact .cons hread .nil
  exact (Expr.ofText_ok_iff hsite).2
    ⟨fun _ ↦ Text.balanced_chained hbalanced, .raw [], _, hsiteRead,
    Expr.ofText_nil _ _, rfl⟩

theorem compile_argument (f : FunctionName) (hf : Builtin.lookup? f.text = none)
    (hp : Text.Clear p) (hline : '\n' ∉ p) (hcomma : ',' ∉ p) (hround : '(' ∉ p)
    (hblank : ¬Text.isBlank p) :
    (compile s (Text.chained [f.text, p])).outcome =
      .ok (f.text ++ '(' :: s.filled (Text.trim p) ++ [')']) := by
  have hne : Text.chained [f.text, p] ≠ [] := List.cons_ne_nil _ _
  have hcut : Text.cutComment (Text.chained [f.text, p]) = (Text.chained [f.text, p], none) :=
    Text.cutComment_eq_of_none ((f.clear_chained_iff hp.1).2 hp).2
  have htrim : Text.trim (Text.chained [f.text, p]) = Text.chained [f.text, p] :=
    (Text.isArgument_chained (List.cons_ne_nil _ _) (f.forall_balanced hp.1)).trimmed
  have hunbroken : '\n' ∉ Text.chained [f.text, p] := by
    have hopening : '\n' ∉ f.opening := f.not_mem_opening (by decide)
    rw [chained_eq_opening]
    simp [hopening, hline]
  have hcomment : (SourceLine.ofRaw 1 (Text.chained [f.text, p])).keptComment s = none := by
    rw [SourceLine.keptComment, SourceLine.ofRaw, hcut]
    exact ite_self none
  have hstatement : (Statement.ofCode s (Text.chained [f.text, p])).outcome =
      .ok (.expr (.call (.named f.text) [.raw (s.filled (Text.trim p))])) := by
    rw [Statement.ofCode, Heading.ofCode_parenthesis rfl]
    dsimp only
    rw [Statement.ofPlain, Logged.outcome_bind,
      f.ofText_argument hf hp.1 hcomma hround hblank]
    rfl
  have hwritten : ∀ value : Text, (Callee.named f.text).python [value] =
      f.text ++ '(' :: value ++ [')'] := by
    intro value
    rw [Callee.python, List.intercalate_singleton]
  rw [compile_line_of_keptComment hunbroken hne hcomment, hcut, htrim, if_neg hne, hstatement]
  exact congrArg Except.ok (hwritten _)

end FunctionName

/-- A placeholder that the check of the settings lets through is replaced by the default of its
argument exactly if the line reads it as one argument and trims nothing from it. -/
theorem compile_placeholder {s : Settings} (hs : s.fault? = none) (f : FunctionName)
    (hf : Builtin.lookup? f.text = none) :
    (compile s (Text.chained [f.text, s.placeholder])).outcome =
        .ok (f.text ++ '(' :: noValue ++ [')']) ↔
      Text.Clear s.placeholder ∧ '\n' ∉ s.placeholder ∧
        (Text.trim s.placeholder = s.placeholder ∨ Text.trim s.placeholder = noValue) := by
  obtain ⟨hblank, hchars⟩ := Settings.placeholder_of_fault? hs
  have hcall := fun hclear hline ↦ f.compile_argument (s := s) hf hclear hline
    (hchars ',' (by simp)) (hchars '(' (by simp)) hblank
  constructor
  · intro h
    have hhead : (f.text ++ '(' :: noValue ++ [')']).head? ≠ some '(' := by
      rw [List.append_assoc, List.head?_append_of_ne_nil _ f.ne_nil]
      intro hround
      have hplain := Role.of_name (f.isNameChar_text '(' (List.mem_of_mem_head? hround))
      cases hplain
    obtain ⟨hclear, hline⟩ := f.clear_of_compile (hchars ')' (by simp)) h hhead
    refine ⟨hclear, hline, ?_⟩
    rw [hcall hclear hline, Settings.filled] at h
    split at h
    · rename_i htrim
      exact .inl htrim
    · have hwritten := List.append_cancel_right (Except.ok.inj h)
      exact .inr (List.cons_inj_right _ |>.1 (List.append_cancel_left hwritten))
  · rintro ⟨hclear, hline, htrim⟩
    rw [hcall hclear hline, Settings.filled]
    split
    · rfl
    · rename_i hne
      rw [htrim.resolve_left hne]

theorem compile_placeholder_brackets : ∃ s : Settings,
    s.placeholder = "[?]".toList ∧ s.strictBrackets = false ∧ s.fault? = none ∧
      Builtin.lookup? "np.sum".toList = none ∧
      (compile s "(np.sum)([?])".toList).outcome = .ok "np.sum(None)".toList := by
  let s : Settings := { placeholder := "[?]".toList, strictBrackets := false }
  let f : FunctionName := { text := "np.sum".toList }
  have hs : s.fault? = none := by decide +kernel
  have hf : Builtin.lookup? f.text = none := by decide +kernel
  exact ⟨s, rfl, rfl, hs, hf, (compile_placeholder hs f hf).2 (by decide +kernel)⟩

/-- The check looks at the placeholder without its blanks, and arguments have none, but the two are
compared with the blank in place. -/
theorem untrimmed_placeholder_kept : ∃ s : Settings,
    s.placeholder = " ~".toList ∧ s.fault? = none ∧
      (compile s "(f)( ~)".toList).outcome = .ok "f(~)".toList :=
  ⟨{ placeholder := " ~".toList }, rfl, by decide +kernel, by decide +kernel⟩

end CallChain
