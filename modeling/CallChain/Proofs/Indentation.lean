import CallChain.Proofs.ArgumentLists
import CallChain.Proofs.Blocks
import CallChain.Proofs.Targets
import CallChain.Proofs.WrittenLines

namespace CallChain

namespace Layout

variable {u m n : Nat}

def pass (layout : Layout) (width : Nat) (opens : Bool) : Layout :=
  if opens then (layout.enter width).openBlock width else layout.enter width

/-- The levels of lines, from their widths and whether they open a block. -/
def track (layout : Layout) : List (Nat × Bool) → List Nat
  | [] => []
  | (width, opens) :: ls => (layout.enter width).level :: (layout.pass width opens).track ls

/-- Blocks that are each `u` columns deeper than the one around them. -/
def even (u : Nat) : Nat → Layout
  | 0 => {}
  | level + 1 => (even u level).openBlock (u * level)

theorem enter_openBlock_of_le (layout : Layout) {w width : Nat} (h : width ≤ w) :
    (layout.openBlock w).enter width = layout.enter width :=
  congrArg mk (List.dropWhile_cons_of_pos (decide_eq_true h))

theorem enter_openBlock_of_lt (layout : Layout) {w width : Nat} (h : w < width) :
    (layout.openBlock w).enter width = layout.openBlock w :=
  congrArg mk (List.dropWhile_cons_of_neg (by simpa using h))

theorem level_even (u n : Nat) : (even u n).level = n := by
  induction n with
  | zero => rfl
  | succ n ih => exact congrArg (· + 1) ih

theorem enter_even (hu : 1 ≤ u) (h : m ≤ n) : (even u n).enter (u * m) = even u m := by
  induction n with
  | zero =>
    obtain rfl := Nat.le_zero.1 h
    rfl
  | succ n ih =>
    obtain hle | rfl := Nat.le_or_eq_of_le_succ h
    · rw [even, enter_openBlock_of_le _ (Nat.mul_le_mul_left u hle), ih hle]
    · have hwidth : u * n < u * (n + 1) := Nat.mul_lt_mul_of_pos_left (Nat.lt_succ_self n) hu
      rw [even, enter_openBlock_of_lt _ hwidth]

theorem level_enter_le (layout : Layout) (width : Nat) :
    (layout.enter width).level ≤ layout.level :=
  (List.dropWhile_sublist _).length_le

theorem level_pass (layout : Layout) (width : Nat) (opens : Bool) :
    (layout.pass width opens).level = (layout.enter width).level + opens.toNat := by
  cases opens <;> rfl

theorem pass_even (hu : 1 ≤ u) (h : m ≤ n) (opens : Bool) :
    (even u n).pass (u * m) opens = even u (m + opens.toNat) := by
  rw [pass, enter_even hu h]
  cases opens <;> rfl

/-- Indented by their levels, lines have the same levels again. -/
theorem track_even (hu : 1 ≤ u) (layout : Layout) (ls : List (Nat × Bool)) :
    (even u layout.level).track (((layout.track ls).map (u * ·)).zip (ls.map Prod.snd)) =
      layout.track ls := by
  -- of the blocks that are open, only their number is the same in the two runs
  induction ls generalizing layout with
  | nil => rfl
  | cons l ls ih =>
    obtain ⟨width, opens⟩ := l
    have hle := layout.level_enter_le width
    have htail := ih (layout.pass width opens)
    rw [level_pass, ← pass_even hu hle opens] at htail
    have hhead : ((even u layout.level).enter (u * (layout.enter width).level)).level =
        (layout.enter width).level := by rw [enter_even hu hle, level_even]
    exact congrArg₂ List.cons hhead htail

end Layout

namespace Text

variable {s t : Text}

/-- The text starts with no blank. -/
def Flush (t : Text) : Prop := ∀ c ∈ t.head?, ¬CallChain.isBlank c

instance (t : Text) : Decidable (Flush t) :=
  decidable_of_iff (t.head?.all fun c ↦ !CallChain.isBlank c) (by cases t <;> simp [Flush])

theorem flush_of_trim (h : trim t = t) : Flush t := h ▸ head?_trim t

theorem flush_cons {c : Char} (h : ¬CallChain.isBlank c) (t : Text) : Flush (c :: t) := by
  rintro d ⟨⟩
  exact h

theorem Flush.append_of_ne_nil (hs : Flush s) (hne : s ≠ []) (t : Text) : Flush (s ++ t) := by
  rw [Flush, List.head?_append_of_ne_nil _ hne]
  exact hs

theorem Flush.append (hs : Flush s) (ht : Flush t) : Flush (s ++ t) := by
  by_cases hne : s = []
  · rwa [hne, List.nil_append]
  · exact hs.append_of_ne_nil hne t

theorem leadingWidth_of_flush (h : Flush t) : leadingWidth t = 0 := by
  cases t with
  | nil => rfl
  | cons c t => rw [leadingWidth, if_neg (h c rfl)]

theorem leadingWidth_indent (n : Nat) (t : Text) :
    leadingWidth (List.replicate n ' ' ++ t) = n + leadingWidth t := by
  induction n with
  | zero => rw [List.replicate_zero, List.nil_append, Nat.zero_add]
  | succ n ih =>
    have hblank : CallChain.isBlank ' ' := by decide
    rw [List.replicate_succ, List.cons_append, leadingWidth, if_pos hblank, if_neg (by decide), ih]
    omega

theorem flush_of_isAssignable (h : isAssignable t) : Flush t ∧ t ≠ [] := by
  obtain ⟨path, rest, rfl, hpath, -⟩ := isAssignable_cases h
  obtain ⟨c, hc, hstart⟩ := (Option.any_eq_true _ _).1 hpath.starts
  obtain ⟨path, rfl⟩ := List.head?_eq_some_iff.1 hc
  have hblank : ¬CallChain.isBlank c := fun hb ↦
    not_isIdentChar_of_isBlank hb (isIdentChar_of_isIdentStart hstart)
  exact ⟨flush_cons hblank _, List.cons_ne_nil _ _⟩

end Text

/-- Only holes stand before the first text of the template, which starts with no blank. -/
def Template.isFlush : Template → Bool
  | .text (c :: _) :: _ => !isBlank c
  | .hole _ :: ps => isFlush ps
  | _ => false

theorem Template.flush_fill {template : Template} {ts : List Text} (h : template.isFlush)
    (hts : ∀ t ∈ ts, t.Flush) : Text.Flush (template.fill ts) := by
  induction template with
  | nil => cases h
  | cons p ps ih =>
    rw [fill, List.flatMap_cons]
    cases p with
    | text t =>
      cases t with
      | nil => cases h
      | cons c t => exact Text.flush_cons (by simpa [isFlush] using h) _
    | hole i =>
      have hhole : Text.Flush (Piece.fill ts (.hole i)) := by
        rw [Piece.fill]
        cases ht : ts[i]? with
        | none => decide
        | some t => exact hts t (List.mem_of_getElem? ht)
      exact hhole.append (ih h)
    | all => cases h

namespace Builtin

theorem table_flush : table.all fun b ↦ b.template.isFlush := by decide +kernel

theorem table_defaults_flush : ∀ b ∈ table, ∀ p ∈ b.signature.params, ∀ t ∈ p.default,
    Text.Flush t := by decide +kernel

end Builtin

theorem Callee.flush_python {function : Text} {ts : List Text} (hf : ∀ c ∈ function, isNameChar c)
    (hts : ∀ t ∈ ts, t.Flush) : Text.Flush ((ofName function).python ts) := by
  rw [ofName]
  cases hb : Builtin.lookup? function with
  | none =>
    have hname : function.Flush := fun c hc ↦
      not_isBlank_of_isNameChar (hf c (List.mem_of_mem_head? hc))
    have hrest : Text.Flush ('(' :: ", ".toList.intercalate ts ++ [')']) :=
      Text.flush_cons (by decide) _
    have hcall := hname.append hrest
    rwa [← List.append_assoc] at hcall
  | some b =>
    have hflush := List.all_eq_true.1 Builtin.table_flush b (Builtin.mem_of_lookup? hb)
    exact Template.flush_fill hflush hts

theorem CallSite.flush_leading? {site : CallSite} {u : Text} (h : site.leading? = some u) :
    u.Flush := by
  obtain ⟨target, -, hu⟩ := Option.bind_eq_some_iff.1 h
  obtain ⟨rfl, -⟩ := Text.nonempty?_eq_some_iff.1 hu
  exact Text.head?_trim target

namespace Expr

variable {s : Settings} {mode : BindMode} {text : Text} {e : Expr}

theorem flush_python_bound {call : Expr} {target : Option Expr}
    (hcall : ∀ nested, Text.Flush (call.python nested)) (htarget : ∀ t ∈ target, t.isAssignable)
    (nested : Bool) : Text.Flush ((bound mode call target).python nested) := by
  cases target with
  | none => exact hcall nested
  | some t =>
    have ht := htarget t rfl
    cases t with
    | raw t =>
      obtain ⟨hflush, hne⟩ := Text.flush_of_isAssignable ht
      rw [bound, python_bind]
      split
      · exact Text.flush_cons (by decide) _
      · rw [List.append_assoc]
        exact hflush.append_of_ne_nil hne _
    | concat | call | bind | range => cases ht

theorem flush_python_joined {before call : Expr}
    (hbefore : ∀ nested, Text.Flush (before.python nested))
    (hcall : ∀ nested, Text.Flush (call.python nested)) (hne : ∀ nested, call.python nested ≠ [])
    (after : Text) (nested : Bool) :
    Text.Flush ((joined [before, call, .raw after]).python nested) := by
  have hcallne := isEmpty_of_python_ne_nil (hne true)
  cases after with
  | nil =>
    have hnil : (raw []).isEmpty = true := rfl
    cases hb : before.isEmpty with
    | true => simpa [joined, hb, hcallne, hnil] using hcall nested
    | false =>
      have hall := (hbefore true).append (hcall true)
      simpa [joined, hb, hcallne, hnil, pythonAll] using hall
  | cons c after =>
    have hcons : (raw (c :: after)).isEmpty = false := rfl
    have hrest := (hcall true).append_of_ne_nil (hne true) (c :: after)
    cases hb : before.isEmpty with
    | true => simpa [joined, hb, hcallne, hcons, pythonAll] using hrest
    | false =>
      have hall := (hbefore true).append hrest
      simpa [joined, hb, hcallne, hcons, pythonAll] using hall

theorem flush_complete (function placeholder : Text) {given : List Argument}
    (h : ∀ a ∈ given, Text.Flush (a.value.python true)) :
    ∀ t ∈ pythonAll ((Callee.ofName function).complete placeholder given), t.Flush := by
  intro t ht
  rw [pythonAll_eq_map] at ht
  obtain ⟨e, he, rfl⟩ := List.mem_map.1 ht
  obtain ⟨i, rfl⟩ | ⟨a, ha, rfl⟩ := Callee.mem_complete he
  · exact Callee.defaultAt_holds (by decide) Builtin.table_defaults_flush function i
  · exact h a ha

theorem flush_python (htext : text.Flush) (h : (ofText s mode text).outcome = .ok e)
    (nested : Bool) :
    Text.Flush (e.python nested) := by
  induction text using text_induction generalizing mode e nested with
  | leave t hnone =>
    obtain ⟨-, rfl⟩ := (ofText_ok_iff_of_none hnone).1 h
    exact htext
  | call t site hsite ihbefore ihtarget iharguments =>
    obtain ⟨-, before, call, hread, hbefore, rfl⟩ := (ofText_ok_iff hsite).1 h
    obtain ⟨-, leading, arguments, hl, ha, hcall⟩ := CallSite.read_ok_iff.1 hread
    obtain ⟨-, rfl⟩ := ofCall_ok_iff.1 hcall
    have hbeforeText : site.before.Flush := by
      obtain ⟨lead, function, gap, rfl, -, -⟩ := Text.callSite?_text hsite
      intro c hc
      refine htext c ?_
      rw [List.append_assoc, List.head?_append, Option.mem_def.1 hc]
      rfl
    have hleading := Argument.forall_value hl fun u hu e he ↦
      ihtarget u (Option.mem_toList.1 hu) (CallSite.flush_leading? (Option.mem_toList.1 hu)) he true
    have harguments := Argument.forall_value ha fun u hu e he ↦
      iharguments u hu (Text.flush_of_trim (Text.trim_of_mem_arguments hu).1) he true
    have hvalues := flush_complete (Flag.split site.function).2 s.placeholder
      (List.forall_mem_append.2 ⟨hleading, harguments⟩)
    have hf := Text.isNameChar_of_isFunctionName (Text.callSite?_function hsite)
    refine flush_python_joined (ihbefore hbeforeText hbefore) (flush_python_bound (fun _ ↦ ?_)
      (isAssignable_bindTarget _ _ _)) (python_bound_ne_nil _ _ _) _ _
    exact Callee.flush_python hf hvalues

end Expr

theorem Text.target_ne_nil {code target value : Text}
    (h : assignment? code = some (target, value)) :
    target ≠ [] := by
  rw [assignment?] at h
  split at h
  · cases h
  · dsimp only at h
    split at h
    · cases h
    · rename_i hsides
      cases h
      rw [Bool.or_eq_true, not_or, List.isEmpty_iff] at hsides
      exact hsides.2

theorem Statement.flush_python {s : Settings} {code : Text} {st : Statement}
    (hcode : Text.trim code = code) (h : (ofCode s code).outcome = .ok st) : st.python.Flush := by
  have hflush := Text.flush_of_trim hcode
  rw [ofCode] at h
  cases hheading : Heading.ofCode code with
  | loop target iterable =>
    rw [hheading] at h
    obtain ⟨i, start, stop, step, -, -, -, -, rfl⟩ | ⟨e, -, rfl⟩ := ofLoop_ok h
    · exact Text.flush_cons (by decide) _
    · exact Text.flush_cons (by decide) _
  | guarded guard test =>
    rw [hheading] at h
    obtain ⟨e, -, rfl⟩ := Logged.outcome_map_eq_ok.1 h
    cases guard <;> exact Text.flush_cons (by decide) _
  | verbatim =>
    rw [hheading] at h
    cases h
    exact hflush
  | plain =>
    rw [hheading] at h
    obtain ⟨e, he, rfl | rfl | ⟨target, value, e', hsides, -, rfl⟩⟩ := ofPlain_ok h
    · exact Expr.flush_python hflush he false
    · exact hflush
    · have hne := Text.target_ne_nil hsides
      obtain ⟨k, -, rfl, -⟩ := Text.assignment?_cases hsides
      have htarget : (Text.trim k.before).Flush := Text.head?_trim k.before
      have hwritten := htarget.append_of_ne_nil hne (" = ".toList ++ e'.python true)
      rwa [← List.append_assoc] at hwritten

namespace Line.IsRead

variable {s : Settings} {l : SourceLine} {line : Line}

theorem isBlank_iff (h : line.IsRead s l) : line.statement.isBlank ↔ l.code = [] := by
  by_cases hne : l.code = []
  · rw [h.blank hne]
    exact iff_of_true rfl hne
  · rw [Statement.ofCode_ne_blank (h.code hne)]
    exact iff_of_false Bool.false_ne_true hne

theorem leadingWidth_python (hl : l.Cut) (hcode : Text.trim l.code = l.code) (h : line.IsRead s l)
    {w : Nat} (hwritten : line.python w ≠ []) :
    Text.leadingWidth (line.python w) = w * line.level := by
  suffices hbody : ∃ body, Text.Flush body ∧
      line.python w = List.replicate (line.level * w) ' ' ++ body by
    obtain ⟨body, hflush, hline⟩ := hbody
    rw [hline, Text.leadingWidth_indent, Text.leadingWidth_of_flush hflush, Nat.add_zero,
      Nat.mul_comm]
  by_cases hne : l.code = []
  · cases hc : line.comment with
    | none =>
      have hnil : line.python w = [] := by
        rw [python, h.blank hne, hc]
        rfl
      exact absurd hnil hwritten
    | some c =>
      obtain ⟨hhash, -⟩ := hl.comment c (SourceLine.comment_of_kept (h.comment.symm.trans hc))
      refine ⟨c, ?_, ?_⟩
      · rw [Text.Flush, hhash]
        rintro d ⟨⟩
        decide
      · rw [python, commentText, h.blank hne, hc]
        exact congrArg (· ++ c) (List.append_nil _)
  · have hblank := Statement.ofCode_ne_blank (h.code hne)
    have hst := Statement.flush_python hcode (h.code hne)
    refine ⟨line.statement.python ++ line.commentText,
      hst.append_of_ne_nil (Statement.python_ne_nil hne (h.code hne)) _, ?_⟩
    rw [python, hblank, Bool.false_and, if_neg Bool.false_ne_true, List.append_assoc]

end Line.IsRead

namespace SourceLine

/-- The lines with code, with a width for each line in place of its own. -/
def tracked (ls : List SourceLine) (widths : List Nat) : List (Nat × Bool) :=
  ((ls.zip widths).filter (!·.1.code.isEmpty)).map fun r ↦ (r.2, Text.opensBlock r.1.code)

variable {l : SourceLine} {ls : List SourceLine}

theorem tracked_blank (h : l.code = []) (width : Nat) (widths : List Nat) :
    tracked (l :: ls) (width :: widths) = tracked ls widths := by
  simp [tracked, h]

theorem tracked_code (h : l.code ≠ []) (width : Nat) (widths : List Nat) :
    tracked (l :: ls) (width :: widths) = (width, Text.opensBlock l.code) :: tracked ls widths := by
  simp [tracked, h]

theorem tracked_width (ls : List SourceLine) :
    tracked ls (ls.map (·.width)) = (codeLines ls).map fun l ↦ (l.1, Text.opensBlock l.2) := by
  induction ls with
  | nil => rfl
  | cons l ls ih =>
    by_cases hne : l.code = []
    · rw [List.map_cons, tracked_blank hne, ih]
      simp [codeLines, hne]
    · rw [List.map_cons, tracked_code hne, ih]
      simp [codeLines, hne]

end SourceLine

theorem Layout.levels_eq_track (layout : Layout) (ls : List (Nat × Text)) :
    layout.levels ls = layout.track (ls.map fun l ↦ (l.1, Text.opensBlock l.2)) := by
  induction ls generalizing layout with
  | nil => rfl
  | cons l ls ih => exact congrArg _ (ih _)

/-- The line has code where the source line has, and is written as deep as its level says. -/
structure Line.IsIndented (w : Nat) (l : SourceLine) (line : Line) : Prop where
  isBlank_iff : line.statement.isBlank ↔ l.code = []
  width : line.python w ≠ [] → Text.leadingWidth (line.python w) = w * line.level
  ne_nil : l.code ≠ [] → line.python w ≠ []

namespace Program

variable {s : Settings} {source : Text} {ls : List SourceLine} {p : Program} {w : Nat}

theorem isIndented (h : (ofSource s source).outcome = .ok p) (w : Nat) :
    List.Forall₂ (Line.IsIndented w) (SourceLine.ofSource source) p := by
  have hread := (List.forall₂_and_left _ _).2
    ⟨fun l hl ↦ And.intro (SourceLine.ofSource_cut hl) (SourceLine.trim_code hl), ofLines_isRead h⟩
  refine hread.imp ?_
  rintro l line ⟨⟨hcut, htrim⟩, hline⟩
  refine ⟨hline.isBlank_iff, hline.leadingWidth_python hcut htrim, fun hne hnil ↦ ?_⟩
  exact hne ((hline.python_eq_nil_iff hcut w).1 hnil).1

theorem leadingWidth_of_mem (h : List.Forall₂ (Line.IsIndented w) ls p) :
    ∀ line ∈ p, line.python w ≠ [] → Text.leadingWidth (line.python w) = w * line.level := by
  induction h with
  | nil => exact List.forall_mem_nil _
  | cons hline _ ih => exact List.forall_mem_cons.2 ⟨hline.width, ih⟩

theorem tracked_python (h : List.Forall₂ (Line.IsIndented w) ls p) :
    SourceLine.tracked ls (p.map fun line ↦ Text.leadingWidth (line.python w)) =
      ((levels p).map (w * ·)).zip ((SourceLine.codeLines ls).map fun l ↦ Text.opensBlock l.2) := by
  induction h with
  | nil => rfl
  | @cons l line ls p hline _ ih =>
    by_cases hne : l.code = []
    · have hblank := hline.isBlank_iff.2 hne
      rw [List.map_cons, SourceLine.tracked_blank hne, ih]
      simp [levels, SourceLine.codeLines, hblank, hne]
    · have hblank : line.statement.isBlank = false := by simpa [hne] using hline.isBlank_iff
      rw [List.map_cons, SourceLine.tracked_code hne, ih, hline.width (hline.ne_nil hne)]
      simp [levels, SourceLine.codeLines, hblank, hne]

/-- The levels are those of the widths in the source, and those of the widths that are written. -/
theorem levels_eq_track (hw : 1 ≤ w) (h : (ofSource s source).outcome = .ok p) :
    levels p = ({} : Layout).track (SourceLine.tracked (SourceLine.ofSource source)
        ((SourceLine.ofSource source).map (·.width))) ∧
    levels p = ({} : Layout).track (SourceLine.tracked (SourceLine.ofSource source)
        (p.map fun line ↦ Text.leadingWidth (line.python w))) := by
  have hlevels := levels_of_ofLines h
  have heven := Layout.track_even hw {} ((SourceLine.codeLines (SourceLine.ofSource source)).map
    fun l ↦ (l.1, Text.opensBlock l.2))
  rw [Layout.levels_eq_track] at hlevels
  rw [← hlevels, List.map_map] at heven
  rw [SourceLine.tracked_width, tracked_python (isIndented h w)]
  exact ⟨hlevels, heven.symm⟩

end Program

/-- Every line is written as deep as its level says. Indented by their levels, lines have the same
levels again, so the blocks of the source can be read off the output. -/
theorem compile_indentation {s : Settings} (hwidth : 1 ≤ s.indentWidth) :
    (∀ source out, (compile s source).outcome = .ok out → ∃ p,
      (Program.ofSource s source).outcome = .ok p ∧
      (∀ (k : Nat) (written : Text), (out.splitOn '\n')[k]? = some written → written ≠ [] →
        ∃ line, p[k]? = some line ∧ Text.leadingWidth written = s.indentWidth * line.level) ∧
      Program.levels p = ({} : Layout).track (SourceLine.tracked (SourceLine.ofSource source)
        ((SourceLine.ofSource source).map (·.width))) ∧
      Program.levels p = ({} : Layout).track (SourceLine.tracked (SourceLine.ofSource source)
        ((out.splitOn '\n').map Text.leadingWidth))) ∧
    ∀ ls, ({} : Layout).track (((({} : Layout).track ls).map (s.indentWidth * ·)).zip
      (ls.map Prod.snd)) = ({} : Layout).track ls := by
  refine ⟨fun source out h ↦ ?_, Layout.track_even hwidth {}⟩
  obtain ⟨p, hp, rfl⟩ := Logged.outcome_map_eq_ok.1 h
  have hlevels := Program.levels_eq_track hwidth hp
  refine ⟨p, hp, ?_⟩
  have hwritten := Program.isIndented hp s.indentWidth
  by_cases hne : p = []
  · have hsource : SourceLine.ofSource source = [] := by
      rw [hne, List.forall₂_nil_right_iff] at hwritten
      exact hwritten
    have hsplit : (Program.python s.indentWidth p).splitOn '\n' = [[]] := by
      rw [hne]
      rfl
    rw [hsplit]
    refine ⟨fun k written hk hnonempty ↦ ?_, hlevels.1, ?_⟩
    · rw [List.getElem?_singleton] at hk
      split at hk
      · cases hk
        exact absurd rfl hnonempty
      · cases hk
    · rw [hsource, hne]
      rfl
  · rw [Program.splitOn_python hp hne, List.map_map]
    refine ⟨fun k written hk hnonempty ↦ ?_, hlevels⟩
    rw [List.getElem?_map] at hk
    obtain ⟨line, hline, rfl⟩ := Option.map_eq_some_iff.1 hk
    exact ⟨line, hline,
      Program.leadingWidth_of_mem hwritten line (List.mem_of_getElem? hline) hnonempty⟩

theorem compile_indentation_uneven :
    let s : Settings := { indentWidth := 2, keepComments := true }
    let source := "if a:\n\t\tx = 1\n# note\n   for i in ...3:\n      \n    y\n  else:\nz".toList
    let out := "if a:\n  x = 1\n  # note\n  for i in range(0, 3, 1):\n\n    y\n  else:\nz".toList
    1 ≤ s.indentWidth ∧ (compile s source).outcome = .ok out ∧ ∃ p,
      (Program.ofSource s source).outcome = .ok p ∧
      (∀ (k : Nat) (written : Text), (out.splitOn '\n')[k]? = some written → written ≠ [] →
        ∃ line, p[k]? = some line ∧ Text.leadingWidth written = s.indentWidth * line.level) ∧
      Program.levels p = [0, 1, 1, 2, 1, 0] ∧
      ({} : Layout).track (SourceLine.tracked (SourceLine.ofSource source)
        ((out.splitOn '\n').map Text.leadingWidth)) = [0, 1, 1, 2, 1, 0] := by
  intro s source out
  have hwidth : 1 ≤ s.indentWidth := by decide
  have h : (compile s source).outcome = .ok out := by decide +kernel
  have hsource : ({} : Layout).track (SourceLine.tracked (SourceLine.ofSource source)
      ((SourceLine.ofSource source).map (·.width))) = [0, 1, 1, 2, 1, 0] := by decide +kernel
  obtain ⟨p, hp, hwritten, hlevels, hreread⟩ := (compile_indentation hwidth).1 source out h
  rw [hsource] at hlevels
  exact ⟨hwidth, h, p, hp, hwritten, hlevels, hreread.symm.trans hlevels⟩

end CallChain
