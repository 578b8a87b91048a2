import CallChain.Proofs.Comments
import CallChain.Proofs.Infixes

namespace CallChain

namespace Text

/-- The text stays on one line. -/
def Unbroken (t : Text) : Prop := '\n' ∉ t

instance (t : Text) : Decidable (Unbroken t) := inferInstanceAs (Decidable ('\n' ∉ t))

theorem Unbroken.part {s t : Text} (hpart : s <:+: t) (ht : Unbroken t) : Unbroken s := fun h ↦
  ht (hpart.mem h)

theorem unbroken_of_mem_lines {t l : Text} (h : l ∈ lines t) : Unbroken l := by
  fun_induction lines t generalizing l with
  | case1 => simp at h
  | case2 t ih =>
    rcases List.mem_cons.1 h with rfl | h
    · exact List.not_mem_nil
    · exact ih h
  | case3 t ih =>
    rcases List.mem_cons.1 h with rfl | h
    · exact List.not_mem_nil
    · exact ih h
  | case4 c t hn _ _ _ =>
    rw [List.mem_singleton] at h
    rw [h, Unbroken, List.mem_singleton]
    exact fun heq ↦ hn heq.symm
  | case5 c t hn _ l' ls hlines ih =>
    have htail : ∀ u ∈ l' :: ls, Unbroken u := fun u hu ↦ ih (hlines ▸ hu)
    rcases List.mem_cons.1 h with rfl | h
    · rw [Unbroken, List.mem_cons]
      rintro (heq | hmem)
      · exact hn heq.symm
      · exact htail l' (by simp) hmem
    · exact htail l (by simp [h])

theorem mem_intercalate {c : Char} {separator : Text} {ts : List Text}
    (h : c ∈ separator.intercalate ts) : c ∈ separator ∨ ∃ t ∈ ts, c ∈ t := by
  induction ts with
  | nil => simp [List.intercalate] at h
  | cons t ts ih =>
    cases ts with
    | nil =>
      rw [List.intercalate_singleton] at h
      exact .inr ⟨t, by simp, h⟩
    | cons u us =>
      rw [List.intercalate_cons_cons, List.mem_append, List.mem_append] at h
      obtain (h | h) | h := h
      · exact .inr ⟨t, by simp, h⟩
      · exact .inl h
      · exact (ih h).imp_right fun ⟨v, hv, hc⟩ ↦ ⟨v, List.mem_cons_of_mem t hv, hc⟩

end Text

namespace Piece

/-- The part of a piece that is written whatever the arguments are. -/
def fixed : Piece → Text
  | .text t => t
  | _ => []

theorem fill_ne_nil {p : Piece} (h : p.fixed ≠ []) (ts : List Text) : p.fill ts ≠ [] := by
  cases p with
  | text t => exact h
  | _ => exact absurd rfl h

end Piece

namespace Template

theorem fill_unbroken {template : Template} {ts : List Text}
    (htexts : ∀ t, .text t ∈ template → Text.Unbroken t) (hts : ∀ t ∈ ts, Text.Unbroken t) :
    Text.Unbroken (template.fill ts) := by
  intro hmem
  obtain ⟨p, hp, hmem⟩ := List.mem_flatMap.1 hmem
  cases p with
  | text t => exact htexts t hp hmem
  | hole i =>
    rw [Piece.fill] at hmem
    cases ht : ts[i]? with
    | none =>
      rw [ht] at hmem
      revert hmem
      decide
    | some t =>
      rw [ht] at hmem
      exact hts t (List.mem_of_getElem? ht) hmem
  | all =>
    obtain hmem | ⟨t, ht, hmem⟩ := Text.mem_intercalate hmem
    · revert hmem
      decide
    · exact hts t ht hmem

end Template

namespace Builtin

theorem table_unbroken : ∀ b ∈ table, ∀ t, .text t ∈ b.template → Text.Unbroken t := by
  have hall : table.all fun b ↦ b.template.all fun p ↦ !('\n' ∈ p.fixed) := by decide +kernel
  intro b hb t ht
  have hno := List.all_eq_true.1 (List.all_eq_true.1 hall b hb) _ ht
  rw [Piece.fixed, Bool.not_eq_true'] at hno
  exact of_decide_eq_false hno

theorem table_defaults_unbroken : ∀ b ∈ table, ∀ p ∈ b.signature.params, ∀ t ∈ p.default,
    Text.Unbroken t := by decide +kernel

end Builtin

theorem Text.throughout_unbroken : Throughout Unbroken where
  append hs ht := by
    rw [Unbroken, List.mem_append]
    exact fun h ↦ h.elim hs ht
  plain _ _ h := h
  enclosed {t} ht := by
    have hmem : ¬('\n' = '(' ∨ '\n' ∈ t ∨ '\n' = ')') := by
      rintro (h | h | h)
      · exact absurd h (by decide)
      · exact ht h
      · exact absurd h (by decide)
    simpa [Unbroken] using hmem
  template hb h := Template.fill_unbroken (Builtin.table_unbroken _ hb) h
  part := Unbroken.part
  default := Callee.defaultAt_holds (by decide) Builtin.table_defaults_unbroken

theorem Builtin.table_ne_nil : ∀ b ∈ table, ∃ p ∈ b.template, p.fixed ≠ [] := by
  decide +kernel

theorem Callee.python_ne_nil (function : Text) (ts : List Text) :
    (ofName function).python ts ≠ [] := by
  rw [ofName]
  cases hb : Builtin.lookup? function with
  | none => simp [python]
  | some b =>
    obtain ⟨p, hp, hfixed⟩ := Builtin.table_ne_nil b (Builtin.mem_of_lookup? hb)
    intro hnil
    exact Piece.fill_ne_nil hfixed ts (List.flatMap_eq_nil_iff.1 hnil p hp)

namespace Expr

variable {s : Settings} {mode : BindMode} {text : Text} {e : Expr}

theorem python_bound_ne_nil (function : Text) (values : List Expr) (target : Option Expr)
    (nested : Bool) : (bound mode (.call (.ofName function) values) target).python nested ≠ [] := by
  cases target with
  | none => exact Callee.python_ne_nil function _
  | some t =>
    have hop : mode.operator ≠ [] := by cases mode <;> decide
    rw [bound, python_bind]
    split <;> simp [hop]

theorem isEmpty_of_python_ne_nil (h : e.python true ≠ []) : e.isEmpty = false := by
  cases e with
  | raw t => simpa [isEmpty] using h
  | _ => rfl

theorem python_joined_ne_nil {parts : List Expr} (he : e ∈ parts)
    (hne : ∀ nested, e.python nested ≠ []) (nested : Bool) : (joined parts).python nested ≠ [] := by
  have hmem : e ∈ parts.filter (!·.isEmpty) := by
    refine List.mem_filter.2 ⟨he, ?_⟩
    rw [isEmpty_of_python_ne_nil (hne true)]
    rfl
  rw [joined]
  split
  · rename_i hnil
    rw [hnil] at hmem
    simp at hmem
  · rename_i part hpart
    rw [hpart, List.mem_singleton] at hmem
    exact hmem ▸ hne nested
  · rw [python_concat, pythonAll_eq_map]
    intro hnil
    exact hne true (List.flatten_eq_nil_iff.1 hnil _ (List.mem_map_of_mem hmem))

theorem python_ne_nil (h : (ofText s mode text).outcome = .ok e) (hraw : e.isRaw = false)
    (nested : Bool) : e.python nested ≠ [] := by
  cases hsite : Text.callSite? text with
  | none =>
    obtain ⟨-, rfl⟩ := (ofText_ok_iff_of_none hsite).1 h
    simp [isRaw] at hraw
  | some site =>
    obtain ⟨-, before, call, hread, -, rfl⟩ := (ofText_ok_iff hsite).1 h
    have hmem : call ∈ [before, call, raw site.after] := by simp
    refine python_joined_ne_nil hmem (fun nested' ↦ ?_) nested
    obtain ⟨-, leading, arguments, -, -, hcall⟩ := CallSite.read_ok_iff.1 hread
    obtain ⟨-, rfl⟩ := ofCall_ok_iff.1 hcall
    exact python_bound_ne_nil _ _ _ nested'

end Expr

theorem Statement.python_ne_nil {s : Settings} {code : Text} {st : Statement} (hne : code ≠ [])
    (h : (ofCode s code).outcome = .ok st) : st.python ≠ [] := by
  rw [ofCode] at h
  cases hheading : Heading.ofCode code with
  | loop target iterable =>
    rw [hheading] at h
    obtain ⟨i, start, stop, step, -, -, -, -, rfl⟩ | ⟨e, -, rfl⟩ := ofLoop_ok h
    · exact List.append_ne_nil_of_right_ne_nil _ (List.cons_ne_nil ':' [])
    · exact List.append_ne_nil_of_right_ne_nil _ (List.cons_ne_nil ':' [])
  | guarded guard test =>
    rw [hheading] at h
    obtain ⟨e, -, rfl⟩ := Logged.outcome_map_eq_ok.1 h
    exact List.append_ne_nil_of_right_ne_nil _ (List.cons_ne_nil ':' [])
  | verbatim =>
    rw [hheading] at h
    cases h
    exact hne
  | plain =>
    rw [hheading] at h
    obtain ⟨e, he, ⟨hraw, rfl⟩ | ⟨-, ⟨-, rfl⟩ | ⟨target, value, e', -, -, rfl⟩⟩⟩ := ofPlain_cases h
    · exact Expr.python_ne_nil he hraw false
    · exact hne
    · have hop : target ++ " = ".toList ≠ [] := by simp
      exact List.append_ne_nil_of_left_ne_nil hop _

theorem Text.cutCommentFrom_text (n : Nesting) (t : Text) :
    (cutCommentFrom n t).1 ++ (cutCommentFrom n t).2.getD [] = t := by
  induction t generalizing n with
  | nil => rfl
  | cons c t ih =>
    by_cases h : c = '#' && !n.inString
    · rw [cutCommentFrom, if_pos h]
      rfl
    · rw [cutCommentFrom_cons h, List.cons_append, ih]

namespace SourceLine

theorem ofRaw_unbroken {raw : Text} (h : Text.Unbroken raw) (number : Nat) :
    Text.Unbroken (ofRaw number raw).code ∧ ∀ c ∈ (ofRaw number raw).comment, Text.Unbroken c := by
  rw [← Text.cutCommentFrom_text {} raw] at h
  constructor
  · have hcode := h.part (List.prefix_append _ _).isInfix
    exact hcode.part (Text.trim_isInfix _)
  · intro c hc
    obtain ⟨comment, hcomment, rfl⟩ := Option.map_eq_some_iff.1 hc
    have hsome : (Text.cutCommentFrom {} raw).2 = some comment := hcomment
    rw [hsome, Option.getD_some] at h
    have hend : Text.trimEnd comment <:+: comment :=
      List.IsPrefix.isInfix ⟨_, Text.trimEnd_append _⟩
    exact (h.part (List.suffix_append _ _).isInfix).part hend

theorem unbroken_of_mem {source : Text} {l : SourceLine} (h : l ∈ ofSource source) :
    Text.Unbroken l.code ∧ ∀ c ∈ l.comment, Text.Unbroken c := by
  obtain ⟨⟨raw, number⟩, hmem, rfl⟩ := List.mem_map.1 h
  exact ofRaw_unbroken (Text.unbroken_of_mem_lines (List.fst_mem_of_mem_zipIdx hmem)) number

theorem comment_of_kept {s : Settings} {l : SourceLine} {c : Text} (h : l.keptComment s = some c) :
    l.comment = some c := by
  rw [keptComment] at h
  split at h
  · exact h
  · simp at h

end SourceLine

namespace Line.IsRead

variable {s : Settings} {l : SourceLine} {line : Line}

theorem python_unbroken (h : line.IsRead s l) (hcode : Text.Unbroken l.code)
    (hcomment : ∀ c ∈ l.comment, Text.Unbroken c) (w : Nat) : Text.Unbroken (line.python w) := by
  have hP := Text.throughout_unbroken
  have hindent : Text.Unbroken (List.replicate (line.level * w) ' ') := by simp [Text.Unbroken]
  have hst : Text.Unbroken line.statement.python := by
    by_cases hne : l.code = []
    · rw [h.blank hne]
      decide
    · exact hP.ofCode hcode (h.code hne)
  have hend : Text.Unbroken line.commentText := by
    rw [commentText]
    split
    · decide
    · rename_i c hc
      have hbare := hcomment c (SourceLine.comment_of_kept (h.comment.symm.trans hc))
      split
      · exact hbare
      · exact hP.append (by decide) hbare
  rw [python]
  split
  · decide
  · exact hP.append (hP.append hindent hst) hend

theorem python_eq_nil_iff (hl : l.Cut) (h : line.IsRead s l) (w : Nat) :
    line.python w = [] ↔ l.code = [] ∧ l.keptComment s = none := by
  by_cases hne : l.code = []
  · rw [← h.comment]
    cases hc : line.comment with
    | none =>
      have hnil : line.python w = [] := by
        rw [python, h.blank hne, hc]
        rfl
      simp [hnil, hne]
    | some c =>
      obtain ⟨hhash, -⟩ := hl.comment c (SourceLine.comment_of_kept (h.comment.symm.trans hc))
      have hcne : c ≠ [] := by
        rintro rfl
        simp at hhash
      obtain ⟨gap, -, -, hline⟩ := python_of_some hc w
      simp [hline, hcne]
  · have hblank := Statement.ofCode_ne_blank (h.code hne)
    have hst := Statement.python_ne_nil hne (h.code hne)
    simp [python, hblank, hst, hne]

end Line.IsRead

/-- There is nothing to write for the line. -/
def Text.IsSilent (s : Settings) (raw : Text) : Prop :=
  trim (cutComment raw).1 = [] ∧ (s.keepComments = false ∨ (cutComment raw).2 = none)

namespace SourceLine

variable {s : Settings} {source : Text}

theorem isSilent_iff (s : Settings) (number : Nat) (raw : Text) :
    (ofRaw number raw).code = [] ∧ (ofRaw number raw).keptComment s = none ↔
      Text.IsSilent s raw := by
  have hcomment : (ofRaw number raw).comment = (Text.cutComment raw).2.map Text.trimEnd := rfl
  refine and_congr Iff.rfl ?_
  rw [keptComment, hcomment]
  cases s.keepComments <;> simp

theorem forall₂_lines {β : Type} {R : SourceLine → β → Prop} {Q : Text → β → Prop} {bs : List β}
    (hR : ∀ number raw b, R (ofRaw number raw) b → Q raw b)
    (h : List.Forall₂ R (ofSource source) bs) : List.Forall₂ Q (Text.lines source) bs := by
  rw [← List.zipIdx_map_fst 1 (Text.lines source), List.forall₂_map_left_iff]
  rw [ofSource, List.forall₂_map_left_iff] at h
  exact h.imp fun r b hrb ↦ hR r.2 r.1 b hrb

end SourceLine

namespace Program

variable {s : Settings} {source : Text} {p : Program}

/-- Each line of the source has its line in the program, which is written on one line. -/
theorem forall₂_written (h : (ofSource s source).outcome = .ok p) (w : Nat) :
    List.Forall₂ (fun raw line ↦ Text.Unbroken (line.python w) ∧
      (line.python w = [] ↔ Text.IsSilent s raw)) (Text.lines source) p := by
  have hread := (List.forall₂_and_left _ _).2
    ⟨fun l hl ↦ And.intro (SourceLine.ofSource_cut hl) (SourceLine.unbroken_of_mem hl),
      ofLines_isRead h⟩
  refine SourceLine.forall₂_lines ?_ hread
  rintro number raw line ⟨⟨hcut, hcode, hcomment⟩, hline⟩
  exact ⟨hline.python_unbroken hcode hcomment w,
    (hline.python_eq_nil_iff hcut w).trans (SourceLine.isSilent_iff s number raw)⟩

theorem splitOn_python (h : (ofSource s source).outcome = .ok p) (hne : p ≠ []) (w : Nat) :
    (python w p).splitOn '\n' = p.map (Line.python w) := by
  have hflip : List.Forall₂ (fun line raw ↦ Text.Unbroken (line.python w) ∧
      (line.python w = [] ↔ Text.IsSilent s raw)) p (Text.lines source) :=
    .flip (forall₂_written h w)
  have hunbroken := ((List.forall₂_and_left _ _).1 hflip).1
  refine List.splitOn_intercalate '\n' ?_ (by simpa using hne)
  intro t ht
  obtain ⟨line, hline, rfl⟩ := List.mem_map.1 ht
  exact hunbroken line hline

theorem ofSource_of_silent (hlines : (Text.lines source).length ≤ 1)
    (hsilent : ∀ raw ∈ Text.lines source, Text.IsSilent s raw) :
    ∃ p, (ofSource s source).outcome = .ok p := by
  cases hl : Text.lines source with
  | nil =>
    refine ⟨[], ?_⟩
    rw [ofSource, SourceLine.ofSource, hl]
    rfl
  | cons raw rest =>
    have hrest : rest = [] := by
      rw [hl, List.length_cons] at hlines
      exact List.eq_nil_of_length_eq_zero (by omega)
    have hcode : (SourceLine.ofRaw 1 raw).code = [] := (hsilent raw (by simp [hl])).1
    have hsource : SourceLine.ofSource source = [.ofRaw 1 raw] := by
      rw [SourceLine.ofSource, hl, hrest]
      rfl
    refine ⟨[(SourceLine.ofRaw 1 raw).blankLine s {}], ?_⟩
    rw [ofSource, hsource, ofLines_blank hcode]
    rfl

end Program

theorem splitOn_of_compile {s : Settings} {source out : Text}
    (h : (compile s source).outcome = .ok out) (hne : Text.lines source ≠ []) :
    List.Forall₂ (fun raw written ↦ written = [] ↔ Text.IsSilent s raw)
      (Text.lines source) (out.splitOn '\n') := by
  obtain ⟨p, hp, rfl⟩ := Logged.outcome_map_eq_ok.1 h
  have hwritten := Program.forall₂_written hp s.indentWidth
  have hpne : p ≠ [] := by
    rintro rfl
    exact hne (List.forall₂_nil_right_iff.1 hwritten)
  rw [Program.splitOn_python hp hpne, List.forall₂_map_right_iff]
  exact hwritten.imp fun _ _ hline ↦ hline.2

theorem compile_nil_iff {s : Settings} {source : Text} :
    (compile s source).outcome = .ok [] ↔
      (Text.lines source).length ≤ 1 ∧ ∀ raw ∈ Text.lines source, Text.IsSilent s raw := by
  constructor
  · intro h
    by_cases hne : Text.lines source = []
    · simp [hne]
    · have hwritten := splitOn_of_compile h hne
      rw [List.splitOn_nil, List.forall₂_cons_right_iff] at hwritten
      obtain ⟨raw, rest, hraw, hrest, hlines⟩ := hwritten
      rw [List.forall₂_nil_right_iff] at hrest
      rw [hlines, hrest]
      simpa using hraw.1 rfl
  · rintro ⟨hlength, hsilent⟩
    obtain ⟨p, hp⟩ := Program.ofSource_of_silent hlength hsilent
    refine Logged.outcome_map_eq_ok.2 ⟨p, hp, ?_⟩
    have hwritten := Program.forall₂_written hp s.indentWidth
    cases p with
    | nil => rfl
    | cons line rest =>
      obtain ⟨raw, raws, hraw, hraws, hlines⟩ := List.forall₂_cons_right_iff.1 hwritten
      have hrest : rest = [] := by
        rw [hlines, List.length_cons] at hlength
        have := hraws.length_eq
        exact List.eq_nil_of_length_eq_zero (by omega)
      rw [hrest, Program.python, List.map_singleton, List.intercalate_singleton]
      exact hraw.2.2 (hsilent raw (by simp [hlines]))

/-- The output has one line for each line of the source, empty exactly where there is nothing to
write. So it is empty exactly if the source has at most one line, with nothing to write on it. -/
theorem compile_lines (s : Settings) (source : Text) :
    (∀ out, (compile s source).outcome = .ok out →
      (Text.lines source = [] → out = []) ∧
      (Text.lines source ≠ [] →
        List.Forall₂ (fun raw written ↦ written = [] ↔ Text.IsSilent s raw)
          (Text.lines source) (out.splitOn '\n'))) ∧
    ((compile s source).outcome = .ok [] ↔
      (Text.lines source).length ≤ 1 ∧ ∀ raw ∈ Text.lines source, Text.IsSilent s raw) := by
  refine ⟨fun out h ↦ ⟨fun hnil ↦ ?_, splitOn_of_compile h⟩, compile_nil_iff⟩
  have hempty : (compile s source).outcome = .ok [] := compile_nil_iff.2 (by simp [hnil])
  exact Except.ok.inj (h.symm.trans hempty)

theorem compile_lines_blank :
    let source := "if a:\r\n\r\n  (x)(add)(1)\n# end".toList
    let out := "if a:\n\n    x = (x + 1)\n".toList
    (compile {} source).outcome = .ok out ∧ Text.lines source ≠ [] ∧
      List.Forall₂ (fun raw written ↦ written = [] ↔ Text.IsSilent {} raw)
        (Text.lines source) (out.splitOn '\n') := by
  intro source out
  have h : (compile {} source).outcome = .ok out := by decide +kernel
  have hne : Text.lines source ≠ [] := by decide +kernel
  exact ⟨h, hne, ((compile_lines {} source).1 out h).2 hne⟩

end CallChain
