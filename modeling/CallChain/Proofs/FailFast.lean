import CallChain.Proofs.LineRuns

namespace CallChain

namespace Text

variable {c : Char} {t : Text}

theorem lines_newline (t : Text) : lines ('\n' :: t) = [] :: lines t := rfl

theorem lines_return (h : t.head? = some '\n') : lines ('\r' :: t) = lines t := by
  obtain ⟨t', rfl⟩ := List.head?_eq_some_iff.1 h
  rfl

theorem lines_cons (hn : c ≠ '\n') (hr : ¬(c = '\r' ∧ t.head? = some '\n')) :
    lines (c :: t) = (c :: (lines t).headD []) :: (lines t).tail := by
  rw [lines]
  · cases lines t <;> rfl
  · exact hn
  · rintro t' rfl rfl
    exact hr ⟨rfl, rfl⟩

/-- The first lines of a text, with their line ends. -/
def firstLines : Nat → Text → Text
  | 0, _ => []
  | _ + 1, [] => []
  | n + 1, c :: t => c :: firstLines (if c = '\n' then n else n + 1) t

theorem head?_firstLines (n : Nat) (t : Text) : (firstLines (n + 1) t).head? = t.head? := by
  cases t <;> rfl

theorem lines_firstLines (n : Nat) (t : Text) : lines (firstLines n t) = (lines t).take n := by
  induction t generalizing n with
  | nil => cases n <;> rfl
  | cons c t ih =>
    cases n with
    | zero => rfl
    | succ n =>
      rw [firstLines]
      by_cases hn : c = '\n'
      · rw [if_pos hn, hn, lines_newline, lines_newline, ih, List.take_succ_cons]
      · rw [if_neg hn]
        by_cases hr : c = '\r' ∧ t.head? = some '\n'
        · obtain ⟨rfl, ht⟩ := hr
          rw [lines_return ht, lines_return (by rw [head?_firstLines, ht]), ih]
        · have hr' : ¬(c = '\r' ∧ (firstLines (n + 1) t).head? = some '\n') := by
            rwa [head?_firstLines]
          rw [lines_cons hn hr, lines_cons hn hr', ih, List.take_succ_cons]
          cases lines t <;> simp

end Text

namespace SourceLine

variable {source : Text} {l : SourceLine} {k : Nat}

theorem getElem?_ofSource (source : Text) (k : Nat) :
    (ofSource source)[k]? = (Text.lines source)[k]?.map (ofRaw (k + 1)) := by
  rw [ofSource, List.getElem?_map, List.getElem?_zipIdx, Option.map_map, Nat.add_comm 1 k]
  rfl

theorem ofSource_of_lines {t : Text} (h : Text.lines t = (Text.lines source).take k) :
    ofSource t = (ofSource source).take k := by
  refine List.ext_getElem? fun i ↦ ?_
  rw [getElem?_ofSource, h, List.getElem?_take, List.getElem?_take, getElem?_ofSource]
  split <;> rfl

theorem eq_of_getElem? (h : (ofSource source)[k]? = some l) :
    (Text.lines source)[k]? = some l.raw ∧ l = ofRaw (k + 1) l.raw := by
  rw [getElem?_ofSource, Option.map_eq_some_iff] at h
  obtain ⟨raw, hraw, rfl⟩ := h
  exact ⟨hraw, rfl⟩

theorem number_of_mem_drop (h : l ∈ (ofSource source).drop k) : k < l.number := by
  obtain ⟨i, hi⟩ := List.mem_iff_getElem?.1 h
  rw [List.getElem?_drop] at hi
  rw [(eq_of_getElem? hi).2]
  change k < k + i + 1
  omega

end SourceLine

namespace Program

variable {s : Settings} {source : Text} {p : Program} {f : LineFault} {k : Nat}

theorem ofSource_firstLines (s : Settings) (k : Nat) (source : Text) :
    ofSource s (Text.firstLines k source) = ofLines s {} ((SourceLine.ofSource source).take k) := by
  rw [ofSource, SourceLine.ofSource_of_lines (Text.lines_firstLines k source)]

theorem ofSource_error_iff (h : f.line ≤ k) :
    (ofSource s source).outcome = .error f ↔
      (ofSource s (Text.firstLines k source)).outcome = .error f := by
  rw [ofSource_firstLines, ofSource]
  conv => lhs; rw [← List.take_append_drop k (SourceLine.ofSource source)]
  rw [ofLines_append_error_iff, or_iff_left_iff_imp]
  rintro ⟨p, -, hdrop⟩
  obtain ⟨l, hl, hline, -, -⟩ := ofLines_error hdrop
  have := SourceLine.number_of_mem_drop hl
  omega

theorem ofSource_ok_firstLines (h : (ofSource s source).outcome = .ok p) (k : Nat) :
    (ofSource s (Text.firstLines k source)).outcome = .ok (p.take k) := by
  rw [ofSource_firstLines]
  exact (ofLines_take h k).1

theorem ofSource_congr {a b : Text} (h : (Text.lines a).take k = (Text.lines b).take k) :
    ofSource s (Text.firstLines k a) = ofSource s (Text.firstLines k b) := by
  have hlines : Text.lines (Text.firstLines k a) = Text.lines (Text.firstLines k b) := by
    rw [Text.lines_firstLines, Text.lines_firstLines, h]
  rw [ofSource, ofSource, SourceLine.ofSource, SourceLine.ofSource, hlines]

end Program

/-- A fault of a source is the one of its first line that is refused. That line is refused for its
code alone. -/
structure LineFault.IsFirst (s : Settings) (source : Text) (f : LineFault) : Prop where
  counted : 1 ≤ f.line ∧ f.line ≤ (Text.lines source).length
  raw : (Text.lines source)[f.line - 1]? = some f.source
  before : ∃ p, (Program.ofSource s (Text.firstLines (f.line - 1) source)).outcome = .ok p
  code : (Statement.ofCode s (SourceLine.ofRaw f.line f.source).code).outcome = .error f.fault

namespace Program

variable {s : Settings} {source : Text} {p : Program} {f : LineFault} {k : Nat}

/-- The lines of a program are read from the lines of the source one by one. -/
structure IsLinewise (s : Settings) (source : Text) (p : Program) : Prop where
  first : ∀ k, (ofSource s (Text.firstLines k source)).outcome = .ok (p.take k)
  lines : List.Forall₂ (fun l line ↦ line.IsRead s l) (SourceLine.ofSource source) p

theorem isFirst_of_error (h : (ofSource s source).outcome = .error f) : f.IsFirst s source := by
  obtain ⟨k, l, p, hl, hp, hline, hsource, hcode⟩ := ofLines_error_cases h
  obtain ⟨hraw, hnumber⟩ := SourceLine.eq_of_getElem? hl
  have hk : f.line = k + 1 := by rw [hline, hnumber]; rfl
  have hlt := (List.getElem?_eq_some_iff.1 hraw).1
  constructor
  · omega
  · rw [hk, hsource]
    exact hraw
  · rw [hk, ofSource_firstLines]
    exact ⟨p, hp⟩
  · rw [hk, hsource, ← hnumber]
    exact hcode

theorem isLinewise_of_ok (h : (ofSource s source).outcome = .ok p) : p.IsLinewise s source :=
  ⟨ofSource_ok_firstLines h, ofLines_isRead h⟩

/-- Reading a source and translating it fail alike, with the fault of the first line that is
refused. What follows on the first `k` lines of a source changes neither a fault on them nor what
they are read into, and a source that is read is read line by line. -/
theorem ofSource_failFast (s : Settings) :
    (∀ source f, (compile s source).outcome = .error f ↔ (ofSource s source).outcome = .error f) ∧
    (∀ k a b, (Text.lines a).take k = (Text.lines b).take k →
      (∀ f : LineFault, f.line ≤ k →
        ((ofSource s a).outcome = .error f ↔ (ofSource s b).outcome = .error f)) ∧
      ∀ p q, (ofSource s a).outcome = .ok p → (ofSource s b).outcome = .ok q →
        p.take k = q.take k) ∧
    (∀ source f, (ofSource s source).outcome = .error f → f.IsFirst s source) ∧
    ∀ source p, (ofSource s source).outcome = .ok p → p.IsLinewise s source := by
  refine ⟨fun source f ↦ compile_error_iff, ?_, fun _ _ ↦ isFirst_of_error,
    fun _ _ ↦ isLinewise_of_ok⟩
  intro k a b hlines
  have hfirst := ofSource_congr (s := s) hlines
  constructor
  · intro f hf
    rw [ofSource_error_iff hf, hfirst, ← ofSource_error_iff hf]
  · intro p q hp hq
    have htake := ofSource_ok_firstLines hp k
    rw [hfirst, ofSource_ok_firstLines hq k, Except.ok.injEq] at htake
    exact htake.symm

theorem ofSource_failFast_arity :
    let a := "if x:\n  (mod)(7)\n(mod)(1, 2".toList
    let b := "if x:\r\n  (mod)(7)".toList
    ∃ f, f.line = 2 ∧ (compile {} a).outcome = .error f ∧ (ofSource {} b).outcome = .error f ∧
      f.IsFirst {} a ∧ f.IsFirst {} b := by
  intro a b
  have hline : ((ofSource {} a).outcome.mapError LineFault.line).map (fun _ ↦ ()) = .error 2 := by
    decide +kernel
  have hlines : (Text.lines a).take 2 = (Text.lines b).take 2 := by decide +kernel
  cases ha : (ofSource {} a).outcome with
  | ok p => simp [ha, Except.map, Except.mapError] at hline
  | error f =>
    have hf : f.line = 2 := by simpa [ha, Except.map, Except.mapError] using hline
    obtain ⟨hcompile, hcausal, hfirst, -⟩ := ofSource_failFast {}
    have hb := ((hcausal 2 a b hlines).1 f (by omega)).1 ha
    exact ⟨f, hf, (hcompile a f).2 ha, hb, hfirst a f ha, hfirst b f hb⟩

/-- A line without code is blank, though its code is read into an empty verbatim statement. -/
theorem ofSource_blank_line :
    (ofSource {} "\n".toList).outcome = .ok [⟨0, .blank, none⟩] ∧
    (SourceLine.ofSource "\n".toList).map SourceLine.code = [[]] ∧
    (Statement.ofCode {} []).outcome = .ok (.verbatim []) ∧
    Statement.verbatim [] ≠ .blank := by
  refine ⟨rfl, rfl, ?_, nofun⟩
  change (Statement.ofPlain {} []).outcome = _
  rw [Statement.ofPlain, Logged.outcome_bind_eq_ok]
  exact ⟨.raw [], Expr.ofText_nil _ _, rfl⟩

end Program

end CallChain
