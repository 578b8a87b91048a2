import CallChain.Proofs.Statements

namespace CallChain

namespace Layout

variable (layout : Layout)

/-- The blocks open after a line. A line without code leaves them as they are. -/
def afterLine (l : SourceLine) : Layout :=
  if l.code = [] then layout else layout.after l.width l.code

def afterLines (ls : List SourceLine) : Layout := ls.foldl afterLine layout

@[simp] theorem afterLines_nil : layout.afterLines [] = layout := rfl

@[simp] theorem afterLines_cons (l : SourceLine) (ls : List SourceLine) :
    layout.afterLines (l :: ls) = (layout.afterLine l).afterLines ls := rfl

@[simp] theorem afterLines_append (ls ls' : List SourceLine) :
    layout.afterLines (ls ++ ls') = (layout.afterLines ls).afterLines ls' := List.foldl_append

theorem afterLine_blank {l : SourceLine} (h : l.code = []) : layout.afterLine l = layout := if_pos h

theorem afterLine_code {l : SourceLine} (h : l.code ≠ []) :
    layout.afterLine l = layout.after l.width l.code := if_neg h

end Layout

/-- The line of a program that a line of the source makes below the open blocks. -/
def SourceLine.read (s : Settings) (layout : Layout) (l : SourceLine) : Logged LineFault Line :=
  if l.code = [] then pure (l.blankLine s layout) else l.codeLine s layout

namespace SourceLine

variable {s : Settings} {layout : Layout} {l : SourceLine} {line : Line}

theorem read_blank (h : l.code = []) : l.read s layout = pure (l.blankLine s layout) := if_pos h

theorem read_code (h : l.code ≠ []) : l.read s layout = l.codeLine s layout := if_neg h

theorem level_of_codeLine (h : (l.codeLine s layout).outcome = .ok line) :
    line.level = (layout.enter l.width).level := by
  rcases hst : Statement.ofCode s l.code with ⟨log, fault | st⟩
  · simp [codeLine_of_error hst] at h
  · rw [codeLine_of_ok hst, Except.ok.injEq] at h
    rw [← h]

theorem read_error {f : LineFault} (h : (l.read s layout).outcome = .error f) :
    f.line = l.number ∧ f.source = l.raw ∧
      (Statement.ofCode s l.code).outcome = .error f.fault := by
  by_cases hcode : l.code = []
  · simp [read_blank hcode] at h
  · rw [read_code hcode] at h
    rcases hst : Statement.ofCode s l.code with ⟨log, fault | st⟩
    · rw [codeLine_of_error hst, Except.error.injEq] at h
      rw [← h]
      exact ⟨rfl, rfl, rfl⟩
    · simp [codeLine_of_ok hst] at h

end SourceLine

namespace Program

variable {s : Settings} {layout : Layout} {l : SourceLine} {ls ls' : List SourceLine} {p : Program}

theorem ofLines_cons (s : Settings) (layout : Layout) (l : SourceLine) (ls : List SourceLine) :
    ofLines s layout (l :: ls) = l.read s layout >>= fun line ↦
      List.cons line <$> ofLines s (layout.afterLine l) ls := by
  by_cases h : l.code = []
  · rw [ofLines_blank h, SourceLine.read_blank h, layout.afterLine_blank h, pure_bind]
  · rw [ofLines_code h, SourceLine.read_code h, layout.afterLine_code h]

theorem ofLines_append (s : Settings) (layout : Layout) (ls ls' : List SourceLine) :
    ofLines s layout (ls ++ ls') = ofLines s layout ls >>= fun p ↦
      (p ++ ·) <$> ofLines s (layout.afterLines ls) ls' := by
  induction ls generalizing layout with
  | nil =>
    have hid : (fun p : Program ↦ [] ++ p) = id := rfl
    rw [List.nil_append, ofLines, pure_bind, hid, id_map, Layout.afterLines_nil]
  | cons l ls ih =>
    rw [List.cons_append, ofLines_cons, ofLines_cons, bind_assoc]
    congr 1
    funext line
    rw [ih, map_bind, bind_map_left]
    simp only [Functor.map_map, List.cons_append, Layout.afterLines_cons]

theorem ofLines_append_ok_iff :
    (ofLines s layout (ls ++ ls')).outcome = .ok p ↔ ∃ p₁ p₂,
      (ofLines s layout ls).outcome = .ok p₁ ∧
      (ofLines s (layout.afterLines ls) ls').outcome = .ok p₂ ∧ p = p₁ ++ p₂ := by
  rw [ofLines_append, Logged.outcome_bind_eq_ok]
  simp only [Logged.outcome_map_eq_ok]
  constructor
  · rintro ⟨p₁, h₁, p₂, h₂, rfl⟩
    exact ⟨p₁, p₂, h₁, h₂, rfl⟩
  · rintro ⟨p₁, p₂, h₁, h₂, rfl⟩
    exact ⟨p₁, h₁, p₂, h₂, rfl⟩

theorem ofLines_append_error_iff {f : LineFault} :
    (ofLines s layout (ls ++ ls')).outcome = .error f ↔
      (ofLines s layout ls).outcome = .error f ∨ ∃ p, (ofLines s layout ls).outcome = .ok p ∧
        (ofLines s (layout.afterLines ls) ls').outcome = .error f := by
  rw [ofLines_append, Logged.outcome_bind_eq_error]
  simp only [Logged.outcome_map_eq_error]

theorem ofLines_cons_ok_iff :
    (ofLines s layout (l :: ls)).outcome = .ok p ↔ ∃ line p',
      (l.read s layout).outcome = .ok line ∧
      (ofLines s (layout.afterLine l) ls).outcome = .ok p' ∧ p = line :: p' := by
  rw [ofLines_cons, Logged.outcome_bind_eq_ok]
  simp only [Logged.outcome_map_eq_ok]
  constructor
  · rintro ⟨line, hline, p', hp', rfl⟩
    exact ⟨line, p', hline, hp', rfl⟩
  · rintro ⟨line, p', hline, hp', rfl⟩
    exact ⟨line, hline, p', hp', rfl⟩

theorem length_of_ofLines (h : (ofLines s layout ls).outcome = .ok p) : p.length = ls.length :=
  (ofLines_isRead h).length_eq.symm

/-- The first lines are read by themselves into the first lines of the program, and the others below
the blocks that these leave open. -/
theorem ofLines_take (h : (ofLines s layout ls).outcome = .ok p) (k : Nat) :
    (ofLines s layout (ls.take k)).outcome = .ok (p.take k) ∧
      (ofLines s (layout.afterLines (ls.take k)) (ls.drop k)).outcome = .ok (p.drop k) := by
  have hlength := length_of_ofLines h
  rw [← List.take_append_drop k ls] at h
  obtain ⟨p₁, p₂, h₁, h₂, rfl⟩ := ofLines_append_ok_iff.1 h
  have hp₁ := length_of_ofLines h₁
  rw [List.length_take] at hp₁
  rw [List.length_append] at hlength
  by_cases hk : k ≤ ls.length
  · have hcut : p₁.length = k := by omega
    rw [List.take_left' hcut, List.drop_left' hcut]
    exact ⟨h₁, h₂⟩
  · have hnil : p₂ = [] := List.eq_nil_of_length_eq_zero (by omega)
    subst hnil
    have htake : p₁.take k = p₁ := List.take_of_length_le (by omega)
    have hdrop : p₁.drop k = [] := List.drop_eq_nil_of_le (by omega)
    rw [List.append_nil, htake, hdrop]
    exact ⟨h₁, h₂⟩

/-- A line of the program is read from the line of the source in the same place, below the blocks
that the lines before it leave open. -/
theorem read_of_ofLines (h : (ofLines s layout ls).outcome = .ok p) {k : Nat}
    (hl : ls[k]? = some l) :
    ∃ line, p[k]? = some line ∧ (l.read s (layout.afterLines (ls.take k))).outcome = .ok line := by
  obtain ⟨hk, rfl⟩ := List.getElem?_eq_some_iff.1 hl
  have hdrop := (ofLines_take h k).2
  rw [List.drop_eq_getElem_cons hk] at hdrop
  obtain ⟨line, p', hline, -, hp⟩ := ofLines_cons_ok_iff.1 hdrop
  refine ⟨line, ?_, hline⟩
  rw [← List.head?_drop, hp, List.head?_cons]

theorem ofLines_error_cases {f : LineFault} (h : (ofLines s layout ls).outcome = .error f) :
    ∃ k l p, ls[k]? = some l ∧ (ofLines s layout (ls.take k)).outcome = .ok p ∧
      f.line = l.number ∧ f.source = l.raw ∧
      (Statement.ofCode s l.code).outcome = .error f.fault := by
  induction ls generalizing layout with
  | nil => simp [ofLines] at h
  | cons l ls ih =>
    rw [ofLines_cons, Logged.outcome_bind_eq_error] at h
    obtain h | ⟨line, hline, h⟩ := h
    · exact ⟨0, l, [], rfl, rfl, SourceLine.read_error h⟩
    · rw [Logged.outcome_map_eq_error] at h
      obtain ⟨k, l', p, hl', hp, hf⟩ := ih h
      refine ⟨k + 1, l', line :: p, hl', ?_, hf⟩
      rw [List.take_succ_cons]
      exact ofLines_cons_ok_iff.2 ⟨line, p, hline, hp, rfl⟩

end Program

end CallChain
