import CallChain.Proofs.LineRuns
import Mathlib.Data.List.DropRight

namespace CallChain

namespace Layout

variable {layout : Layout}

/-- Every block is opened by a line that is deeper than the one around it. -/
def Nested (layout : Layout) : Prop := layout.openers.Pairwise (· > ·)

theorem Nested.enter (h : layout.Nested) (width : Nat) : (layout.enter width).Nested :=
  List.Pairwise.sublist (List.dropWhile_sublist _) h

theorem Nested.enter_openers (h : layout.Nested) (width : Nat) :
    (layout.enter width).openers = layout.openers.filter (· < width) := by
  rcases layout with ⟨openers⟩
  change openers.dropWhile (width ≤ ·) = openers.filter (· < width)
  induction openers with
  | nil => rfl
  | cons w ws ih =>
    obtain ⟨hw, hws⟩ := List.pairwise_cons.1 h
    by_cases hle : width ≤ w
    · have hlt : ¬w < width := by omega
      simp only [List.dropWhile_cons, List.filter_cons, hle, hlt, decide_true, decide_false]
      exact ih hws
    · have hall : ∀ v ∈ w :: ws, v < width := by
        intro v hv
        rcases List.mem_cons.1 hv with rfl | hv
        · omega
        · have := hw v hv
          omega
      rw [List.dropWhile_cons_of_neg (by simpa using hle), List.filter_eq_self.2]
      simpa using hall

theorem Nested.after (h : layout.Nested) (width : Nat) (code : Text) :
    (layout.after width code).Nested := by
  rw [Layout.after]
  split
  · refine List.pairwise_cons.2 ⟨fun w hw ↦ ?_, h.enter width⟩
    rw [h.enter_openers, List.mem_filter, decide_eq_true_eq] at hw
    exact hw.2
  · exact h.enter width

theorem Nested.afterLine (h : layout.Nested) (l : SourceLine) : (layout.afterLine l).Nested := by
  rw [Layout.afterLine]
  split
  · exact h
  · exact h.after l.width l.code

theorem Nested.afterLines (h : layout.Nested) (ls : List SourceLine) :
    (layout.afterLines ls).Nested := by
  induction ls generalizing layout with
  | nil => exact h
  | cons l ls ih => exact ih (h.afterLine l)

theorem nested_empty : ({} : Layout).Nested := .nil

end Layout

namespace SourceLine

variable {ls : List SourceLine} {l : SourceLine} {j k n : Nat}

/-- Line `j` opens a block that line `k` stands in: the code of every line behind `j`, up to line
`k`, is deeper. -/
def Encloses (ls : List SourceLine) (j k : Nat) : Prop :=
  ∃ opener ∈ ls[j]?, opener.code.getLast? = some blockMark ∧
    ∀ i ≤ k, j < i → ∀ l ∈ ls[i]?, l.code ≠ [] → opener.width < l.width

instance (ls : List SourceLine) (j k : Nat) : Decidable (Encloses ls j k) :=
  inferInstanceAs (Decidable (∃ opener ∈ ls[j]?, _))

def depth (ls : List SourceLine) (k : Nat) : Nat := (List.range k).countP (Encloses ls · k)

def widthAt (ls : List SourceLine) (j : Nat) : Nat := ls[j]?.elim 0 (·.width)

/-- The lines whose blocks are open after the first `n` lines, the last of which is line `n - 1`.
The innermost block comes first. -/
def openLines (ls : List SourceLine) (n : Nat) : List Nat :=
  ((List.range n).filter (Encloses ls · (n - 1))).reverse

theorem encloses_self (hl : ls[n]? = some l) :
    Encloses ls n n ↔ l.code.getLast? = some blockMark := by
  rw [Encloses, hl]
  constructor
  · rintro ⟨opener, hopener, hmark, -⟩
    cases hopener
    exact hmark
  · intro hmark
    refine ⟨l, rfl, hmark, fun i hi hlt ↦ ?_⟩
    omega

theorem encloses_iff (hl : ls[n]? = some l) (hj : j < n) :
    Encloses ls j n ↔ Encloses ls j (n - 1) ∧ (l.code ≠ [] → widthAt ls j < l.width) := by
  constructor
  · rintro ⟨opener, hopener, hmark, hdeeper⟩
    refine ⟨⟨opener, hopener, hmark, fun i hi ↦ hdeeper i (by omega)⟩, ?_⟩
    rw [widthAt, Option.mem_def.1 hopener]
    exact hdeeper n (Nat.le_refl n) hj l hl
  · rintro ⟨⟨opener, hopener, hmark, hdeeper⟩, hlast⟩
    rw [widthAt, Option.mem_def.1 hopener] at hlast
    refine ⟨opener, hopener, hmark, fun i hi hlt l' hl' ↦ ?_⟩
    obtain rfl | hi := Nat.eq_or_lt_of_le hi
    · cases hl.symm.trans hl'
      exact hlast
    · exact hdeeper i (by omega) hlt l' hl'

theorem filter_encloses (hl : ls[n]? = some l) (hne : l.code ≠ []) :
    (List.range n).filter (Encloses ls · n) =
      ((List.range n).filter (Encloses ls · (n - 1))).filter (widthAt ls · < l.width) := by
  rw [List.filter_filter]
  refine List.filter_congr fun j hj ↦ ?_
  have hiff := encloses_iff hl (List.mem_range.1 hj)
  rw [← Bool.decide_and, decide_eq_decide, hiff]
  simp [hne, and_comm]

theorem openLines_blank (hl : ls[n]? = some l) (h : l.code = []) :
    openLines ls (n + 1) = openLines ls n := by
  have hself : ¬Encloses ls n n := by
    rw [encloses_self hl, h]
    simp
  have hothers : (List.range n).filter (Encloses ls · n) =
      (List.range n).filter (Encloses ls · (n - 1)) := by
    refine List.filter_congr fun j hj ↦ ?_
    rw [decide_eq_decide, encloses_iff hl (List.mem_range.1 hj)]
    simp [h]
  rw [openLines, openLines, Nat.add_sub_cancel, List.range_succ, List.filter_append, hothers]
  simp [hself]

theorem openLines_code (hl : ls[n]? = some l) (hne : l.code ≠ []) :
    openLines ls (n + 1) = (if l.code.getLast? = some blockMark then [n] else []) ++
      (openLines ls n).filter (widthAt ls · < l.width) := by
  rw [openLines, openLines, Nat.add_sub_cancel, List.range_succ, List.filter_append,
    filter_encloses hl hne, List.reverse_append, List.filter_reverse]
  congr 1
  by_cases hmark : l.code.getLast? = some blockMark
  · simp [hmark, (encloses_self hl).2 hmark]
  · simp [hmark, mt (encloses_self hl).1 hmark]

/-- The open blocks are those of the lines that enclose the last line. -/
theorem openers_afterLines (hcode : ∀ l ∈ ls, Text.trimEnd l.code = l.code) (hn : n ≤ ls.length) :
    (({} : Layout).afterLines (ls.take n)).openers = (openLines ls n).map (widthAt ls) := by
  induction n with
  | zero => rfl
  | succ n ih =>
    have hl : ls[n]? = some ls[n] := List.getElem?_eq_getElem hn
    have hnested := Layout.nested_empty.afterLines (ls.take n)
    have hwidth : widthAt ls n = ls[n].width := by rw [widthAt, hl]; rfl
    rw [List.take_add_one, hl, Option.toList_some, Layout.afterLines_append, Layout.afterLines_cons,
      Layout.afterLines_nil]
    by_cases hne : ls[n].code = []
    · rw [Layout.afterLine_blank _ hne, openLines_blank hl hne, ih (by omega)]
    · have hopens : Text.opensBlock ls[n].code ↔ ls[n].code.getLast? = some blockMark := by
        rw [Text.opensBlock, hcode _ (List.getElem_mem _), decide_eq_true_eq]
      have henter : ((({} : Layout).afterLines (ls.take n)).enter ls[n].width).openers =
          ((openLines ls n).filter (widthAt ls · < ls[n].width)).map (widthAt ls) := by
        rw [hnested.enter_openers, ih (by omega), List.filter_map]
        rfl
      rw [Layout.afterLine_code _ hne, openLines_code hl hne, Layout.after, List.map_append,
        ← henter]
      by_cases hmark : ls[n].code.getLast? = some blockMark
      · rw [if_pos (hopens.2 hmark), if_pos hmark, Layout.openBlock, List.map_singleton, hwidth]
        rfl
      · rw [if_neg (mt hopens.1 hmark), if_neg hmark]
        rfl

theorem level_eq_depth (hcode : ∀ l ∈ ls, Text.trimEnd l.code = l.code) (hl : ls[k]? = some l)
    (hne : l.code ≠ []) :
    ((({} : Layout).afterLines (ls.take k)).enter l.width).level = depth ls k := by
  have hk : k ≤ ls.length := Nat.le_of_lt (List.getElem?_eq_some_iff.1 hl).1
  have hnested := Layout.nested_empty.afterLines (ls.take k)
  rw [Layout.level, hnested.enter_openers, openers_afterLines hcode hk, List.filter_map,
    List.length_map, openLines, List.filter_reverse, List.length_reverse, depth,
    List.countP_eq_length_filter, filter_encloses hl hne]
  rfl

theorem trimEnd_code {source : Text} (h : l ∈ ofSource source) : Text.trimEnd l.code = l.code := by
  rw [← trim_code h]
  exact Text.trimEnd_eq_self (Text.getLast?_trim l.code)

def codeLines (ls : List SourceLine) : List (Nat × Text) :=
  (ls.filter (!·.code.isEmpty)).map fun l ↦ (l.width, l.code)

end SourceLine

def Layout.levels (layout : Layout) : List (Nat × Text) → List Nat
  | [] => []
  | (width, code) :: ls => (layout.enter width).level :: (layout.after width code).levels ls

namespace Program

variable {s : Settings} {layout : Layout} {ls : List SourceLine} {p : Program}

def levels (p : Program) : List Nat := (p.filter (!·.statement.isBlank)).map (·.level)

theorem levels_of_ofLines (h : (ofLines s layout ls).outcome = .ok p) :
    levels p = layout.levels (SourceLine.codeLines ls) := by
  induction ls generalizing layout p with
  | nil =>
    cases h
    rfl
  | cons l ls ih =>
    obtain ⟨line, p', hline, hp', rfl⟩ := ofLines_cons_ok_iff.1 h
    have htail := ih hp'
    rw [levels, SourceLine.codeLines] at htail ⊢
    by_cases hne : l.code = []
    · rw [SourceLine.read_blank hne] at hline
      cases hline
      rw [layout.afterLine_blank hne] at htail
      simpa [hne, SourceLine.blankLine, Statement.isBlank] using htail
    · rw [SourceLine.read_code hne] at hline
      have hblank := Statement.ofCode_ne_blank ((SourceLine.codeLine_isRead hne hline).code hne)
      rw [layout.afterLine_code hne] at htail
      simp [hne, hblank, Layout.levels, SourceLine.level_of_codeLine hline, htail]

/-- How the blocks of a source show in the program that is read from it. The lines behind the first
`k` are read below the blocks that these leave open. -/
structure FollowsBlocks (s : Settings) (source : Text) (p : Program) : Prop where
  level : ∀ k l, (SourceLine.ofSource source)[k]? = some l → l.code ≠ [] → ∃ line,
    p[k]? = some line ∧ line.level = SourceLine.depth (SourceLine.ofSource source) k
  blank : ∀ s' source' p', (ofSource s' source').outcome = .ok p' →
    SourceLine.codeLines (SourceLine.ofSource source') =
      SourceLine.codeLines (SourceLine.ofSource source) → levels p' = levels p
  below : ∀ k, (ofLines s (Layout.afterLines {} ((SourceLine.ofSource source).take k))
    ((SourceLine.ofSource source).drop k)).outcome = .ok (p.drop k)
  deeper : ∀ k,
    (Layout.afterLines {} ((SourceLine.ofSource source).take k)).openers.reverse.Pairwise
    (· < ·)

/-- The level of a line of code is the number of the blocks it stands in. Lines without code do not
change it, and the open blocks are ever deeper, from the outermost one on. -/
theorem ofSource_followsBlocks {source : Text} (h : (ofSource s source).outcome = .ok p) :
    FollowsBlocks s source p where
  level k l hl hne := by
    obtain ⟨line, hline, hread⟩ := read_of_ofLines h hl
    rw [SourceLine.read_code hne] at hread
    refine ⟨line, hline, ?_⟩
    rw [SourceLine.level_of_codeLine hread,
      SourceLine.level_eq_depth (fun _ ↦ SourceLine.trimEnd_code) hl hne]
  blank s' source' p' h' hlines := by rw [levels_of_ofLines h, levels_of_ofLines h', hlines]
  below k := (ofLines_take h k).2
  deeper k := List.pairwise_reverse.2 (Layout.nested_empty.afterLines _)

theorem ofSource_followsBlocks_uneven :
    let source := "if a:\n\t\tx = 1\n# note\n   for i in ...3:\n      \n    y\n  else:\nz".toList
    ∃ p, (ofSource {} source).outcome = .ok p ∧ levels p = [0, 1, 1, 2, 1, 0] ∧
      FollowsBlocks {} source p := by
  intro source
  have hlevels : (ofSource {} source).outcome.map levels = .ok [0, 1, 1, 2, 1, 0] := by
    decide +kernel
  cases h : (ofSource {} source).outcome with
  | error f => simp [h, Except.map] at hlevels
  | ok p =>
    rw [h, Except.map, Except.ok.injEq] at hlevels
    exact ⟨p, rfl, hlevels, ofSource_followsBlocks h⟩

end Program

end CallChain
