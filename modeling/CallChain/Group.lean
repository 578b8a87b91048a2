import CallChain.Nesting.Cut
import CallChain.Nesting.Imbalance

namespace CallChain

/-- A group `(inner)` with the text that separates it from the group before. -/
structure Group where
  gap : Text
  inner : Text
  deriving DecidableEq, Repr

def Group.text (g : Group) : Text := g.gap ++ '(' :: g.inner ++ [')']

/-- The groups of a text, and what follows the last one. -/
structure Outline where
  groups : List Group
  rest : Text
  deriving DecidableEq, Repr

def Outline.text (o : Outline) : Text := o.groups.flatMap Group.text ++ o.rest

namespace Text

def openGroupFrom (n : Nesting) : Text → Option Cut
  | [] => none
  | c :: t =>
    if n.isTop && c = '(' then some ⟨[], t⟩
    else if n.step c = .mismatch then none
    else (openGroupFrom (n.next c) t).map (Cut.cons c)

/-- The two sides of the first parenthesis that opens at top level. -/
def openGroup (t : Text) : Option Cut := openGroupFrom {} t

def closeGroupFrom (n : Nesting) : Text → Option Cut
  | [] => none
  | c :: t =>
    if n = .within .round && c = ')' then some ⟨[], t⟩
    else if n.step c = .mismatch then none
    else (closeGroupFrom (n.next c) t).map (Cut.cons c)

def closeGroup (t : Text) : Option Cut := closeGroupFrom (.within .round) t

theorem openGroupFrom_text {n : Nesting} {t : Text} {k : Cut} (h : openGroupFrom n t = some k) :
    k.before ++ '(' :: k.after = t := by
  induction t generalizing n k with
  | nil => simp [openGroupFrom] at h
  | cons c t ih =>
    rw [openGroupFrom] at h
    split at h
    · rename_i hc
      cases h
      simp_all
    · split at h
      · simp at h
      · obtain ⟨k', hk, rfl⟩ := Option.map_eq_some_iff.1 h
        simpa [Cut.cons] using ih hk

theorem closeGroupFrom_text {n : Nesting} {t : Text} {k : Cut} (h : closeGroupFrom n t = some k) :
    k.before ++ ')' :: k.after = t := by
  induction t generalizing n k with
  | nil => simp [closeGroupFrom] at h
  | cons c t ih =>
    rw [closeGroupFrom] at h
    split at h
    · rename_i hc
      cases h
      simp_all
    · split at h
      · simp at h
      · obtain ⟨k', hk, rfl⟩ := Option.map_eq_some_iff.1 h
        simpa [Cut.cons] using ih hk

def nextGroup (t : Text) : Option (Group × Text) :=
  match openGroup t with
  | none => none
  | some gap =>
    match closeGroup gap.after with
    | none => none
    | some inner => some (⟨gap.before, inner.before⟩, inner.after)

theorem nextGroup_text {t : Text} {g : Group} {after : Text} (h : nextGroup t = some (g, after)) :
    g.text ++ after = t := by
  rw [nextGroup] at h
  split at h
  · simp at h
  · rename_i gap hgap
    split at h
    · simp at h
    · rename_i inner hinner
      cases h
      simp [Group.text, closeGroupFrom_text hinner, openGroupFrom_text hgap]

theorem length_nextGroup_lt {t : Text} {g : Group} {after : Text}
    (h : nextGroup t = some (g, after)) : after.length < t.length := by
  have := congrArg List.length (nextGroup_text h)
  simp only [Group.text, List.length_append, List.length_cons] at this
  omega

/-- All groups of a text, left to right. The first group that does not close, or a stray closing
bracket, ends them. -/
def outline (t : Text) : Outline :=
  match _h : nextGroup t with
  | none => ⟨[], t⟩
  | some (g, after) =>
    let o := outline after
    ⟨g :: o.groups, o.rest⟩
termination_by t.length
decreasing_by exact length_nextGroup_lt _h

theorem outline_none {t : Text} (h : nextGroup t = none) : outline t = ⟨[], t⟩ := by
  rw [outline]
  split <;> simp_all

theorem outline_some {t : Text} {g : Group} {after : Text} (h : nextGroup t = some (g, after)) :
    outline t = ⟨g :: (outline after).groups, (outline after).rest⟩ := by
  rw [outline]
  split <;> simp_all

theorem outline_text (t : Text) : (outline t).text = t := by
  match h : nextGroup t with
  | none => simp [outline_none h, Outline.text]
  | some (g, after) =>
    have := length_nextGroup_lt h
    have ih := outline_text after
    rw [Outline.text] at ih
    rw [outline_some h, Outline.text, List.flatMap_cons, List.append_assoc, ih, nextGroup_text h]
termination_by t.length

end Text

/-- Groups with only blanks between them. -/
abbrev Run := List Group

def Run.text (r : Run) : Text := r.flatMap Group.text

def runs : List Group → List Run
  | [] => []
  | g :: gs =>
    match runs gs with
    | [] => [[g]]
    | r :: rs => if r.head?.any (Text.isBlank ·.gap) then (g :: r) :: rs else [g] :: r :: rs

theorem runs_flatten (gs : List Group) : (runs gs).flatten = gs := by
  induction gs with
  | nil => rfl
  | cons g gs ih =>
    rw [runs]
    split
    · simp_all
    · split <;> simp_all

theorem runs_text (gs : List Group) : (runs gs).flatMap Run.text = gs.flatMap Group.text := by
  conv => rhs; rw [← runs_flatten gs, List.flatten_eq_flatMap, List.flatMap_assoc]
  rfl

def Outline.runs (o : Outline) : List Run := CallChain.runs o.groups

theorem Outline.runs_text (o : Outline) : o.runs.flatMap Run.text ++ o.rest = o.text := by
  rw [Outline.runs, CallChain.runs_text, Outline.text]

/-- The offsets of a group, parentheses included. -/
structure Span where
  start : Nat
  stop : Nat
  deriving DecidableEq, Repr

def spansFrom (offset : Nat) : List Group → List Span
  | [] => []
  | g :: gs =>
    let start := offset + Text.bytes g.gap
    let stop := offset + Text.bytes g.text
    ⟨start, stop⟩ :: spansFrom stop gs

def Outline.spans (o : Outline) : List Span := spansFrom 0 o.groups

end CallChain
