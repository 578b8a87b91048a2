import CallChain.Proofs.BalancedGrammar
import CallChain.Proofs.Groups
import CallChain.Proofs.Slices
import Mathlib.Logic.ExistsUnique

namespace CallChain

namespace Text

variable {n m : Nesting} {offset : Nat} {s t : Text}

/-- A balanced text in which no parenthesis opens at top level. -/
structure IsGap (t : Text) : Prop where
  balanced : Balanced t
  unopened : topOffsets ['('] t = []

theorem topOffsetsFrom_round_iff (h : n.Reads t m) :
    topOffsetsFrom ['('] n offset t = [] ↔ openGroupFrom n t = none := by
  induction h generalizing offset with
  | nil => exact iff_of_true rfl rfl
  | @cons n m c t hc _ ih =>
    rw [topOffsetsFrom, openGroupFrom, isPrefixOf_singleton, if_neg hc]
    by_cases htop : n.isTop && c = '('
    · simp [htop]
    · rw [if_neg htop, if_neg htop, ih, Option.map_eq_none_iff]

theorem isGap_iff : IsGap t ↔ Balanced t ∧ openGroup t = none := by
  constructor
  · rintro ⟨hbalanced, hnone⟩
    exact ⟨hbalanced, (topOffsetsFrom_round_iff (balanced_iff.1 hbalanced)).1 hnone⟩
  · rintro ⟨hbalanced, hnone⟩
    exact ⟨hbalanced, (topOffsetsFrom_round_iff (balanced_iff.1 hbalanced)).2 hnone⟩

theorem openGroupFrom_append (h : n.Reads s {}) (hnone : openGroupFrom n s = none) (t : Text) :
    openGroupFrom n (s ++ '(' :: t) = some ⟨s, t⟩ := by
  induction s generalizing n with
  | nil =>
    cases h
    rfl
  | cons c s ih =>
    cases h with
    | cons hc h =>
      rw [openGroupFrom, if_neg hc] at hnone
      split at hnone
      · cases hnone
      · rename_i htop
        rw [List.cons_append, openGroupFrom, if_neg htop, if_neg hc,
          ih h (Option.map_eq_none_iff.1 hnone)]
        rfl

/-- In a balanced text every parenthesis that opens at top level makes a group. -/
theorem openGroup_eq_none (h : Balanced t) (hgroups : (outline t).groups = []) :
    openGroup t = none := by
  cases hopen : openGroup t with
  | none => rfl
  | some gap =>
    have htext := openGroupFrom_text hopen
    have hgap := balanced_iff.2 (openGroupFrom_spec hopen).1
    rw [← htext, balanced_append_iff hgap, balanced_iff] at h
    cases h with
    | cons _ hrest =>
      obtain ⟨inner, after, hafter, hinner, -⟩ : (Nesting.within .round).Completes gap.after :=
        hrest.completes
      have hclose : closeGroup gap.after = some ⟨inner, after⟩ := by
        rw [hafter]
        exact closeGroup_append hinner.balanced after
      have hnext : nextGroup t = some (⟨gap.before, inner⟩, after) := by
        rw [nextGroup, hopen]
        simp only [hclose]
      rw [outline_some hnext] at hgroups
      cases hgroups

theorem isGap_rest (h : Balanced t) : IsGap (outline t).rest := by
  have hrest := balanced_rest h
  refine isGap_iff.2 ⟨hrest, openGroup_eq_none hrest ?_⟩
  rw [outline_none (nextGroup_rest t)]

end Text

theorem Group.sound_iff {g : Group} : g.Sound ↔ Text.IsGap g.gap ∧ Text.Balanced g.inner := by
  constructor
  · intro h
    exact ⟨Text.isGap_iff.2 ⟨h.gap, h.closed⟩, h.inner⟩
  · rintro ⟨hgap, hinner⟩
    obtain ⟨hbalanced, hnone⟩ := Text.isGap_iff.1 hgap
    exact ⟨hbalanced, hinner, Text.openGroupFrom_append (Text.balanced_iff.1 hbalanced) hnone,
      hnone⟩

/-- The text as gaps and groups in turn, with a gap at its end. -/
structure Outline.Decomposes (o : Outline) (t : Text) : Prop where
  text : o.text = t
  groups : ∀ g ∈ o.groups, Text.IsGap g.gap ∧ Text.Balanced g.inner
  rest : Text.IsGap o.rest

namespace Text

variable {t : Text}

theorem outline_append {gs : List Group} (h : ∀ g ∈ gs, g.Sound) (t : Text) :
    outline (gs.flatMap Group.text ++ t) = ⟨gs ++ (outline t).groups, (outline t).rest⟩ := by
  have hgroups : ∀ g ∈ gs ++ (outline t).groups, g.Sound := by
    intro g hg
    obtain hg | hg := List.mem_append.1 hg
    · exact h g hg
    · exact outline_sound hg
  rw [← outline_groups hgroups (nextGroup_rest t), List.flatMap_append, List.append_assoc]
  congr 2
  exact (outline_text t).symm

theorem decomposes_iff {o : Outline} : o.Decomposes t ↔ imbalance? t = none ∧ o = outline t := by
  constructor
  · rintro ⟨rfl, hgroups, hrest⟩
    have hsound : ∀ g ∈ o.groups, g.Sound := fun g hg ↦ Group.sound_iff.2 (hgroups g hg)
    have hnext := nextGroup_eq_none (isGap_iff.1 hrest).2
    exact ⟨(balanced_groups hsound).append hrest.balanced, (outline_groups hsound hnext).symm⟩
  · rintro ⟨hbalanced, rfl⟩
    exact ⟨outline_text t, fun g hg ↦ Group.sound_iff.1 (outline_sound hg), isGap_rest hbalanced⟩

end Text

namespace Span

def inner? (span : Span) (t : Text) : Option Text := Text.slice? (span.start + 1) (span.stop - 1) t

/-- The stretches in front of the spans, the first one from the offset on. -/
def gapsFrom (offset : Nat) : List Span → List Span
  | [] => []
  | span :: spans => ⟨offset, span.start⟩ :: gapsFrom span.stop spans

def lastStop (spans : List Span) : Nat := spans.getLast?.elim 0 (·.stop)

/-- The spans come one behind the other, each goes from a parenthesis to the one that closes it, and
no group opens in front of the first one or between two of them. -/
structure AreGroups (spans : List Span) (t : Text) : Prop where
  ascending : spans.Pairwise fun a b ↦ a.stop ≤ b.start
  group : ∀ span ∈ spans, ∃ inner, Text.Balanced inner ∧ span.inner? t = some inner ∧
    Text.slice? span.start span.stop t = some ('(' :: inner ++ [')'])
  gap : ∀ span ∈ gapsFrom 0 spans, ∃ gap, Text.slice? span.start span.stop t = some gap ∧
    Text.IsGap gap

end Span

section

variable {offset : Nat} {span : Span} {g : Group} {gs gs' : List Group} {t : Text}

theorem length_spansFrom (offset : Nat) (gs : List Group) :
    (spansFrom offset gs).length = gs.length := by
  induction gs generalizing offset with
  | nil => rfl
  | cons g gs ih => rw [spansFrom, List.length_cons, ih, List.length_cons]

theorem spansFrom_append (offset : Nat) (gs gs' : List Group) :
    spansFrom offset (gs ++ gs') =
      spansFrom offset gs ++ spansFrom (offset + Text.bytes (gs.flatMap Group.text)) gs' := by
  induction gs generalizing offset with
  | nil => rfl
  | cons g gs ih =>
    rw [List.cons_append, spansFrom, ih, spansFrom, List.flatMap_cons, Text.bytes_append,
      Nat.add_assoc, List.cons_append]

theorem exists_of_mem_spansFrom (h : span ∈ spansFrom offset gs) :
    ∃ gs₁ g gs₂, gs = gs₁ ++ g :: gs₂ ∧
      span.start = offset + Text.bytes (gs₁.flatMap Group.text ++ g.gap) ∧
      span.stop = offset + Text.bytes (gs₁.flatMap Group.text ++ g.text) := by
  induction gs generalizing offset with
  | nil => simp [spansFrom] at h
  | cons g gs ih =>
    rw [spansFrom] at h
    obtain rfl | h := List.mem_cons.1 h
    · exact ⟨[], g, gs, rfl, rfl, rfl⟩
    · obtain ⟨gs₁, g', gs₂, rfl, hstart, hstop⟩ := ih h
      refine ⟨g :: gs₁, g', gs₂, rfl, ?_⟩
      simp only [List.flatMap_cons, Text.bytes_append] at hstart hstop ⊢
      omega

theorem exists_of_mem_gapsFrom (h : span ∈ Span.gapsFrom offset (spansFrom offset gs)) :
    ∃ gs₁ g gs₂, gs = gs₁ ++ g :: gs₂ ∧
      span.start = offset + Text.bytes (gs₁.flatMap Group.text) ∧
      span.stop = offset + Text.bytes (gs₁.flatMap Group.text ++ g.gap) := by
  induction gs generalizing offset with
  | nil => simp [spansFrom, Span.gapsFrom] at h
  | cons g gs ih =>
    rw [spansFrom, Span.gapsFrom] at h
    obtain rfl | h := List.mem_cons.1 h
    · exact ⟨[], g, gs, rfl, rfl, rfl⟩
    · obtain ⟨gs₁, g', gs₂, rfl, hstart, hstop⟩ := ih h
      refine ⟨g :: gs₁, g', gs₂, rfl, ?_⟩
      simp only [List.flatMap_cons, Text.bytes_append] at hstart hstop ⊢
      omega

theorem pairwise_spansFrom (offset : Nat) (gs : List Group) :
    (spansFrom offset gs).Pairwise fun a b ↦ a.stop ≤ b.start := by
  induction gs generalizing offset with
  | nil => exact .nil
  | cons g gs ih =>
    refine List.pairwise_cons.2 ⟨fun span hspan ↦ ?_, ih _⟩
    obtain ⟨gs₁, g', gs₂, -, hstart, -⟩ := exists_of_mem_spansFrom hspan
    rw [hstart]
    exact Nat.le_add_right _ _

theorem lastStop_spansFrom (gs : List Group) :
    Span.lastStop (spansFrom 0 gs) = Text.bytes (gs.flatMap Group.text) := by
  obtain rfl | ⟨gs, g, rfl⟩ := List.eq_nil_or_concat gs
  · rfl
  · rw [List.concat_eq_append, spansFrom_append, spansFrom, spansFrom, Span.lastStop,
      List.getLast?_concat, List.flatMap_append, List.flatMap_singleton, Text.bytes_append,
      Nat.zero_add]
    rfl

theorem areGroups_spansFrom (h : ∀ g ∈ gs, g.Sound) (rest : Text) :
    Span.AreGroups (spansFrom 0 gs) (gs.flatMap Group.text ++ rest) where
  ascending := pairwise_spansFrom 0 gs
  group span hspan := by
    obtain ⟨gs₁, g, gs₂, rfl, hstart, hstop⟩ := exists_of_mem_spansFrom hspan
    rw [Nat.zero_add] at hstart hstop
    refine ⟨g.inner, (h g (by simp)).inner, Text.slice?_eq_some_iff.2 ?_,
      Text.slice?_eq_some_iff.2 ?_⟩
    · refine ⟨gs₁.flatMap Group.text ++ g.gap ++ ['('],
        ')' :: gs₂.flatMap Group.text ++ rest, by simp [Group.text], ?_, ?_⟩
      · rw [hstart, Text.bytes_append]
        rfl
      · have hclosing : Text.bytes [')'] = 1 := rfl
        have hinner : span.stop =
            Text.bytes (gs₁.flatMap Group.text ++ g.gap ++ ['('] ++ g.inner ++ [')']) := by
          rw [hstop, Group.text]
          simp
        rw [hinner, Text.bytes_append _ [')'], hclosing, Nat.add_sub_cancel]
    · refine ⟨gs₁.flatMap Group.text ++ g.gap, gs₂.flatMap Group.text ++ rest, by simp [Group.text],
        hstart.symm, ?_⟩
      rw [hstop, List.append_assoc, Group.text, List.append_assoc]
  gap span hspan := by
    obtain ⟨gs₁, g, gs₂, rfl, hstart, hstop⟩ := exists_of_mem_gapsFrom hspan
    rw [Nat.zero_add] at hstart hstop
    refine ⟨g.gap, Text.slice?_eq_some_iff.2 ?_, (Group.sound_iff.1 (h g (by simp))).1⟩
    exact ⟨gs₁.flatMap Group.text, '(' :: g.inner ++ [')'] ++ gs₂.flatMap Group.text ++ rest,
      by simp [Group.text], hstart.symm, hstop.symm⟩

end

/-- The spans of a text are groups with gaps in front of them, and no other groups stand in front of
what is left. A text with nothing wrong has a gap behind the last span as well. It is taken apart in
one way only, and its spans are the groups of that. -/
theorem Text.spans_decompose (t : Text) :
    Span.AreGroups (outline t).spans t ∧
    (∀ o : Outline, o.text = t → (∀ g ∈ o.groups, IsGap g.gap ∧ Balanced g.inner) →
      o.spans <+: (outline t).spans) ∧
    (imbalance? t = none →
      (∃ rest, slice? (Span.lastStop (outline t).spans) (bytes t) t = some rest ∧ IsGap rest) ∧
      (∃! o : Outline, o.Decomposes t) ∧
      ∀ o : Outline, o.Decomposes t → o.spans = (outline t).spans) := by
  have htext : (outline t).groups.flatMap Group.text ++ (outline t).rest = t := outline_text t
  refine ⟨?_, fun o ho hgroups ↦ ?_, fun hnone ↦ ⟨⟨(outline t).rest, ?_, isGap_rest hnone⟩, ?_, ?_⟩⟩
  · have hspans := areGroups_spansFrom (fun _ ↦ outline_sound (t := t)) (outline t).rest
    rwa [htext] at hspans
  · have hsound : ∀ g ∈ o.groups, g.Sound := fun g hg ↦ Group.sound_iff.2 (hgroups g hg)
    rw [← ho, Outline.text, outline_append hsound, Outline.spans, Outline.spans, spansFrom_append]
    exact List.prefix_append _ _
  · rw [Outline.spans, lastStop_spansFrom]
    refine slice?_eq_some_iff.2 ⟨_, [], by rw [List.append_nil, htext], rfl, by rw [htext]⟩
  · exact ⟨outline t, decomposes_iff.2 ⟨hnone, rfl⟩, fun o ho ↦ (decomposes_iff.1 ho).2⟩
  · intro o ho
    rw [(decomposes_iff.1 ho).2]

theorem Text.spans_decompose_strings :
    let t := "é[(0)] (f)(\")(\") z".toList
    imbalance? t = none ∧ (outline t).spans = [⟨8, 11⟩, ⟨11, 17⟩] ∧
    Span.AreGroups (outline t).spans t ∧
    (∃ rest, slice? 17 19 t = some rest ∧ IsGap rest) ∧ ∃! o : Outline, o.Decomposes t := by
  intro t
  have hnone : imbalance? t = none := by decide
  have hspans : (outline t).spans = [⟨8, 11⟩, ⟨11, 17⟩] := by decide +kernel
  obtain ⟨hgroups, -, hbalanced⟩ := spans_decompose t
  obtain ⟨hrest, hunique, -⟩ := hbalanced hnone
  rw [hspans] at hrest
  exact ⟨hnone, hspans, hgroups, hrest, hunique⟩

end CallChain
