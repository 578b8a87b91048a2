import CallChain.Proofs.Statements

namespace CallChain

def Cut.behind (s : Text) (k : Cut) : Cut := { k with before := s ++ k.before }

namespace Text

variable {n : Nesting} {offset : Nat} {needle s t : Text} {k : Cut} {c : Char}

theorem not_prefix_of_topOffsetsFrom (h : topOffsetsFrom needle n offset t = []) {s₁ s₂ : Text}
    (ht : t = s₁ ++ s₂) (hne : s₂ ≠ []) (htop : n.after s₁ = {}) : ¬needle <+: s₂ := by
  induction s₁ generalizing n offset t with
  | nil =>
    obtain ⟨c, u, rfl⟩ := List.exists_cons_of_ne_nil hne
    rw [ht, List.nil_append, topOffsetsFrom] at h
    split at h
    · cases h
    · rename_i hc
      intro hneedle
      exact hc (Bool.and_eq_true_iff.2
        ⟨Nesting.isTop_iff.2 htop, List.isPrefixOf_iff_prefix.2 hneedle⟩)
  | cons c s₁ ih =>
    rw [ht, List.cons_append, topOffsetsFrom] at h
    split at h
    · cases h
    · exact ih h rfl htop

theorem cutFirstFrom_append
    (h : ∀ s₁ s₂, s = s₁ ++ s₂ → s₂ ≠ [] → n.after s₁ = {} → ¬needle <+: s₂ ++ t) :
    cutFirstFrom needle n (s ++ t) = (cutFirstFrom needle (n.after s) t).map (.behind s) := by
  induction s generalizing n with
  | nil =>
    have hbehind : Cut.behind [] = id := rfl
    rw [hbehind, Option.map_id]
    rfl
  | cons c s ih =>
    have hc : ¬(n.isTop && needle.isPrefixOf (c :: (s ++ t))) := by
      intro hc
      rw [Bool.and_eq_true, Nesting.isTop_iff, List.isPrefixOf_iff_prefix] at hc
      exact h [] (c :: s) rfl (List.cons_ne_nil c s) hc.1 hc.2
    have hrest := ih fun s₁ s₂ hsplit ↦ h (c :: s₁) s₂ (by rw [hsplit]; rfl)
    rw [List.cons_append, cutFirstFrom, if_neg hc, hrest, Option.map_map]
    rfl

theorem cutFirst_here (hne : needle ≠ []) (t : Text) :
    cutFirst needle (needle ++ t) = some ⟨[], t⟩ := by
  obtain ⟨c, u, rfl⟩ := List.exists_cons_of_ne_nil hne
  have hneedle : (c :: u).isPrefixOf (c :: (u ++ t)) :=
    List.isPrefixOf_iff_prefix.2 (List.prefix_append (c :: u) t)
  have hdrop : (c :: (u ++ t)).drop (c :: u).length = t := List.drop_left
  have htop : ({} : Nesting).isTop := rfl
  rw [cutFirst, List.cons_append, cutFirstFrom, if_pos (Bool.and_eq_true_iff.2 ⟨htop, hneedle⟩),
    hdrop]

theorem cutLastFrom_eq_none (h : topOffsetsFrom needle n offset t = []) :
    cutLastFrom needle n t = none := by
  induction t generalizing n offset with
  | nil => rfl
  | cons c t ih =>
    rw [topOffsetsFrom] at h
    split at h
    · cases h
    · rename_i hc
      rw [cutLastFrom, ih h]
      exact if_neg hc

theorem cutLastFrom_append (h : cutLastFrom needle (n.after s) t = some k) :
    cutLastFrom needle n (s ++ t) = some (k.behind s) := by
  induction s generalizing n with
  | nil => exact h
  | cons c s ih =>
    rw [List.cons_append, cutLastFrom, ih h]
    rfl

theorem cutLast_append (hc : Role.of c = .plain) (hs : Balanced s) (ht : topOffsets [c] t = []) :
    cutLast [c] (s ++ c :: t) = some ⟨s, t⟩ := by
  have hafter : ({} : Nesting).after s = {} := (balanced_iff.1 hs).after_eq
  have hhere : cutLastFrom [c] {} (c :: t) = some ⟨[], t⟩ := by
    have hneedle : [c].isPrefixOf (c :: t) :=
      List.isPrefixOf_iff_prefix.2 (List.prefix_append [c] t)
    rw [cutLastFrom, Nesting.next_plain rfl hc, cutLastFrom_eq_none ht]
    exact if_pos (Bool.and_eq_true_iff.2 ⟨rfl, hneedle⟩)
  rw [cutLast, cutLastFrom_append (k := ⟨[], t⟩) (by rw [hafter, hhere]), Cut.behind,
    List.append_nil]

theorem trim_between (hs : trim s = s) (hsne : s ≠ []) (ht : trim t = t) (htne : t ≠ [])
    (u : Text) :
    trim (s ++ (u ++ t)) = s ++ (u ++ t) := by
  refine trim_eq_self ?_ ?_
  · rw [List.head?_append_of_ne_nil _ hsne, ← hs]
    exact head?_trim s
  · rw [getLast?_of_suffix ((List.suffix_append u t).trans (List.suffix_append s _)) htne, ← ht]
    exact getLast?_trim t

/-- A part of a range, as it can be written. -/
structure IsPart (t : Text) : Prop where
  trimmed : trim t = t
  ne_nil : t ≠ []
  balanced : Balanced t

theorem IsPart.nonempty? (h : IsPart t) : nonempty? (trim t) = some t :=
  nonempty?_eq_some_iff.2 ⟨h.trimmed, by rw [h.trimmed]; exact h.ne_nil⟩

/-- A name that a loop can bind. The word `in` would end the list of them. -/
structure IsLoopTarget (name : Text) : Prop where
  isIdentifier : isIdentifier name
  ne_in : name ≠ "in".toList

inductive IsLoopTargets : Text → Prop
  | name {name : Text} : IsLoopTarget name → IsLoopTargets name
  | more {name t : Text} : IsLoopTarget name → IsLoopTargets t →
      IsLoopTargets (name ++ (", ".toList ++ t))

end Text

structure LoopTargets where
  names : List Text
  ne_nil : names ≠ []
  isTarget : ∀ name ∈ names, name.IsLoopTarget

namespace LoopTargets

def text (targets : LoopTargets) : Text := ", ".toList.intercalate targets.names

theorem isTargets (targets : LoopTargets) : Text.IsLoopTargets targets.text := by
  obtain ⟨names, hne, htarget⟩ := targets
  dsimp only [text]
  induction names with
  | nil => exact absurd rfl hne
  | cons name names ih =>
    have hname := htarget name List.mem_cons_self
    cases names with
    | nil =>
      rw [List.intercalate_singleton]
      exact .name hname
    | cons name' names =>
      rw [List.intercalate_cons_cons, List.append_assoc]
      exact .more hname
        (ih (List.cons_ne_nil name' names) fun n hn ↦ htarget n (List.mem_cons_of_mem name hn))

end LoopTargets

namespace Text

variable {name t : Text}

theorem isTargetList_blank (t : Text) : isTargetList (' ' :: t) = isTargetList t := by
  obtain ⟨p, ps, hp⟩ := List.exists_cons_of_ne_nil (pieces_ne_nil ',' t)
  rw [isTargetList, isTargetList, pieces_cons (by decide), hp, List.modifyHead_cons, List.all_cons,
    List.all_cons, trim_cons_blank (by decide)]

theorem trim_of_isIdentifier (h : isIdentifier t) : trim t = t :=
  trim_of_names fun c hc ↦ by simp [isNameChar, isIdentChar_of_isIdentifier h c hc]

theorem isTargetList_of_isIdentifier (h : isIdentifier name) : isTargetList name := by
  have hcomma : ',' ∉ name := not_mem_of_isIdentifier h (by decide)
  have hpieces := pieces_append hcomma []
  rw [List.append_nil] at hpieces
  rw [isTargetList, hpieces, pieces, List.modifyHead_cons, List.append_nil, List.all_cons,
    trim_of_isIdentifier h, h]
  rfl

theorem isTargetList_cons (h : isIdentifier name) (t : Text) :
    isTargetList (name ++ (", ".toList ++ t)) = isTargetList t := by
  have hcomma : ',' ∉ name := not_mem_of_isIdentifier h (by decide)
  have hpieces : pieces ',' (", ".toList ++ t) = [] :: pieces ',' (' ' :: t) :=
    pieces_separator ',' _
  rw [isTargetList, pieces_append hcomma, hpieces, List.modifyHead_cons, List.append_nil,
    List.all_cons, trim_of_isIdentifier h, h, Bool.true_and]
  exact isTargetList_blank t

theorem cutFirst_word (h : isIdentifier name) (t : Text) :
    cutFirst " in ".toList (name ++ t) = (cutFirst " in ".toList t).map (.behind name) := by
  have hafter : ({} : Nesting).after name = {} :=
    ((plain_of_isIdentifier h).reads rfl).after_eq
  rw [cutFirst, cutFirstFrom_append, hafter, cutFirst]
  intro s₁ s₂ hsplit hne _ hword
  obtain ⟨c, u, rfl⟩ := List.exists_cons_of_ne_nil hne
  obtain ⟨rfl, -⟩ := List.cons_prefix_cons.1 hword
  have hspace : ' ' ∈ name := by
    rw [hsplit]
    exact List.mem_append_right s₁ List.mem_cons_self
  exact not_mem_of_isIdentifier h (by decide) hspace

theorem cutFirst_comma (h : ¬"in ".toList <+: t) :
    cutFirst " in ".toList (", ".toList ++ t) =
      (cutFirst " in ".toList t).map (.behind ", ".toList) := by
  have hafter : ({} : Nesting).after ", ".toList = {} := by decide
  rw [cutFirst, cutFirstFrom_append, hafter, cutFirst]
  intro s₁ s₂ hsplit hne _ hword
  rcases s₁ with - | ⟨c, - | ⟨d, s₁⟩⟩
  · cases hsplit
    exact absurd (List.cons_prefix_cons.1 hword).1 (by decide)
  · cases hsplit
    exact h (List.cons_prefix_cons.1 hword).2
  · have hs : [] = s₁ ++ s₂ := (List.cons.inj (List.cons.inj hsplit).2).2
    exact hne (List.append_eq_nil_iff.1 hs.symm).2

theorem IsLoopTarget.not_in_prefix (h : IsLoopTarget name) (ht : ∀ c ∈ t.head?, ¬isIdentChar c) :
    ¬"in ".toList <+: name ++ t := by
  rintro ⟨u, hu⟩
  have hname : (name ++ t).takeWhile isIdentChar = name := by
    rw [List.takeWhile_append_of_pos (isIdentChar_of_isIdentifier h.isIdentifier)]
    cases t with
    | nil => rw [List.takeWhile_nil, List.append_nil]
    | cons c t => rw [List.takeWhile_cons_of_neg (ht c rfl), List.append_nil]
  rw [← hu] at hname
  exact h.ne_in hname.symm

theorem IsLoopTarget.trimmed (h : IsLoopTarget name) : trim name = name ∧ name ≠ [] :=
  ⟨trim_of_isIdentifier h.isIdentifier, by rintro rfl; exact absurd h.isIdentifier (by decide)⟩

namespace IsLoopTargets

theorem isTargetList (h : IsLoopTargets t) : isTargetList t := by
  induction h with
  | name hname => exact isTargetList_of_isIdentifier hname.isIdentifier
  | more hname _ ih => rwa [isTargetList_cons hname.isIdentifier]

theorem trimmed (h : IsLoopTargets t) : trim t = t ∧ t ≠ [] := by
  induction h with
  | name hname => exact hname.trimmed
  | more hname _ ih =>
    obtain ⟨htrim, hne⟩ := hname.trimmed
    exact ⟨trim_between htrim hne ih.1 ih.2 _, List.append_ne_nil_of_left_ne_nil hne _⟩

/-- The targets end where the word `in` stands by itself. -/
theorem cutFirst (h : IsLoopTargets t) (u : Text) :
    cutFirst " in ".toList (t ++ (" in ".toList ++ u)) = some ⟨t, u⟩ := by
  suffices hcut : Text.cutFirst " in ".toList (t ++ (" in ".toList ++ u)) = some ⟨t, u⟩ ∧
      ¬"in ".toList <+: t ++ (" in ".toList ++ u) from hcut.1
  induction h with
  | name hname =>
    refine ⟨?_, hname.not_in_prefix (by rintro c ⟨⟩; decide)⟩
    rw [cutFirst_word hname.isIdentifier, cutFirst_here (by decide), Option.map_some, Cut.behind,
      List.append_nil]
  | more hname _ ih =>
    rw [List.append_assoc, List.append_assoc]
    refine ⟨?_, hname.not_in_prefix (by rintro c ⟨⟩; decide)⟩
    rw [cutFirst_word hname.isIdentifier, cutFirst_comma ih.2, ih.1]
    rfl

end IsLoopTargets

end Text

/-- A range as it is written, with a start and a step or without them. Three dots in the start, or a
caret in the step, stand inside brackets or strings only. -/
structure Shorthand where
  start : Option Text
  stop : Text
  step : Option Text
  start_isPart : ∀ t ∈ start, t.IsPart
  start_undotted : ∀ t ∈ start, Text.topOffsets Interval.rangeMark t = [] ∧ t.getLast? ≠ some '.'
  stop_isPart : stop.IsPart
  stop_unmarked : step = none → Text.topOffsets Interval.stepMark stop = []
  step_isPart : ∀ t ∈ step, t.IsPart
  step_unmarked : ∀ t ∈ step, Text.topOffsets Interval.stepMark t = []

namespace Shorthand

def tail (r : Shorthand) : Text := r.stop ++ r.step.elim [] (Interval.stepMark ++ ·)

def text (r : Shorthand) : Text := r.start.getD [] ++ (Interval.rangeMark ++ r.tail)

theorem cutFirst_text (r : Shorthand) :
    Text.cutFirst Interval.rangeMark r.text = some ⟨r.start.getD [], r.tail⟩ := by
  have hmark : Interval.rangeMark ≠ [] := by decide
  cases hstart : r.start with
  | none =>
    rw [text, hstart]
    exact Text.cutFirst_here hmark r.tail
  | some t =>
    obtain ⟨hoffsets, hlast⟩ := r.start_undotted t hstart
    have hafter : ({} : Nesting).after t = {} :=
      (Text.balanced_iff.1 (r.start_isPart t hstart).balanced).after_eq
    rw [text, hstart, Option.getD_some, Text.cutFirst, Text.cutFirstFrom_append, hafter,
      ← Text.cutFirst, Text.cutFirst_here hmark, Option.map_some, Cut.behind, List.append_nil]
    intro s₁ s₂ hsplit hne htop hdots
    obtain hinside | hacross := List.prefix_or_prefix_of_prefix hdots (List.prefix_append s₂ _)
    · exact Text.not_prefix_of_topOffsetsFrom hoffsets hsplit hne htop hinside
    · have hdot : s₂.getLast hne ∈ Interval.rangeMark := hacross.subset (List.getLast_mem hne)
      have hdot : s₂.getLast hne = '.' := by
        revert hdot
        generalize s₂.getLast hne = c
        simp [Interval.rangeMark]
      rw [hsplit, List.getLast?_append_of_ne_nil _ hne, List.getLast?_eq_some_getLast hne,
        hdot] at hlast
      exact hlast rfl

/-- What the shorthand says, with zero and one for what it leaves out. -/
theorem ofText?_text (r : Shorthand) :
    Interval.ofText? r.text = some ⟨r.start.getD ['0'], r.stop, r.step.getD ['1']⟩ := by
  have hstart : (Text.nonempty? (Text.trim (r.start.getD []))).getD ['0'] = r.start.getD ['0'] := by
    cases hstart : r.start with
    | none => rfl
    | some t => rw [Option.getD_some, (r.start_isPart t hstart).nonempty?]
  have hstop := r.stop_isPart.trimmed
  rw [Interval.ofText?, cutFirst_text, Option.map_some, hstart]
  dsimp only
  cases hstep : r.step with
  | none =>
    have hlast : Text.cutLast Interval.stepMark r.stop = none :=
      Text.cutLastFrom_eq_none (r.stop_unmarked hstep)
    rw [tail, hstep, Option.elim_none, List.append_nil, hlast, hstop]
    rfl
  | some t =>
    have hlast : Text.cutLast Interval.stepMark (r.stop ++ (Interval.stepMark ++ t)) =
        some ⟨r.stop, t⟩ :=
      Text.cutLast_append (by decide) r.stop_isPart.balanced (r.step_unmarked t hstep)
    rw [tail, hstep, Option.elim_some, hlast]
    dsimp only
    rw [hstop, (r.step_isPart t hstep).nonempty?]

theorem trim_tail (r : Shorthand) : Text.trim r.tail = r.tail := by
  have hstop := r.stop_isPart
  cases hstep : r.step with
  | none =>
    rw [tail, hstep, Option.elim_none, List.append_nil]
    exact hstop.trimmed
  | some t =>
    have hpart := r.step_isPart t hstep
    rw [tail, hstep, Option.elim_some]
    exact Text.trim_between hstop.trimmed hstop.ne_nil hpart.trimmed hpart.ne_nil _

theorem trim_text (r : Shorthand) : Text.trim r.text = r.text := by
  have htail : r.tail ≠ [] := fun h ↦ r.stop_isPart.ne_nil (List.append_eq_nil_iff.1 h).1
  cases hstart : r.start with
  | none =>
    rw [text, hstart]
    exact Text.trim_between (s := Interval.rangeMark) (by decide) (by decide) r.trim_tail htail []
  | some t =>
    have hpart := r.start_isPart t hstart
    rw [text, hstart]
    exact Text.trim_between hpart.trimmed hpart.ne_nil r.trim_tail htail _

theorem text_ne_nil (r : Shorthand) : r.text ≠ [] := fun h ↦
  absurd (List.append_eq_nil_iff.1 (List.append_eq_nil_iff.1 h).2).1 (by decide)

def loop (r : Shorthand) (targets : LoopTargets) : Text :=
  "for ".toList ++ (targets.text ++ (" in ".toList ++ (r.text ++ [blockMark])))

theorem loopParts?_loop (r : Shorthand) (targets : LoopTargets) :
    (Text.afterWord? "for".toList (r.loop targets)).bind Text.loopParts? =
      some (targets.text, r.text) := by
  have hrest : Text.afterWord? "for".toList (r.loop targets) =
      some (' ' :: (targets.text ++ ((" in ".toList ++ r.text) ++ [blockMark]))) := by
    rw [List.append_assoc]
    rfl
  obtain ⟨htargets, hne⟩ := targets.isTargets.trimmed
  have htrim := Text.trim_between htargets hne (t := [blockMark]) (by decide) (by decide)
    (" in ".toList ++ r.text)
  have hmark : Text.dropMark? (targets.text ++ ((" in ".toList ++ r.text) ++ [blockMark])) =
      some (targets.text ++ (" in ".toList ++ r.text)) := by
    rw [← List.append_assoc, Text.dropMark?, List.getLast?_concat, if_pos rfl, List.dropLast_concat]
  have hr : r.text.isEmpty = false := List.isEmpty_eq_false_iff.2 r.text_ne_nil
  rw [hrest, Option.bind_some, Text.loopParts?, Text.trim_cons_blank (by decide), htrim, hmark]
  dsimp only
  rw [targets.isTargets.cutFirst]
  dsimp only
  rw [htargets, r.trim_text, targets.isTargets.isTargetList, hr]
  rfl

theorem heading_loop (r : Shorthand) (targets : LoopTargets) :
    Heading.ofCode (r.loop targets) = .loop targets.text r.text := by
  have hloop : Heading.ofLoop? (r.loop targets) = some (.loop targets.text r.text) := by
    rw [Heading.ofLoop?, r.loopParts?_loop targets]
    rfl
  rw [Heading.ofCode, hloop]
  rfl

/-- A part of a range is read by itself. One that is left out is a numeral. -/
def readPart (s : Settings) (numeral : Text) (part : Option Text) : Except Fault Expr :=
  part.elim (.ok (.raw numeral)) fun t ↦ (Expr.ofText s .inline t).outcome

theorem outcome_ofText_getD {numeral : Text} (hgroup : Text.nextGroup numeral = none)
    (hbalanced : numeral.Balanced) (s : Settings) (part : Option Text) :
    (Expr.ofText s .inline (part.getD numeral)).outcome = readPart s numeral part := by
  cases part with
  | none =>
    exact (Expr.ofText_ok_iff_of_none (Text.callSite?_of_nextGroup hgroup)).2
      ⟨fun _ ↦ hbalanced, rfl⟩
  | some t => rfl

end Shorthand

namespace Statement

/-- The parts of a range are read from left to right, and the first that cannot be read is the one
that the line fails with. -/
theorem ofCode_shorthand (s : Settings) (targets : LoopTargets) (r : Shorthand) :
    (ofCode s (r.loop targets)).outcome = do
      let start ← Shorthand.readPart s ['0'] r.start
      let stop ← (Expr.ofText s .inline r.stop).outcome
      let step ← Shorthand.readPart s ['1'] r.step
      return .loop targets.text (.range start stop step) := by
  have hstop : r.stop.isEmpty = false := List.isEmpty_eq_false_iff.2 r.stop_isPart.ne_nil
  have hstart : (Expr.ofText s .inline (r.start.getD ['0'])).outcome = _ :=
    Shorthand.outcome_ofText_getD rfl (by decide) s r.start
  have hstep : (Expr.ofText s .inline (r.step.getD ['1'])).outcome = _ :=
    Shorthand.outcome_ofText_getD rfl (by decide) s r.step
  rw [ofCode, r.heading_loop targets]
  dsimp only
  rw [ofLoop, Logged.outcome_bind, Expr.ofInterval?, r.ofText?_text]
  dsimp only
  rw [hstop, if_neg (by decide)]
  simp only [Logged.outcome_bind, hstart, hstep, Logged.outcome_pure, bind_assoc]
  rfl

theorem ofCode_shorthand_nested : ∃ (targets : LoopTargets) (r : Shorthand),
    r.loop targets = "for i, k in xs[a...b]...len(\" in :\")^2^(f)(1 ^ 2):".toList ∧
    (ofCode {} (r.loop targets)).outcome = .ok (.loop "i, k".toList
      (.range (.raw "xs[a...b]".toList) (.raw "len(\" in :\")^2".toList)
        (.call (.ofName ['f']) [.raw "1 ^ 2".toList]))) := by
  have htarget (name : Text) (h : name ∈ ["i".toList, "k".toList]) : name.IsLoopTarget := by
    rw [List.mem_cons, List.mem_singleton] at h
    rcases h with rfl | rfl <;> exact ⟨by decide, by decide⟩
  refine ⟨⟨["i".toList, "k".toList], by decide, htarget⟩,
    { start := some "xs[a...b]".toList
      stop := "len(\" in :\")^2".toList
      step := some "(f)(1 ^ 2)".toList
      start_isPart := by rintro t ⟨⟩; exact ⟨by decide, by decide, by decide⟩
      start_undotted := by rintro t ⟨⟩; decide
      stop_isPart := ⟨by decide, by decide, by decide⟩
      stop_unmarked := by rintro ⟨⟩
      step_isPart := by rintro t ⟨⟩; exact ⟨by decide, by decide, by decide⟩
      step_unmarked := by rintro t ⟨⟩; decide }, rfl, ?_⟩
  rw [ofCode_shorthand]
  with_unfolding_all rfl

end Statement

end CallChain
