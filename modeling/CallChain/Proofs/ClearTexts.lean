import CallChain.Proofs.PythonBalance

namespace CallChain

namespace Nesting

variable {n m : Nesting} {c : Char}

theorem place_next (h : n.place = m.place) (c : Char) : (n.next c).place = (m.next c).place := by
  rw [next, next, ← h]
  cases hp : n.place with
  | code =>
    cases hr : Role.of c with
    | closer b =>
      dsimp only
      split <;> split <;> simp [← h, hp]
    | _ => simp [← h, hp]
  | literal q =>
    dsimp only
    split
    · rfl
    · split <;> simp [← h, hp]
  | escape q => rfl

theorem inString_next_plain (hc : Role.of c = .plain) : (n.next c).inString = n.inString := by
  rcases n with ⟨opened, _ | q | q⟩
  · rw [next_plain rfl hc]
  · have hq : c ≠ q.mark := by
      rintro rfl
      simp at hc
    by_cases hb : c = '\\'
    · simp only [next, hb, if_true]
      rfl
    · simp only [next, hb, hq, if_false]
  · rfl

end Nesting

theorem Text.Plain.inString_after {t : Text} (h : Plain t) (n : Nesting) :
    (n.after t).inString = n.inString := by
  induction t generalizing n with
  | nil => rfl
  | cons c t ih =>
    rw [Nesting.after_cons, ih fun d hd ↦ h d (by simp [hd]),
      Nesting.inString_next_plain (h c (by simp))]

namespace Text

variable {n m : Nesting} {s t : Text}

theorem cutCommentFrom_cons {c : Char} (h : ¬(c = '#' && !n.inString)) :
    cutCommentFrom n (c :: t) =
      (c :: (cutCommentFrom (n.next c) t).1, (cutCommentFrom (n.next c) t).2) := by
  rw [cutCommentFrom, if_neg h]

theorem cutCommentFrom_congr (h : n.place = m.place) (t : Text) :
    cutCommentFrom n t = cutCommentFrom m t := by
  induction t generalizing n m with
  | nil => rfl
  | cons c t ih =>
    have hstr : n.inString = m.inString := by rw [Nesting.inString, Nesting.inString, h]
    by_cases hc : c = '#' && !n.inString
    · rw [cutCommentFrom, cutCommentFrom, if_pos hc, if_pos (by rwa [← hstr])]
    · rw [cutCommentFrom_cons hc, cutCommentFrom_cons (by rwa [← hstr]),
        ih (Nesting.place_next h c)]

theorem cutCommentFrom_append (h : (cutCommentFrom n s).2 = none) (t : Text) :
    cutCommentFrom n (s ++ t) =
      (s ++ (cutCommentFrom (n.after s) t).1, (cutCommentFrom (n.after s) t).2) := by
  induction s generalizing n with
  | nil => rfl
  | cons c s ih =>
    by_cases hc : c = '#' && !n.inString
    · rw [cutCommentFrom, if_pos hc] at h
      simp at h
    · rw [cutCommentFrom_cons hc] at h
      rw [List.cons_append, cutCommentFrom_cons hc, ih h]
      rfl

theorem cutCommentFrom_of_append (h : (cutCommentFrom n (s ++ t)).2 = none) :
    (cutCommentFrom n s).2 = none := by
  induction s generalizing n with
  | nil => rfl
  | cons c s ih =>
    by_cases hc : c = '#' && !n.inString
    · rw [List.cons_append, cutCommentFrom, if_pos hc] at h
      simp at h
    · rw [List.cons_append, cutCommentFrom_cons hc] at h
      rw [cutCommentFrom_cons hc]
      exact ih h

theorem cutCommentFrom_of_not_mem (h : '#' ∉ t) (n : Nesting) : (cutCommentFrom n t).2 = none := by
  induction t generalizing n with
  | nil => rfl
  | cons c t ih =>
    have hc : c ≠ '#' := by
      rintro rfl
      simp at h
    rw [cutCommentFrom_cons (by simp [hc])]
    exact ih (fun hmem ↦ h (by simp [hmem])) _

/-- What is cut off starts with a `#` outside string literals, the first one. -/
theorem cutCommentFrom_spec (n : Nesting) (t : Text) :
    (cutCommentFrom n (cutCommentFrom n t).1).2 = none ∧
      ∀ comment ∈ (cutCommentFrom n t).2, comment.head? = some '#' ∧
        (n.after (cutCommentFrom n t).1).inString = false := by
  induction t generalizing n with
  | nil => simp [cutCommentFrom]
  | cons c t ih =>
    by_cases hc : c = '#' && !n.inString
    · rw [cutCommentFrom, if_pos hc]
      refine ⟨rfl, ?_⟩
      intro comment hcomment
      cases hcomment
      simp_all
    · obtain ⟨hcode, hcomment⟩ := ih (n.next c)
      rw [cutCommentFrom_cons hc]
      refine ⟨?_, hcomment⟩
      rw [cutCommentFrom_cons hc]
      exact hcode

theorem cutComment_eq_of_none (h : (cutComment t).2 = none) : cutComment t = (t, none) := by
  have happend := cutCommentFrom_append h []
  rw [List.append_nil] at happend
  rw [cutComment, happend]
  simp [cutCommentFrom]

/-- Nothing is wrong with the brackets and quotes of the text, and no comment starts in it. -/
def Clear (t : Text) : Prop := Balanced t ∧ (cutComment t).2 = none

instance (t : Text) : Decidable (Clear t) :=
  inferInstanceAs (Decidable (_ ∧ _))

theorem clear_append_iff (hs : Balanced s) : Clear (s ++ t) ↔ Clear s ∧ Clear t := by
  have hafter : ({} : Nesting).after s = {} := (balanced_iff.1 hs).after_eq
  rw [Clear, balanced_append_iff hs]
  constructor
  · rintro ⟨ht, hc⟩
    have hs' : (cutComment s).2 = none := cutCommentFrom_of_append hc
    rw [cutComment, cutCommentFrom_append hs', hafter] at hc
    exact ⟨⟨hs, hs'⟩, ht, hc⟩
  · rintro ⟨⟨-, hs'⟩, ht, hc⟩
    refine ⟨ht, ?_⟩
    rw [cutComment, cutCommentFrom_append hs', hafter]
    exact hc

theorem Plain.clear (h : Plain t) (hhash : '#' ∉ t) : Clear t :=
  ⟨h.balanced, cutCommentFrom_of_not_mem hhash {}⟩

theorem clear_enclosed (h : Balanced t) : Clear ('(' :: t ++ [')']) ↔ Clear t := by
  have hopen : (cutComment ('(' :: t ++ [')'])).2 = (cutComment (t ++ [')'])).2 := by
    have hplace := cutCommentFrom_congr (n := ({} : Nesting).next '(') (m := {}) rfl (t ++ [')'])
    rw [cutComment, List.cons_append, cutCommentFrom_cons (by decide), hplace]
    rfl
  rw [Clear, Clear, hopen]
  constructor
  · rintro ⟨-, hc⟩
    exact ⟨h, cutCommentFrom_of_append hc⟩
  · rintro ⟨-, hc⟩
    refine ⟨h.enclosed .round, ?_⟩
    rw [cutComment, cutCommentFrom_append hc, (balanced_iff.1 h).after_eq]
    rfl

theorem plain_trimmed (t : Text) :
    Plain (t.takeWhile CallChain.isBlank) ∧
      Plain (t.reverse.takeWhile CallChain.isBlank).reverse := by
  refine ⟨plain_of_isBlank List.all_takeWhile, plain_of_isBlank ?_⟩
  rw [isBlank, List.all_reverse]
  exact List.all_takeWhile

theorem cutComment_trim (h : (cutComment t).2 = none) : (cutComment (trim t)).2 = none := by
  have hsplit : t.takeWhile CallChain.isBlank ++ trimStart t = t := List.takeWhile_append_dropWhile
  rw [← hsplit, cutComment] at h
  rw [cutCommentFrom_append (cutCommentFrom_of_append h),
    ((plain_trimmed t).1.reads rfl).after_eq, ← trimEnd_append (trimStart t)] at h
  exact cutCommentFrom_of_append h

theorem inString_trim (t : Text) :
    (({} : Nesting).after (trim t)).inString = (({} : Nesting).after t).inString := by
  have hsplit : t.takeWhile CallChain.isBlank ++ trimStart t = t := List.takeWhile_append_dropWhile
  conv => rhs; rw [← hsplit, Nesting.after_append, ((plain_trimmed t).1.reads rfl).after_eq,
    ← trimEnd_append (trimStart t), Nesting.after_append, (plain_trimmed _).2.inString_after]
  rfl

theorem clear_trim (h : Clear t) : Clear (trim t) :=
  ⟨balanced_trim.2 h.1, cutComment_trim h.2⟩

/-- Every group of a clear text is clear, in its gap and inside. -/
theorem clear_groups_iff {gs : List Group} (h : ∀ g ∈ gs, g.Sound) :
    Clear (gs.flatMap Group.text) ↔ ∀ g ∈ gs, Clear g.gap ∧ Clear g.inner := by
  induction gs with
  | nil => simp [Clear, Balanced, cutComment, cutCommentFrom, imbalance?, imbalanceFrom,
      Nesting.imbalance?]
  | cons g gs ih =>
    have hg := h g (by simp)
    have htext : g.text = g.gap ++ ('(' :: g.inner ++ [')']) := by simp [Group.text]
    rw [List.flatMap_cons, clear_append_iff hg.balanced, ih fun g' hg' ↦ h g' (by simp [hg']),
      List.forall_mem_cons, htext, clear_append_iff hg.gap, clear_enclosed hg.inner]

theorem clear_outline (h : Clear t) :
    (∀ g ∈ (outline t).groups, Clear g.gap ∧ Clear g.inner) ∧ Clear (outline t).rest := by
  have hsound : ∀ g ∈ (outline t).groups, g.Sound := fun g ↦ outline_sound
  rw [← outline_text t, Outline.text, clear_append_iff (balanced_groups hsound),
    clear_groups_iff hsound] at h
  exact h

theorem clear_intercalate {separator : Text} {ts : List Text} (hs : Clear separator)
    (hts : ∀ t ∈ ts, Balanced t) : Clear (separator.intercalate ts) ↔ ∀ t ∈ ts, Clear t := by
  induction ts with
  | nil =>
    have hnil : Clear [] := by decide
    simpa [List.intercalate] using hnil
  | cons t ts ih =>
    have ht := hts t (by simp)
    cases ts with
    | nil => simp [List.intercalate]
    | cons u us =>
      rw [List.intercalate_cons_cons, clear_append_iff (ht.append hs.1), clear_append_iff ht,
        ih fun v hv ↦ hts v (by simp [hv]), List.forall_mem_cons]
      simp [hs]

theorem arguments_clear (h : Clear t) : ∀ a ∈ arguments t, Clear a := by
  intro a ha
  obtain ⟨u, hu, rfl⟩ := List.mem_map.1 (List.mem_filter.1 ha).1
  have hall : ∀ u ∈ segments ',' t, Balanced u := segments_balanced (by decide) h.1
  rw [← segmentsFrom_intercalate ',' {} t] at h
  exact clear_trim ((clear_intercalate (by decide) hall).1 h u hu)

theorem clear_run (ht : Clear t) {gs : List Group} (h : ∀ g ∈ gs, g ∈ (outline t).groups) :
    Clear (Run.text gs) :=
  (clear_groups_iff fun g hg ↦ outline_sound (h g hg)).2 fun g hg ↦
    (clear_outline ht).1 g (h g hg)

theorem clear_runs (ht : Clear t) {rs : List Run}
    (h : ∀ r ∈ rs, ∀ g ∈ r, g ∈ (outline t).groups) : Clear (rs.flatMap Run.text) := by
  rw [Run.flatMap_text]
  refine clear_run ht fun g hg ↦ ?_
  obtain ⟨r, hr, hg⟩ := List.mem_flatten.1 hg
  exact h r hr g hg

theorem callSite?_clear {site : CallSite} (h : callSite? t = some site) (ht : Clear t) :
    Clear site.before ∧ (∀ target ∈ site.target, Clear target) ∧ Clear site.arguments ∧
      Clear site.after := by
  obtain ⟨rs₁, lead, call, rs₂, s, hrs, hs, -, -, rfl⟩ := callSite?_cases h
  have hmem : ∀ r ∈ rs₁ ++ (lead ++ call) :: rs₂, ∀ g ∈ r, g ∈ (outline t).groups := by
    intro r hr g hg
    rw [← hrs] at hr
    rw [← runs_flatten (outline t).groups]
    exact List.mem_flatten.2 ⟨r, hr, hg⟩
  have hrs₁ : Clear (rs₁.flatMap Run.text) :=
    clear_runs ht fun r hr ↦ hmem r (by simp [hr])
  have hrs₂ : Clear (rs₂.flatMap Run.text) :=
    clear_runs ht fun r hr ↦ hmem r (by simp [hr])
  have hlead : Clear (Run.text lead) :=
    clear_run ht fun g hg ↦ hmem (lead ++ call) (by simp) g (by simp [hg])
  have hcall : ∀ g ∈ call, Clear g.gap ∧ Clear g.inner := fun g hg ↦
    (clear_outline ht).1 g (hmem (lead ++ call) (by simp) g (by simp [hg]))
  have hbefore : ∀ {gap}, Clear gap → Clear (rs₁.flatMap Run.text ++ (Run.text lead ++ gap)) :=
    fun hgap ↦ (clear_append_iff hrs₁.1).2 ⟨hrs₁, (clear_append_iff hlead.1).2 ⟨hlead, hgap⟩⟩
  have hafter : Clear (rs₂.flatMap Run.text ++ (outline t).rest) :=
    (clear_append_iff hrs₂.1).2 ⟨hrs₂, (clear_outline ht).2⟩
  obtain ⟨f, a, rfl, -, rfl⟩ | ⟨u, f, a, rfl, -, rfl⟩ := CallSite.ofGroups?_cases hs
  · exact ⟨hbefore (hcall f (by simp)).1, by simp, (hcall a (by simp)).2, hafter⟩
  · refine ⟨hbefore (hcall u (by simp)).1, ?_, (hcall a (by simp)).2, hafter⟩
    intro target htarget
    cases htarget
    exact (hcall u (by simp)).2

end Text

namespace Template

theorem fill_uncommented {template : Template} {n : Nesting} {arguments : List Text}
    (holes : template.holesInCode n)
    (htexts : ∀ t, .text t ∈ template → '#' ∉ t) (hargs : ∀ a ∈ arguments, Text.Clear a) :
    (Text.cutCommentFrom n (template.fill arguments)).2 = none := by
  have hclear : ∀ {t n}, Text.Clear t → n.place = .code →
      (Text.cutCommentFrom n t).2 = none ∧ n.after t = n := by
    intro t n ht hn
    rw [Text.cutCommentFrom_congr (m := {}) hn]
    exact ⟨ht.2, (ht.1.reads hn).after_eq⟩
  induction template generalizing n with
  | nil => rfl
  | cons p ps ih =>
    have hps : ∀ t, .text t ∈ ps → '#' ∉ t := fun t ht ↦ htexts t (by simp [ht])
    rw [fill, List.flatMap_cons]
    cases p with
    | text t =>
      have ht := Text.cutCommentFrom_of_not_mem (htexts t (by simp)) n
      rw [Piece.fill, Text.cutCommentFrom_append ht]
      exact ih holes hps
    | hole i =>
      rw [holesInCode, Bool.and_eq_true, decide_eq_true_eq] at holes
      have harg : Text.Clear (Piece.fill arguments (.hole i)) := by
        rw [Piece.fill]
        cases ha : arguments[i]? with
        | none => decide
        | some a => exact hargs a (List.mem_of_getElem? ha)
      obtain ⟨hnone, hback⟩ := hclear harg holes.1
      rw [Text.cutCommentFrom_append hnone, hback]
      exact ih holes.2 hps
    | all =>
      rw [holesInCode, Bool.and_eq_true, decide_eq_true_eq] at holes
      have harg : Text.Clear (Piece.fill arguments .all) :=
        (Text.clear_intercalate (by decide) fun a ha ↦ (hargs a ha).1).2 hargs
      obtain ⟨hnone, hback⟩ := hclear harg holes.1
      rw [Text.cutCommentFrom_append hnone, hback]
      exact ih holes.2 hps

end Template

namespace Builtin

theorem table_uncommented : ∀ b ∈ table, ∀ p ∈ b.template, ∀ t, p = .text t → '#' ∉ t := by
  have hall : table.all fun b ↦ b.template.all fun p ↦ !('#' ∈ p.written) := by decide +kernel
  intro b hb p hp t ht
  have hno := List.all_eq_true.1 (List.all_eq_true.1 hall b hb) p hp
  rw [ht, Piece.written, Bool.not_eq_true'] at hno
  exact of_decide_eq_false hno

theorem table_defaults_clear : ∀ b ∈ table, ∀ p ∈ b.signature.params, ∀ t ∈ p.default,
    Text.Clear t := by decide +kernel

end Builtin

namespace Text

theorem inherited_clear : Inherited Clear where
  site {t site} h ht := by
    obtain ⟨hbefore, htarget, harguments, hafter⟩ := callSite?_clear h ht
    refine ⟨hbefore, ?_, arguments_clear harguments, hafter⟩
    intro u hu
    obtain ⟨target, hsome, hu⟩ := Option.bind_eq_some_iff.1 hu
    obtain ⟨rfl, -⟩ := nonempty?_eq_some_iff.1 hu
    exact clear_trim (htarget target hsome)
  default := Callee.defaultAt_holds (by decide) Builtin.table_defaults_clear

theorem written_clear : Written Clear where
  append hs ht := (clear_append_iff hs.1).2 ⟨hs, ht⟩
  plain ht hhash _ := ht.clear hhash
  enclosed ht := (clear_enclosed ht.1).2 ht
  template {b ts} hb h := by
    have hbalanced := written_balanced.template hb fun t ht ↦ (h t ht).1
    have holes := (Builtin.table_templates b hb).1
    have htexts : ∀ t, .text t ∈ b.template → '#' ∉ t := fun t ht ↦
      Builtin.table_uncommented b hb _ ht t rfl
    exact ⟨hbalanced, Template.fill_uncommented holes htexts h⟩

end Text

theorem Expr.ofText_clear {s : Settings} {mode : BindMode} {text : Text} {e : Expr}
    (ht : Text.Clear text) (h : (ofText s mode text).outcome = .ok e) : e.MadeOf Text.Clear :=
  ofText_madeOf Text.inherited_clear (by decide) ht h

end CallChain
