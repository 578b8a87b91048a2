import CallChain.Group
import CallChain.Proofs.Balance

namespace CallChain

namespace Text

variable {n m : Nesting} {s t u : Text} {k : Cut}

/-- The gap before the first group is read up to the top level, it has no group in it, and it leads
to the same place whatever stands behind the parenthesis. -/
theorem openGroupFrom_spec (h : openGroupFrom n t = some k) :
    n.Reads k.before {} ∧ openGroupFrom n k.before = none ∧
      ∀ u, openGroupFrom n (k.before ++ '(' :: u) = some ⟨k.before, u⟩ := by
  induction t generalizing n k with
  | nil => simp [openGroupFrom] at h
  | cons c t ih =>
    rw [openGroupFrom] at h
    split at h
    · rename_i hc
      cases h
      rw [Bool.and_eq_true, Nesting.isTop_iff] at hc
      rw [hc.1]
      exact ⟨.nil _, rfl, fun _ ↦ rfl⟩
    · rename_i hc
      split at h
      · simp at h
      · rename_i hs
        obtain ⟨k', hk, rfl⟩ := Option.map_eq_some_iff.1 h
        obtain ⟨hread, hnone, hsome⟩ := ih hk
        refine ⟨.cons hs hread, ?_, fun u ↦ ?_⟩
        · rw [Cut.cons, openGroupFrom, if_neg hc, if_neg hs, hnone]
          rfl
        · rw [Cut.cons, List.cons_append, openGroupFrom, if_neg hc, if_neg hs, hsome]
          rfl

theorem step_inside {b : Bracket} {c : Char} (hs : (m.under [b]).step c ≠ .mismatch)
    (hc : ¬(m.under [b] = .within b ∧ c = b.closing)) : m.step c ≠ .mismatch := by
  intro h
  rcases m with ⟨opened, place⟩
  cases place with
  | code =>
    cases hr : Role.of c with
    | closer b' =>
      cases opened with
      | nil =>
        obtain rfl : b = b' := by simpa [Nesting.step, hr] using hs
        have hclosing : c = b.closing := by
          rw [Role.of] at hr
          repeat' split at hr
          all_goals cases hr
          all_goals assumption
        exact hc ⟨rfl, hclosing⟩
      | cons b'' bs => simp_all [Nesting.step]
    | _ => simp [Nesting.step, hr] at h
  | _ => simp [Nesting.step] at h

theorem closeGroupFrom_reads (h : closeGroupFrom (m.under [.round]) t = some k) :
    m.Reads k.before {} := by
  induction t generalizing m k with
  | nil => simp [closeGroupFrom] at h
  | cons c t ih =>
    rw [closeGroupFrom] at h
    split at h
    · rename_i hc
      cases h
      have hm : m = {} := by
        rcases m with ⟨_ | ⟨b, bs⟩, place⟩ <;> simp_all [Nesting.under, Nesting.within]
      rw [hm]
      exact .nil _
    · rename_i hc
      split at h
      · simp at h
      · rename_i hs
        obtain ⟨k', hk, rfl⟩ := Option.map_eq_some_iff.1 h
        have hm := step_inside hs (by simpa [Bracket.closing] using hc)
        rw [Nesting.next_under hm] at hk
        exact .cons hm (ih hk)

theorem closeGroupFrom_append (h : m.Reads s {}) (u : Text) :
    closeGroupFrom (m.under [.round]) (s ++ ')' :: u) = some ⟨s, u⟩ := by
  induction s generalizing m with
  | nil =>
    cases h
    rfl
  | cons c s ih =>
    cases h with
    | cons hs h =>
      have hc : ¬((m.under [.round] = .within .round) && c = ')') := by
        rintro hc
        simp only [Bool.and_eq_true, decide_eq_true_eq] at hc
        have hm : m = {} := by
          rcases m with ⟨_ | ⟨b, bs⟩, place⟩ <;> simp_all [Nesting.under, Nesting.within]
        rw [hm, hc.2] at hs
        exact hs rfl
      rw [List.cons_append, closeGroupFrom, if_neg hc, if_neg (by rwa [Nesting.step_under hs]),
        Nesting.next_under hs, ih h]
      rfl

theorem closeGroup_balanced (h : closeGroup t = some k) : Balanced k.before :=
  balanced_iff.2 (closeGroupFrom_reads (m := {}) h)

theorem closeGroup_append (h : Balanced s) (u : Text) :
    closeGroup (s ++ ')' :: u) = some ⟨s, u⟩ :=
  closeGroupFrom_append (m := {}) (balanced_iff.1 h) u

end Text

/-- What a text needs to have the group in it: a balanced gap that no group opens in, and
balanced text inside. -/
structure Group.Sound (g : Group) : Prop where
  gap : Text.Balanced g.gap
  inner : Text.Balanced g.inner
  opens : ∀ t, Text.openGroup (g.gap ++ '(' :: t) = some ⟨g.gap, t⟩
  closed : Text.openGroup g.gap = none

namespace Group

theorem sound_of_gap_nil {inner : Text} (h : Text.Balanced inner) : Sound ⟨[], inner⟩ :=
  ⟨rfl, h, fun _ ↦ rfl, rfl⟩

namespace Sound

variable {g : Group}

theorem nextGroup (h : g.Sound) (t : Text) : Text.nextGroup (g.text ++ t) = some (g, t) := by
  have ht : g.text ++ t = g.gap ++ '(' :: (g.inner ++ ')' :: t) := by simp [Group.text]
  rw [ht, Text.nextGroup, h.opens]
  dsimp only
  rw [Text.closeGroup_append h.inner]

theorem balanced (h : g.Sound) : Text.Balanced g.text := by
  have ht : g.text = g.gap ++ ('(' :: g.inner ++ [')']) := by simp [Group.text]
  rw [ht]
  exact h.gap.append (h.inner.enclosed .round)

end Sound

end Group

namespace Text

theorem nextGroup_sound {t after : Text} {g : Group} (h : nextGroup t = some (g, after)) :
    g.Sound := by
  rw [nextGroup] at h
  split at h
  · simp at h
  · rename_i gap hgap
    split at h
    · simp at h
    · rename_i inner hinner
      cases h
      obtain ⟨hread, hnone, hsome⟩ := openGroupFrom_spec hgap
      exact ⟨balanced_iff.2 hread, closeGroup_balanced hinner, hsome, hnone⟩

theorem nextGroup_eq_none {t : Text} (h : openGroup t = none) : nextGroup t = none := by
  rw [nextGroup, h]

theorem outline_sound {t : Text} {g : Group} (h : g ∈ (outline t).groups) : g.Sound := by
  match ht : nextGroup t with
  | none => simp [outline_none ht] at h
  | some (g', after) =>
    have := length_nextGroup_lt ht
    rw [outline_some ht] at h
    rcases List.mem_cons.1 h with rfl | h
    · exact nextGroup_sound ht
    · exact outline_sound h
termination_by t.length

theorem nextGroup_rest (t : Text) : nextGroup (outline t).rest = none := by
  match ht : nextGroup t with
  | none => rwa [outline_none ht]
  | some (g, after) =>
    have := length_nextGroup_lt ht
    rw [outline_some ht]
    exact nextGroup_rest after
termination_by t.length

/-- Groups that are sound by themselves are the groups of the text they spell out. -/
theorem outline_groups {gs : List Group} {rest : Text} (hgs : ∀ g ∈ gs, g.Sound)
    (hrest : nextGroup rest = none) : outline (gs.flatMap Group.text ++ rest) = ⟨gs, rest⟩ := by
  induction gs with
  | nil => simpa using outline_none hrest
  | cons g gs ih =>
    have hg := (hgs g (by simp)).nextGroup (gs.flatMap Group.text ++ rest)
    rw [List.flatMap_cons, List.append_assoc, outline_some hg,
      ih fun g' hg' ↦ hgs g' (by simp [hg'])]

theorem balanced_groups {gs : List Group} (h : ∀ g ∈ gs, g.Sound) :
    Balanced (gs.flatMap Group.text) := by
  rw [List.flatMap_def]
  refine .flatten fun t ht ↦ ?_
  obtain ⟨g, hg, rfl⟩ := List.mem_map.1 ht
  exact (h g hg).balanced

theorem balanced_rest {t : Text} (h : Balanced t) : Balanced (outline t).rest := by
  rw [← outline_text t, Outline.text] at h
  exact (balanced_append_iff (balanced_groups fun _ ↦ outline_sound)).1 h

end Text

theorem exists_runs_cons (g : Group) (gs : List Group) :
    ∃ r rs, runs (g :: gs) = (g :: r) :: rs := by
  rw [runs]
  split
  · exact ⟨[], [], rfl⟩
  · split
    · exact ⟨_, _, rfl⟩
    · exact ⟨[], _, rfl⟩

theorem runs_of_blank (g : Group) {gs : List Group} (h : ∀ g' ∈ gs, Text.isBlank g'.gap) :
    runs (g :: gs) = [g :: gs] := by
  induction gs generalizing g with
  | nil => rfl
  | cons g' gs ih =>
    rw [runs, ih g' fun x hx ↦ h x (by simp [hx])]
    simp [h g' (by simp)]

theorem runs_cons_of_blank {g g' : Group} {gs : List Group} {r : Run} {rs : List Run}
    (h : runs gs = (g' :: r) :: rs) (hg : Text.isBlank g'.gap) :
    runs (g :: gs) = (g :: g' :: r) :: rs := by
  rw [runs, h]
  exact if_pos hg

theorem runs_cons_of_not_blank {g g' : Group} {gs : List Group} {r : Run} {rs : List Run}
    (h : runs gs = (g' :: r) :: rs) (hg : ¬Text.isBlank g'.gap) :
    runs (g :: gs) = [g] :: (g' :: r) :: rs := by
  rw [runs, h]
  exact if_neg hg

theorem runs_of_not_blank {gs : List Group} (h : ∀ g ∈ gs.tail, ¬Text.isBlank g.gap) :
    runs gs = gs.map fun g ↦ [g] := by
  induction gs with
  | nil => rfl
  | cons g gs ih =>
    cases gs with
    | nil => rfl
    | cons g' gs =>
      have ih := ih fun g hg ↦ h g (List.mem_of_mem_tail hg)
      rw [runs_cons_of_not_blank ih (h g' (by simp))]
      rfl

theorem runs_append (gs : List Group) {g : Group} (gs' : List Group) (h : ¬Text.isBlank g.gap) :
    runs (gs ++ g :: gs') = runs gs ++ runs (g :: gs') := by
  induction gs with
  | nil => rfl
  | cons a gs ih =>
    cases gs with
    | nil =>
      obtain ⟨r, rs, hr⟩ := exists_runs_cons g gs'
      rw [List.singleton_append, runs_cons_of_not_blank hr h, hr]
      rfl
    | cons b gs =>
      obtain ⟨r, rs, hr⟩ := exists_runs_cons b gs
      rw [hr] at ih
      by_cases hb : Text.isBlank b.gap
      · rw [List.cons_append, runs_cons_of_blank ih hb, runs_cons_of_blank hr hb]
        rfl
      · rw [List.cons_append, runs_cons_of_not_blank ih hb, runs_cons_of_not_blank hr hb]
        rfl

/-- Runs with blank gaps inside them and other gaps between them. -/
structure AreRuns (rs : List Run) : Prop where
  ne_nil : ∀ r ∈ rs, r ≠ []
  joined : ∀ r ∈ rs, ∀ g ∈ r.tail, Text.isBlank g.gap
  apart : ∀ r ∈ rs.tail, ∀ g ∈ r.head?, ¬Text.isBlank g.gap

namespace AreRuns

variable {r : Run} {rs rs' : List Run}

theorem of_append_left (h : AreRuns (rs ++ rs')) : AreRuns rs where
  ne_nil r hr := h.ne_nil r (by simp [hr])
  joined r hr := h.joined r (by simp [hr])
  apart r hr := by
    refine h.apart r ?_
    cases rs with
    | nil => simp at hr
    | cons _ _ => simpa using Or.inl hr

theorem of_append_right (h : AreRuns (rs ++ rs')) : AreRuns rs' where
  ne_nil r hr := h.ne_nil r (by simp [hr])
  joined r hr := h.joined r (by simp [hr])
  apart r hr := by
    refine h.apart r ?_
    cases rs with
    | nil => exact hr
    | cons _ _ => simpa using Or.inr (List.mem_of_mem_tail hr)

theorem runs_flatten (h : AreRuns rs) : runs rs.flatten = rs := by
  induction rs with
  | nil => rfl
  | cons r rs ih =>
    have hrs := ih (show AreRuns ([r] ++ rs) from h).of_append_right
    obtain ⟨g, gs, rfl⟩ := List.exists_cons_of_ne_nil (h.ne_nil r (by simp))
    have hr : runs (g :: gs) = [g :: gs] := runs_of_blank g (h.joined (g :: gs) (by simp))
    cases rs with
    | nil => simpa using hr
    | cons r' rs =>
      obtain ⟨g', gs', rfl⟩ := List.exists_cons_of_ne_nil (h.ne_nil r' (by simp))
      have hg' : ¬Text.isBlank g'.gap := h.apart (g' :: gs') (by simp) g' rfl
      have hflat : ((g :: gs) :: (g' :: gs') :: rs).flatten =
          (g :: gs) ++ g' :: (gs' ++ rs.flatten) := by simp
      rw [List.flatten_cons, List.cons_append] at hrs
      rw [hflat, runs_append _ _ hg', hr, hrs]
      rfl

end AreRuns

theorem areRuns_runs (gs : List Group) : AreRuns (runs gs) := by
  induction gs with
  | nil => exact ⟨by simp [runs], by simp [runs], by simp [runs]⟩
  | cons g gs ih =>
    cases gs with
    | nil => exact ⟨by simp [runs], by simp [runs], by simp [runs]⟩
    | cons g' gs =>
      obtain ⟨r, rs, hr⟩ := exists_runs_cons g' gs
      rw [hr] at ih
      obtain ⟨hne, hnes⟩ := List.forall_mem_cons.1 ih.ne_nil
      obtain ⟨hj, hjs⟩ := List.forall_mem_cons.1 ih.joined
      by_cases hb : Text.isBlank g'.gap
      · rw [runs_cons_of_blank hr hb]
        exact ⟨List.forall_mem_cons.2 ⟨by simp, hnes⟩,
          List.forall_mem_cons.2 ⟨List.forall_mem_cons.2 ⟨hb, hj⟩, hjs⟩, ih.apart⟩
      · rw [runs_cons_of_not_blank hr hb]
        refine ⟨List.forall_mem_cons.2 ⟨by simp, ih.ne_nil⟩,
          List.forall_mem_cons.2 ⟨by simp, ih.joined⟩, List.forall_mem_cons.2 ⟨?_, ih.apart⟩⟩
        intro a ha
        cases ha
        exact hb

end CallChain
