import CallChain.CallSite
import CallChain.Proofs.Groups

namespace CallChain

theorem Run.flatMap_text (rs : List Run) :
    rs.flatMap Run.text = rs.flatten.flatMap Group.text := by
  rw [List.flatten_eq_flatMap, List.flatMap_assoc]
  rfl

namespace CallSite

variable {rest : Text} {gs : List Group} {r : Run} {rs : List Run} {s site : CallSite}

theorem ofGroups?_cases (h : ofGroups? gs = some s) :
    (∃ f a, gs = [f, a] ∧ Text.isFunctionName (Text.trim f.inner) ∧
      s = ⟨f.gap, none, Text.trim f.inner, a.inner, []⟩) ∨
    ∃ t f a, gs = [t, f, a] ∧ Text.isFunctionName (Text.trim f.inner) ∧
      s = ⟨t.gap, some t.inner, Text.trim f.inner, a.inner, []⟩ := by
  rw [ofGroups?.eq_def] at h
  split at h
  · rename_i f a
    dsimp only at h
    split at h
    · cases h
      exact .inl ⟨f, a, rfl, ‹_›, rfl⟩
    · simp at h
  · rename_i t f a
    dsimp only at h
    split at h
    · cases h
      exact .inr ⟨t, f, a, rfl, ‹_›, rfl⟩
    · simp at h
  · simp at h

theorem ofGroups?_before (h : ofGroups? gs = some s) :
    ∃ g gs', gs = g :: gs' ∧ s.before = g.gap := by
  obtain ⟨f, a, rfl, -, rfl⟩ | ⟨u, f, a, rfl, -, rfl⟩ := ofGroups?_cases h
  · exact ⟨f, [a], rfl, rfl⟩
  · exact ⟨u, [f, a], rfl, rfl⟩

theorem ofRun?_cases (h : ofRun? r = some s) :
    ∃ lead call s', r = lead ++ call ∧ ofGroups? call = some s' ∧ s = s'.behind (Run.text lead) ∧
      ((lead = [] ∧ ∀ g ∈ call.head?, ¬Text.attaches g.gap) ∨
        ∃ g, lead = [g] ∧ Text.attaches g.gap) := by
  cases r with
  | nil => simp [ofRun?] at h
  | cons g gs =>
    rw [ofRun?] at h
    by_cases hg : Text.attaches g.gap
    · rw [if_pos hg] at h
      obtain ⟨s', hs, rfl⟩ := Option.map_eq_some_iff.1 h
      refine ⟨[g], gs, s', rfl, hs, ?_, .inr ⟨g, rfl, hg⟩⟩
      simp [Run.text]
    · rw [if_neg hg] at h
      refine ⟨[], g :: gs, s, rfl, h, rfl, .inl ⟨rfl, ?_⟩⟩
      intro g' hg'
      cases hg'
      exact hg

theorem ofRuns?_eq_none_iff : ofRuns? rest rs = none ↔ ∀ r ∈ rs, ofRun? r = none := by
  induction rs with
  | nil => simp [ofRuns?]
  | cons r rs ih =>
    rw [ofRuns?, List.forall_mem_cons, ← ih]
    split
    · simp_all
    · rename_i hrs
      simp [hrs]

theorem ofRuns?_cases (h : ofRuns? rest rs = some site) :
    ∃ rs₁ r rs₂ s, rs = rs₁ ++ r :: rs₂ ∧ ofRun? r = some s ∧ (∀ r' ∈ rs₂, ofRun? r' = none) ∧
      site = { s with
        before := rs₁.flatMap Run.text ++ s.before
        after := rs₂.flatMap Run.text ++ rest } := by
  induction rs generalizing site with
  | nil => simp [ofRuns?] at h
  | cons r rs ih =>
    rw [ofRuns?] at h
    split at h
    · rename_i s' hs
      cases h
      obtain ⟨rs₁, r', rs₂, s, rfl, hr, hrs, rfl⟩ := ih hs
      refine ⟨r :: rs₁, r', rs₂, s, rfl, hr, hrs, ?_⟩
      simp [behind, List.append_assoc]
    · rename_i hrs
      obtain ⟨s, hs, rfl⟩ := Option.map_eq_some_iff.1 h
      exact ⟨[], r, rs, s, rfl, hs, ofRuns?_eq_none_iff.1 hrs, rfl⟩

end CallSite

namespace Text

variable {t : Text} {site : CallSite}

theorem areRuns_outline (t : Text) : AreRuns (outline t).runs := areRuns_runs _

theorem sound_of_mem_runs {r : Run} (hr : r ∈ (outline t).runs) {g : Group} (hg : g ∈ r) :
    g.Sound := by
  refine outline_sound (t := t) ?_
  rw [← runs_flatten (outline t).groups]
  exact List.mem_flatten.2 ⟨r, hr, hg⟩

/-- A text that some of the runs of a text spell out, with a rest in which no group opens, has
just these runs. -/
theorem outline_runs {rs : List Run} {rest : Text} (hrs : AreRuns rs)
    (hs : ∀ r ∈ rs, ∀ g ∈ r, g.Sound) (hrest : nextGroup rest = none) :
    (outline (rs.flatMap Run.text ++ rest)).runs = rs ∧
      (outline (rs.flatMap Run.text ++ rest)).rest = rest := by
  have ho : outline (rs.flatMap Run.text ++ rest) = ⟨rs.flatten, rest⟩ := by
    rw [Run.flatMap_text]
    refine outline_groups ?_ hrest
    intro g hg
    obtain ⟨r, hr, hg⟩ := List.mem_flatten.1 hg
    exact hs r hr g hg
  rw [ho]
  exact ⟨hrs.runs_flatten, rfl⟩

theorem balanced_runs {rs : List Run} (h : ∀ r ∈ rs, ∀ g ∈ r, g.Sound) :
    Balanced (rs.flatMap Run.text) := by
  rw [Run.flatMap_text]
  refine balanced_groups fun g hg ↦ ?_
  obtain ⟨r, hr, hg⟩ := List.mem_flatten.1 hg
  exact h r hr g hg

theorem callSite?_of_nextGroup (h : nextGroup t = none) : callSite? t = none := by
  rw [callSite?, outline_none h]
  rfl

theorem callSite?_eq_none_of_gaps (h : ∀ g ∈ (outline t).groups.tail, ¬isBlank g.gap) :
    callSite? t = none := by
  refine CallSite.ofRuns?_eq_none_iff.2 fun r hr ↦ ?_
  rw [Outline.runs, runs_of_not_blank h] at hr
  obtain ⟨g, -, rfl⟩ := List.mem_map.1 hr
  rw [CallSite.ofRun?]
  split <;> rfl

theorem exists_gap_of_mem_tail {g : Group} (hg : g ∈ (outline t).groups.tail) :
    ∃ s u, t = s ++ (')' :: g.gap ++ '(' :: u) := by
  obtain ⟨g₀, gs, hgs⟩ : ∃ g₀ gs, (outline t).groups = g₀ :: gs := by
    cases hgs : (outline t).groups with
    | nil => simp [hgs] at hg
    | cons g₀ gs => exact ⟨g₀, gs, rfl⟩
  rw [hgs, List.tail_cons] at hg
  obtain ⟨gs₁, gs₂, rfl⟩ := List.append_of_mem hg
  obtain ⟨gs', g', hlast⟩ : ∃ gs' g', g₀ :: gs₁ = gs' ++ [g'] := by
    obtain ⟨gs', g', h⟩ := (List.eq_nil_or_concat (g₀ :: gs₁)).resolve_left nofun
    exact ⟨gs', g', h.trans List.concat_eq_append⟩
  refine ⟨gs'.flatMap Group.text ++ g'.gap ++ '(' :: g'.inner,
    g.inner ++ ')' :: (gs₂.flatMap Group.text ++ (outline t).rest), ?_⟩
  conv => lhs; rw [← outline_text t, Outline.text, hgs, ← List.cons_append, hlast]
  simp [Group.text]

theorem callSite?_cases (h : callSite? t = some site) :
    ∃ rs₁ lead call rs₂ s, (outline t).runs = rs₁ ++ (lead ++ call) :: rs₂ ∧
      CallSite.ofGroups? call = some s ∧
      ((lead = [] ∧ ∀ g ∈ call.head?, ¬attaches g.gap) ∨ ∃ g, lead = [g] ∧ attaches g.gap) ∧
      (∀ r ∈ rs₂, CallSite.ofRun? r = none) ∧
      site = { s with
        before := rs₁.flatMap Run.text ++ (Run.text lead ++ s.before)
        after := rs₂.flatMap Run.text ++ (outline t).rest } := by
  obtain ⟨rs₁, r, rs₂, s, hrs, hr, hrs₂, rfl⟩ := CallSite.ofRuns?_cases h
  obtain ⟨lead, call, s', rfl, hs', rfl, hlead⟩ := CallSite.ofRun?_cases hr
  exact ⟨rs₁, lead, call, rs₂, s', hrs, hs', hlead, hrs₂, rfl⟩

theorem callSite?_function (h : callSite? t = some site) : isFunctionName site.function := by
  obtain ⟨rs₁, lead, call, rs₂, s, -, hs, -, -, rfl⟩ := callSite?_cases h
  obtain ⟨f, a, -, hf, rfl⟩ | ⟨u, f, a, -, hf, rfl⟩ := CallSite.ofGroups?_cases hs
  · exact hf
  · exact hf

/-- The texts that are read in turn, but for the one after the call, are balanced wherever the
call was found. -/
theorem callSite?_balanced (h : callSite? t = some site) :
    Balanced site.before ∧ (∀ target ∈ site.target, Balanced target) ∧
      Balanced site.arguments := by
  obtain ⟨rs₁, lead, call, rs₂, s, hrs, hs, -, -, rfl⟩ := callSite?_cases h
  have hsound : ∀ r ∈ rs₁ ++ (lead ++ call) :: rs₂, ∀ g ∈ r, g.Sound := by
    intro r hr g hg
    rw [← hrs] at hr
    exact sound_of_mem_runs hr hg
  have hcall : ∀ g ∈ call, g.Sound := fun g hg ↦
    hsound (lead ++ call) (by simp) g (by simp [hg])
  have hrs₁ : Balanced (rs₁.flatMap Run.text) :=
    balanced_runs fun r hr ↦ hsound r (by simp [hr])
  have hlead : Balanced (Run.text lead) :=
    balanced_groups fun g hg ↦ hsound (lead ++ call) (by simp) g (by simp [hg])
  obtain ⟨f, a, rfl, -, rfl⟩ | ⟨u, f, a, rfl, -, rfl⟩ := CallSite.ofGroups?_cases hs
  · exact ⟨hrs₁.append (hlead.append (hcall f (by simp)).gap), by simp, (hcall a (by simp)).inner⟩
  · refine ⟨hrs₁.append (hlead.append (hcall u (by simp)).gap), ?_, (hcall a (by simp)).inner⟩
    intro target ht
    cases ht
    exact (hcall u (by simp)).inner

theorem callSite?_balanced_after (h : callSite? t = some site) (ht : Balanced t) :
    Balanced site.after := by
  obtain ⟨rs₁, lead, call, rs₂, s, hrs, hs, -, -, rfl⟩ := callSite?_cases h
  have hrs₂ : Balanced (rs₂.flatMap Run.text) :=
    balanced_runs fun r hr g hg ↦ sound_of_mem_runs (t := t) (by simp [hrs, hr]) hg
  exact hrs₂.append (balanced_rest ht)

theorem callSite?_after (h : callSite? t = some site) : callSite? site.after = none := by
  obtain ⟨rs₁, lead, call, rs₂, s, hrs, -, -, hnone, rfl⟩ := callSite?_cases h
  have hruns := areRuns_outline t
  rw [hrs, List.append_cons] at hruns
  obtain ⟨hrs₂, hrest⟩ := outline_runs hruns.of_append_right
    (fun r hr g hg ↦ sound_of_mem_runs (t := t) (by simp [hrs, hr]) hg) (nextGroup_rest t)
  rw [callSite?]
  dsimp only
  rw [hrs₂, hrest]
  exact CallSite.ofRuns?_eq_none_iff.2 hnone

end Text

end CallChain
