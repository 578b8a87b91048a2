import CallChain.Proofs.Infixes
import CallChain.Proofs.Spans

namespace CallChain

/-- The texts that are read in turn where a text has the call: what is before it, its target, its
arguments and what is after it. -/
def CallSite.texts (site : CallSite) : List Text :=
  (Text.nonempty? site.before).toList ++ site.leading?.toList ++ Text.arguments site.arguments ++
    (Text.nonempty? site.after).toList

namespace Text

variable {t u : Text} {site : CallSite}

/-- The first text is read in turn where the second one is read. -/
def ReadWithin (u t : Text) : Prop := ∃ site, callSite? t = some site ∧ u ∈ site.texts

theorem bytes_lt_of_isInfix (h : u <:+: t) (hlength : u.length < t.length) : bytes u < bytes t := by
  obtain ⟨before, after, rfl⟩ := h
  simp only [List.length_append] at hlength
  rw [bytes_append, bytes_append]
  by_cases hbefore : before = []
  · have hafter : after ≠ [] := by
      rintro rfl
      simp [hbefore] at hlength
    have := bytes_pos hafter
    omega
  · have := bytes_pos hbefore
    omega

theorem ReadWithin.isInfix (h : ReadWithin u t) : u <:+: t := by
  obtain ⟨site, hsite, hu⟩ := h
  obtain ⟨hbefore, htarget, harguments, hafter⟩ := callSite?_isInfix hsite
  simp only [CallSite.texts, List.mem_append, Option.mem_toList, nonempty?_eq_some_iff] at hu
  obtain ((⟨rfl, -⟩ | hu) | hu) | ⟨rfl, -⟩ := hu
  · exact hbefore
  · exact htarget u hu
  · exact harguments u hu
  · exact hafter

theorem ReadWithin.length_lt (h : ReadWithin u t) : u.length < t.length := by
  obtain ⟨site, hsite, hu⟩ := h
  have hsize := callSite?_size hsite
  rw [CallSite.size] at hsize
  simp only [CallSite.texts, List.mem_append, Option.mem_toList, nonempty?_eq_some_iff] at hu
  obtain ((⟨rfl, -⟩ | hu) | hu) | ⟨rfl, -⟩ := hu
  · omega
  · have := CallSite.length_leading?_le hu
    omega
  · have := length_le_of_mem_arguments hu
    omega
  · omega

theorem ReadWithin.bytes_lt (h : ReadWithin u t) : bytes u < bytes t :=
  bytes_lt_of_isInfix h.isInfix h.length_lt

theorem wellFounded_readWithin : WellFounded ReadWithin :=
  Subrelation.wf ReadWithin.bytes_lt (measure bytes).wf

theorem callSite?_groups (h : callSite? t = some site) :
    ∃ call, 2 ≤ call.length ∧
      (outline t).groups = (outline site.before).groups ++ call ++ (outline site.after).groups := by
  obtain ⟨rs₁, lead, call, rs₂, s, hrs, hs, -, -, rfl⟩ := callSite?_cases h
  have hgroups : (outline t).groups = rs₁.flatten ++ lead ++ call ++ rs₂.flatten := by
    rw [← runs_flatten (outline t).groups, ← Outline.runs, hrs]
    simp
  have hsound : ∀ g ∈ rs₁.flatten ++ lead ++ call ++ rs₂.flatten, g.Sound := by
    rw [← hgroups]
    exact fun _ ↦ outline_sound
  obtain ⟨g, gs, rfl, hgap⟩ := CallSite.ofGroups?_before hs
  have hlength : 2 ≤ (g :: gs).length := by
    obtain ⟨f, a, hcall, -⟩ | ⟨u, f, a, hcall, -⟩ := CallSite.ofGroups?_cases hs <;> simp [hcall]
  have hbefore : outline (rs₁.flatMap Run.text ++ (Run.text lead ++ s.before)) =
      ⟨rs₁.flatten ++ lead, g.gap⟩ := by
    have hg : nextGroup g.gap = none := nextGroup_eq_none (hsound g (by simp)).closed
    rw [hgap, Run.flatMap_text, ← List.append_assoc, Run.text, ← List.flatMap_append]
    exact outline_groups
      (fun a ha ↦ hsound a (List.mem_append_left _ (List.mem_append_left _ ha))) hg
  have hafter : outline (rs₂.flatMap Run.text ++ (outline t).rest) =
      ⟨rs₂.flatten, (outline t).rest⟩ := by
    rw [Run.flatMap_text]
    exact outline_groups (fun a ha ↦ hsound a (List.mem_append_right _ ha)) (nextGroup_rest t)
  refine ⟨g :: gs, hlength, ?_⟩
  rw [hgroups, hbefore, hafter]

theorem spans_length_lt (h : callSite? t = some site) :
    (outline site.before).spans.length < (outline t).spans.length ∧
      (outline site.after).spans.length < (outline t).spans.length := by
  obtain ⟨call, hcall, hgroups⟩ := callSite?_groups h
  simp only [Outline.spans, length_spansFrom, hgroups, List.length_append]
  omega

end Text

namespace Expr

variable {s : Settings}

/-- One step of reading a text. The texts it is read by are left to `read`. -/
def readWith (s : Settings) (read : BindMode → Text → Logged Fault Expr) (mode : BindMode)
    (text : Text) : Logged Fault Expr := do
  s.requireBalance text .brackets
  match Text.callSite? text with
  | none => leave text
  | some site =>
    .event (.classified site.shape)
    let leading ← site.leading?.mapM fun t ↦ Argument.mk t <$> read .inline t
    s.requireBalance site.arguments .arguments
    let arguments ← (Text.arguments site.arguments).mapM fun t ↦ Argument.mk t <$> read .inline t
    let call ← ofCall s (site.bindMode mode) site.function leading arguments
    let before ← (Text.nonempty? site.before).mapM (read .inline)
    let after ← (Text.nonempty? site.after).mapM (read .inline)
    return joined (before.toList ++ [call] ++ after.toList)

theorem ofText_eq_readWith (s : Settings) (mode : BindMode) (text : Text) :
    ofText s mode text = readWith s (ofText s) mode text := by
  cases hsite : Text.callSite? text with
  | none =>
    rw [ofText_of_none hsite, readWith, hsite]
  | some site =>
    rw [ofText_of_some hsite, readWith, hsite]

theorem readWith_congr {read read' : BindMode → Text → Logged Fault Expr} {mode : BindMode}
    {text : Text} (h : ∀ u, Text.ReadWithin u text → read .inline u = read' .inline u) :
    readWith s read mode text = readWith s read' mode text := by
  cases hsite : Text.callSite? text with
  | none =>
    rw [readWith, readWith, hsite]
  | some site =>
    have hread : ∀ u ∈ site.texts, read .inline u = read' .inline u :=
      fun u hu ↦ h u ⟨site, hsite, hu⟩
    simp only [CallSite.texts, List.mem_append, Option.mem_toList] at hread
    have hleading : site.leading?.mapM (fun t ↦ Argument.mk t <$> read .inline t) =
        site.leading?.mapM fun t ↦ Argument.mk t <$> read' .inline t :=
      Logged.option_mapM_congr fun u hu ↦ by rw [hread u (.inl (.inl (.inr hu)))]
    have harguments : (Text.arguments site.arguments).mapM
        (fun t ↦ Argument.mk t <$> read .inline t) =
        (Text.arguments site.arguments).mapM fun t ↦ Argument.mk t <$> read' .inline t :=
      Logged.mapM_congr fun u hu ↦ by rw [hread u (.inl (.inr hu))]
    have hbefore : (Text.nonempty? site.before).mapM (read .inline) =
        (Text.nonempty? site.before).mapM (read' .inline) :=
      Logged.option_mapM_congr fun u hu ↦ hread u (.inl (.inl (.inl hu)))
    have hafter : (Text.nonempty? site.after).mapM (read .inline) =
        (Text.nonempty? site.after).mapM (read' .inline) :=
      Logged.option_mapM_congr fun u hu ↦ hread u (.inr hu)
    rw [readWith, readWith, hsite]
    simp only [hleading, harguments, hbefore, hafter]

theorem eq_ofText {read : BindMode → Text → Logged Fault Expr}
    (h : ∀ mode text, read mode text = readWith s read mode text) : read = ofText s := by
  have hall : ∀ text mode, read mode text = ofText s mode text := by
    intro text
    induction text using Text.wellFounded_readWithin.induction with
    | h text ih =>
      intro mode
      rw [h, ofText_eq_readWith, readWith_congr fun u hu ↦ ih u hu .inline]
  funext mode text
  exact hall text mode

/-- A step of reading goes on with parts of the text only, each of fewer bytes than the text, and
the texts before and after the call have fewer groups. No text starts an endless descent, so one
reader alone does what the step says, be the brackets checked or not. -/
theorem ofText_recursion (s : Settings) :
    (∀ u t, Text.ReadWithin u t → u <:+: t ∧ Text.bytes u < Text.bytes t) ∧
    (∀ t site, Text.callSite? t = some site →
      (Text.outline site.before).spans.length < (Text.outline t).spans.length ∧
      (Text.outline site.after).spans.length < (Text.outline t).spans.length) ∧
    (∀ read read' mode t, (∀ u, Text.ReadWithin u t → read .inline u = read' .inline u) →
      readWith s read mode t = readWith s read' mode t) ∧
    WellFounded Text.ReadWithin ∧
    ∀ read, (∀ mode t, read mode t = readWith s read mode t) ↔ read = ofText s := by
  refine ⟨fun u t h ↦ ⟨h.isInfix, h.bytes_lt⟩, fun t site ↦ Text.spans_length_lt,
    fun read read' mode t ↦ readWith_congr, Text.wellFounded_readWithin, fun read ↦ ⟨eq_ofText, ?_⟩⟩
  rintro rfl
  exact ofText_eq_readWith s

theorem ofText_recursion_unclosed :
    let s : Settings := { strictBrackets := false }
    let t := "é (a)(f)((g)(1), 2) + [(h)(3)".toList
    let site : CallSite := ⟨"é ".toList, some ['a'], ['f'], "(g)(1), 2".toList, " + [(h)(3)".toList⟩
    ¬Text.Balanced t ∧ Text.callSite? t = some site ∧
    ("(g)(1)".toList <:+: t ∧ Text.bytes "(g)(1)".toList < Text.bytes t) ∧
    ((Text.outline site.before).spans.length < (Text.outline t).spans.length ∧
      (Text.outline site.after).spans.length < (Text.outline t).spans.length) ∧
    readWith s (fun mode u ↦ if Text.bytes u < Text.bytes t then ofText s mode u
      else .fail (.malformed u .endlessRange)) .statement t =
        readWith s (ofText s) .statement t := by
  intro s t site
  have hsite : Text.callSite? t = some site := by decide +kernel
  have hwithin : Text.ReadWithin "(g)(1)".toList t := ⟨site, hsite, by decide +kernel⟩
  obtain ⟨hpart, hfewer, honly, -, -⟩ := ofText_recursion s
  refine ⟨by decide +kernel, hsite, hpart _ _ hwithin, hfewer _ _ hsite,
    honly _ _ _ _ fun u hu ↦ ?_⟩
  exact if_pos (hpart u t hu).2

end Expr

end CallChain
