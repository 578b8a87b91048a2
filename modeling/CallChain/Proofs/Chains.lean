import CallChain.Proofs.Reading

namespace CallChain

def Run.bare : Run → Text
  | [] => []
  | g :: gs => '(' :: g.inner ++ ')' :: Run.text gs

/-- A run that makes a call, with the text between it and the run before that makes one. -/
structure Chain where
  gap : Text
  target : Option Group
  function : Group
  arguments : Group

namespace Chain

def groups (c : Chain) : Run := c.target.toList ++ [c.function, c.arguments]

def text (c : Chain) : Text := c.gap ++ Run.bare c.groups

def site (c : Chain) : CallSite :=
  ⟨c.gap, c.target.map (·.inner), Text.trim c.function.inner, c.arguments.inner, []⟩

def ofGroups? (gap : Text) : Run → Option Chain
  | [f, a] =>
    if Text.isFunctionName (Text.trim f.inner) then some ⟨gap ++ f.gap, none, f, a⟩ else none
  | [t, f, a] =>
    if Text.isFunctionName (Text.trim f.inner) then some ⟨gap ++ t.gap, some t, f, a⟩ else none
  | _ => none

/-- The call that a run makes behind the text `seen`, of which `gap` has no call. -/
def ofRun? (seen gap : Text) : Run → Option Chain
  | [] => none
  | g :: gs =>
    if Text.attaches (seen ++ g.gap) then ofGroups? (gap ++ g.text) gs else ofGroups? gap (g :: gs)

end Chain

structure Chains where
  chains : List Chain
  rest : Text

namespace Chains

def text (f : Chains) : Text := f.chains.flatMap Chain.text ++ f.rest

def bindMode (f : Chains) (mode : BindMode) : BindMode :=
  match f.chains with
  | [c] => if Text.isBlank c.gap && Text.isBlank f.rest then mode else .inline
  | _ => .inline

def interleave (f : Chains) (calls : List Expr) : List Expr :=
  (f.chains.zip calls).flatMap (fun (c, call) ↦ [.raw c.gap, call]) ++ [.raw f.rest]

def ofRuns (seen gap rest : Text) : List Run → Chains
  | [] => ⟨[], gap ++ rest⟩
  | r :: rs =>
    match Chain.ofRun? seen gap r with
    | none => ofRuns (seen ++ r.text) (gap ++ r.text) rest rs
    | some c =>
      let f := ofRuns (seen ++ r.text) [] rest rs
      ⟨c :: f.chains, f.rest⟩

end Chains

def Text.chains (t : Text) : Chains := .ofRuns [] [] (outline t).rest (outline t).runs

namespace Chain

variable {seen gap : Text} {r : Run} {c : Chain}

theorem ofGroups?_text (h : ofGroups? gap r = some c) : c.text = gap ++ r.text := by
  rw [ofGroups?.eq_def] at h
  split at h
  · split at h
    · cases h
      simp [text, groups, Run.bare, Run.text, Group.text]
    · simp at h
  · split at h
    · cases h
      simp [text, groups, Run.bare, Run.text, Group.text]
    · simp at h
  · simp at h

theorem ofRun?_text (h : ofRun? seen gap r = some c) : c.text = gap ++ r.text := by
  cases r with
  | nil => simp [ofRun?] at h
  | cons g gs =>
    rw [ofRun?] at h
    split at h
    · rw [ofGroups?_text h]
      simp [Run.text]
    · exact ofGroups?_text h

theorem ofGroups?_site (gap : Text) (r : Run) :
    (ofGroups? gap r).map site = (CallSite.ofGroups? r).map (CallSite.behind gap) := by
  rcases r with _ | ⟨g, _ | ⟨f, _ | ⟨a, _ | ⟨b, r⟩⟩⟩⟩
  · rfl
  · rfl
  · simp only [ofGroups?, CallSite.ofGroups?]
    split <;> rfl
  · simp only [ofGroups?, CallSite.ofGroups?]
    split <;> rfl
  · rfl

theorem ofRun?_site (gap : Text) {r : Run}
    (h : ∀ g ∈ r.head?, Text.attaches (seen ++ g.gap) = Text.attaches g.gap) :
    (ofRun? seen gap r).map site = (CallSite.ofRun? r).map (CallSite.behind gap) := by
  cases r with
  | nil => rfl
  | cons g gs =>
    rw [ofRun?, CallSite.ofRun?, h g rfl]
    split
    · rw [ofGroups?_site, Option.map_map]
      congr 1
      funext s
      simp [CallSite.behind]
    · exact ofGroups?_site gap (g :: gs)

end Chain

namespace Text

theorem lastWord_append {seen : Text} {c : Char} (h : seen.getLast? = some c) (hc : ¬isIdentChar c)
    (gap : Text) : lastWord (seen ++ gap) = lastWord gap := by
  obtain ⟨seen', rfl⟩ := List.getLast?_eq_some_iff.1 h
  have hstop : ∀ t : Text, (t ++ c :: seen'.reverse).takeWhile isIdentChar =
      t.takeWhile isIdentChar := by
    intro t
    induction t with
    | nil => simp [hc]
    | cons d t ih => simp only [List.cons_append, List.takeWhile_cons, ih]
  have hrev : (seen' ++ [c] ++ gap).reverse = gap.reverse ++ c :: seen'.reverse := by simp
  rw [lastWord, hrev, hstop, lastWord]

theorem attaches_append {seen gap : Text} {c : Char} (hseen : seen.getLast? = some c)
    (hc : ¬isIdentChar c) (hgap : gap ≠ []) : attaches (seen ++ gap) = attaches gap := by
  rw [attaches, attaches, lastWord_append hseen hc, List.getLast?_append_of_ne_nil _ hgap]

end Text

theorem Run.getLast?_text {r : Run} (h : r ≠ []) : r.text.getLast? = some ')' := by
  obtain ⟨r', g, rfl⟩ := (List.eq_nil_or_concat r).resolve_left h
  have ht : Run.text (r'.concat g) = Run.text r' ++ (g.gap ++ '(' :: g.inner) ++ [')'] := by
    simp [Run.text, Group.text]
  rw [ht, List.getLast?_concat]

/-- The runs before a run do not change what its first group belongs to. -/
theorem AreRuns.attaches_eq {rs₁ rs₂ : List Run} {r : Run} (h : AreRuns (rs₁ ++ r :: rs₂)) :
    ∀ g ∈ r.head?, Text.attaches (rs₁.flatMap Run.text ++ g.gap) = Text.attaches g.gap := by
  intro g hg
  rcases List.eq_nil_or_concat rs₁ with rfl | ⟨rs, r', rfl⟩
  · rfl
  · have hseen : ((rs.concat r').flatMap Run.text).getLast? = some ')' := by
      have hr' : r' ≠ [] := h.ne_nil r' (by simp)
      have hne : Run.text r' ≠ [] := by
        intro hnil
        simpa [hnil] using Run.getLast?_text hr'
      rw [List.concat_eq_append, List.flatMap_append, List.flatMap_singleton,
        List.getLast?_append_of_ne_nil _ hne, Run.getLast?_text hr']
    have hgap : ¬Text.isBlank g.gap := by
      refine h.apart r ?_ g hg
      cases rs <;> simp
    refine Text.attaches_append hseen (by decide) ?_
    intro hnil
    simp [hnil, Text.isBlank] at hgap

theorem AreRuns.take_head {rs₁ rs₂ : List Run} {g : Group} {gs : Run}
    (h : AreRuns (rs₁ ++ (g :: gs) :: rs₂)) : AreRuns (rs₁ ++ [[g]]) where
  ne_nil r hr := by
    rcases List.mem_append.1 hr with hr | hr
    · exact h.ne_nil r (by simp [hr])
    · simp_all
  joined r hr := by
    rcases List.mem_append.1 hr with hr | hr
    · exact h.joined r (by simp [hr])
    · simp_all
  apart r hr := by
    cases rs₁ with
    | nil => simp at hr
    | cons r' rs =>
      rcases List.mem_append.1 hr with hr | hr
      · exact h.apart r (List.mem_append_left _ hr)
      · rw [List.mem_singleton] at hr
        subst hr
        exact h.apart (g :: gs) (List.mem_append_right _ (by simp))

theorem AreRuns.exists_leads {rs₁ rs₂ : List Run} {lead call : Run}
    (hruns : AreRuns (rs₁ ++ (lead ++ call) :: rs₂))
    (hsound : ∀ r ∈ rs₁ ++ (lead ++ call) :: rs₂, ∀ g ∈ r, g.Sound)
    (hlead : lead = [] ∨ ∃ g, lead = [g] ∧ Text.attaches g.gap) :
    ∃ leads : List Run, AreRuns (rs₁ ++ leads) ∧ (∀ r ∈ rs₁ ++ leads, ∀ g ∈ r, g.Sound) ∧
      (∀ r ∈ leads, CallSite.ofRun? r = none) ∧ leads.flatMap Run.text = Run.text lead := by
  have hsound₁ : ∀ r ∈ rs₁, ∀ g ∈ r, g.Sound := fun r hr ↦ hsound r (by simp [hr])
  obtain rfl | ⟨g, rfl, hg⟩ := hlead
  · refine ⟨[], by simpa using hruns.of_append_left, ?_, by simp, rfl⟩
    simpa using hsound₁
  · have hmem : g.Sound := hsound ([g] ++ call) (by simp) g (by simp)
    refine ⟨[[g]], hruns.take_head, ?_, ?_, by simp⟩
    · exact List.forall_mem_append.2 ⟨hsound₁, by simpa using hmem⟩
    · intro r hr
      rw [List.mem_singleton] at hr
      rw [hr, CallSite.ofRun?, if_pos hg]
      rfl

namespace Chains

variable {gap rest : Text} {rs₁ rs₂ : List Run}

theorem ofRuns_text (seen gap rest : Text) (rs : List Run) :
    (ofRuns seen gap rest rs).text = gap ++ rs.flatMap Run.text ++ rest := by
  induction rs generalizing seen gap with
  | nil => simp [ofRuns, text]
  | cons r rs ih =>
    rw [ofRuns]
    split
    · rw [ih]
      simp
    · rename_i c hc
      have hrs := ih (seen ++ r.text) []
      rw [text] at hrs ⊢
      rw [List.flatMap_cons, List.append_assoc, hrs, Chain.ofRun?_text hc]
      simp

theorem ofRuns_append (seen gap rest : Text) (rs₁ rs₂ : List Run) :
    ofRuns seen gap rest (rs₁ ++ rs₂) =
      ⟨(ofRuns seen gap [] rs₁).chains ++
          (ofRuns (seen ++ rs₁.flatMap Run.text) (ofRuns seen gap [] rs₁).rest rest rs₂).chains,
        (ofRuns (seen ++ rs₁.flatMap Run.text) (ofRuns seen gap [] rs₁).rest rest rs₂).rest⟩ := by
  induction rs₁ generalizing seen gap with
  | nil => simp [ofRuns]
  | cons r rs ih =>
    rw [List.cons_append, ofRuns, ofRuns, List.flatMap_cons]
    split
    · rw [ih, List.append_assoc]
    · rw [ih, List.append_assoc]
      rfl

theorem ofRuns_of_none (rs₁ : List Run) {rs₂ : List Run} (h : AreRuns (rs₁ ++ rs₂))
    (hnone : ∀ r ∈ rs₂, CallSite.ofRun? r = none) (gap rest : Text) :
    ofRuns (rs₁.flatMap Run.text) gap rest rs₂ = ⟨[], gap ++ (rs₂.flatMap Run.text ++ rest)⟩ := by
  induction rs₂ generalizing rs₁ gap with
  | nil => rfl
  | cons r rs ih =>
    have hr := Chain.ofRun?_site gap h.attaches_eq
    rw [hnone r (by simp), Option.map_none, Option.map_eq_none_iff] at hr
    have hrs := ih (rs₁ ++ [r]) (by simpa using h) (fun r' hr' ↦ hnone r' (by simp [hr']))
      (gap ++ r.text)
    rw [List.flatMap_append, List.flatMap_singleton] at hrs
    rw [ofRuns, hr]
    dsimp only
    rw [hrs]
    simp

end Chains

namespace Text

variable {t : Text} {site : CallSite}

theorem chains_text (t : Text) : t.chains.text = t := by
  rw [chains, Chains.ofRuns_text, List.nil_append, Outline.runs_text, outline_text]

theorem chains_of_none (h : callSite? t = none) : t.chains = ⟨[], t⟩ := by
  have hnone := CallSite.ofRuns?_eq_none_iff.1 h
  have hall : AreRuns ([] ++ (outline t).runs) := areRuns_outline t
  have hruns := Chains.ofRuns_of_none [] hall hnone [] (outline t).rest
  rw [Outline.runs_text, outline_text] at hruns
  exact hruns

/-- The text before the call of a run, read by itself: an attached group of the run stays a run of
its own, which makes no call. -/
theorem chains_before {rs₁ rs₂ : List Run} {r : Run} {s : CallSite}
    (hruns : AreRuns (rs₁ ++ r :: rs₂)) (hsound : ∀ r' ∈ rs₁ ++ r :: rs₂, ∀ g ∈ r', g.Sound)
    (hr : CallSite.ofRun? r = some s) :
    chains (rs₁.flatMap Run.text ++ s.before) =
      ⟨(Chains.ofRuns [] [] [] rs₁).chains, (Chains.ofRuns [] [] [] rs₁).rest ++ s.before⟩ := by
  obtain ⟨lead, call, s', rfl, hs', rfl, hlead⟩ := CallSite.ofRun?_cases hr
  obtain ⟨g, gs, rfl, hgap⟩ := CallSite.ofGroups?_before hs'
  have hg : nextGroup g.gap = none :=
    nextGroup_eq_none (hsound (lead ++ g :: gs) (by simp) g (by simp)).closed
  have hlead' : lead = [] ∨ ∃ a, lead = [a] ∧ attaches a.gap := hlead.imp_left And.left
  obtain ⟨leads, hleads, hsleads, hnone, htext⟩ := hruns.exists_leads hsound hlead'
  obtain ⟨ho, hrest⟩ := outline_runs hleads hsleads hg
  rw [List.flatMap_append, htext, List.append_assoc] at ho hrest
  have hbefore : (s'.behind (Run.text lead)).before = Run.text lead ++ g.gap := by
    rw [← hgap]
    rfl
  rw [hbefore, chains, ho, hrest, Chains.ofRuns_append, List.nil_append,
    Chains.ofRuns_of_none rs₁ hleads hnone, htext, List.append_nil]

/-- A text with a call has one chain more than the text before the call. -/
theorem chains_of_some (h : callSite? t = some site) :
    ∃ c, t.chains = ⟨(chains site.before).chains ++ [c], site.after⟩ ∧
      c.site = { site with before := (chains site.before).rest, after := [] } := by
  obtain ⟨rs₁, r, rs₂, s, hrs, hr, hnone, rfl⟩ := CallSite.ofRuns?_cases h
  have hruns := areRuns_outline t
  have hsound : ∀ r' ∈ (outline t).runs, ∀ g ∈ r', g.Sound := fun _ hr' _ ↦ sound_of_mem_runs hr'
  rw [hrs] at hruns hsound
  have hc := Chain.ofRun?_site (Chains.ofRuns [] [] [] rs₁).rest hruns.attaches_eq
  rw [hr, Option.map_some, Option.map_eq_some_iff] at hc
  obtain ⟨c, hc, hsite⟩ := hc
  have hafter := Chains.ofRuns_of_none (rs₁ ++ [r]) (by simpa using hruns) hnone []
    (outline t).rest
  rw [List.flatMap_append, List.flatMap_singleton] at hafter
  refine ⟨c, ?_, ?_⟩
  · rw [chains_before hruns hsound hr, chains, hrs, Chains.ofRuns_append, List.nil_append,
      Chains.ofRuns, hc]
    dsimp only
    rw [hafter, List.nil_append]
  · rw [chains_before hruns hsound hr, hsite, CallSite.behind]
    simp [(CallSite.ofRun?_size hr).2]

end Text

namespace Expr

mutual

/-- The parts of an expression with nested concatenations opened up. -/
def flat : Expr → List Expr
  | .concat parts => flatAll parts
  | e => [e]

def flatAll : List Expr → List Expr
  | [] => []
  | e :: es => e.flat ++ flatAll es

end

theorem flatAll_eq_flatMap (es : List Expr) : flatAll es = es.flatMap flat := by
  induction es with
  | nil => rfl
  | cons e es ih => rw [flatAll, ih, List.flatMap_cons]

/-- The parts that are left of an expression inside another one, where an empty text is dropped. -/
def parts (e : Expr) : List Expr := if e.isEmpty then [] else e.flat

theorem parts_of_not_empty {e : Expr} (h : ¬e.isEmpty) : e.parts = e.flat := if_neg h

theorem flatMap_parts (es : List Expr) :
    es.flatMap parts = (es.filter (!·.isEmpty)).flatMap flat := by
  induction es with
  | nil => rfl
  | cons e es ih =>
    rw [List.flatMap_cons, ih, List.filter_cons, parts]
    cases e.isEmpty <;> simp

theorem parts_joined (es : List Expr) : (joined es).parts = es.flatMap parts := by
  rw [flatMap_parts, joined]
  split
  · rename_i h
    rw [h]
    rfl
  · rename_i e h
    have he : e ∈ es.filter (!·.isEmpty) := by simp [h]
    rw [h, List.flatMap_singleton, parts_of_not_empty (by simpa using (List.mem_filter.1 he).2)]
  · rw [← flatAll_eq_flatMap]
    rfl

theorem parts_raw (t : Text) : (raw t).parts = [raw t].filter (!·.isEmpty) := by
  cases t <;> rfl

variable {s : Settings} {mode : BindMode} {text : Text} {e : Expr}

theorem read_parts {site : CallSite} (h : (site.read s mode).outcome = .ok e) :
    e.parts = [e] ∧ ¬e.isEmpty := by
  obtain ⟨-, leading, arguments, -, -, h⟩ := CallSite.read_ok_iff.1 h
  obtain ⟨-, rfl⟩ := ofCall_ok_iff.1 h
  rw [bound.eq_def]
  split <;> exact ⟨rfl, by simp [isEmpty]⟩

def ReadsChains (s : Settings) (mode : BindMode) (f : Chains) (calls : List Expr) : Prop :=
  List.Forall₂ (fun c call ↦ (c.site.read s (f.bindMode mode)).outcome = .ok call) f.chains calls

theorem interleave_append {f f' : Chains} {c : Chain} {calls : List Expr} {call : Expr}
    (hf : f'.chains = f.chains ++ [c]) (hc : c.gap = f.rest)
    (hlen : f.chains.length = calls.length) :
    f'.interleave (calls ++ [call]) = f.interleave calls ++ [call, .raw f'.rest] := by
  rw [Chains.interleave, Chains.interleave, hf, List.zip_append hlen]
  simp [hc]

theorem bindMode_inline (f : Chains) : f.bindMode .inline = .inline := by
  rw [Chains.bindMode]
  split
  · split <;> rfl
  · rfl

theorem bindMode_of_append {f : Chains} {cs : List Chain} {c : Chain} (hf : f.chains = cs ++ [c])
    (hcs : cs ≠ []) : f.bindMode mode = .inline := by
  obtain ⟨c', cs', rfl⟩ := List.exists_cons_of_ne_nil hcs
  rw [Chains.bindMode, hf]
  cases cs' <;> rfl

theorem not_isBlank_of_chains {t : Text} (h : t.chains.chains ≠ []) : ¬Text.isBlank t := by
  obtain ⟨c, cs, hcs⟩ := List.exists_cons_of_ne_nil h
  have hparen : '(' ∈ t := by
    have hgroups : '(' ∈ c.text := by
      rw [Chain.text, Chain.groups]
      cases c.target <;> simp [Run.bare]
    rw [← Text.chains_text t, Chains.text, hcs]
    simp [hgroups]
  intro hblank
  have hno : isBlank '(' = true := List.all_eq_true.1 hblank '(' hparen
  revert hno
  decide

theorem bindMode_of_chains (mode : BindMode) {t : Text} {site : CallSite} {c : Chain}
    (h : t.chains = ⟨(Text.chains site.before).chains ++ [c], site.after⟩)
    (hc : c.gap = (Text.chains site.before).rest) :
    t.chains.bindMode mode = site.bindMode mode := by
  by_cases hbefore : (Text.chains site.before).chains = []
  · have hgap : c.gap = site.before := by
      have htext := Text.chains_text site.before
      rw [Chains.text, hbefore] at htext
      rw [hc]
      simpa using htext
    rw [Chains.bindMode, h, hbefore, CallSite.bindMode, ← hgap]
    rfl
  · rw [bindMode_of_append (congrArg Chains.chains h) hbefore, CallSite.bindMode]
    simp [not_isBlank_of_chains hbefore]

theorem ofText_parts (h : (ofText s mode text).outcome = .ok e) :
    ∃ calls, ReadsChains s mode text.chains calls ∧
      e.parts = (text.chains.interleave calls).filter (!·.isEmpty) := by
  induction text using text_induction generalizing mode e with
  | leave t hnone =>
    obtain ⟨-, rfl⟩ := (ofText_ok_iff_of_none hnone).1 h
    rw [Text.chains_of_none hnone]
    exact ⟨[], .nil, parts_raw t⟩
  | call t site hsite ihbefore _ _ =>
    obtain ⟨-, before, call, hcall, hbefore, rfl⟩ := (ofText_ok_iff hsite).1 h
    obtain ⟨calls, hcalls, hparts⟩ := ihbefore hbefore
    obtain ⟨c, hchains, hc⟩ := Text.chains_of_some hsite
    have hgap : c.gap = (Text.chains site.before).rest := congrArg CallSite.before hc
    have hmode := bindMode_of_chains mode hchains hgap
    refine ⟨calls ++ [call], ?_, ?_⟩
    · have hlast : (c.site.read s (t.chains.bindMode mode)).outcome = .ok call := by
        rw [hc, hmode]
        exact hcall
      -- what stands before a call is read inline, and so are all calls where there are several
      rw [ReadsChains, bindMode_inline] at hcalls
      rw [ReadsChains, congrArg Chains.chains hchains]
      refine List.rel_append ?_ (.cons hlast .nil)
      by_cases hnil : (Text.chains site.before).chains = []
      · rw [hnil] at hcalls ⊢
        cases hcalls
        exact .nil
      · rwa [bindMode_of_append (congrArg Chains.chains hchains) hnil]
    · rw [interleave_append (congrArg Chains.chains hchains) hgap hcalls.length_eq, parts_joined,
        hchains]
      simp only [List.flatMap_cons, List.flatMap_nil, hparts, (read_parts hcall).1, parts_raw,
        List.filter_append]
      simp [(read_parts hcall).2, List.filter_cons]

theorem not_isEmpty_of_chains (h : (ofText s mode text).outcome = .ok e)
    (hne : text.chains.chains ≠ []) : ¬e.isEmpty := by
  match hsite : Text.callSite? text with
  | none => simp [Text.chains_of_none hsite] at hne
  | some site =>
    obtain ⟨-, before, call, hcall, -, rfl⟩ := (ofText_ok_iff hsite).1 h
    intro hempty
    have hparts := parts_joined [before, call, .raw site.after]
    rw [parts, if_pos hempty] at hparts
    simp [(read_parts hcall).1] at hparts

/-- Reading a text gives the calls of one pass from left to right, each read by itself, and the
gaps between them as they are written. No text is lost, and no call is left after the last one. -/
theorem ofText_flat (s : Settings) (mode : BindMode) (text : Text) :
    text.chains.text = text ∧
    (∀ site, Text.callSite? text = some site →
      Text.callSite? site.after = none ∧ site.after = text.chains.rest) ∧
    ∀ e, (ofText s mode text).outcome = .ok e →
      (text.chains.chains = [] → e = .raw text) ∧
      (text.chains.chains ≠ [] → ∃ calls,
        List.Forall₂ (fun c call ↦ (c.site.read s (text.chains.bindMode mode)).outcome = .ok call)
          text.chains.chains calls ∧
        e.flat = (text.chains.interleave calls).filter (!·.isEmpty)) := by
  refine ⟨Text.chains_text text, fun site hsite ↦ ?_, fun e h ↦ ⟨fun hnil ↦ ?_, fun hne ↦ ?_⟩⟩
  · obtain ⟨c, hchains, -⟩ := Text.chains_of_some hsite
    exact ⟨Text.callSite?_after hsite, by rw [hchains]⟩
  · match hsite : Text.callSite? text with
    | none => exact ((ofText_ok_iff_of_none hsite).1 h).2
    | some site =>
      obtain ⟨c, hchains, -⟩ := Text.chains_of_some hsite
      simp [hchains] at hnil
  · obtain ⟨calls, hcalls, hparts⟩ := ofText_parts h
    refine ⟨calls, hcalls, ?_⟩
    rw [← hparts, parts_of_not_empty (not_isEmpty_of_chains h hne)]

theorem ofText_flat_unbalanced :
    let s : Settings := { strictBrackets := false }
    let text : Text := "print(x)(f)(a) if (y)(g)(1) ] z".toList
    ∃ e calls, (ofText s .statement text).outcome = .ok e ∧
      text.chains.chains.map Chain.gap = ["print(x)".toList, " if ".toList] ∧
      text.chains.rest = " ] z".toList ∧
      List.Forall₂ (fun c call ↦ (c.site.read s .inline).outcome = .ok call)
        text.chains.chains calls ∧
      e.flat = (text.chains.interleave calls).filter (!·.isEmpty) := by
  intro s text
  have hok : (ofText s .statement text).outcome.toBool := by decide +kernel
  have hgaps : text.chains.chains.map Chain.gap = ["print(x)".toList, " if ".toList] := by
    decide +kernel
  have hmode : text.chains.bindMode .statement = .inline := by decide +kernel
  cases h : (ofText s .statement text).outcome with
  | error fault => simp [h, Except.toBool] at hok
  | ok e =>
    have hne : text.chains.chains ≠ [] := by
      intro hnil
      simp [hnil] at hgaps
    obtain ⟨calls, hcalls, hflat⟩ := ((ofText_flat s .statement text).2.2 e h).2 hne
    rw [hmode] at hcalls
    exact ⟨e, calls, rfl, hgaps, by decide +kernel, hcalls, hflat⟩

end Expr

end CallChain
