import CallChain.Proofs.Junctions
import CallChain.Proofs.Offsets
import CallChain.Proofs.Spans

namespace CallChain

namespace Text

variable {s t : Text}

theorem topOffsetsFrom_append (needle : Char) (n : Nesting) (offset : Nat) (s t : Text) :
    topOffsetsFrom [needle] n offset (s ++ t) = topOffsetsFrom [needle] n offset s ++
      topOffsetsFrom [needle] (n.after s) (offset + bytes s) t := by
  induction s generalizing n offset with
  | nil => rfl
  | cons c s ih =>
    rw [List.cons_append, topOffsetsFrom, topOffsetsFrom, isPrefixOf_singleton,
      isPrefixOf_singleton, ih, Nesting.after_cons, bytes_cons, Nat.add_assoc]
    split <;> rfl

theorem IsGap.append (hs : IsGap s) (ht : IsGap t) : IsGap (s ++ t) := by
  have hafter : ({} : Nesting).after s = {} := (balanced_iff.1 hs.balanced).after_eq
  have hreads := balanced_iff.1 ht.balanced
  have hbehind : topOffsetsFrom ['('] {} (0 + bytes s) t = [] := by
    rw [topOffsetsFrom_round_iff hreads]
    exact (topOffsetsFrom_round_iff hreads).1 ht.unopened
  refine ⟨hs.balanced.append ht.balanced, ?_⟩
  rw [topOffsets, topOffsetsFrom_append, hafter, hbehind, List.append_nil]
  exact hs.unopened

theorem isGap_of_plain (h : Plain t) : IsGap t := by
  refine isGap_iff.2 ⟨h.balanced, ?_⟩
  cases hopen : openGroup t with
  | none => rfl
  | some k =>
    have hround : '(' ∈ t := by
      rw [← openGroupFrom_text hopen]
      simp
    cases h '(' hround

/-- A gap behind which a text is looked at as if it stood alone: no run goes on over it, and what
stands right behind it belongs to nothing in it. -/
structure Separates (m : Text) : Prop where
  gap : IsGap m
  not_blank : ¬isBlank m
  attaches : ∀ t, attaches (m ++ t) = attaches t

theorem separates_equals {lead : Text} (hs : IsGap s) (hlead : isBlank lead) :
    Separates (s ++ '=' :: lead) where
  gap := by
    refine hs.append (isGap_of_plain ?_)
    intro c hc
    obtain rfl | hc := List.mem_cons.1 hc
    · rfl
    · exact plain_of_isBlank hlead c hc
  not_blank hblank := by
    have hequals := List.all_eq_true.1 hblank '=' (by simp)
    revert hequals
    decide
  attaches t := by
    obtain ⟨c, hlast, hword, hmark⟩ : ∃ c, (s ++ '=' :: lead).getLast? = some c ∧ ¬isIdentChar c ∧
        c ∉ [']', '}', '"', '\'', '.'] := by
      obtain rfl | ⟨lead, c, rfl⟩ := List.eq_nil_or_concat lead
      · exact ⟨'=', List.getLast?_concat, by decide, by decide⟩
      · have hc : CallChain.isBlank c := List.all_eq_true.1 hlead c (by simp)
        have hlast : (s ++ '=' :: lead.concat c).getLast? = some c := by
          rw [List.concat_eq_append, ← List.cons_append, ← List.append_assoc, List.getLast?_concat]
        refine ⟨c, hlast, not_isIdentChar_of_isBlank hc, fun hmem ↦ ?_⟩
        have hno : [']', '}', '"', '\'', '.'].all (!CallChain.isBlank ·) := by decide
        have := List.all_eq_true.1 hno c hmem
        simp [hc] at this
    by_cases ht : t = []
    · have hno := not_attaches hlast hword hmark
      rw [ht, List.append_nil]
      simpa [Text.attaches] using hno
    · exact attaches_append hlast hword ht

end Text

theorem runs_cons_congr {g : Group} {gs : List Group} {r : Run} {rs : List Run}
    (h : runs (g :: gs) = (g :: r) :: rs) (g' : Group) : runs (g' :: gs) = (g' :: r) :: rs := by
  rw [runs] at h ⊢
  split at h
  · cases h
    rfl
  · split at h
    · rename_i hblank
      cases h
      exact if_pos hblank
    · rename_i hblank
      cases h
      exact if_neg hblank

namespace CallSite

variable {m rest trail : Text} {g : Group} {gs : List Group} {r : Run} {rs : List Run}
  {site : CallSite}

def inFront (t : Text) (s : CallSite) : CallSite := { s with after := s.after ++ t }

theorem ofGroups?_gap (m : Text) (g : Group) (gs : List Group) :
    ofGroups? ({ g with gap := m ++ g.gap } :: gs) = (ofGroups? (g :: gs)).map (behind m) := by
  rcases gs with _ | ⟨f, _ | ⟨a, _ | ⟨b, gs⟩⟩⟩
  · rfl
  · simp only [ofGroups?]
    split <;> rfl
  · simp only [ofGroups?]
    split <;> rfl
  · rfl

theorem ofRun?_gap (h : Text.attaches (m ++ g.gap) = Text.attaches g.gap) (r : Run) :
    ofRun? ({ g with gap := m ++ g.gap } :: r) = (ofRun? (g :: r)).map (behind m) := by
  rw [ofRun?, ofRun?, h]
  split
  · rw [Option.map_map]
    congr 1
    funext s
    simp [behind, Group.text]
  · exact ofGroups?_gap m g r

theorem ofRuns?_gap (h : Text.attaches (m ++ g.gap) = Text.attaches g.gap) (r : Run)
    (rs : List Run) :
    ofRuns? rest (({ g with gap := m ++ g.gap } :: r) :: rs) =
      (ofRuns? rest ((g :: r) :: rs)).map (behind m) := by
  rw [ofRuns?, ofRuns?]
  split
  · simp [behind, Run.text, Group.text]
  · rw [ofRun?_gap h, Option.map_map, Option.map_map]
    rfl

theorem ofRuns?_append (h : ofRuns? rest rs = some site) (rs' : List Run) :
    ofRuns? rest (rs' ++ rs) = some (site.behind (rs'.flatMap Run.text)) := by
  induction rs' with
  | nil => exact h
  | cons r rs' ih =>
    rw [List.cons_append, ofRuns?, ih]
    simp [behind]

theorem ofRuns?_rest (rest trail : Text) (rs : List Run) :
    ofRuns? (rest ++ trail) rs = (ofRuns? rest rs).map (inFront trail) := by
  induction rs with
  | nil => rfl
  | cons r rs ih =>
    rw [ofRuns?, ofRuns?, ih]
    cases ofRuns? rest rs with
    | some s => rfl
    | none =>
      rw [Option.map_none, Option.map_map]
      simp [inFront, Function.comp_def]

end CallSite

namespace Text

variable {m t trail : Text} {gs : List Group} {site : CallSite}

/-- Behind groups and a gap that separates, a text has the call that it has by itself. -/
theorem callSite?_behind (hgs : ∀ g ∈ gs, g.Sound) (hm : Separates m)
    (h : callSite? t = some site) :
    callSite? (gs.flatMap Group.text ++ (m ++ t)) =
      some (site.behind (gs.flatMap Group.text ++ m)) := by
  have htext := outline_text t
  have hsound : ∀ g ∈ (outline t).groups, g.Sound := fun _ ↦ outline_sound
  have hrest := nextGroup_rest t
  rw [callSite?] at h
  rcases hout : outline t with ⟨_ | ⟨g, gs'⟩, rest⟩
  · rw [hout] at h
    cases h
  · rw [hout] at h htext hsound hrest
    obtain ⟨hg, hgs'⟩ := List.forall_mem_cons.1 hsound
    obtain ⟨hgap, hinner⟩ := Group.sound_iff.1 hg
    let g' : Group := { g with gap := m ++ g.gap }
    have hg' : g'.Sound := Group.sound_iff.2 ⟨hm.gap.append hgap, hinner⟩
    have hall : ∀ a ∈ gs ++ g' :: gs', a.Sound :=
      List.forall_mem_append.2 ⟨hgs, List.forall_mem_cons.2 ⟨hg', hgs'⟩⟩
    have hwhole : (gs ++ g' :: gs').flatMap Group.text ++ rest =
        gs.flatMap Group.text ++ (m ++ t) := by
      rw [← htext]
      simp [Outline.text, Group.text, g']
    have hblank : ¬isBlank g'.gap := by
      intro hblank
      rw [isBlank, List.all_append, Bool.and_eq_true] at hblank
      exact hm.not_blank hblank.1
    obtain ⟨r, rs, hr⟩ := exists_runs_cons g gs'
    have h : CallSite.ofRuns? rest (runs (g :: gs')) = some site := h
    rw [hr] at h
    have hcall : CallSite.ofRuns? rest ((g' :: r) :: rs) = some (site.behind m) := by
      rw [CallSite.ofRuns?_gap (hm.attaches g.gap), h]
      rfl
    have hruns : runs (gs ++ g' :: gs') = runs gs ++ (g' :: r) :: rs := by
      rw [runs_append gs gs' hblank, runs_cons_congr hr g']
    rw [callSite?, ← hwhole, outline_groups hall hrest]
    simp only [Outline.runs, hruns]
    rw [CallSite.ofRuns?_append hcall, runs_text]
    simp [CallSite.behind]

theorem callSite?_append_blank (ht : Balanced t) (htrail : isBlank trail)
    (h : callSite? t = some site) :
    callSite? (t ++ trail) = some (site.inFront trail) := by
  have hrest : IsGap ((outline t).rest ++ trail) :=
    (isGap_rest ht).append (isGap_of_plain (plain_of_isBlank htrail))
  have hgroups : ∀ g ∈ (outline t).groups, g.Sound := fun _ ↦ outline_sound
  have houtline : outline (t ++ trail) = ⟨(outline t).groups, (outline t).rest ++ trail⟩ := by
    rw [← outline_groups hgroups (nextGroup_eq_none (isGap_iff.1 hrest).2), ← List.append_assoc]
    congr 2
    exact (outline_text t).symm
  rw [callSite?] at h ⊢
  rw [houtline]
  simp only [Outline.runs] at h ⊢
  rw [CallSite.ofRuns?_rest, h]
  rfl

theorem callSite?_of_assignment {code target value : Text} (hcode : Balanced code)
    (hsides : assignment? code = some (target, value)) (h : callSite? value = some site) :
    ∃ lead trail, code = lead ++ (value ++ trail) ∧
      callSite? code = some ((site.behind lead).inFront trail) := by
  obtain ⟨k, hk, rfl, rfl⟩ := assignment?_cases hsides
  obtain ⟨hbefore, hafter⟩ := cutFirst_balanced hk (by decide) hcode
  obtain ⟨lead, trail, htext, hlead, htrail⟩ := exists_blanks k.after
  have hm : Separates ((outline k.before).rest ++ '=' :: lead) :=
    separates_equals (isGap_rest hbefore) hlead
  have hcall := callSite?_append_blank (balanced_trim.2 hafter) htrail h
  have hgroups : ∀ g ∈ (outline k.before).groups, g.Sound := fun _ ↦ outline_sound
  have hwhole := callSite?_behind hgroups hm hcall
  have hspelled : (outline k.before).groups.flatMap Group.text ++
      ((outline k.before).rest ++ '=' :: lead) = k.before ++ '=' :: lead := by
    rw [← List.append_assoc]
    congr 1
    exact outline_text k.before
  have hline : code = k.before ++ '=' :: lead ++ (trim k.after ++ trail) := by
    rw [List.append_assoc, List.cons_append, ← htext]
    simpa using (cutFirst_text hk).symm
  rw [← List.append_assoc, hspelled, ← hline] at hwhole
  exact ⟨_, trail, hline, hwhole⟩

end Text

namespace Expr

variable {s : Settings} {mode : BindMode} {text : Text} {e : Expr}

theorem callSite?_of_isRaw (h : (ofText s mode text).outcome = .ok e) (hraw : e.isRaw) :
    Text.callSite? text = none := by
  cases hsite : Text.callSite? text with
  | none => rfl
  | some site =>
    obtain ⟨before, call, -, hcall, hparts⟩ := parts_of_site hsite h
    have hmem : call ∈ e.parts := by
      rw [hparts]
      simp
    cases e with
    | raw t =>
      obtain ⟨-, hmem⟩ : ¬(raw t).isEmpty ∧ call ∈ [raw t] := by
        rw [parts] at hmem
        split at hmem
        · simp at hmem
        · exact ⟨‹_›, hmem⟩
      rw [List.mem_singleton.1 hmem] at hcall
      cases hcall
    | _ => cases hraw

theorem ofText_value {code target value : Text} (hs : s.strictBrackets)
    (h : (ofText s mode code).outcome = .ok e) (hraw : e.isRaw)
    (hsides : Text.assignment? code = some (target, value)) :
    (ofText s .inline value).outcome = .ok (.raw value) := by
  have hcode : Text.Balanced code := (ofText_strict hs h).1
  have hvalue : Text.Balanced value := by
    obtain ⟨k, hk, -, rfl⟩ := Text.assignment?_cases hsides
    exact Text.balanced_trim.2 (Text.cutFirst_balanced hk (by decide) hcode).2
  have hnone : Text.callSite? value = none := by
    cases hsite : Text.callSite? value with
    | none => rfl
    | some site =>
      obtain ⟨lead, trail, -, hcall⟩ := Text.callSite?_of_assignment hcode hsides hsite
      rw [callSite?_of_isRaw h hraw] at hcall
      cases hcall
  exact (ofText_ok_iff_of_none hnone).2 ⟨fun _ ↦ hvalue, rfl⟩

end Expr

namespace Statement

variable {s : Settings} {code target : Text} {value : Expr}

theorem ofCode_assign (h : (ofCode s code).outcome = .ok (.assign target value)) :
    (ofPlain s code).outcome = .ok (.assign target value) := by
  rw [ofCode] at h
  cases hheading : Heading.ofCode code with
  | loop target' iterable =>
    rw [hheading] at h
    obtain ⟨i, start, stop, step, -, -, -, -, hst⟩ | ⟨e, -, hst⟩ := ofLoop_ok h <;> cases hst
  | guarded guard test =>
    rw [hheading] at h
    obtain ⟨e, -, hst⟩ := Logged.outcome_map_eq_ok.1 h
    cases hst
  | verbatim =>
    rw [hheading] at h
    cases h
  | plain =>
    rw [hheading] at h
    exact h

/-- The value of an assignment is what stands behind the first `=` at top level, as it is written.
Once the line is read without finding a call, reading its value does not fail and changes nothing,
for a call in the value is found where it stands in the line. -/
theorem ofCode_assigned (hs : s.strictBrackets) (code : Text) :
    (∀ target value, (ofCode s code).outcome = .ok (.assign target value) →
      ∃ offset after, (Text.topOffsets ['='] code).head? = some offset ∧
        Text.slice? (offset + 1) (Text.bytes code) code = some after ∧
        value = .raw (Text.trim after)) ∧
    (∀ e target value, (Expr.ofText s .statement code).outcome = .ok e → e.isRaw →
      Text.assignment? code = some (target, value) →
      (Expr.ofText s .inline value).outcome = .ok (.raw value)) ∧
    ∀ target value site, Text.Balanced code → Text.assignment? code = some (target, value) →
      Text.callSite? value = some site → ∃ lead trail, code = lead ++ (value ++ trail) ∧
        Text.callSite? code = some ((site.behind lead).inFront trail) := by
  refine ⟨fun target value h ↦ ?_,
    fun e target value h hraw hsides ↦ Expr.ofText_value hs h hraw hsides,
    fun target value site hcode ↦ Text.callSite?_of_assignment hcode⟩
  obtain ⟨e, he, ⟨-, hst⟩ | ⟨hraw, ⟨-, hst⟩ | ⟨target', text, e', hsides, hvalue, hst⟩⟩⟩ :=
    ofPlain_cases (ofCode_assign h)
  · cases hst
  · cases hst
  · cases hst
    rw [Expr.ofText_value hs he hraw hsides] at hvalue
    cases hvalue
    obtain ⟨k, hk, -, rfl⟩ := Text.assignment?_cases hsides
    have htext : code = k.before ++ ['='] ++ (k.after ++ []) := by
      rw [List.append_nil]
      exact (Text.cutFirst_text hk).symm
    refine ⟨Text.bytes k.before, k.after, ?_, ?_, rfl⟩
    · have hhead := Text.head?_topOffsets "=".toList code
      rw [hk] at hhead
      exact hhead
    · refine Text.slice?_eq_some_iff.2 ⟨k.before ++ ['='], [], htext, Text.bytes_append _ _, ?_⟩
      conv => rhs; rw [htext, List.append_nil]

set_option maxRecDepth 20000 in
theorem ofCode_assigned_attached :
    let code := "é[\"=\"] = print(y)(z) + [(f)(1)]".toList
    let text := "print(y)(z) + [(f)(1)]".toList
    (ofCode {} code).outcome = .ok (.assign "é[\"=\"]".toList (.raw text)) ∧
    (∃ offset after, (Text.topOffsets ['='] code).head? = some offset ∧
      Text.slice? (offset + 1) (Text.bytes code) code = some after ∧
      Expr.raw text = .raw (Text.trim after)) ∧
    (Expr.ofText {} .inline text).outcome = .ok (.raw text) ∧
    ∃ lead trail, "x = é * (f)(1) ".toList = lead ++ ("é * (f)(1)".toList ++ trail) ∧
      Text.callSite? "x = é * (f)(1) ".toList =
        some ((CallSite.behind lead ⟨"é * ".toList, none, ['f'], ['1'], []⟩).inFront trail) := by
  intro code text
  have h : (ofCode {} code).outcome = .ok (.assign "é[\"=\"]".toList (.raw text)) := by
    with_unfolding_all rfl
  have hnone : Text.callSite? code = none := by decide +kernel
  have hline : (Expr.ofText {} .statement code).outcome = .ok (.raw code) :=
    (Expr.ofText_ok_iff_of_none hnone).2 ⟨fun _ ↦ by decide +kernel, rfl⟩
  have hsides : Text.assignment? code = some ("é[\"=\"]".toList, text) := by decide +kernel
  have hsides' : Text.assignment? "x = é * (f)(1) ".toList = some (['x'], "é * (f)(1)".toList) := by
    decide +kernel
  obtain ⟨hvalue, hagain, -⟩ := ofCode_assigned (s := {}) rfl code
  obtain ⟨-, -, hcall⟩ := ofCode_assigned (s := {}) rfl "x = é * (f)(1) ".toList
  exact ⟨h, hvalue _ _ h, hagain _ _ _ hline rfl hsides,
    hcall _ _ _ (by decide +kernel) hsides' (by decide +kernel)⟩

end Statement

end CallChain
