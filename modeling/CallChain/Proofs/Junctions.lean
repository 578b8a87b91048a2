import CallChain.Proofs.Bindings
import CallChain.Proofs.BlockMarks
import CallChain.Proofs.Chains

namespace CallChain

namespace Text

variable {s t : Text} {site : CallSite}

def startsWord (t : Text) : Bool := t.head?.any isIdentChar

def endsWord (t : Text) : Bool := t.getLast?.any isIdentChar

/-- The last word of the one text and the first word of the other become one word. -/
def fuses (s t : Text) : Bool := endsWord s && startsWord t

theorem endsWord_of_isKeyword (h : isKeyword (lastWord t)) : endsWord t := by
  rw [endsWord, ← List.head?_reverse]
  rw [lastWord] at h
  cases hlast : t.reverse with
  | nil =>
    rw [hlast] at h
    cases h
  | cons c u =>
    by_cases hc : isIdentChar c
    · exact hc
    · rw [hlast, List.takeWhile_cons_of_neg hc] at h
      cases h

/-- Text that a group does not belong to ends with a word only if that word is a keyword. -/
theorem endsWord_iff (h : ¬attaches t) : endsWord t ↔ isKeyword (lastWord t) := by
  refine ⟨fun hword ↦ ?_, endsWord_of_isKeyword⟩
  rw [endsWord] at hword
  rw [attaches] at h
  cases hlast : t.getLast? with
  | none => simp [hlast] at hword
  | some c =>
    rw [hlast, Option.any_some] at hword
    simp only [hlast, hword, Bool.true_and, Bool.or_eq_true, not_or] at h
    simpa using h.2

theorem not_attaches {c : Char} (hlast : t.getLast? = some c) (hword : ¬isIdentChar c)
    (hmark : c ∉ [']', '}', '"', '\'', '.']) : ¬attaches t := by
  rw [attaches, hlast]
  simpa [hword] using hmark

theorem callSite?_not_attaches (h : callSite? t = some site) : ¬attaches site.before := by
  obtain ⟨rs₁, lead, call, rs₂, s, hrs, hs, hlead, -, rfl⟩ := callSite?_cases h
  have hruns := areRuns_outline t
  rw [hrs] at hruns
  obtain ⟨g, gs, rfl, hgap⟩ := CallSite.ofGroups?_before hs
  dsimp only
  rw [hgap]
  obtain ⟨rfl, hfirst⟩ | ⟨g', rfl, -⟩ := hlead
  · have hattaches := hruns.attaches_eq g rfl
    rw [Run.text, List.flatMap_nil, List.nil_append, hattaches]
    exact hfirst g rfl
  · have hblank : isBlank g.gap := hruns.joined ([g'] ++ g :: gs) (by simp) g (by simp)
    have hlast : (rs₁.flatMap Run.text ++ Run.text [g']).getLast? = some ')' := by
      have htext : Run.text [g'] = g'.gap ++ '(' :: g'.inner ++ [')'] := by
        simp [Run.text, Group.text]
      rw [htext, ← List.append_assoc, List.getLast?_concat]
    rw [← List.append_assoc]
    obtain hnil | ⟨gap, c, hc⟩ := List.eq_nil_or_concat g.gap
    · rw [hnil, List.append_nil]
      exact not_attaches hlast (by decide +kernel) (by decide)
    · have hgapLast : c ∈ g.gap := by simp [hc]
      have hcblank : CallChain.isBlank c := List.all_eq_true.1 hblank c hgapLast
      refine not_attaches (c := c) ?_ (not_isIdentChar_of_isBlank hcblank) ?_
      · rw [hc, List.concat_eq_append, ← List.append_assoc, List.getLast?_concat]
      · intro hmark
        have hall : [']', '}', '"', '\'', '.'].all (!CallChain.isBlank ·) := by decide
        have hno := List.all_eq_true.1 hall c hmark
        simp [hcblank] at hno

end Text

theorem Context.mem_nodes_plug {l d : Expr} (c : Context) (h : l ∈ d.nodes) :
    l ∈ (c.plug d).nodes := by
  induction c with
  | nil => exact h
  | cons f c ih => exact f.mem_nodes_plug ih

namespace Expr

variable {s : Settings} {mode : BindMode} {text : Text} {d e l r : Expr} {es : List Expr}

theorem mem_nodes_trans (hl : l ∈ d.nodes) (hd : d ∈ e.nodes) : l ∈ e.nodes := by
  obtain ⟨c, rfl⟩ := mem_nodes_iff.1 hd
  exact c.mem_nodes_plug hl

theorem python_isInfix {nested : Bool} (h : e.CallsFit) (hd : d ∈ e.nodes)
    (hroot : d.python nested = d.python true) : d.python true <:+: e.python nested := by
  obtain ⟨c, rfl⟩ := mem_nodes_iff.1 hd
  cases c with
  | nil => exact ⟨[], [], by rw [List.append_nil, List.nil_append]; exact hroot.symm⟩
  | cons f c =>
    obtain ⟨g, hg, hframe⟩ := Frame.wraps_python h nested
    obtain ⟨g', hg', hcontext⟩ := Context.wraps_python (c := c) (d := d) fun d' hd' ↦
      h d' (f.mem_nodes_plug hd')
    obtain ⟨before, after, hwraps⟩ := hg.comp hg'
    refine ⟨before, after, ?_⟩
    rw [Context.plug, hframe, hcontext]
    exact (hwraps _).symm

mutual

theorem mem_nodes_of_mem_flat : ∀ e : Expr, l ∈ e.flat → l ∈ e.nodes ∧ ∀ parts, l ≠ .concat parts
  | .concat parts, h => by
    obtain ⟨hmem, hconcat⟩ := mem_nodesAll_of_mem_flatAll parts h
    exact ⟨List.mem_cons_of_mem _ hmem, hconcat⟩
  | .raw _, h | .call _ _, h | .bind _ _ _, h | .range _ _ _, h => by
    cases List.mem_singleton.1 h
    exact ⟨mem_nodes_self _, nofun⟩

theorem mem_nodesAll_of_mem_flatAll : ∀ es : List Expr, l ∈ flatAll es →
    l ∈ nodesAll es ∧ ∀ parts, l ≠ .concat parts
  | e :: es, h => by
    rcases List.mem_append.1 h with h | h
    · obtain ⟨hmem, hconcat⟩ := mem_nodes_of_mem_flat e h
      exact ⟨List.mem_append_left _ hmem, hconcat⟩
    · obtain ⟨hmem, hconcat⟩ := mem_nodesAll_of_mem_flatAll es h
      exact ⟨List.mem_append_right _ hmem, hconcat⟩

end

mutual

theorem flatten_flat : ∀ e : Expr, (e.flat.map (python true)).flatten = e.python true
  | .concat parts => flatten_flatAll parts
  | .raw _ | .call _ _ | .bind _ _ _ | .range _ _ _ => List.append_nil _

theorem flatten_flatAll : ∀ es : List Expr,
    ((flatAll es).map (python true)).flatten = (pythonAll es).flatten
  | [] => rfl
  | e :: es => by
    rw [flatAll, pythonAll, List.map_append, List.flatten_append, List.flatten_cons,
      flatten_flat e, flatten_flatAll es]

end

theorem WellFormed.getLast?_python (h : e.WellFormed) (hd : d ∈ e.nodes) (hl : l ∈ d.flat)
    (hraw : l.isRaw = false) : (l.python true).getLast? = some ')' := by
  obtain ⟨hl, hconcat⟩ := mem_nodes_of_mem_flat d hl
  replace hl := mem_nodes_trans hl hd
  have hsound := h l hl
  cases l with
  | raw t => cases hraw
  | concat parts => exact absurd rfl (hconcat parts)
  | call callee arguments =>
    have hfits : callee.Fits arguments := hsound
    rw [python_call, hfits.lookup]
    exact Callee.getLast?_python _ _
  | bind target value mode =>
    cases value with
    | call callee arguments =>
      have hmem : Expr.call callee arguments ∈ e.nodes := mem_nodes_trans (by simp) hl
      have hfits : callee.Fits arguments := h _ hmem
      have hbound : ((Expr.bound mode (.call (.ofName callee.name) arguments)
          (some target)).python true).getLast? = some ')' := getLast?_python_bound _ _ _ _
      rw [← hfits.lookup] at hbound
      exact hbound
    | raw | concat | bind | range => cases hsound.2
  | range => exact hsound.elim

theorem mem_nodes_joined (h : d ∈ (joined es).nodes) : d = joined es ∨ ∃ e ∈ es, d ∈ e.nodes := by
  have hparts : ∀ e ∈ es.filter (!·.isEmpty), e ∈ es := fun e he ↦ (List.mem_filter.1 he).1
  rw [joined] at h ⊢
  generalize es.filter (!·.isEmpty) = parts at h hparts ⊢
  rcases parts with - | ⟨e, - | ⟨e', rest⟩⟩
  · exact .inl (List.mem_singleton.1 h)
  · exact .inr ⟨e, hparts e (by simp), h⟩
  · rw [nodes_concat, List.mem_cons, List.mem_flatMap] at h
    refine h.imp id ?_
    rintro ⟨part, hpart, hd⟩
    exact ⟨part, hparts part hpart, hd⟩

section

variable {parts : List Expr}

theorem exists_argument_of_concat {function : Text} {leading : Option Argument}
    {arguments : List Argument} (h : (ofCall s mode function leading arguments).outcome = .ok e)
    (hd : concat parts ∈ e.nodes) :
    ∃ a ∈ leading.toList ++ arguments, concat parts ∈ a.value.nodes := by
  have hraw : ∀ t, concat parts ∉ (raw t).nodes := by simp
  obtain ⟨-, rfl⟩ := ofCall_ok_iff.1 h
  have htarget := isAssignable_bindTarget (Flag.split function).1 leading
    ((Callee.ofName (Flag.split function).2).complete s.placeholder (leading.toList ++ arguments))
  have hcall : concat parts ∈ (call (.ofName (Flag.split function).2)
      ((Callee.ofName (Flag.split function).2).complete s.placeholder
        (leading.toList ++ arguments))).nodes := by
    revert hd htarget
    generalize bindTarget _ _ _ = target
    intro hd htarget
    cases target with
    | none => exact hd
    | some t =>
      have ht := htarget t rfl
      cases t with
      | raw t =>
        rw [bound, nodes_bind, List.mem_cons, List.mem_append] at hd
        obtain hd | hd | hd := hd
        · cases hd
        · exact absurd hd (hraw t)
        · exact hd
      | concat | call | bind | range => cases ht
  rw [nodes_call, List.mem_cons, List.mem_flatMap] at hcall
  obtain hcall | ⟨value, hvalue, hd⟩ := hcall
  · cases hcall
  · obtain ⟨i, rfl⟩ | ⟨a, ha, rfl⟩ := Callee.mem_complete hvalue
    · exact absurd hd (hraw _)
    · exact ⟨a, ha, hd⟩

/-- Every concatenation in an expression is itself read from a text. -/
theorem exists_text_of_concat (h : (ofText s mode text).outcome = .ok e)
    (hd : concat parts ∈ e.nodes) :
    ∃ mode' text', (ofText s mode' text').outcome = .ok (concat parts) := by
  induction text using text_induction generalizing mode e with
  | leave t hnone =>
    obtain ⟨-, rfl⟩ := (ofText_ok_iff_of_none hnone).1 h
    cases List.mem_singleton.1 hd
  | call t site hsite ihbefore ihtarget iharguments =>
    have hwhole := h
    obtain ⟨-, before, call, hread, hbefore, rfl⟩ := (ofText_ok_iff hsite).1 h
    obtain ⟨-, leading, arguments, hl, ha, hcall⟩ := CallSite.read_ok_iff.1 hread
    have hleading := Argument.forall_value hl fun u hu e he ↦ ihtarget u (Option.mem_toList.1 hu) he
    have harguments := Argument.forall_value ha fun u hu e he ↦ iharguments u hu he
    obtain hroot | ⟨part, hpart, hnode⟩ := mem_nodes_joined hd
    · exact ⟨mode, t, by rw [hroot, hwhole]⟩
    · simp only [List.mem_cons, List.not_mem_nil, or_false] at hpart
      obtain rfl | rfl | rfl := hpart
      · exact ihbefore hbefore hnode
      · obtain ⟨a, hmem, hvalue⟩ := exists_argument_of_concat hcall hnode
        exact List.forall_mem_append.2 ⟨hleading, harguments⟩ a hmem hvalue
      · cases List.mem_singleton.1 hnode

end

theorem parts_of_site {site : CallSite} (hsite : Text.callSite? text = some site)
    (h : (ofText s mode text).outcome = .ok e) :
    ∃ before call, (ofText s .inline site.before).outcome = .ok before ∧ call.isRaw = false ∧
      e.parts = before.parts ++ call :: (raw site.after).parts := by
  obtain ⟨-, before, call, hread, hbefore, rfl⟩ := (ofText_ok_iff hsite).1 h
  have hraw : call.isRaw = false := by
    obtain ⟨-, leading, arguments, -, -, hcall⟩ := CallSite.read_ok_iff.1 hread
    obtain ⟨-, rfl⟩ := ofCall_ok_iff.1 hcall
    rw [bound.eq_def]
    split <;> rfl
  refine ⟨before, call, hbefore, hraw, ?_⟩
  rw [parts_joined]
  simp [(read_parts hread).1]

theorem attaches_of_getLast? (h : (ofText s mode text).outcome = .ok e) {t : Text}
    (hlast : e.parts.getLast? = some (.raw t)) : Text.attaches t = Text.attaches text := by
  cases hsite : Text.callSite? text with
  | none =>
    obtain ⟨-, rfl⟩ := (ofText_ok_iff_of_none hsite).1 h
    cases text with
    | nil => cases hlast
    | cons c text =>
      cases hlast
      rfl
  | some site =>
    obtain ⟨before, call, -, hraw, hparts⟩ := parts_of_site hsite h
    rw [hparts, List.getLast?_append_cons] at hlast
    cases hafter : site.after with
    | nil =>
      rw [hafter] at hlast
      cases hlast
      cases hraw
    | cons c after =>
      rw [hafter] at hlast
      cases hlast
      obtain ⟨u, rfl⟩ := Text.callSite?_isSuffix hsite
      rw [hafter, List.append_cons, Text.attaches_append List.getLast?_concat (by decide)
        (by simp)]

theorem not_attaches_of_mem_dropLast (h : (ofText s mode text).outcome = .ok e) {t : Text}
    (ht : .raw t ∈ e.parts.dropLast) : ¬Text.attaches t := by
  induction text using text_induction generalizing mode e with
  | leave u hnone =>
    obtain ⟨-, rfl⟩ := (ofText_ok_iff_of_none hnone).1 h
    cases u <;> cases ht
  | call u site hsite ihbefore _ _ =>
    obtain ⟨before, call, hbefore, hraw, hparts⟩ := parts_of_site hsite h
    rw [hparts, List.dropLast_append_of_ne_nil (List.cons_ne_nil _ _), List.mem_append] at ht
    obtain ht | ht := ht
    · obtain hnil | ⟨ps, p, hp⟩ := List.eq_nil_or_concat before.parts
      · rw [hnil] at ht
        cases ht
      · rw [hp, List.concat_eq_append, List.mem_append, List.mem_singleton] at ht
        obtain ht | rfl := ht
        · apply ihbefore hbefore
          rwa [hp, List.concat_eq_append, List.dropLast_concat]
        · have hlast : before.parts.getLast? = some (.raw t) := by
            rw [hp, List.concat_eq_append, List.getLast?_concat]
          rw [attaches_of_getLast? hbefore hlast]
          exact Text.callSite?_not_attaches hsite
    · have hcall : .raw t = call := by
        cases hafter : site.after <;> simp_all [parts, isEmpty, flat]
      rw [← hcall] at hraw
      cases hraw

/-- Two parts that follow each other are written one right behind the other. They run together
exactly if the first one is text that ends with a keyword, and the second one starts with a word. -/
theorem ofText_junctions (h : (ofText s mode text).outcome = .ok e) (hd : d ∈ e.nodes)
    (hadjacent : [l, r] <:+: d.flat) (nested : Bool) :
    l.python true ++ r.python true <:+: e.python nested ∧
      (Text.fuses (l.python true) (r.python true) ↔
        ∃ t, l = .raw t ∧ Text.isKeyword (Text.lastWord t) ∧ Text.startsWord (r.python true)) := by
  obtain ⟨parts, rfl⟩ : ∃ parts, d = concat parts := by
    have hlength := hadjacent.length_le
    cases d with
    | concat parts => exact ⟨parts, rfl⟩
    | raw | call | bind | range => simp [flat] at hlength
  obtain ⟨us, vs, hflat⟩ := hadjacent
  constructor
  · refine List.IsInfix.trans ?_ (python_isInfix (callsFit_of_ofText h) hd rfl)
    rw [← flatten_flat (concat parts), ← hflat]
    exact ⟨(us.map (python true)).flatten, (vs.map (python true)).flatten, by simp⟩
  · obtain ⟨mode', text', hread⟩ := exists_text_of_concat h hd
    have hmem : l ∈ (concat parts).flat := by
      rw [← hflat]
      simp
    have hgap : ∀ t, l = .raw t → ¬Text.attaches t := by
      rintro t rfl
      apply not_attaches_of_mem_dropLast hread
      rw [parts_of_not_empty (by simp [isEmpty]), ← hflat, List.append_assoc,
        List.dropLast_append_of_ne_nil (by simp)]
      simp
    rw [Text.fuses, Bool.and_eq_true]
    constructor
    · rintro ⟨hends, hstarts⟩
      cases hraw : l.isRaw with
      | true =>
        cases l with
        | raw t => exact ⟨t, rfl, (Text.endsWord_iff (hgap t rfl)).1 hends, hstarts⟩
        | concat | call | bind | range => cases hraw
      | false =>
        have hlast := (wellFormed_of_ofText h).1.getLast?_python hd hmem hraw
        rw [Text.endsWord, hlast] at hends
        exact absurd hends (by decide +kernel)
    · rintro ⟨t, rfl, hkeyword, hstarts⟩
      exact ⟨Text.endsWord_of_isKeyword hkeyword, hstarts⟩

theorem ofText_junctions_argument : ∃ e d l r,
    (ofText {} .inline "(add)(x *(f)(1)if y, 2)".toList).outcome = .ok e ∧ d ∈ e.nodes ∧
      [l, r] <:+: d.flat ∧ l.python true = "f(1)".toList ∧ r.python true = "if y".toList ∧
      l.python true ++ r.python true <:+: e.python true ∧
      (Text.fuses (l.python true) (r.python true) ↔
        ∃ t, l = .raw t ∧ Text.isKeyword (Text.lastWord t) ∧ Text.startsWord (r.python true)) := by
  let call : Expr := .call (.ofName ['f']) [.raw ['1']]
  let sum : Expr := .concat [.raw "x *".toList, call, .raw "if y".toList]
  have h : (ofText {} .inline "(add)(x *(f)(1)if y, 2)".toList).outcome =
      .ok (.call (.ofName "add".toList) [sum, .raw ['2']]) := by
    with_unfolding_all rfl
  have hd : sum ∈ (Expr.call (.ofName "add".toList) [sum, .raw ['2']]).nodes := by
    simp [sum]
  have hadjacent : [call, .raw "if y".toList] <:+: sum.flat := ⟨[.raw "x *".toList], [], rfl⟩
  exact ⟨_, sum, call, .raw "if y".toList, h, hd, hadjacent, by decide +kernel, rfl,
    ofText_junctions h hd hadjacent true⟩

/-- The parentheses behind a keyword are all that divides it from the call. -/
theorem keyword_fused_with_call : ∃ e,
    (ofText {} .statement "return(f)(1)".toList).outcome = .ok e ∧
      e.flat.map (python true) = ["return".toList, "f(1)".toList] ∧
      Text.fuses "return".toList "f(1)".toList ∧ e.python false = "returnf(1)".toList := by
  refine ⟨.concat [.raw "return".toList, .call (.ofName ['f']) [.raw ['1']]], ?_, ?_, ?_, ?_⟩
  · with_unfolding_all rfl
  · decide +kernel
  · decide +kernel
  · decide +kernel

end Expr

end CallChain
