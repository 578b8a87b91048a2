import CallChain.Proofs.Contexts
import CallChain.Proofs.Infixes
import CallChain.Proofs.PythonBalance

namespace CallChain

theorem CallSite.bindMode_inline (site : CallSite) : site.bindMode .inline = .inline := ite_self _

namespace Expr

variable {P : Expr → Expr → BindMode → Prop} {s : Settings} {mode : BindMode} {text : Text}
  {e target value : Expr} {es : List Expr}

/-- Every binding in the expression has the property. -/
def EveryBinding (P : Expr → Expr → BindMode → Prop) (e : Expr) : Prop :=
  ∀ d ∈ e.nodes, ∀ target value mode, d = .bind target value mode → P target value mode

namespace EveryBinding

theorem raw (t : Text) : (raw t).EveryBinding P := forall_nodes_raw.2 (by simp)

theorem concat (h : ∀ e ∈ es, e.EveryBinding P) : (concat es).EveryBinding P :=
  forall_nodes_concat.2 ⟨by simp, h⟩

theorem call {callee : Callee} (h : ∀ e ∈ es, e.EveryBinding P) : (call callee es).EveryBinding P :=
  forall_nodes_call.2 ⟨by simp, h⟩

theorem of_isAssignable (h : e.isAssignable) : e.EveryBinding P := by
  cases e with
  | raw t => exact raw t
  | concat | call | bind | range => simp [isAssignable] at h

theorem bind (htarget : target.EveryBinding P) (hvalue : value.EveryBinding P)
    (h : P target value mode) : (bind target value mode).EveryBinding P := by
  refine forall_nodes_bind.2 ⟨?_, htarget, hvalue⟩
  rintro t v m ⟨⟩
  exact h

theorem range {start stop step : Expr} (hstart : start.EveryBinding P) (hstop : stop.EveryBinding P)
    (hstep : step.EveryBinding P) : (range start stop step).EveryBinding P :=
  forall_nodes_range.2 ⟨by simp, ⟨hstart, hstop⟩, hstep⟩

theorem joined (h : ∀ e ∈ es, e.EveryBinding P) : (joined es).EveryBinding P := by
  have hparts : ∀ e ∈ es.filter (!·.isEmpty), e.EveryBinding P := fun e he ↦
    h e (List.mem_filter.1 he).1
  rw [Expr.joined]
  split
  · exact raw []
  · rename_i part heq
    rw [heq] at hparts
    exact hparts part (by simp)
  · exact concat hparts

end EveryBinding

theorem ofCall_bound {function : Text} {leading : Option Argument} {arguments : List Argument}
    (hgiven : ∀ a ∈ leading.toList ++ arguments, a.value.EveryBinding P)
    (h : (ofCall s mode function leading arguments).outcome = .ok e) :
    ∃ value target, e = bound mode value target ∧ value.isCall ∧ value.EveryBinding P ∧
      ∀ t ∈ target, t.isAssignable := by
  obtain ⟨-, rfl⟩ := ofCall_ok_iff.1 h
  refine ⟨_, _, rfl, rfl, .call fun e he ↦ ?_, isAssignable_bindTarget _ _ _⟩
  obtain ⟨i, rfl⟩ | ⟨a, ha, rfl⟩ := Callee.mem_complete he
  · exact .raw _
  · exact hgiven a ha

def IsInline (_target _value : Expr) (mode : BindMode) : Prop := mode = .inline

theorem everyBinding_bound {target : Option Expr} (hvalue : value.EveryBinding P)
    (htarget : ∀ t ∈ target, t.isAssignable) (h : ∀ t ∈ target, P t value mode) :
    (bound mode value target).EveryBinding P := by
  cases target with
  | none => exact hvalue
  | some t => exact .bind (.of_isAssignable (htarget t rfl)) hvalue (h t rfl)

theorem ofText_inline (h : (ofText s .inline text).outcome = .ok e) : e.EveryBinding IsInline := by
  induction text using text_induction generalizing e with
  | leave t hnone =>
    obtain ⟨-, rfl⟩ := (ofText_ok_iff_of_none hnone).1 h
    exact .raw t
  | call t site hsite ihbefore ihtarget iharguments =>
    obtain ⟨-, before, call, hread, hbefore, rfl⟩ := (ofText_ok_iff hsite).1 h
    obtain ⟨-, leading, arguments, hl, ha, hcall⟩ := CallSite.read_ok_iff.1 hread
    have hleading := Argument.forall_value hl fun u hu e he ↦ ihtarget u (Option.mem_toList.1 hu) he
    have harguments := Argument.forall_value ha fun u hu e he ↦ iharguments u hu he
    obtain ⟨value, target, rfl, -, hvalue, htarget⟩ := ofCall_bound
      (List.forall_mem_append.2 ⟨hleading, harguments⟩) hcall
    refine .joined ?_
    simp only [List.forall_mem_cons, List.not_mem_nil, false_implies, implies_true, and_true]
    refine ⟨ihbefore hbefore, everyBinding_bound hvalue htarget fun _ _ ↦ ?_, .raw site.after⟩
    exact site.bindMode_inline

end Expr

namespace Text

variable {t u : Text} {site : CallSite}

theorem bindMode_of_trimmed (ht : trim t = t) (h : callSite? t = some site)
    (hne : ¬(site.before = [] ∧ site.after = [])) (mode : BindMode) :
    site.bindMode mode = .inline := by
  have hhead := head?_trim t
  have hlast := getLast?_trim t
  rw [ht] at hhead hlast
  by_cases hbefore : site.before = []
  · have hafter : site.after ≠ [] := fun hafter ↦ hne ⟨hbefore, hafter⟩
    have hsuffix := (List.suffix_cons _ _).trans (callSite?_isSuffix h)
    rw [getLast?_of_suffix hsuffix hafter] at hlast
    have hblank : ¬isBlank site.after := not_isBlank_of_getLast? hlast hafter
    simp [CallSite.bindMode, hblank]
  · have hblank : ¬isBlank site.before := by
      refine not_isBlank_of_head? (fun c hc ↦ hhead c ?_) hbefore
      obtain ⟨lead, function, gap, htext, -, -⟩ := callSite?_text h
      rw [htext, List.append_assoc, List.head?_append, Option.mem_def.1 hc]
      rfl
    simp [CallSite.bindMode, hblank]

end Text

namespace Expr

variable {s : Settings} {mode : BindMode} {text : Text} {e target value : Expr}

theorem MadeOf.nodes {P : Text → Prop} (h : e.MadeOf P) : ∀ d ∈ e.nodes, d.MadeOf P := by
  induction h with
  | raw ht => exact forall_nodes_raw.2 (.raw ht)
  | concat hparts ih => exact forall_nodes_concat.2 ⟨.concat hparts, ih⟩
  | call hf harguments ih => exact forall_nodes_call.2 ⟨.call hf harguments, ih⟩
  | bind htarget hvalue iht ihv => exact forall_nodes_bind.2 ⟨.bind htarget hvalue, iht, ihv⟩
  | range hstart hstop hstep ihstart ihstop ihstep =>
    exact forall_nodes_range.2 ⟨.range hstart hstop hstep, ⟨ihstart, ihstop⟩, ihstep⟩

def IsBalanced (target value : Expr) (_mode : BindMode) : Prop :=
  Text.Balanced (target.python true) ∧ Text.Balanced (value.python true)

theorem MadeOf.everyBinding (h : e.MadeOf Text.Balanced) : e.EveryBinding IsBalanced := by
  intro d hd target value mode hbind
  cases hbind ▸ h.nodes d hd with
  | bind htarget hvalue =>
    exact ⟨htarget.python Text.written_balanced true, hvalue.python Text.written_balanced true⟩

/-- Bindings are balanced also in a text that is not: what a call is read from is. -/
theorem ofText_isBalanced (h : (ofText s mode text).outcome = .ok e) :
    e.EveryBinding IsBalanced := by
  cases hsite : Text.callSite? text with
  | none =>
    obtain ⟨-, rfl⟩ := (ofText_ok_iff_of_none hsite).1 h
    exact .raw text
  | some site =>
    obtain ⟨hbal, -, hargs⟩ := Text.callSite?_balanced hsite
    obtain ⟨-, before, call, hread, hbefore, rfl⟩ := (ofText_ok_iff hsite).1 h
    obtain ⟨-, leading, arguments, hl, ha, hcall⟩ := CallSite.read_ok_iff.1 hread
    have hleading : ∀ a ∈ leading.toList, a.value.MadeOf Text.Balanced := by
      refine Argument.forall_value hl fun u hu e he ↦ ?_
      have hu := Text.leading?_balanced hsite (Option.mem_toList.1 hu)
      exact ofText_madeOf Text.inherited_balanced rfl hu he
    have harguments : ∀ a ∈ arguments, a.value.MadeOf Text.Balanced :=
      Argument.forall_value ha fun u hu e he ↦
        ofText_madeOf Text.inherited_balanced rfl (Text.arguments_balanced hargs u hu) he
    have hmade := ofCall_madeOf Text.inherited_balanced (Text.callSite?_function hsite) hleading
      harguments hcall
    refine .joined ?_
    simp only [List.forall_mem_cons, List.not_mem_nil, false_implies, implies_true, and_true]
    exact ⟨(ofText_madeOf Text.inherited_balanced rfl hbal hbefore).everyBinding,
      hmade.everyBinding, .raw site.after⟩

theorem not_isEmpty_of_ofText (h : (ofText s mode text).outcome = .ok e) (hne : text ≠ []) :
    e.isEmpty = false := by
  cases e with
  | raw t =>
    cases (wellFormed_of_ofText h).2 rfl
    simpa [isEmpty] using hne
  | concat | call | bind | range => rfl

theorem joined_alone (h : e.isEmpty = false) : joined [raw [], e, raw []] = e := by
  have hnil : (raw []).isEmpty = true := rfl
  simp [joined, h, hnil]

theorem joined_ne_bind {before call after : Expr} (hcall : call.isEmpty = false)
    (h : before.isEmpty = false ∨ after.isEmpty = false) :
    joined [before, call, after] ≠ .bind target value mode := by
  cases hb : before.isEmpty <;> cases ha : after.isEmpty <;> simp_all [joined]

/-- A line of code is a binding by `=` of an expression that binds by `:=`, or it is no binding. -/
theorem ofText_statement (ht : Text.trim text = text)
    (h : (ofText s .statement text).outcome = .ok e) :
    (∃ target value, e = .bind target value .statement ∧ target.EveryBinding IsInline ∧
      value.EveryBinding IsInline) ∨
    e.EveryBinding IsInline ∧ ∀ target value mode, e ≠ .bind target value mode := by
  cases hsite : Text.callSite? text with
  | none =>
    obtain ⟨-, rfl⟩ := (ofText_ok_iff_of_none hsite).1 h
    exact .inr ⟨.raw text, by simp⟩
  | some site =>
    obtain ⟨-, before, call, hread, hbefore, rfl⟩ := (ofText_ok_iff hsite).1 h
    obtain ⟨-, leading, arguments, hl, ha, hcall⟩ := CallSite.read_ok_iff.1 hread
    have hleading := Argument.forall_value hl fun u _ e he ↦ ofText_inline he
    have harguments := Argument.forall_value ha fun u _ e he ↦ ofText_inline he
    obtain ⟨value, target, rfl, hvalue, hinline, htarget⟩ := ofCall_bound
      (List.forall_mem_append.2 ⟨hleading, harguments⟩) hcall
    have hempty : (bound (site.bindMode .statement) value target).isEmpty = false := by
      cases target with
      | none => cases value <;> simp_all [bound, isCall, isEmpty]
      | some t => rfl
    by_cases hwhole : site.before = [] ∧ site.after = []
    · have hmode : site.bindMode .statement = .statement := by
        rw [CallSite.bindMode, hwhole.1, hwhole.2]
        rfl
      rw [hwhole.1, ofText_nil, Except.ok.injEq] at hbefore
      rw [← hbefore, hwhole.2, joined_alone hempty, hmode]
      cases target with
      | none =>
        refine .inr ⟨hinline, fun t v m hbind ↦ ?_⟩
        rw [bound] at hbind
        simp [hbind, isCall] at hvalue
      | some t => exact .inl ⟨t, value, rfl, .of_isAssignable (htarget t rfl), hinline⟩
    · rw [Text.bindMode_of_trimmed ht hsite hwhole] at hempty ⊢
      refine .inr ⟨.joined ?_, fun t v m ↦ joined_ne_bind hempty ?_⟩
      · simp only [List.forall_mem_cons, List.not_mem_nil, false_implies, implies_true, and_true]
        exact ⟨ofText_inline hbefore, everyBinding_bound hinline htarget fun _ _ ↦ rfl,
          .raw site.after⟩
      · rw [not_and_or] at hwhole
        refine hwhole.imp (not_isEmpty_of_ofText hbefore) fun hafter ↦ ?_
        simpa [isEmpty] using hafter

theorem mode_of_plug (ht : Text.trim text = text) (h : (ofText s .statement text).outcome = .ok e)
    {c : Context} (hbind : e = c.plug (.bind target value mode)) : mode = .statement ↔ c = [] := by
  have hmem : .bind target value mode ∈ e.nodes := mem_nodes_iff.2 ⟨c, hbind⟩
  obtain ⟨t, v, rfl, htarget, hvalue⟩ | ⟨hinline, hne⟩ := ofText_statement ht h
  · cases c with
    | nil =>
      cases hbind
      simp
    | cons f c =>
      have hin : mode = .inline := by
        cases f <;> cases hbind
        · exact htarget _ (mem_nodes_iff.2 ⟨c, rfl⟩) _ _ _ rfl
        · exact hvalue _ (mem_nodes_iff.2 ⟨c, rfl⟩) _ _ _ rfl
      simp [hin]
  · have hin : mode = .inline := hinline _ hmem _ _ _ rfl
    have hc : c ≠ [] := by
      rintro rfl
      exact hne _ _ _ hbind
    simp [hin, hc]

/-- What writing the expression relies on. -/
structure Writable (e : Expr) : Prop where
  calls : e.CallsFit
  bindings : e.EveryBinding IsBalanced

theorem callsFit_of_ofText (h : (ofText s mode text).outcome = .ok e) : e.CallsFit := by
  rintro _ hd callee arguments rfl
  exact (wellFormed_of_ofText h).1 _ hd

theorem ofText_writable (h : (ofText s mode text).outcome = .ok e) : e.Writable :=
  ⟨callsFit_of_ofText h, ofText_isBalanced h⟩

theorem Writable.range {start stop step : Expr} (hstart : start.Writable) (hstop : stop.Writable)
    (hstep : step.Writable) : (range start stop step).Writable :=
  ⟨forall_nodes_range.2 ⟨by simp, ⟨hstart.calls, hstop.calls⟩, hstep.calls⟩,
    .range hstart.bindings hstop.bindings hstep.bindings⟩

end Expr

namespace Statement

variable {s : Settings} {code : Text} {slot : Slot} {e : Expr}

theorem ofLoop_slot {target iterable : Text}
    (h : (ofLoop s target iterable).outcome = .ok (slot.plug e)) :
    slot ≠ .whole ∧ e.Writable ∧ e.EveryBinding Expr.IsInline := by
  obtain ⟨i, start, stop, step, -, hstart, hstop, hstep, heq⟩ | ⟨e', he, heq⟩ := ofLoop_ok h
  · cases slot <;> cases heq
    exact ⟨by simp, .range (Expr.ofText_writable hstart) (Expr.ofText_writable hstop)
      (Expr.ofText_writable hstep), .range (Expr.ofText_inline hstart) (Expr.ofText_inline hstop)
      (Expr.ofText_inline hstep)⟩
  · cases slot <;> cases heq
    exact ⟨by simp, Expr.ofText_writable he, Expr.ofText_inline he⟩

/-- Only a line that is an expression is read by statement, all others bind inline. -/
theorem ofCode_slot (h : (ofCode s code).outcome = .ok (slot.plug e)) :
    e.Writable ∧ (slot = .whole ∧ (Expr.ofText s .statement code).outcome = .ok e ∨
      slot ≠ .whole ∧ e.EveryBinding Expr.IsInline) := by
  rw [ofCode] at h
  cases hheading : Heading.ofCode code with
  | loop target iterable =>
    rw [hheading] at h
    obtain ⟨hslot, hwritable, hinline⟩ := ofLoop_slot h
    exact ⟨hwritable, .inr ⟨hslot, hinline⟩⟩
  | guarded guard test =>
    rw [hheading] at h
    obtain ⟨e', he, heq⟩ := Logged.outcome_map_eq_ok.1 h
    cases slot <;> cases heq
    exact ⟨Expr.ofText_writable he, .inr ⟨by simp, Expr.ofText_inline he⟩⟩
  | verbatim =>
    rw [hheading] at h
    cases slot <;> cases h
  | plain =>
    rw [hheading] at h
    obtain ⟨e', he, heq | heq | ⟨target, value, e'', -, hvalue, heq⟩⟩ := ofPlain_ok h
    · cases slot <;> cases heq
      exact ⟨Expr.ofText_writable he, .inl ⟨rfl, he⟩⟩
    · cases slot <;> cases heq
    · cases slot <;> cases heq
      exact ⟨Expr.ofText_writable hvalue, .inr ⟨by simp, Expr.ofText_inline hvalue⟩⟩

end Statement

/-- How a binding is written, by its place in a statement. Nested in a larger expression it has
parentheses of its own, in the middle of a line that is otherwise the same whatever stands at its
place. -/
inductive BindingForm (target value : Expr) : Slot → Context → BindMode → Text → Prop
  | assignment : BindingForm target value .whole [] .statement
      (target.python true ++ " = ".toList ++ value.python true)
  | test (guard : Guard) : BindingForm target value (.test guard) [] .inline
      (guard.keyword ++ ' ' :: (target.python true ++ " := ".toList ++ value.python true) ++ [':'])
  | nested {slot : Slot} {c : Context} {before after : Text} : slot.nests ∨ c ≠ [] →
      (∀ e, (slot.plug (c.plug e)).python = before ++ e.python true ++ after) →
      BindingForm target value slot c .inline (before ++
        ('(' :: (target.python true ++ " := ".toList ++ value.python true) ++ [')']) ++ after)

theorem Statement.ofCode_bindingForm {s : Settings} {code : Text} {slot : Slot} {c : Context}
    {target value : Expr} {mode : BindMode} (hcode : Text.trim code = code)
    (h : (ofCode s code).outcome = .ok (slot.plug (c.plug (.bind target value mode)))) :
    BindingForm target value slot c mode (slot.plug (c.plug (.bind target value mode))).python ∧
      target.IsBalanced value mode := by
  obtain ⟨hwritable, hslot⟩ := ofCode_slot h
  have hmem : .bind target value mode ∈ (c.plug (.bind target value mode)).nodes :=
    Expr.mem_nodes_iff.2 ⟨c, rfl⟩
  refine ⟨?_, hwritable.bindings _ hmem _ _ _ rfl⟩
  by_cases hplace : slot.nests ∨ c ≠ []
  · have hmode : mode = .inline := by
      obtain ⟨rfl, he⟩ | ⟨-, hinline⟩ := hslot
      · have hne : mode ≠ .statement := by
          rw [ne_eq, Expr.mode_of_plug hcode he rfl]
          exact hplace.resolve_left Bool.false_ne_true
        cases mode with
        | statement => exact absurd rfl hne
        | inline => rfl
      · exact hinline _ hmem _ _ _ rfl
    subst hmode
    obtain ⟨g, ⟨before, after, hg⟩, haround⟩ := Slot.wraps_python_plug hwritable.calls hplace
    simp only [hg] at haround
    rw [haround]
    exact .nested hplace haround
  · rw [not_or, not_not] at hplace
    obtain ⟨hnests, rfl⟩ := hplace
    cases slot with
    | iterable _ | assigned _ => exact absurd rfl hnests
    | test guard =>
      obtain ⟨⟨⟩, -⟩ | ⟨-, hinline⟩ := hslot
      cases hinline _ hmem _ _ _ rfl
      exact .test guard
    | whole =>
      obtain ⟨-, he⟩ | ⟨hne, -⟩ := hslot
      · cases (Expr.mode_of_plug hcode he rfl).2 rfl
        exact .assignment
      · exact absurd rfl hne

namespace Program

variable {s : Settings} {source : Text} {p : Program}

/-- A line that is all one binding assigns by `=`, and no other binding does. The others are written
by `:=`, in parentheses unless they are the whole test of a guard. -/
theorem ofSource_bindingForm (h : (ofSource s source).outcome = .ok p) {line : Line}
    (hline : line ∈ p) {slot : Slot} {c : Context} {target value : Expr} {mode : BindMode}
    (hbind : line.statement = slot.plug (c.plug (.bind target value mode))) :
    BindingForm target value slot c mode line.statement.python ∧ target.IsBalanced value mode := by
  obtain ⟨l, hl, hread⟩ := exists_isRead h hline
  have hne : l.code ≠ [] := by
    intro hnil
    have hblank := hread.blank hnil
    rw [hbind] at hblank
    cases slot <;> simp [Slot.plug] at hblank
  have hcode := hread.code hne
  rw [hbind] at hcode ⊢
  exact Statement.ofCode_bindingForm (SourceLine.trim_code hl) hcode

set_option maxRecDepth 20000 in
theorem ofSource_bindingForm_nested :
    let test : Expr := .call (.ofName "sub".toList) [.raw ['n'], .raw ['1']]
    let inner : Expr := .call (.ofName ['g']) [.raw ['z']]
    let outer : Expr := .call (.ofName "add".toList) [.raw ['y'], .bind (.raw ['z']) inner .inline]
    let place : Context :=
      [.value (.raw ['y']) .statement, .argument (.ofName "add".toList) [.raw ['y']] []]
    let p : Program := [⟨0, .guarded .ifTest (.bind (.raw ['n']) test .inline), none⟩,
      ⟨1, .expr (.bind (.raw ['y']) outer .statement), none⟩]
    (ofSource {} "if (n)(sub)(1):\n  (y)(add)((z)(g)())".toList).outcome = .ok p ∧
      BindingForm (.raw ['n']) test (.test .ifTest) [] .inline "if n := (n - 1):".toList ∧
      BindingForm (.raw ['y']) outer .whole [] .statement "y = (y + (z := g(z)))".toList ∧
      BindingForm (.raw ['z']) inner .whole place .inline "y = (y + (z := g(z)))".toList := by
  intro test inner outer place p
  have h : (ofSource {} "if (n)(sub)(1):\n  (y)(add)((z)(g)())".toList).outcome = .ok p := by
    with_unfolding_all rfl
  have htest : (Statement.guarded .ifTest (.bind (.raw ['n']) test .inline)).python =
      "if n := (n - 1):".toList := by decide +kernel
  have hline : (Statement.expr (.bind (.raw ['y']) outer .statement)).python =
      "y = (y + (z := g(z)))".toList := by decide +kernel
  refine ⟨h, ?_, ?_, ?_⟩
  · rw [← htest]
    exact (ofSource_bindingForm h (.head _) rfl).1
  · rw [← hline]
    exact (ofSource_bindingForm h (.tail _ (.head _)) rfl).1
  · rw [← hline]
    exact (ofSource_bindingForm h (.tail _ (.head _)) rfl).1

end Program

end CallChain
