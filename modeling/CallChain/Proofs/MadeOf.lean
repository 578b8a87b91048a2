import CallChain.Proofs.Reading
import CallChain.Proofs.Words
import CallChain.Python

namespace CallChain

namespace Text

/-- The property passes from a text to the texts that are read in turn, and holds of what stands in
for a missing argument. -/
structure Inherited (P : Text → Prop) : Prop where
  site {t : Text} {site : CallSite} : callSite? t = some site → P t →
    P site.before ∧ (∀ u, site.leading? = some u → P u) ∧
      (∀ a ∈ arguments site.arguments, P a) ∧ P site.after
  default (function : Text) (i : Nat) : P ((Callee.ofName function).defaultAt i)

/-- The property is kept by everything that is written around texts. -/
structure Written (P : Text → Prop) : Prop where
  append {s t : Text} : P s → P t → P (s ++ t)
  plain {t : Text} : Plain t → '#' ∉ t → '\n' ∉ t → P t
  enclosed {t : Text} : P t → P ('(' :: t ++ [')'])
  template {b : Builtin} {ts : List Text} : b ∈ Builtin.table → (∀ t ∈ ts, P t) →
    P (b.template.fill ts)

namespace Written

variable {P : Text → Prop} {ts : List Text}

theorem flatten (hP : Written P) (h : ∀ t ∈ ts, P t) : P ts.flatten := by
  induction ts with
  | nil => exact hP.plain (by simp [Plain]) (by simp) (by simp)
  | cons t ts ih =>
    rw [List.flatten_cons]
    exact hP.append (h t (by simp)) (ih fun u hu ↦ h u (by simp [hu]))

theorem intercalate (hP : Written P) {separator : Text} (hs : P separator)
    (h : ∀ t ∈ ts, P t) : P (separator.intercalate ts) := by
  induction ts with
  | nil => exact hP.flatten (by simp)
  | cons t ts ih =>
    have ht := h t (by simp)
    cases ts with
    | nil => simpa [List.intercalate] using ht
    | cons u us =>
      have htail := ih fun x hx ↦ h x (by simp [hx])
      rw [List.intercalate_cons_cons]
      exact hP.append (hP.append ht hs) htail

theorem name (hP : Written P) {t : Text} (h : ∀ c ∈ t, isNameChar c) : P t := by
  have hno : ∀ c, ¬isNameChar c → c ∉ t := fun c hc hmem ↦ hc (h c hmem)
  exact hP.plain (fun c hc ↦ Role.of_name (h c hc)) (hno '#' (by decide)) (hno '\n' (by decide))

end Written

end Text

theorem Builtin.mem_of_lookup? {name : Text} {b : Builtin} (h : lookup? name = some b) :
    b ∈ table :=
  List.mem_of_find?_eq_some h

theorem Callee.defaultAt_holds {P : Text → Prop} (hnone : P noValue)
    (htable : ∀ b ∈ Builtin.table, ∀ p ∈ b.signature.params, ∀ t ∈ p.default, P t)
    (function : Text) (i : Nat) : P ((ofName function).defaultAt i) := by
  rw [ofName]
  cases hb : Builtin.lookup? function with
  | none => exact hnone
  | some b =>
    have hmem := Builtin.mem_of_lookup? hb
    simp only [defaultAt, Signature.defaultAt]
    cases hp : b.signature.params[i]? with
    | none => exact hnone
    | some p =>
      cases hd : p.default with
      | none => simpa [hd] using hnone
      | some t => simpa [hd] using htable b hmem p (List.mem_of_getElem? hp) t hd

theorem Callee.mem_complete {callee : Callee} {placeholder : Text} {given : List Argument}
    {e : Expr} (h : e ∈ callee.complete placeholder given) :
    (∃ i, e = .raw (callee.defaultAt i)) ∨ ∃ a ∈ given, e = a.value := by
  rw [complete, List.mem_append] at h
  obtain h | h := h
  · obtain ⟨i, hi, rfl⟩ := List.mem_mapIdx.1 h
    split
    · exact .inl ⟨i, rfl⟩
    · exact .inr ⟨_, List.getElem_mem hi, rfl⟩
  · obtain ⟨i, -, rfl⟩ := List.mem_map.1 h
    exact .inl ⟨i, rfl⟩

theorem Callee.python_written {P : Text → Prop} (hP : Text.Written P) {function : Text}
    {ts : List Text} (hf : ∀ c ∈ function, isNameChar c) (h : ∀ t ∈ ts, P t) :
    P ((ofName function).python ts) := by
  rw [ofName]
  cases hb : Builtin.lookup? function with
  | some b => exact hP.template (Builtin.mem_of_lookup? hb) h
  | none =>
    have hcomma : P ", ".toList := hP.plain (by decide) (by decide) (by decide)
    have hlist := hP.enclosed (hP.intercalate hcomma h)
    have hcall := hP.append (hP.name hf) hlist
    simpa [python] using hcall

namespace Expr

/-- Every text in the expression has the property. -/
inductive MadeOf (P : Text → Prop) : Expr → Prop
  | raw {t : Text} : P t → MadeOf P (.raw t)
  | concat {parts : List Expr} : (∀ e ∈ parts, MadeOf P e) → MadeOf P (.concat parts)
  | call {function : Text} {arguments : List Expr} : (∀ c ∈ function, isNameChar c) →
      (∀ e ∈ arguments, MadeOf P e) → MadeOf P (.call (.ofName function) arguments)
  | bind {target value : Expr} {mode : BindMode} : MadeOf P target → MadeOf P value →
      MadeOf P (.bind target value mode)
  | range {start stop step : Expr} : MadeOf P start → MadeOf P stop → MadeOf P step →
      MadeOf P (.range start stop step)

variable {P : Text → Prop} {s : Settings} {mode : BindMode} {text : Text} {e : Expr}

namespace MadeOf

theorem python (hP : Text.Written P) (h : e.MadeOf P) (nested : Bool) : P (e.python nested) := by
  induction h generalizing nested with
  | raw ht => exact ht
  | concat _ ih =>
    rw [python_concat, pythonAll_eq_map]
    refine hP.flatten fun t ht ↦ ?_
    obtain ⟨e, he, rfl⟩ := List.mem_map.1 ht
    exact ih e he true
  | call hf _ ih =>
    rw [python_call, pythonAll_eq_map]
    refine Callee.python_written hP hf fun t ht ↦ ?_
    obtain ⟨e, he, rfl⟩ := List.mem_map.1 ht
    exact ih e he true
  | @bind target value mode _ _ iht ihv =>
    have hop : P mode.operator := by
      cases mode <;> exact hP.plain (by decide) (by decide) (by decide)
    have hbinding := hP.append (hP.append (iht true) hop) (ihv true)
    rw [python_bind]
    split
    · exact hP.enclosed hbinding
    · exact hbinding
  | range _ _ _ ihstart ihstop ihstep =>
    have hcomma : P ", ".toList := hP.plain (by decide) (by decide) (by decide)
    have hname : P "range".toList := hP.plain (by decide) (by decide) (by decide)
    have hlist := hP.enclosed (hP.append (hP.append (hP.append (hP.append (ihstart true) hcomma)
      (ihstop true)) hcomma) (ihstep true))
    have hall := hP.append hname hlist
    simpa using hall

theorem joined {parts : List Expr} (hnil : P []) (h : ∀ e ∈ parts, e.MadeOf P) :
    (joined parts).MadeOf P := by
  have hparts : ∀ e ∈ parts.filter (!·.isEmpty), e.MadeOf P := fun e he ↦
    h e (List.mem_filter.1 he).1
  rw [Expr.joined]
  split
  · exact .raw hnil
  · rename_i part heq
    rw [heq] at hparts
    exact hparts part (by simp)
  · exact .concat hparts

theorem bound {call : Expr} {target : Option Expr} (hcall : call.MadeOf P)
    (ht : ∀ e ∈ target, e.MadeOf P) (mode : BindMode) : (bound mode call target).MadeOf P := by
  cases target with
  | none => exact hcall
  | some e => exact .bind (ht e rfl) hcall

end MadeOf

theorem complete_madeOf (hP : Text.Inherited P) (function placeholder : Text)
    {given : List Argument} (h : ∀ a ∈ given, a.value.MadeOf P) :
    ∀ e ∈ (Callee.ofName function).complete placeholder given, e.MadeOf P := by
  intro e he
  obtain ⟨i, rfl⟩ | ⟨a, ha, rfl⟩ := Callee.mem_complete he
  · exact .raw (hP.default function i)
  · exact h a ha

theorem bindTarget_madeOf {flag : Option Flag} {leading : Option Argument} {values : List Expr}
    (hleading : ∀ a ∈ leading.toList, a.value.MadeOf P) (hvalues : ∀ e ∈ values, e.MadeOf P) :
    ∀ e ∈ bindTarget flag leading values, e.MadeOf P := by
  intro e he
  rw [bindTarget.eq_def] at he
  split at he
  · exact hvalues e (List.mem_of_mem_head? (Option.filter_eq_some_iff.1 he).1)
  · simp at he
  · obtain ⟨a, ha, rfl⟩ := Option.map_eq_some_iff.1 (Option.filter_eq_some_iff.1 he).1
    exact hleading a (Option.mem_toList.2 ha)

theorem ofCall_madeOf (hP : Text.Inherited P) {function : Text} {leading : Option Argument}
    {arguments : List Argument} (hf : Text.isFunctionName function)
    (hleading : ∀ a ∈ leading.toList, a.value.MadeOf P)
    (harguments : ∀ a ∈ arguments, a.value.MadeOf P)
    (h : (ofCall s mode function leading arguments).outcome = .ok e) : e.MadeOf P := by
  obtain ⟨-, rfl⟩ := ofCall_ok_iff.1 h
  have hvalues := complete_madeOf hP (Flag.split function).2 s.placeholder
    (List.forall_mem_append.2 ⟨hleading, harguments⟩)
  exact .bound (.call (Text.isNameChar_of_isFunctionName hf) hvalues)
    (bindTarget_madeOf hleading hvalues) mode

theorem ofText_madeOf (hP : Text.Inherited P) (hnil : P []) (ht : P text)
    (h : (ofText s mode text).outcome = .ok e) : e.MadeOf P := by
  induction text using text_induction generalizing mode e with
  | leave t hnone =>
    obtain ⟨-, rfl⟩ := (ofText_ok_iff_of_none hnone).1 h
    exact .raw ht
  | call t site hsite ihbefore ihtarget iharguments =>
    obtain ⟨hbefore, htarget, harguments, hafter⟩ := hP.site hsite ht
    obtain ⟨-, before, call, hread, hbef, rfl⟩ := (ofText_ok_iff hsite).1 h
    obtain ⟨-, leading, arguments, hl, ha, hcall⟩ := CallSite.read_ok_iff.1 hread
    have hleading : ∀ a ∈ leading.toList, a.value.MadeOf P := by
      refine Argument.forall_value hl fun u hmem e ↦ ?_
      have hu := Option.mem_toList.1 hmem
      exact ihtarget u hu (htarget u hu)
    have hvalues : ∀ a ∈ arguments, a.value.MadeOf P :=
      Argument.forall_value ha fun u hmem e ↦ iharguments u hmem (harguments u hmem)
    refine .joined hnil ?_
    simp only [List.forall_mem_cons, List.not_mem_nil, false_implies, implies_true, and_true]
    exact ⟨ihbefore hbefore hbef,
      ofCall_madeOf hP (Text.callSite?_function hsite) hleading hvalues hcall, .raw hafter⟩

end Expr

end CallChain
