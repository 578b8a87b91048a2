import CallChain.Proofs.CallTree
import CallChain.Proofs.WellFormed

namespace CallChain

namespace Text

variable {t path : Text}

structure IsPath (t : Text) : Prop where
  starts : startsIdent t
  chars : ∀ c ∈ t, isIdentChar c ∨ c = '.'
  not_constant : ¬isConstant t
  not_keyword : ¬isKeyword t

/-- The kinds of target. Of a subscript only the two ends are certain. -/
inductive IsTarget : Text → Prop
  | name {t : Text} : IsPath t → '.' ∉ t → IsTarget t
  | member {t : Text} : IsPath t → '.' ∈ t → IsTarget t
  | subscript {path : Text} (inside : Text) :
      IsPath path → IsTarget (path ++ '[' :: inside ++ [']'])

theorem exists_inside {first last : Char} (hne : first ≠ last) (hfirst : t.head? = some first)
    (hlast : t.getLast? = some last) : ∃ inside, t = first :: inside ++ [last] := by
  obtain ⟨u, rfl⟩ := List.getLast?_eq_some_iff.1 hlast
  cases u with
  | nil => exact absurd (Option.some.inj hfirst).symm hne
  | cons c inside =>
    cases hfirst
    exact ⟨inside, rfl⟩

theorem isAssignable_cases (h : isAssignable t) : ∃ path rest, t = path ++ rest ∧ IsPath path ∧
    (rest = [] ∨ (∃ inside, rest = '[' :: inside ++ [']']) ∧ (outline rest).groups = []) := by
  simp only [isAssignable, Bool.and_eq_true, Bool.or_eq_true, Bool.not_eq_true'] at h
  obtain ⟨⟨⟨hstarts, hconstant⟩, hkeyword⟩, hrest⟩ := h
  refine ⟨_, _, (t.takeWhile_append_dropWhile (p := fun c ↦ isIdentChar c || c = '.')).symm,
    ⟨hstarts, fun c hc ↦ ?_, by simp [hconstant], by simp [hkeyword]⟩, ?_⟩
  · simpa using List.mem_takeWhile_imp hc
  · obtain hnil | ⟨⟨hopen, hclose⟩, hgroups⟩ := hrest
    · exact .inl (List.isEmpty_iff.1 hnil)
    · exact .inr ⟨exists_inside (by decide) (of_decide_eq_true hopen) (of_decide_eq_true hclose),
        List.isEmpty_iff.1 hgroups⟩

theorem isTarget_of_isAssignable (h : isAssignable t) : IsTarget t := by
  obtain ⟨path, rest, rfl, hpath, rfl | ⟨⟨inside, rfl⟩, -⟩⟩ := isAssignable_cases h
  · rw [List.append_nil]
    by_cases hdot : '.' ∈ path
    · exact .member hpath hdot
    · exact .name hpath hdot
  · rw [← List.append_assoc]
    exact .subscript inside hpath

theorem IsTarget.isIdentifier_iff (h : IsTarget t) : isIdentifier t ↔ '.' ∉ t ∧ '[' ∉ t := by
  constructor
  · intro hident
    exact ⟨not_mem_of_isIdentifier hident (by decide +kernel),
      not_mem_of_isIdentifier hident (by decide +kernel)⟩
  · rintro ⟨hdot, hbracket⟩
    cases h with
    | name hpath _ =>
      refine Bool.and_eq_true_iff.2 ⟨hpath.starts, List.all_eq_true.2 fun c hc ↦ ?_⟩
      refine (hpath.chars c hc).resolve_right ?_
      rintro rfl
      exact hdot hc
    | member _ hmem => exact absurd hmem hdot
    | subscript inside _ => simp at hbracket

end Text

namespace Expr

/-- A text bound by `:=` is a target of any kind. It is a plain name exactly if it has neither a dot
nor a bracket. -/
theorem ofText_inlineTargets {s : Settings} {mode : BindMode} {text : Text} {e target value : Expr}
    (h : (ofText s mode text).outcome = .ok e) (hmem : .bind target value .inline ∈ e.nodes) :
    ∃ t, target = .raw t ∧ t.IsTarget ∧ (Text.isIdentifier t ↔ '.' ∉ t ∧ '[' ∉ t) := by
  obtain ⟨htarget, -⟩ : target.isAssignable ∧ value.isCall := (wellFormed_of_ofText h).1 _ hmem
  cases target with
  | raw t =>
    have ht := Text.isTarget_of_isAssignable htarget
    exact ⟨t, rfl, ht, ht.isIdentifier_iff⟩
  | concat | call | bind | range => simp [isAssignable] at htarget

theorem ofText_inlineTargets_nested : ∃ e member plain,
    (ofText {} .statement "(d[k])(f)((p.q)(g)(), (x)(h)())".toList).outcome = .ok e ∧
      .bind (.raw "p.q".toList) member .inline ∈ e.nodes ∧
      .bind (.raw ['x']) plain .inline ∈ e.nodes ∧
      (∃ t, .raw "p.q".toList = Expr.raw t ∧ t.IsTarget ∧
        (Text.isIdentifier t ↔ '.' ∉ t ∧ '[' ∉ t)) ∧
      (∃ t, .raw ['x'] = Expr.raw t ∧ t.IsTarget ∧
        (Text.isIdentifier t ↔ '.' ∉ t ∧ '[' ∉ t)) ∧
      ¬Text.isIdentifier "p.q".toList ∧ Text.isIdentifier ['x'] := by
  let member : Expr := .call (.ofName ['g']) [.raw "p.q".toList]
  let plain : Expr := .call (.ofName ['h']) [.raw ['x']]
  let outer : Expr := .call (.ofName ['f'])
    [.raw "d[k]".toList, .bind (.raw "p.q".toList) member .inline, .bind (.raw ['x']) plain .inline]
  have h : (ofText {} .statement "(d[k])(f)((p.q)(g)(), (x)(h)())".toList).outcome =
      .ok (.bind (.raw "d[k]".toList) outer .statement) := by
    with_unfolding_all rfl
  have hmember : .bind (.raw "p.q".toList) member .inline ∈
      (Expr.bind (.raw "d[k]".toList) outer .statement).nodes := by
    simp [outer]
  have hplain : .bind (.raw ['x']) plain .inline ∈
      (Expr.bind (.raw "d[k]".toList) outer .statement).nodes := by
    simp [outer]
  exact ⟨_, member, plain, h, hmember, hplain, ofText_inlineTargets h hmember,
    ofText_inlineTargets h hplain, by decide +kernel, by decide +kernel⟩

theorem ofText_bind_leaf (x : Leaf) (f : FunctionName) (hx : Text.isAssignable x.text)
    (hf : f.Takes 1) : (ofText {} .inline (Text.chained [x.text, f.text, []])).outcome =
      .ok (.bind (.raw x.text) (.call (.ofName f.text) [.raw x.text]) .inline) := by
  have hbind : (CallTree.bind x f []).WellFormed := .bind hx hf (by simp)
  exact hbind.isRead.outcome .inline

/-- Python refuses what is written for a subscript. -/
theorem inline_subscript_bound : ∃ value,
    (ofText {} .inline "(x[0])(f)()".toList).outcome =
      .ok (.bind (.raw "x[0]".toList) value .inline) ∧
    ¬Text.isIdentifier "x[0]".toList ∧
    (Expr.bind (.raw "x[0]".toList) value .inline).python false = "x[0] := f(x[0])".toList := by
  let x : Leaf := { text := "x[0]".toList }
  let f : FunctionName := { text := ['f'] }
  have hbound := ofText_bind_leaf x f (by decide +kernel) (by decide +kernel)
  exact ⟨_, hbound, by decide +kernel, by decide +kernel⟩

end Expr

end CallChain
