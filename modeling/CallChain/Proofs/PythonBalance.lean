import CallChain.Proofs.MadeOf

namespace CallChain

namespace Template

/-- Every hole stands outside string literals, when the template is read from the state. -/
def holesInCode (n : Nesting) : Template → Bool
  | [] => true
  | .text t :: ps => holesInCode (n.after t) ps
  | .hole _ :: ps => n.place = .code && holesInCode n ps
  | .all :: ps => n.place = .code && holesInCode n ps

theorem fill_reads {template : Template} {n m : Nesting} {arguments : List Text}
    (holes : template.holesInCode n) (h : n.Reads (template.fill []) m)
    (hargs : ∀ a ∈ arguments, Text.Balanced a) : n.Reads (template.fill arguments) m := by
  induction template generalizing n with
  | nil => exact h
  | cons p ps ih =>
    rw [fill, List.flatMap_cons] at h ⊢
    obtain ⟨hp, hps⟩ := h.split
    cases p with
    | text t => exact hp.trans (ih holes hps)
    | hole i =>
      rw [holesInCode, Bool.and_eq_true, decide_eq_true_eq] at holes
      have hnone : Text.Plain noValue := by decide
      have harg : Text.Balanced (Piece.fill arguments (.hole i)) := by
        rw [Piece.fill]
        cases ha : arguments[i]? with
        | none => exact hnone.balanced
        | some a => exact hargs a (List.mem_of_getElem? ha)
      have hback : n.after (Piece.fill [] (.hole i)) = n := (hnone.reads holes.1).after_eq
      rw [hback] at hps
      exact (harg.reads holes.1).trans (ih holes.2 hps)
    | all =>
      rw [holesInCode, Bool.and_eq_true, decide_eq_true_eq] at holes
      have harg : Text.Balanced (Piece.fill arguments .all) :=
        Text.Balanced.intercalate (by decide) hargs
      exact (harg.reads holes.1).trans (ih holes.2 hps)

end Template

namespace Builtin

theorem table_templates : ∀ b ∈ table,
    b.template.holesInCode {} ∧ Text.Balanced (b.template.fill []) := by decide +kernel

theorem table_defaults : ∀ b ∈ table, ∀ p ∈ b.signature.params, ∀ t ∈ p.default,
    Text.Balanced t := by decide +kernel

end Builtin

namespace Text

theorem inherited_balanced : Inherited Balanced where
  site h ht := by
    obtain ⟨hbefore, -, harguments⟩ := callSite?_balanced h
    exact ⟨hbefore, fun u ↦ leading?_balanced h, arguments_balanced harguments,
      callSite?_balanced_after h ht⟩
  default := Callee.defaultAt_holds (by decide) Builtin.table_defaults

theorem written_balanced : Written Balanced where
  append := Balanced.append
  plain ht _ _ := ht.balanced
  enclosed ht := ht.enclosed .round
  template hb h := by
    obtain ⟨holes, hempty⟩ := Builtin.table_templates _ hb
    exact balanced_iff.2 (Template.fill_reads holes (balanced_iff.1 hempty) h)

end Text

namespace Expr

variable {s : Settings} {mode : BindMode} {text : Text} {e : Expr}

def Balanced (e : Expr) : Prop := ∀ nested, Text.Balanced (e.python nested)

theorem Balanced.range {start stop step : Expr} (hstart : start.Balanced) (hstop : stop.Balanced)
    (hstep : step.Balanced) : (range start stop step).Balanced := by
  intro nested
  have hcomma : Text.Balanced ", ".toList := by decide
  have hname : Text.Balanced "range".toList := by decide
  have hlist := (((((hstart true).append hcomma).append (hstop true)).append hcomma).append
    (hstep true)).enclosed .round
  have hall := hname.append hlist
  simpa [Bracket.opening, Bracket.closing] using hall

theorem ofText_balanced (ht : Text.Balanced text) (h : (ofText s mode text).outcome = .ok e) :
    e.Balanced :=
  (ofText_madeOf Text.inherited_balanced rfl ht h).python Text.written_balanced

/-- Where unbalanced texts are refused, what is read and what is written are balanced. -/
theorem ofText_strict (hs : s.strictBrackets) (h : (ofText s mode text).outcome = .ok e) :
    Text.Balanced text ∧ e.Balanced := by
  have ht : Text.Balanced text := by
    cases hsite : Text.callSite? text with
    | none => exact ((ofText_ok_iff_of_none hsite).1 h).1 hs
    | some site => exact ((ofText_ok_iff hsite).1 h).1 hs
  exact ⟨ht, ofText_balanced ht h⟩

end Expr

end CallChain
