import CallChain.Proofs.Words
import CallChain.Python
import Mathlib.Data.List.Nodup

namespace CallChain

/-- The functions that are written between their two arguments. -/
inductive Operator
  | add | sub | mul | div | pow | mod
  | eq | ne | gt | lt | ge | le
  | both | either | member
  deriving DecidableEq, Repr

namespace Operator

def name : Operator → Text
  | .add => "add".toList
  | .sub => "sub".toList
  | .mul => "mul".toList
  | .div => "div".toList
  | .pow => "pow".toList
  | .mod => "mod".toList
  | .eq => "eq".toList
  | .ne => "neq".toList
  | .gt => "gt".toList
  | .lt => "lt".toList
  | .ge => "gte".toList
  | .le => "lte".toList
  | .both => "and".toList
  | .either => "or".toList
  | .member => "in".toList

def symbol : Operator → Text
  | .add => "+".toList
  | .sub => "-".toList
  | .mul => "*".toList
  | .div => "/".toList
  | .pow => "**".toList
  | .mod => "%".toList
  | .eq => "==".toList
  | .ne => "!=".toList
  | .gt => ">".toList
  | .lt => "<".toList
  | .ge => ">=".toList
  | .le => "<=".toList
  | .both => "and".toList
  | .either => "or".toList
  | .member => "in".toList

def template (op : Operator) : Template := ["(", 0, .text (' ' :: op.symbol ++ [' ']), 1, ")"]

def all : List Operator :=
  [.add, .sub, .mul, .div, .pow, .mod, .eq, .ne, .gt, .lt, .ge, .le, .both, .either, .member]

theorem mem_all (op : Operator) : op ∈ all := by cases op <;> decide

theorem all_templates : all.all fun op ↦
    (Builtin.lookup? op.name).map Builtin.template = some op.template := by decide +kernel

theorem all_symbols_nodup : (all.map symbol).Nodup := by decide

theorem all_symbols_unspaced : all.all fun op ↦ op.symbol.all (· ≠ ' ') := by decide

theorem symbol_injective : Function.Injective symbol := fun op op' ↦
  List.inj_on_of_nodup_map all_symbols_nodup op.mem_all op'.mem_all

theorem symbol_append {op op' : Operator} {r r' : Text}
    (h : op.symbol ++ ' ' :: r = op'.symbol ++ ' ' :: r') : op = op' ∧ r = r' := by
  have hstop : ∀ (o : Operator) (u : Text),
      (o.symbol ++ ' ' :: u).takeWhile (· ≠ ' ') = o.symbol ∧
        (o.symbol ++ ' ' :: u).dropWhile (· ≠ ' ') = ' ' :: u := fun o u ↦
    Text.takeWhile_append_stop
      (List.all_eq_true.1 (List.all_eq_true.1 all_symbols_unspaced o o.mem_all)) (by simp)
  have hsymbol : op.symbol = op'.symbol := by rw [← (hstop op r).1, h, (hstop op' r').1]
  have hrest : ' ' :: r = ' ' :: r' := by rw [← (hstop op r).2, h, (hstop op' r').2]
  exact ⟨symbol_injective hsymbol, (List.cons.inj hrest).2⟩

def written (op : Operator) (s t : Text) : Text := '(' :: s ++ ' ' :: op.symbol ++ ' ' :: t ++ [')']

theorem written_append (op : Operator) (s t r : Text) :
    op.written s t ++ r = '(' :: (s ++ ' ' :: (op.symbol ++ ' ' :: (t ++ ')' :: r))) := by
  simp [written]

theorem python_call (op : Operator) (a b : Expr) (nested : Bool) :
    (Expr.call (.ofName op.name) [a, b]).python nested =
      op.written (a.python true) (b.python true) := by
  have htemplate := List.all_eq_true.1 all_templates op op.mem_all
  rw [decide_eq_true_eq, Option.map_eq_some_iff] at htemplate
  obtain ⟨builtin, hlookup, htemplate⟩ := htemplate
  rw [Expr.python_call, Expr.pythonAll_eq_map, Callee.ofName, hlookup, Callee.python, htemplate]
  simp [Template.fill, template, Piece.fill, written]

end Operator

def Text.negated (t : Text) : Text := '(' :: "not".toList ++ ' ' :: t ++ [')']

theorem Text.negated_append (t r : Text) :
    negated t ++ r = '(' :: ("not".toList ++ ' ' :: (t ++ ')' :: r)) := by
  simp [negated]

theorem Expr.python_not (a : Expr) (nested : Bool) :
    (call (.ofName "not".toList) [a]).python nested = (a.python true).negated := by
  have htemplate : (Builtin.lookup? "not".toList).map Builtin.template =
      some (["(not ", 0, ")"] : Template) := by
    decide +kernel
  rw [Option.map_eq_some_iff] at htemplate
  obtain ⟨builtin, hlookup, htemplate⟩ := htemplate
  rw [python_call, pythonAll_eq_map, Callee.ofName, hlookup, Callee.python, htemplate]
  simp [Template.fill, Piece.fill, Text.negated]

structure Text.IsOperand (w : Text) : Prop where
  identifier : isIdentifier w
  free : w ∉ ["and", "or", "in", "not"].map String.toList

/-- The text does not go on with a word. -/
def Text.StopsWord (r : Text) : Prop := ∀ c ∈ r.head?, ¬isIdentChar c

theorem Text.stopsWord_cons {c : Char} (h : isIdentChar c = false) (r : Text) :
    StopsWord (c :: r) := by
  rintro d ⟨⟩
  simp [h]

namespace Expr

/-- Calls of operators in each other, of any depth, on names. -/
inductive IsOperation : Expr → Prop
  | operand {w : Text} : w.IsOperand → IsOperation (.raw w)
  | binary (op : Operator) {a b : Expr} : IsOperation a → IsOperation b →
      IsOperation (.call (.ofName op.name) [a, b])
  | negation {a : Expr} : IsOperation a → IsOperation (.call (.ofName "not".toList) [a])

/-- The text can be read as the expression: a name stands for itself, and parentheses hold an
operator between two texts or `not` in front of one. -/
inductive ReadsAs : Text → Expr → Prop
  | operand {w : Text} : w.IsOperand → ReadsAs w (.raw w)
  | binary (op : Operator) {s t : Text} {a b : Expr} : ReadsAs s a → ReadsAs t b →
      ReadsAs (op.written s t) (.call (.ofName op.name) [a, b])
  | negation {t : Text} {a : Expr} : ReadsAs t a →
      ReadsAs t.negated (.call (.ofName "not".toList) [a])

theorem IsOperation.readsAs {e : Expr} (h : IsOperation e) (nested : Bool) :
    ReadsAs (e.python nested) e := by
  induction h generalizing nested with
  | operand hw => exact .operand hw
  | binary op _ _ iha ihb =>
    rw [op.python_call]
    exact .binary op (iha true) (ihb true)
  | negation _ ih =>
    rw [python_not]
    exact .negation (ih true)

namespace ReadsAs

variable {s t r r' w : Text} {a b : Expr}

theorem eq_word (h : ReadsAs t a) (hw : ∀ c ∈ w, isIdentChar c) (hne : w ≠ []) (hr : r.StopsWord)
    (hr' : r'.StopsWord) (heq : t ++ r = w ++ r') : t = w ∧ r = r' ∧ a = .raw w ∧ w.IsOperand := by
  have hopen : ∀ u, '(' :: u ≠ w ++ r' := by
    obtain ⟨c, w, rfl⟩ := List.exists_cons_of_ne_nil hne
    intro u hu
    cases (List.cons.inj hu).1
    exact absurd (hw '(' List.mem_cons_self) (by decide)
  cases h with
  | operand ht =>
    obtain ⟨htake, hdrop⟩ :=
      Text.takeWhile_append_stop (isIdentChar_of_isIdentifier ht.identifier) hr
    obtain ⟨htake', hdrop'⟩ := Text.takeWhile_append_stop hw hr'
    obtain rfl : t = w := by rw [← htake, heq, htake']
    exact ⟨rfl, by rw [← hdrop, heq, hdrop'], rfl, ht⟩
  | binary op _ _ => exact absurd ((op.written_append _ _ r).symm.trans heq) (hopen _)
  | negation _ => exact absurd ((Text.negated_append _ r).symm.trans heq) (hopen _)

theorem eq_operand (h : ReadsAs t a) (hw : w.IsOperand) (hr : r.StopsWord) (hr' : r'.StopsWord)
    (heq : t ++ r = w ++ r') : t = w ∧ r = r' ∧ a = .raw w := by
  have hne : w ≠ [] := by
    rintro rfl
    exact absurd hw.identifier (by decide)
  obtain ⟨ht, hrest, ha, -⟩ := h.eq_word (isIdentChar_of_isIdentifier hw.identifier) hne hr hr' heq
  exact ⟨ht, hrest, ha⟩

theorem written_ne_negated (h : ReadsAs s a) (op : Operator) (t u : Text) :
    op.written s t ++ r ≠ u.negated ++ r' := by
  intro heq
  rw [op.written_append, Text.negated_append, List.cons.injEq] at heq
  have hword : Text.isIdentifier "not".toList := by decide
  obtain ⟨-, -, -, hnot⟩ := h.eq_word (isIdentChar_of_isIdentifier hword) (by decide)
    (Text.stopsWord_cons rfl _) (Text.stopsWord_cons rfl _) heq.2
  exact hnot.free (by decide)

/-- Two readings of one text that each stop at the end of a word stop at the same place. -/
theorem unique (h : ReadsAs s a) (h' : ReadsAs t b) (hr : r.StopsWord) (hr' : r'.StopsWord)
    (heq : s ++ r = t ++ r') : s = t ∧ r = r' ∧ a = b := by
  induction h generalizing t b r r' with
  | operand hw =>
    obtain ⟨rfl, rfl, rfl⟩ := h'.eq_operand hw hr' hr heq.symm
    exact ⟨rfl, rfl, rfl⟩
  | @binary op s₁ s₂ a₁ a₂ h₁ h₂ ih₁ ih₂ =>
    cases h' with
    | operand hw =>
      obtain ⟨-, -, hcall⟩ := (binary op h₁ h₂).eq_operand hw hr hr' heq
      cases hcall
    | binary op' g₁ g₂ =>
      rw [op.written_append, op'.written_append, List.cons.injEq] at heq
      obtain ⟨rfl, hsymbol, rfl⟩ :=
        ih₁ g₁ (Text.stopsWord_cons rfl _) (Text.stopsWord_cons rfl _) heq.2
      obtain ⟨rfl, hright⟩ := Operator.symbol_append (List.cons.inj hsymbol).2
      obtain ⟨rfl, hrest, rfl⟩ :=
        ih₂ g₂ (Text.stopsWord_cons rfl _) (Text.stopsWord_cons rfl _) hright
      exact ⟨rfl, (List.cons.inj hrest).2, rfl⟩
    | negation g => exact absurd heq (h₁.written_ne_negated op _ _)
  | @negation s₁ a₁ h₁ ih =>
    cases h' with
    | operand hw =>
      obtain ⟨-, -, hcall⟩ := (negation h₁).eq_operand hw hr hr' heq
      cases hcall
    | binary op' g₁ g₂ => exact absurd heq.symm (g₁.written_ne_negated op' _ _)
    | negation g =>
      rw [Text.negated_append, Text.negated_append, List.cons.injEq,
        List.append_cancel_left_eq] at heq
      obtain ⟨rfl, hrest, rfl⟩ := ih g (Text.stopsWord_cons rfl _) (Text.stopsWord_cons rfl _)
        (List.cons.inj heq.2).2
      exact ⟨rfl, (List.cons.inj hrest).2, rfl⟩

end ReadsAs

/-- What is written for calls of operators, however deep, is read as these calls and as nothing
else. So different calls are written differently. -/
theorem python_readable {e : Expr} (h : IsOperation e) (nested : Bool) :
    (∀ e', ReadsAs (e.python nested) e' ↔ e' = e) ∧
    ∀ e' nested', IsOperation e' → e'.python nested' = e.python nested → e' = e := by
  have hend : Text.StopsWord [] := by simp [Text.StopsWord]
  have hread : ∀ e', ReadsAs (e.python nested) e' → e' = e := fun e' h' ↦
    (h'.unique (h.readsAs nested) hend hend rfl).2.2
  refine ⟨fun e' ↦ ⟨hread e', ?_⟩, fun e' nested' h' heq ↦ hread e' ?_⟩
  · rintro rfl
    exact h.readsAs nested
  · exact heq ▸ h'.readsAs nested'

theorem python_readable_difference :
    ReadsAs "((a - b) - c)".toList
        (.call (.ofName "sub".toList) [.call (.ofName "sub".toList) [.raw ['a'], .raw ['b']],
          .raw ['c']]) ∧
      ¬ReadsAs "((a - b) - c)".toList
        (.call (.ofName "sub".toList) [.raw ['a'],
          .call (.ofName "sub".toList) [.raw ['b'], .raw ['c']]]) := by
  have ha : IsOperation (.raw ['a']) := .operand ⟨by decide, by decide⟩
  have hb : IsOperation (.raw ['b']) := .operand ⟨by decide, by decide⟩
  have hc : IsOperation (.raw ['c']) := .operand ⟨by decide, by decide⟩
  have hread := (python_readable (.binary .sub (.binary .sub ha hb) hc) false).1
  have htext : (Expr.call (.ofName Operator.sub.name)
      [.call (.ofName Operator.sub.name) [.raw ['a'], .raw ['b']], .raw ['c']]).python false =
        "((a - b) - c)".toList := by
    rw [Operator.python_call, Operator.python_call]
    rfl
  rw [htext] at hread
  refine ⟨(hread _).2 rfl, fun h ↦ ?_⟩
  have harguments := (call.inj ((hread _).1 h)).2
  cases (List.cons.inj harguments).1

end Expr

end CallChain
