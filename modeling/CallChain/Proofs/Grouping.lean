import CallChain.Proofs.Arithmetic
import CallChain.Proofs.CallTree
import CallChain.Proofs.ClearTexts
import CallChain.Proofs.Statements

namespace CallChain

open Arithmetic

inductive Operation
  | add
  | sub
  | mul
  deriving DecidableEq, Repr

namespace Operation

def name : Operation → Text
  | .add => "add".toList
  | .sub => "sub".toList
  | .mul => "mul".toList

def apply : Operation → Int → Int → Int
  | .add => (· + ·)
  | .sub => (· - ·)
  | .mul => (· * ·)

def symbol : Operation → Char
  | .add => '+'
  | .sub => '-'
  | .mul => '*'

/-- The level at which the operator takes its left operand. -/
def left : Operation → Level
  | .add | .sub => .sum
  | .mul => .product

/-- The level at which the operator takes its right operand. For `+` the grouping of the right
operand makes no difference. -/
def right : Operation → Level
  | .add => .sum
  | .sub | .mul => .product

def call (op : Operation) (a b : Text) : Text :=
  '(' :: op.name ++ ")(".toList ++ a ++ ", ".toList ++ b ++ [')']

def written (op : Operation) (a b : Text) : Text :=
  '(' :: a ++ [' ', op.symbol, ' '] ++ b ++ [')']

def builtin (op : Operation) : Builtin :=
  .fixed (String.ofList op.name) [.number, .number] .number
    ["(", 0, .text [' ', op.symbol, ' '], 1, ")"]

theorem ofName_name (op : Operation) : Callee.ofName op.name = .builtin op.builtin := by
  cases op <;> decide +kernel

def function (op : Operation) : FunctionName where
  text := op.name
  valid := by cases op <;> decide +kernel
  unflagged := by cases op <;> rfl

theorem call_eq_chained (op : Operation) (a b : Text) :
    op.call a b = Text.chained [op.name, a ++ ", ".toList ++ b] := by
  simp [call, Text.chained]

end Operation

namespace Arithmetic.Denotes

variable {env : Text → Int} {l l' : Level} {t a b : Text} {v m n : Int}

theorem segments (h : Denotes env l t v) : Text.segments ',' t = [t] :=
  Text.segmentsFrom_of_not_mem (h.not_mem rfl) {}

theorem arguments (ha : Denotes env l a m) (hb : Denotes env l' b n) :
    Text.arguments (a ++ ", ".toList ++ b) = [Text.trim a, Text.trim b] := by
  have hne : ∀ {l : Level} {t : Text} {v : Int}, Denotes env l t v → Text.trim t ≠ [] := by
    intro l t v h hnil
    exact h.trim.not_isBlank (by rw [hnil]; rfl)
  have hb' : Denotes env l' (' ' :: b) n := .spaceBefore rfl hb
  have hjoin : a ++ ", ".toList ++ b = a ++ ',' :: (' ' :: b) := by simp
  rw [hjoin, Text.arguments, Text.segments_append ha.balanced ha.segments (by decide), hb'.segments]
  have htrim : Text.trim (' ' :: b) = Text.trim b := Text.trim_cons_blank rfl b
  simp [htrim, hne ha, hne hb]

theorem not_isString (h : Denotes env l t v) : Literal.isString t = false := by
  rw [Literal.isString]
  split
  · rename_i q hq
    have hmem : q ∈ t := (List.dropWhile_suffix _).subset (List.mem_of_mem_head? hq)
    have hdouble : q ≠ '"' := fun he ↦ h.not_mem (c := '"') rfl (he ▸ hmem)
    have hsingle : q ≠ '\'' := fun he ↦ h.not_mem (c := '\'') rfl (he ▸ hmem)
    simp [hdouble, hsingle]
  · rw [Bool.and_false]

theorem accepts_typeOf (h : Denotes env l t v) : TypeSet.number.accepts (Literal.typeOf t) := by
  have hhead : ∀ c, isArithmeticChar c = false → (Text.trim t).head? ≠ some c := fun c hc he ↦
    h.trim.not_mem hc (List.mem_of_mem_head? he)
  have htrue : Text.trim t ≠ "True".toList := fun he ↦ h.trim.not_isConstant (by rw [he]; decide)
  have hfalse : Text.trim t ≠ "False".toList := fun he ↦
    h.trim.not_isConstant (by rw [he]; decide)
  have hconstant : ¬(decide (Text.trim t = "True".toList) ||
      decide (Text.trim t = "False".toList)) := by
    rw [decide_eq_false htrue, decide_eq_false hfalse]
    exact Bool.false_ne_true
  rw [Literal.typeOf, Literal.trimmedType, if_neg hconstant,
    if_neg (by simp [h.trim.not_isString]), if_neg (by simp [hhead '[' rfl]),
    if_neg (by simp [hhead '{' rfl]), Literal.numberType]
  split
  · rfl
  · split
    · rfl
    · split <;> rfl

theorem ne_placeholder (h : Denotes env l t v) : t ≠ ({} : Settings).placeholder := by
  intro he
  exact h.not_mem (c := '~') rfl (by rw [he]; decide)

theorem isRead (h : Denotes env l t v) : Argument.IsRead {} t ⟨t, .raw t⟩ :=
  ⟨rfl, (Expr.ofText_ok_iff_of_none h.callSite?).2 ⟨fun _ ↦ h.balanced, rfl⟩⟩

end Arithmetic.Denotes

namespace Operation

variable {env : Text → Int} {l l' : Level} {a b : Text} {m n : Int}

theorem check_ok (op : Operation) (ha : Denotes env l a m) (hb : Denotes env l' b n) :
    (Callee.builtin op.builtin).check ({} : Settings).placeholder [a, b] = .ok () := by
  have hfits : op.builtin.signature.fits 2 := rfl
  have hfirst : op.builtin.signature.typesAt 0 = .number := rfl
  have hsecond : op.builtin.signature.typesAt 1 = .number := rfl
  simp [Callee.check, Signature.check, hfits, Signature.argumentFault, hfirst, hsecond,
    ha.accepts_typeOf, hb.accepts_typeOf, List.zipIdx]

theorem ofText_call (op : Operation) (ha : Denotes env l a m) (hb : Denotes env l' b n) :
    (Expr.ofText {} .statement (op.call a b)).outcome =
      .ok (.call (.builtin op.builtin) [.raw (Text.trim a), .raw (Text.trim b)]) := by
  have hcomma : Text.Balanced ", ".toList := by decide
  have hargs : Text.Balanced (a ++ ", ".toList ++ b) :=
    (ha.balanced.append hcomma).append hb.balanced
  have hbalanced : ∀ u ∈ [op.name, a ++ ", ".toList ++ b], Text.Balanced u :=
    List.forall_mem_cons.2 ⟨op.function.balanced, List.forall_mem_singleton.2 hargs⟩
  have hsite := Text.callSite?_chained none op.function.valid op.function.trim_eq hbalanced
  have hcall : (Expr.ofCall {} .statement op.name none
      [⟨Text.trim a, .raw (Text.trim a)⟩, ⟨Text.trim b, .raw (Text.trim b)⟩]).outcome =
        .ok (.call (.builtin op.builtin) [.raw (Text.trim a), .raw (Text.trim b)]) := by
    refine Expr.ofCall_ok_iff.2 ?_
    rw [show Flag.split op.name = (none, op.name) from op.function.split_eq, op.ofName_name,
      Callee.complete_eq]
    · exact ⟨op.check_ok ha.trim hb.trim, rfl⟩
    · exact Nat.le_refl 2
    · exact List.forall_mem_cons.2 ⟨ha.trim.ne_placeholder,
        List.forall_mem_singleton.2 hb.trim.ne_placeholder⟩
  have hread :
      (CallSite.read {} .statement ⟨[], none, op.name, a ++ ", ".toList ++ b, []⟩).outcome =
        .ok (.call (.builtin op.builtin) [.raw (Text.trim a), .raw (Text.trim b)]) := by
    refine CallSite.read_ok_iff.2 ⟨fun _ ↦ hargs, none, _, .nil, ?_, hcall⟩
    rw [show Text.arguments _ = _ from ha.arguments hb]
    exact .cons ha.trim.isRead (.cons hb.trim.isRead .nil)
  rw [call_eq_chained]
  exact (Expr.ofText_ok_iff hsite).2 ⟨fun _ ↦ Text.balanced_chained hbalanced, .raw [], _, hread,
    Expr.ofText_nil _ _, rfl⟩

theorem not_mem_call (op : Operation) (ha : Denotes env l a m) (hb : Denotes env l' b n) {c : Char}
    (hc : isArithmeticChar c = false) (hcomma : c ≠ ',') : c ∉ op.call a b := by
  have hall : (op.name ++ "() ".toList).all isArithmeticChar := by cases op <;> decide +kernel
  intro hmem
  have hcases : c ∈ op.name ++ "() ".toList ∨ c = ',' ∨ c ∈ a ∨ c ∈ b := by
    simp only [call, List.mem_append, List.mem_cons] at hmem
    grind
  obtain h | h | h | h := hcases
  · rw [List.all_eq_true.1 hall c h] at hc
    contradiction
  · exact hcomma h
  · exact ha.not_mem hc h
  · exact hb.not_mem hc h

theorem ofCode_call (op : Operation) (ha : Denotes env l a m) (hb : Denotes env l' b n) :
    (Statement.ofCode {} (op.call a b)).outcome =
      .ok (.expr (.call (.builtin op.builtin) [.raw (Text.trim a), .raw (Text.trim b)])) := by
  have hplain : Statement.ofCode {} (op.call a b) = Statement.ofPlain {} (op.call a b) := rfl
  rw [hplain, Statement.ofPlain, Logged.outcome_bind, op.ofText_call ha hb]
  rfl

theorem python_call (op : Operation) (a b : Text) :
    (Statement.expr (.call (.builtin op.builtin) [.raw a, .raw b])).python = op.written a b := by
  change Template.fill op.builtin.template [a, b] = _
  simp [Template.fill, builtin, Builtin.fixed, Piece.fill, written]

theorem compile_call (op : Operation) (ha : Denotes env l a m) (hb : Denotes env l' b n) :
    (compile {} (op.call a b)).outcome = .ok (op.written (Text.trim a) (Text.trim b)) := by
  have hcode : Text.cutComment (op.call a b) = (op.call a b, none) :=
    Text.cutComment_eq_of_none
      (Text.cutCommentFrom_of_not_mem (op.not_mem_call ha hb rfl (by decide)) {})
  have htrim : Text.trim (op.call a b) = op.call a b := by
    refine Text.trim_eq_self ?_ ?_
    · intro c hc
      cases hc
      decide
    · intro c hc
      rw [call, List.getLast?_concat] at hc
      cases hc
      decide
  rw [compile_line (op.not_mem_call ha hb rfl (by decide)) nofun, hcode, htrim, if_neg nofun,
    op.ofCode_call ha hb]
  exact congrArg Except.ok (op.python_call _ _)

theorem denotes_written (op : Operation) (ha : Denotes env op.left a m)
    (hb : Denotes env op.right b n) : Denotes env .sum (op.written a b) (op.apply m n) := by
  have hspace : ∀ c ∈ [' '], isSpace c := List.forall_mem_singleton.2 rfl
  have hinner : Denotes env .sum (a ++ [' '] ++ op.symbol :: ([' '] ++ b)) (op.apply m n) := by
    cases op with
    | add => exact (ha.spaceAfter rfl).add_sum hspace hb
    | sub => exact .sub (ha.spaceAfter rfl) (hb.spacesBefore hspace)
    | mul => exact .sum ((ha.spaceAfter rfl).mul_product hspace hb)
  have hwritten : op.written a b = '(' :: (a ++ [' '] ++ op.symbol :: ([' '] ++ b)) ++ [')'] := by
    simp [written]
  rw [hwritten]
  exact .sum (.product (.paren hinner))

end Operation

/-- The arguments are written as they stand. The call has the value of the operation where they
bind tight enough for it: a sum may stand on both sides of `+` and on the left of `-`. -/
theorem compile_operation (op : Operation) {env : Text → Int} {a b : Text} {m n : Int}
    (ha : Denotes env .sum a m) (hb : Denotes env .sum b n) :
    (compile {} (op.call a b)).outcome = .ok (op.written (Text.trim a) (Text.trim b)) ∧
      (Denotes env op.left a m → Denotes env op.right b n →
        ∀ v, Denotes env .sum (op.written (Text.trim a) (Text.trim b)) v ↔ v = op.apply m n) := by
  refine ⟨op.compile_call ha hb, fun hleft hright v ↦ ?_⟩
  have hvalue := op.denotes_written hleft.trim hright.trim
  constructor
  · intro hv
    exact hv.unique hvalue
  · rintro rfl
    exact hvalue

theorem compile_operation_grouped :
    let env : Text → Int := fun _ ↦ 3
    Denotes env .sum "x + 1".toList 4 ∧ Denotes env .sum "(y - 1)".toList 2 ∧
    (compile {} "(sub)(x + 1, (y - 1))".toList).outcome = .ok "(x + 1 - (y - 1))".toList ∧
    ∀ v, Denotes env .sum "(x + 1 - (y - 1))".toList v ↔ v = 2 := by
  intro env
  have hx : Denotes env .sum "x + 1".toList 4 :=
    .add (.sum (.product (.spaceAfter rfl (.name (t := ['x']) rfl nofun))))
      (.product (.spaceBefore rfl (.integer (t := ['1']) rfl)))
  have hy : Denotes env .product "(y - 1)".toList 2 :=
    .product (.paren (.sub (.sum (.product (.spaceAfter rfl (.name (t := ['y']) rfl nofun))))
      (.product (.spaceBefore rfl (.integer (t := ['1']) rfl)))))
  obtain ⟨hcompile, hvalue⟩ := compile_operation .sub hx (.sum hy)
  exact ⟨hx, .sum hy, hcompile, hvalue hx hy⟩

/-- A sum loses its grouping next to `*`: `(mul)(x + 1, 2)` multiplies only the `1`. -/
theorem mul_of_sum_ungrouped :
    let env : Text → Int := fun _ ↦ 1
    Denotes env .sum "x + 1".toList 2 ∧ Denotes env .sum "2".toList 2 ∧
    (compile {} "(mul)(x + 1, 2)".toList).outcome = .ok "(x + 1 * 2)".toList ∧
    ¬Denotes env .sum "(x + 1 * 2)".toList (Operation.mul.apply 2 2) := by
  intro env
  have hx : Denotes env .sum ['x', ' '] 1 :=
    .sum (.product (.spaceAfter rfl (.name (t := ['x']) rfl nofun)))
  have hone : Denotes env .atom [' ', '1'] 1 := .spaceBefore rfl (.integer (t := ['1']) rfl)
  have htwo : Denotes env .atom ['2'] 2 := .integer rfl
  have hsum : Denotes env .sum "x + 1".toList 2 := .add hx (.product hone)
  have hproduct : Denotes env .product " 1 * 2".toList 2 :=
    .mul (.product (.spaceAfter rfl hone)) (.spaceBefore rfl htwo)
  have hwritten : Denotes env .sum "(x + 1 * 2)".toList 3 :=
    .sum (.product (.paren (.add hx hproduct)))
  refine ⟨hsum, htwo.toSum, by decide +kernel, fun hfour ↦ ?_⟩
  exact absurd (hwritten.unique hfour) (by decide)

end CallChain
