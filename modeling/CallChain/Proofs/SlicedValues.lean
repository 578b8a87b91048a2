import CallChain.Call
import CallChain.Proofs.MadeOf
import CallChain.Proofs.SlicedCalls
import CallChain.Proofs.Templates

namespace CallChain

/-- The path of a name is split off at the offset of the first character that is no part of one. -/
def Text.isAssignable? (t : Text) : Option Bool := do
  let path := (offsetOf? (fun c ↦ !(isIdentChar c || c = '.')) t).getD (bytes t)
  let k ← cutAt? path t
  return startsIdent k.before && !isConstant k.before && !isKeyword k.before &&
    (k.after.isEmpty || k.after.head? = some '[' && k.after.getLast? = some ']' &&
      (scanSpans {} none (charIndices k.after)).isEmpty)

theorem isEmpty_spansFrom (offset : Nat) (gs : List Group) :
    (spansFrom offset gs).isEmpty = gs.isEmpty := by
  cases gs <;> rfl

theorem Text.isAssignable?_eq (t : Text) : isAssignable? t = some (isAssignable t) := by
  rw [isAssignable?, cutAt?_offsetOf? (fun c ↦ isIdentChar c || c = '.') t, Option.bind_eq_bind,
    Option.bind_some, charIndices, scanSpans_eq, isEmpty_spansFrom]
  rfl

namespace Expr

def isAssignable? : Expr → Option Bool
  | .raw t => Text.isAssignable? t
  | _ => some false

def assignable? : Option Expr → Option (Option Expr)
  | none => some none
  | some e => do return if ← e.isAssignable? then some e else none

theorem assignable?_eq (o : Option Expr) : assignable? o = some (o.filter isAssignable) := by
  cases o with
  | none => rfl
  | some e =>
    have he : e.isAssignable? = some e.isAssignable := by
      cases e with
      | raw t => exact Text.isAssignable?_eq t
      | _ => rfl
    rw [assignable?, he, Option.filter_some]
    rfl

end Expr

def bindTarget? (flag : Option Flag) (leading : Option Argument) (arguments : List Expr) :
    Option (Option Expr) := do
  let bound ← Expr.assignable? (leading.map (·.value))
  match flag with
  | some .bindFirst => Expr.assignable? arguments.head?
  | some .discard => return none
  | none => return bound

theorem bindTarget?_eq (flag : Option Flag) (leading : Option Argument) (arguments : List Expr) :
    bindTarget? flag leading arguments = some (bindTarget flag leading arguments) := by
  rw [bindTarget?, Expr.assignable?_eq, Option.bind_eq_bind, Option.bind_some]
  rcases flag with _ | _ | _
  · rfl
  · exact Expr.assignable?_eq _
  · rfl

def Literal.typeOf? (argument : Text) : Option TypeTag :=
  let t := Text.trim argument
  if t = "True".toList || t = "False".toList then some .bool
  else do
    if ← isString? t then return .str
    else if t.head? = some '[' && Text.closesAtEnd t then return .list
    else if t.head? = some '{' && Text.closesAtEnd t then return .dict
    else return numberType (unsigned t)

theorem Literal.typeOf?_eq (argument : Text) : typeOf? argument = some (typeOf argument) := by
  rw [typeOf?, typeOf, trimmedType]
  split
  · rfl
  · rw [isString?_eq, Option.bind_eq_bind, Option.bind_some]
    split
    · rfl
    · split
      · rfl
      · split <;> rfl

namespace Signature

variable (s : Signature) (function placeholder : Text)

def argumentFault? (position : Nat) (argument : Text) : Option (Option Fault) :=
  if argument = placeholder then some none
  else do
    let found ← Literal.typeOf? argument
    let expected := s.typesAt position
    return if expected.accepts found then none
      else some (.type function (position + 1) argument expected found)

def check? (arguments : List Text) : Option (Except Fault Unit) :=
  if !s.fits arguments.length then
    some (.error (.arity function s.required s.maximum arguments.length))
  else do
    let fault ← arguments.zipIdx.findSomeM? fun p ↦ s.argumentFault? function placeholder p.2 p.1
    return fault.elim (.ok ()) .error

theorem argumentFault?_eq (position : Nat) (argument : Text) :
    s.argumentFault? function placeholder position argument =
      some (s.argumentFault function placeholder position argument) := by
  rw [argumentFault?, argumentFault]
  split
  · rfl
  · rw [Literal.typeOf?_eq]
    rfl

theorem check?_eq (arguments : List Text) :
    s.check? function placeholder arguments = some (s.check function placeholder arguments) := by
  rw [check?, check]
  split
  · rfl
  · have hfind : (arguments.zipIdx.findSomeM? fun p ↦
        s.argumentFault? function placeholder p.2 p.1) =
        some (arguments.zipIdx.findSome? fun p ↦ s.argumentFault function placeholder p.2 p.1) := by
      simp only [argumentFault?_eq]
      exact List.findSomeM?_pure
    rw [hfind, Option.bind_eq_bind, Option.bind_some]
    split
    · rename_i fault heq
      exact congrArg (fun o ↦ some (Option.elim o (Except.ok ()) Except.error)) heq
    · rename_i heq
      exact congrArg (fun o ↦ some (Option.elim o (Except.ok ()) Except.error)) heq

end Signature

def setAt? {α : Type} (i : Nat) (a : α) (l : List α) : Option (List α) :=
  if i < l.length then some (l.set i a) else none

theorem setAt?_append {α : Type} (l : List α) (a b : α) (l' : List α) :
    setAt? l.length b (l ++ a :: l') = some (l ++ b :: l') := by
  rw [setAt?, if_pos (by simp), List.set_append_right _ _ (Nat.le_refl _), Nat.sub_self]
  rfl

namespace Callee

def check? (placeholder : Text) (arguments : List Text) : Callee → Option (Except Fault Unit)
  | .builtin b => b.signature.check? b.name placeholder arguments
  | .named _ => some (.ok ())

theorem check?_eq (placeholder : Text) (arguments : List Text) (callee : Callee) :
    callee.check? placeholder arguments = some (callee.check placeholder arguments) := by
  cases callee with
  | builtin b => exact b.signature.check?_eq b.name placeholder arguments
  | named function => rfl

/-- Puts defaults in the place of arguments that are written as the placeholder, by their
positions. -/
def substitute? (placeholder : Text) (callee : Callee) :
    List (Text × Nat) → List Expr → Option (List Expr)
  | [], values => some values
  | (text, i) :: texts, values =>
    if text = placeholder then do
      callee.substitute? placeholder texts (← setAt? i (.raw (callee.defaultAt i)) values)
    else callee.substitute? placeholder texts values

/-- The given arguments with the defaults of those that are left out behind them, as texts and
values. -/
def complete? (placeholder : Text) (given : List Argument) (callee : Callee) : Option (List Expr) :=
  let missing := (List.range' given.length (callee.paramCount - given.length)).map fun i ↦
    Argument.mk (callee.defaultAt i) (.raw (callee.defaultAt i))
  callee.substitute? placeholder ((given ++ missing).map (·.text)).zipIdx
    ((given ++ missing).map (·.value))

theorem substitute?_eq (placeholder : Text) (callee : Callee) (seen : List Expr)
    (arguments : List Argument) :
    callee.substitute? placeholder ((arguments.map (·.text)).zipIdx seen.length)
        (seen ++ arguments.map (·.value)) =
      some (seen ++ arguments.mapIdx fun i a ↦
        if a.text = placeholder then .raw (callee.defaultAt (seen.length + i)) else a.value) := by
  induction arguments generalizing seen with
  | nil => rfl
  | cons a arguments ih =>
    rw [List.map_cons, List.map_cons, List.zipIdx_cons, substitute?, List.mapIdx_cons, Nat.add_zero]
    have hnext : ∀ e : Expr, callee.substitute? placeholder
        ((arguments.map (·.text)).zipIdx (seen.length + 1))
        (seen ++ e :: arguments.map (·.value)) =
          some (seen ++ e :: arguments.mapIdx fun i a ↦ if a.text = placeholder then
            .raw (callee.defaultAt (seen.length + (i + 1))) else a.value) := by
      intro e
      have h := ih (seen ++ [e])
      simpa [Nat.add_assoc, Nat.add_comm 1] using h
    split
    · rw [setAt?_append]
      exact hnext _
    · exact hnext _

theorem complete?_eq (placeholder : Text) (given : List Argument) (callee : Callee) :
    callee.complete? placeholder given = some (callee.complete placeholder given) := by
  rw [complete?, complete]
  have h := callee.substitute?_eq placeholder [] (given ++
    (List.range' given.length (callee.paramCount - given.length)).map fun i ↦
      Argument.mk (callee.defaultAt i) (.raw (callee.defaultAt i)))
  simp only [List.nil_append, List.length_nil, Nat.zero_add] at h
  rw [h, List.mapIdx_append]
  congr 2
  refine List.ext_getElem (by simp) fun i _ _ ↦ ?_
  simp [Nat.add_comm]

end Callee

namespace Template

open Text

/-- What is written for a template up to the end of its first hole, and the template behind it. -/
def fillFirst? (arguments : List Text) (t : Text) : Option (Text × Option Text) :=
  match offsetOf? (· = '{') t with
  | none => some (t, none)
  | some first => do
    let before ← sliceTo? first t
    let after ← sliceFrom? (first + 1) t
    match offsetOf? (· = '}') after with
    | none => return (before ++ (← sliceFrom? first t), none)
    | some last =>
      let hole ← sliceTo? last after
      let filled ← if hole = ['*'] then some (", ".toList.intercalate arguments)
        else (Piece.position? hole).elim (slice? first (first + last + 2) t) fun i ↦
          some (arguments[i]?.getD noValue)
      return (before ++ filled, some (← sliceFrom? (last + 1) after))

variable {s t hole rest : Text}

theorem fillFirst?_of_not_mem (h : '{' ∉ t) (arguments : List Text) :
    fillFirst? arguments t = some (t, none) := by
  rw [fillFirst?, offsetOf?_char_eq_none h]

theorem fillFirst?_unclosed (hs : '{' ∉ s) (hrest : '}' ∉ rest) (arguments : List Text) :
    fillFirst? arguments (s ++ '{' :: rest) = some (s ++ '{' :: rest, none) := by
  have hafter : sliceFrom? (bytes s + 1) (s ++ '{' :: rest) = some rest :=
    sliceFrom?_append_cons rfl
  rw [fillFirst?, offsetOf?_char_append hs]
  simp only [Option.bind_eq_bind, Option.bind_some, sliceTo?_append, sliceFrom?_append, hafter,
    offsetOf?_char_eq_none hrest]
  rfl

theorem fillFirst?_hole (hs : '{' ∉ s) (hhole : '}' ∉ hole) (arguments : List Text) :
    fillFirst? arguments (s ++ '{' :: (hole ++ '}' :: t)) =
      some (s ++ (Piece.ofHole hole).fill arguments, some t) := by
  have hafter : sliceFrom? (bytes s + 1) (s ++ '{' :: (hole ++ '}' :: t)) =
      some (hole ++ '}' :: t) :=
    sliceFrom?_append_cons rfl
  have hbehind : sliceFrom? (bytes hole + 1) (hole ++ '}' :: t) = some t :=
    sliceFrom?_append_cons rfl
  have hwhole : slice? (bytes s) (bytes s + bytes hole + 2) (s ++ '{' :: (hole ++ '}' :: t)) =
      some ('{' :: hole ++ ['}']) := by
    refine slice?_eq_some_iff.2 ⟨s, t, by simp, rfl, ?_⟩
    have hbraces : '{'.utf8Size = 1 ∧ '}'.utf8Size = 1 := ⟨rfl, rfl⟩
    simp only [bytes_append, bytes_cons, bytes_nil, hbraces.1, hbraces.2]
    omega
  rw [fillFirst?, offsetOf?_char_append hs, Piece.fill_ofHole]
  simp only [Option.bind_eq_bind, Option.bind_some, sliceTo?_append, hafter,
    offsetOf?_char_append hhole, hbehind, hwhole]
  split
  · rfl
  · cases Piece.position? hole with
    | none => rfl
    | some i => rfl

/-- A template is filled up to the end, or up to the end of its first hole. -/
theorem fillFirst?_cases (arguments : List Text) (t : Text) :
    (fillFirst? arguments t = some (t, none) ∧ render t arguments = t) ∨
      ∃ s hole t', t = s ++ '{' :: (hole ++ '}' :: t') ∧ '{' ∉ s ∧ '}' ∉ hole := by
  by_cases hopen : '{' ∈ t
  · obtain ⟨s, u, rfl, hs⟩ := List.eq_append_cons_of_mem hopen
    by_cases hclose : '}' ∈ u
    · obtain ⟨hole, t', rfl, hhole⟩ := List.eq_append_cons_of_mem hclose
      exact .inr ⟨s, hole, t', rfl, hs, hhole⟩
    · refine .inl ⟨fillFirst?_unclosed hs hclose arguments, ?_⟩
      rw [(isClosed_of_not_mem hs).render_append, render_of_not_mem hs, render_unclosed hclose]
  · exact .inl ⟨fillFirst?_of_not_mem hopen arguments, render_of_not_mem hopen arguments⟩

theorem length_of_fillFirst? {arguments : List Text} {filled : Text}
    (h : fillFirst? arguments s = some (filled, some t)) : t.length < s.length := by
  obtain ⟨hall, -⟩ | ⟨s, hole, t', rfl, hs, hhole⟩ := fillFirst?_cases arguments s
  · cases hall.symm.trans h
  · cases (fillFirst?_hole hs hhole arguments).symm.trans h
    simp only [List.length_append, List.length_cons]
    omega

/-- A template is filled hole by hole, by slices of what is left of it. -/
def render? (arguments : List Text) (t : Text) : Option Text :=
  match _h : fillFirst? arguments t with
  | none => none
  | some (filled, none) => some filled
  | some (filled, some rest) => (render? arguments rest).map (filled ++ ·)
termination_by t.length
decreasing_by exact length_of_fillFirst? _h

theorem render?_eq (arguments : List Text) (t : Text) :
    render? arguments t = some (render t arguments) := by
  obtain ⟨hall, hrender⟩ | ⟨s, hole, t', rfl, hs, hhole⟩ := fillFirst?_cases arguments t
  · rw [render?, hrender]
    split <;> simp_all
  · have : t'.length < (s ++ '{' :: (hole ++ '}' :: t')).length := by
      simp only [List.length_append, List.length_cons]
      omega
    have hfirst := fillFirst?_hole (t := t') hs hhole arguments
    rw [render?, (isClosed_of_not_mem hs).render_append, render_of_not_mem hs, render_hole hhole]
    split
    · simp_all
    · simp_all
    · rename_i filled rest h
      cases hfirst.symm.trans h
      rw [render?_eq arguments t', Option.map_some, List.append_assoc]
termination_by t.length

end Template

namespace Callee

def pythonBySlices? (arguments : List Text) : Callee → Option Text
  | .builtin b => Template.render? arguments b.template.written
  | .named function => some (function ++ '(' :: ", ".toList.intercalate arguments ++ [')'])

theorem pythonBySlices?_eq (function : Text) (arguments : List Text) :
    (ofName function).pythonBySlices? arguments = some ((ofName function).python arguments) := by
  rw [ofName]
  cases hb : Builtin.lookup? function with
  | none => rfl
  | some b =>
    have hfill := (Template.render_table (Builtin.mem_of_lookup? hb)).2 arguments
    exact (Template.render?_eq arguments b.template.written).trans (congrArg some hfill)

end Callee

end CallChain
